import BuddySystem.Call
import BuddySystem.Proofs.Lockstep
import BuddySystem.Proofs.Survey

/-!
# Registries moved up

One registry is another one moved up by `d` frames (`Registry.Shifted`) when its run
lies `d` frames higher and each of its frames has the state of the frame that lies
`d` frames below it.  Links are compared on a set of frames only.  A link from one of
these frames leads to another of them, so a search that starts in the set stays in
it, and what the other frames have for links is never seen.

Moving up by no frames at all is not excluded: then the two registries describe the
same frames and may differ in the links outside of the set.

* `Shifted.locate`: a search comes to the same in both registries.
* `insert_alike`, `remove_alike`, `contains_alike`: the operations on a list do the
  same to both.  A frame that comes into a list comes into the set, just after its
  link has been written.
-/

namespace BuddySystem

variable {d last pfn : Nat} {known : Set Nat}

/-! ### Moving frames up -/

def Block.shift (d : Nat) (b : Block) : Block := ⟨b.pfn + d, b.order⟩

def FreeList.shift (d : Nat) (l : FreeList) : FreeList := { l with head := l.head.map (· + d) }

def Position.shift (d : Nat) : Position → Position
  | .linked prev => .linked (prev.map (· + d))
  | .gap prev next => .gap (prev.map (· + d)) (next.map (· + d))
  | .cycle => .cycle
  | .broken frame => .broken (frame + d)

/-- A block of order `last` or less from `f` on, moved up by `d` frames, ends below the limit.  A
block that stays where it is may end anywhere. -/
def Fits (d last f : Nat) : Prop := d = 0 ∨ f + d + 2 ^ last < Word.limit

theorem map_add_zero (o : Option Nat) : o.map (· + 0) = o := by cases o <;> rfl

theorem FreeList.shift_zero (l : FreeList) : l.shift 0 = l := by
  rw [shift, map_add_zero]

/-- A sum that has room after the move moves up with its first summand. -/
theorem Word.add_shift {x y : Nat} (h : d = 0 ∨ x + d + y < limit) :
    add (x + d) y = (add x y).map (· + d) := by
  rcases h with rfl | h
  · rw [Nat.add_zero]
    cases add x y <;> rfl
  · have hmoved : x + d + y = x + y + d := Nat.add_right_comm x d y
    rw [add_eq_ok_iff.mpr ⟨rfl, h⟩, add_eq_ok_iff.mpr ⟨rfl, by omega⟩, hmoved]
    rfl

namespace Registry

/-- The run and the states of the second registry are those of the first one, `d` frames higher,
and so are the links of the frames in `known`, which lead to such frames again. -/
structure Shifted (d last : Nat) (known : Set Nat) (r r' : Registry) : Prop where
  base : r'.base = r.base + d
  frameCount : r'.frameCount = r.frameCount
  pageSize : r'.pageSize = r.pageSize
  state : ∀ f, (r'.page? (f + d)).map Page.state = (r.page? f).map Page.state
  next : ∀ f ∈ known, r'.next? (f + d) = (r.next? f).map (· + d)
  closed : ∀ f ∈ known, ∀ g ∈ r.next? f, g ∈ known
  fits : ∀ f ∈ known, Fits d last f
  /-- There is room after every frame of the run. -/
  room : ∀ f ∈ r.run, Fits d last f

variable {r r' : Registry} {state : PageState} {next : Option Nat} {f : Nat}

theorem next?_modify_setNext (pfn : Nat) :
    (r.modify pfn (Page.setNext next)).next? f =
      if f = pfn then (r.page? f).bind fun _ => next else r.next? f := by
  rw [next?, page?_modify]
  split
  · exact Option.bind_map
  · rfl

theorem map_state_modify_setNext (pfn : Nat) :
    ((r.modify pfn (Page.setNext next)).page? f).map Page.state = (r.page? f).map Page.state := by
  rw [page?_modify]
  split
  · exact Option.map_map ..
  · rfl

theorem next?_modify_setState (pfn : Nat) :
    (r.modify pfn (Page.setState state)).next? f = r.next? f := by
  rw [next?, page?_modify]
  split
  · exact Option.bind_map
  · rfl

theorem map_state_modify_setState (pfn : Nat) :
    ((r.modify pfn (Page.setState state)).page? f).map Page.state =
      if f = pfn then ((r.page? f).map Page.state).map fun _ => state
      else (r.page? f).map Page.state := by
  rw [page?_modify]
  split
  · rw [Option.map_map, Option.map_map]
    rfl
  · rfl

namespace Shifted

/-! ### Reading -/

/-- A test that looks at states comes out the same. -/
theorem any_state (h : r.Shifted d last known r') (q : PageState → Bool) (f : Nat) :
    (r'.page? (f + d)).any (fun page => q page.state) =
      (r.page? f).any fun page => q page.state := by
  have hstate := congrArg (Option.any q) (h.state f)
  rw [Option.any_map, Option.any_map] at hstate
  exact hstate

theorem has (h : r.Shifted d last known r') (f : Nat) : r'.has (f + d) = r.has f := by
  have hstate := congrArg Option.isSome (h.state f)
  rw [Option.isSome_map, Option.isSome_map] at hstate
  exact hstate

theorem contains (h : r.Shifted d last known r') (f : Nat) :
    r'.contains (f + d) = r.contains f := by
  rw [Bool.eq_iff_iff, contains_iff, contains_iff, mem_run, mem_run, h.base, h.frameCount]
  omega

theorem firstFree? (h : r.Shifted d last known r') : ∀ (count pfn : Nat),
    r'.firstFree? count (pfn + d) = (r.firstFree? count pfn).map (· + d) := by
  intro count
  induction count with
  | zero => exact fun _ => rfl
  | succ count ih =>
    intro pfn
    have hfree : (r'.page? (pfn + d)).any Page.isFree = (r.page? pfn).any Page.isFree :=
      h.any_state (fun state => state = .free) pfn
    rw [Registry.firstFree?, Registry.firstFree?, hfree, Nat.add_right_comm, ih]
    split <;> rfl

theorem firstNotAllocated? (h : r.Shifted d last known r') : ∀ (count pfn : Nat),
    r'.firstNotAllocated? count (pfn + d) = (r.firstNotAllocated? count pfn).map (· + d) := by
  intro count
  induction count with
  | zero => exact fun _ => rfl
  | succ count ih =>
    intro pfn
    have hfree : ((r'.page? (pfn + d)).any fun page => !page.isFree) =
        (r.page? pfn).any fun page => !page.isFree :=
      h.any_state (fun state => !decide (state = .free)) pfn
    rw [Registry.firstNotAllocated?, Registry.firstNotAllocated?, hfree, Nat.add_right_comm, ih]
    split <;> rfl

theorem chain (h : r.Shifted d last known r') : ∀ (budget : Nat) (start : Option Nat),
    (∀ p ∈ start, p ∈ known) →
    r'.chain budget (start.map (· + d)) = (r.chain budget start).map (· + d) := by
  intro budget
  induction budget with
  | zero => exact fun _ _ => rfl
  | succ budget ih =>
    intro start hstart
    cases start with
    | none => rfl
    | some pfn =>
      have hpfn := hstart pfn rfl
      rw [Option.map_some, Registry.chain, Registry.chain, h.next pfn hpfn,
        ih _ (h.closed pfn hpfn)]
      rfl

/-! ### Writing -/

/-- **A link is written in both.**  Its frame may be a new one, and then joins those that are
compared. -/
theorem setNext (h : r.Shifted d last known r') (hpfn : Fits d last pfn) (next : Option Nat)
    (hnext : ∀ g ∈ next, g ∈ insert pfn known) :
    (r.modify pfn (Page.setNext next)).Shifted d last (insert pfn known)
      (r'.modify (pfn + d) (Page.setNext (next.map (· + d)))) := by
  constructor
  · rw [base_modify, base_modify, h.base]
  · rw [frameCount_modify, frameCount_modify, h.frameCount]
  · rw [pageSize_modify, pageSize_modify, h.pageSize]
  · intro f
    rw [map_state_modify_setNext, map_state_modify_setNext, h.state]
  · intro f hf
    rw [next?_modify_setNext, next?_modify_setNext]
    by_cases he : f = pfn
    · have hhas := h.has f
      unfold Registry.has at hhas
      rw [if_pos he, if_pos (by omega)]
      cases hp : r.page? f <;> cases hp' : r'.page? (f + d) <;> rw [hp, hp'] at hhas
      · rfl
      · cases hhas
      · cases hhas
      · rfl
    · rw [if_neg he, if_neg (by omega)]
      exact h.next f (hf.resolve_left he)
  · intro f hf g hg
    rw [next?_modify_setNext] at hg
    by_cases he : f = pfn
    · rw [if_pos he] at hg
      obtain ⟨_, _, hg⟩ := Option.bind_eq_some_iff.mp hg
      exact hnext g hg
    · rw [if_neg he] at hg
      exact Set.mem_insert_of_mem _ (h.closed f (hf.resolve_left he) g hg)
  · intro f hf
    rcases hf with rfl | hf
    · exact hpfn
    · exact h.fits f hf
  · rw [run_modify]
    exact h.room

theorem setState (h : r.Shifted d last known r') (pfn : Nat) (state : PageState) :
    (r.modify pfn (Page.setState state)).Shifted d last known
      (r'.modify (pfn + d) (Page.setState state)) := by
  constructor
  · rw [base_modify, base_modify, h.base]
  · rw [frameCount_modify, frameCount_modify, h.frameCount]
  · rw [pageSize_modify, pageSize_modify, h.pageSize]
  · intro f
    rw [map_state_modify_setState, map_state_modify_setState, h.state]
    by_cases he : f = pfn
    · rw [if_pos he, if_pos (by omega)]
    · rw [if_neg he, if_neg (by omega)]
  · intro f hf
    rw [next?_modify_setState, next?_modify_setState]
    exact h.next f hf
  · intro f hf
    rw [next?_modify_setState]
    exact h.closed f hf
  · exact h.fits
  · rw [run_modify]
    exact h.room

/-- A state is written into both runs up to the same place. -/
theorem mark (state : PageState) : ∀ (count pfn : Nat) {r r' : Registry},
    r.Shifted d last known r' →
    (Registry.mark state count pfn r).1.Shifted d last known
        (Registry.mark state count (pfn + d) r').1 ∧
      (Registry.mark state count (pfn + d) r').2 =
        (Registry.mark state count pfn r).2.map (· + d) := by
  intro count
  induction count with
  | zero => exact fun _ _ _ h => ⟨h, rfl⟩
  | succ count ih =>
    intro pfn r r' h
    rw [Registry.mark, Registry.mark, h.has, Nat.add_right_comm]
    by_cases hp : r.has pfn
    · rw [if_pos hp, if_pos hp]
      exact ih (pfn + 1) (h.setState pfn state)
    · rw [if_neg hp, if_neg hp]
      exact ⟨h, rfl⟩

end Shifted

end Registry

/-! ### Searching -/

/-- The frames that a search for `pfn` comes upon are in `known`. -/
def Position.Within (known : Set Nat) (pfn : Nat) : Position → Prop
  | .linked prev => pfn ∈ known ∧ ∀ p ∈ prev, p ∈ known
  | .gap prev next => (∀ p ∈ prev, p ∈ known) ∧ ∀ p ∈ next, p ∈ known
  | .cycle | .broken _ => True

/-- **A search that starts in the set comes to the same in both registries**, and stays in the
set. -/
theorem Registry.Shifted.locate {r r' : Registry} (h : r.Shifted d last known r') (pfn : Nat) :
    ∀ (budget : Nat) (prev start : Option Nat),
    (∀ p ∈ prev, p ∈ known) → (∀ p ∈ start, p ∈ known) →
    r'.locate (pfn + d) budget (prev.map (· + d)) (start.map (· + d)) =
        (r.locate pfn budget prev start).shift d ∧
      (r.locate pfn budget prev start).Within known pfn := by
  intro budget
  induction budget with
  | zero =>
    intro prev start hprev hstart
    cases start with
    | none => exact ⟨rfl, hprev, hstart⟩
    | some frame => exact ⟨rfl, trivial⟩
  | succ budget ih =>
    intro prev start hprev hstart
    cases start with
    | none => exact ⟨rfl, hprev, hstart⟩
    | some frame =>
      have hframe := hstart frame rfl
      rw [Option.map_some, Registry.locate, Registry.locate]
      by_cases heq : frame = pfn
      · rw [if_pos heq, if_pos (by omega)]
        exact ⟨rfl, heq ▸ hframe, hprev⟩
      rw [if_neg heq, if_neg (by omega : frame + d ≠ pfn + d)]
      by_cases hlt : pfn < frame
      · rw [if_pos hlt, if_pos (by omega)]
        exact ⟨rfl, hprev, hstart⟩
      rw [if_neg hlt, if_neg (by omega)]
      have hhas := h.has frame
      have hnext := h.next frame hframe
      have hclosed := h.closed frame hframe
      unfold Registry.has at hhas
      unfold Registry.next? at hnext hclosed
      cases hpage : r.page? frame <;> cases hpage' : r'.page? (frame + d) <;>
        rw [hpage, hpage'] at hhas
      · exact ⟨rfl, trivial⟩
      · cases hhas
      · cases hhas
      · rename_i page page'
        rw [hpage, hpage', Option.bind_some, Option.bind_some] at hnext
        rw [hpage, Option.bind_some] at hclosed
        have hsome : ∀ p ∈ some frame, p ∈ known := fun p hp => Option.some.inj hp ▸ hframe
        obtain ⟨hlocate, hwithin⟩ := ih (some frame) page.nextFree hsome hclosed
        dsimp only
        rw [hnext]
        exact ⟨hlocate, hwithin⟩

namespace Threaded

/-- The second list is the first one moved up, and its links are among those compared. -/
structure Shifted (d last : Nat) (known : Set Nat) (t t' : Threaded) : Prop where
  registry : t.registry.Shifted d last known t'.registry
  list : t'.list = t.list.shift d
  head : ∀ p ∈ t.list.head, p ∈ known

variable {t t' : Threaded} {prev next : Option Nat}

/-- What the search for a frame comes to, in both lists. -/
theorem Shifted.locate (h : t.Shifted d last known t') (pfn : Nat) :
    t'.locate (pfn + d) = (t.locate pfn).shift d ∧ (t.locate pfn).Within known pfn := by
  unfold Threaded.locate
  rw [h.list]
  exact h.registry.locate pfn _ none _ (fun _ hp => nomatch hp) h.head

theorem Shifted.relink (h : t.Shifted d last known t') (hprev : ∀ p ∈ prev, p ∈ known)
    (hnext : ∀ p ∈ next, p ∈ known) :
    (t.relink prev next).Shifted d last known
      (t'.relink (prev.map (· + d)) (next.map (· + d))) := by
  cases prev with
  | none =>
    refine ⟨h.registry, ?_, hnext⟩
    rw [Option.map_none, Threaded.relink, Threaded.relink, h.list]
    rfl
  | some frame =>
    have hframe := hprev frame rfl
    have hset := h.registry.setNext (h.registry.fits frame hframe) next fun g hg =>
      Set.mem_insert_of_mem _ (hnext g hg)
    rw [Set.insert_eq_of_mem hframe] at hset
    exact ⟨hset, h.list, h.head⟩

theorem Shifted.link (h : t.Shifted d last known t') (hpfn : Fits d last pfn)
    (hprev : ∀ p ∈ prev, p ∈ known) (hnext : ∀ p ∈ next, p ∈ known) :
    (t.link pfn prev next).Shifted d last (insert pfn known)
      (t'.link (pfn + d) (prev.map (· + d)) (next.map (· + d))) := by
  have hset := h.registry.setNext hpfn next fun g hg =>
    Set.mem_insert_of_mem _ (hnext g hg)
  have hfirst : ∀ p ∈ some pfn, p ∈ insert pfn known := fun p hp =>
    Option.some.inj hp ▸ Set.mem_insert _ _
  refine relink ⟨hset, h.list, fun p hp => ?_⟩ (fun p hp => ?_) hfirst
  · exact Set.mem_insert_of_mem _ (h.head p hp)
  · exact Set.mem_insert_of_mem _ (hprev p hp)

theorem Shifted.unlink (h : t.Shifted d last known t') (hpfn : pfn ∈ known)
    (hprev : ∀ p ∈ prev, p ∈ known) :
    (t.unlink pfn prev).Shifted d last known (t'.unlink (pfn + d) (prev.map (· + d))) := by
  have hset := h.registry.setNext (h.registry.fits pfn hpfn) none fun g hg => nomatch hg
  rw [Set.insert_eq_of_mem hpfn] at hset
  unfold Threaded.unlink
  rw [h.registry.next pfn hpfn]
  exact relink ⟨hset, h.list, h.head⟩ hprev (h.registry.closed pfn hpfn)

theorem Shifted.setLen (h : t.Shifted d last known t') (len : Nat) :
    (t.setLen len).Shifted d last known (t'.setLen len) :=
  ⟨h.registry, by rw [Threaded.setLen, Threaded.setLen, h.list]; rfl, h.head⟩

theorem Shifted.len (h : t.Shifted d last known t') : t'.list.len = t.list.len := by
  rw [h.list]
  rfl

/-- The lists are moved copies as far as the links of `K` and of some more frames go. -/
def Twins (d last : Nat) (K : Set Nat) (t t' : Threaded) : Prop :=
  ∃ known, K ⊆ known ∧ t.Shifted d last known t'

theorem Shifted.twins (h : t.Shifted d last known t') : t.Twins d last known t' :=
  ⟨known, Set.Subset.refl known, h⟩

end Threaded

namespace FreeList

variable {K : Set Nat}

/-- A search changes nothing, so what it comes to can be told apart. -/
theorem search_alike {α : Type} {k k' : Position → Op Threaded α} {φ : α → α → Prop}
    (h : ∀ position, position.Within known pfn →
      Op.Alike (d = 0) (Threaded.Shifted d last known) (k position) (k' (position.shift d)) φ
        (Threaded.Twins d last known)) :
    Op.Alike (d = 0) (Threaded.Shifted d last known) (Op.query (·.locate pfn) >>= k)
      (Op.query (·.locate (pfn + d)) >>= k') φ (Threaded.Twins d last known) := by
  have hlocate : Op.Alike (d = 0) (Threaded.Shifted d last known) (Op.query (·.locate pfn))
      (Op.query (·.locate (pfn + d)))
      (fun position position' => position' = position.shift d ∧ position.Within known pfn)
      (Threaded.Shifted d last known) :=
    Op.alike_query fun _ _ h => h.locate pfn
  refine Op.alike_bind hlocate (fun _ _ h => h.twins) ?_
  rintro position _ ⟨rfl, hwithin⟩
  exact h position hwithin

theorem answer_alike {φ : Bool → Bool → Prop} {yes : Bool} (h : φ yes yes) :
    Op.Alike (d = 0) (Threaded.Shifted d last known) (pure yes) (pure yes) φ
      (Threaded.Twins d last known) :=
  (Op.alike_pure h).mono (fun _ _ h => h) (fun _ _ h => h) fun _ _ h => h.twins

theorem complain_alike {φ : Bool → Bool → Prop} {yes : Bool} {event event' : Event}
    (hevent : d = 0 → event' = event) (h : φ yes yes) :
    Op.Alike (d = 0) (Threaded.Shifted d last known) (do Op.log event; return yes)
      (do Op.log event'; return yes) φ (Threaded.Twins d last known) :=
  Op.alike_bind (Op.alike_log hevent) (fun _ _ h => h.twins) fun _ _ _ => answer_alike h

/-- Both lists are given a new length, computed from the old one. -/
theorem recount_alike (f : Nat → Except Fault Nat) :
    Op.Alike (d = 0) (Threaded.Twins d last K)
      (do
        let len ← Op.compute fun t : Threaded => f t.list.len
        Op.modify (Threaded.setLen len)
        return true)
      (do
        let len ← Op.compute fun t : Threaded => f t.list.len
        Op.modify (Threaded.setLen len)
        return true)
      (fun yes yes' => yes' = yes) (Threaded.Twins d last K) := by
  have hlen : Op.Alike (d = 0) (Threaded.Twins d last K)
      (Op.compute fun t : Threaded => f t.list.len) (Op.compute fun t : Threaded => f t.list.len)
      (fun len len' => len' = len) (Threaded.Twins d last K) := by
    refine Op.alike_compute_same ?_
    rintro s t ⟨known, _, h⟩
    rw [h.len]
  refine hlen.bind ?_
  rintro _ n rfl
  refine Op.Alike.bind (Op.alike_modify ?_) fun _ _ _ => Op.alike_pure rfl
  rintro s t ⟨known, hK, h⟩
  exact ⟨known, hK, h.setLen n⟩

/-- **A frame comes into both lists, or into neither.** -/
theorem insert_alike (pfn : Nat) :
    Op.Alike (d = 0) (Threaded.Shifted d last known) (insert pfn) (insert (pfn + d))
      (fun yes yes' => yes' = yes) (Threaded.Twins d last known) := by
  refine search_alike fun position hwithin => ?_
  cases position with
  | linked prev => exact answer_alike rfl
  | cycle => exact complain_alike (fun hd => by rw [hd]; rfl) rfl
  | broken frame => exact complain_alike (fun hd => by rw [hd]; rfl) rfl
  | gap prev next =>
    refine Op.alike_branch (fun _ _ h => h.registry.has pfn) ?_ (answer_alike rfl)
    refine Op.alike_bind (Op.alike_modify ?_) (fun _ _ h => h) fun _ _ _ =>
      recount_alike fun n => Word.add n 1
    rintro s t ⟨h, hhas⟩
    have hroom := h.registry.room pfn (Registry.has_iff.mp hhas).1
    exact ⟨_, Set.subset_insert _ _, h.link hroom hwithin.1 hwithin.2⟩

/-- **A frame is taken out of both lists, or of neither.** -/
theorem remove_alike (pfn : Nat) :
    Op.Alike (d = 0) (Threaded.Shifted d last known) (remove pfn) (remove (pfn + d))
      (fun yes yes' => yes' = yes) (Threaded.Twins d last known) := by
  refine search_alike fun position hwithin => ?_
  cases position with
  | gap prev next => exact answer_alike rfl
  | broken frame => exact answer_alike rfl
  | cycle => exact complain_alike (fun hd => by rw [hd]; rfl) rfl
  | linked prev =>
    refine Op.alike_branch (fun _ _ h => h.registry.has pfn) ?_ (answer_alike rfl)
    refine Op.alike_bind (Op.alike_modify ?_) (fun _ _ h => h) fun _ _ _ =>
      recount_alike fun n => Word.sub n 1
    rintro s t ⟨h, _⟩
    exact (h.unlink hwithin.1 hwithin.2).twins

/-- **A frame is found in both lists, or in neither.**  There is room after a frame that is
found. -/
theorem contains_alike (pfn : Nat) :
    Op.Alike (d = 0) (Threaded.Shifted d last known) (contains pfn) (contains (pfn + d))
      (fun yes yes' => yes' = yes ∧ (yes = true → Fits d last pfn))
      (Threaded.Twins d last known) := by
  refine search_alike fun position hwithin => ?_
  cases position with
  | gap prev next => exact answer_alike ⟨rfl, fun hyes => nomatch hyes⟩
  | broken frame => exact answer_alike ⟨rfl, fun hyes => nomatch hyes⟩
  | cycle =>
    exact complain_alike (fun hd => by rw [hd]; rfl) ⟨rfl, fun hyes => nomatch hyes⟩
  | linked prev =>
    intro v s t h
    have hroom := h.registry.fits pfn hwithin.1
    exact answer_alike ⟨rfl, fun _ => hroom⟩ v s t h

end FreeList

end BuddySystem
