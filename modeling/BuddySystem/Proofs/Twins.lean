import BuddySystem.Proofs.Shifting
import BuddySystem.Proofs.Stock
import Mathlib.Data.Nat.Bitwise

/-!
# Allocators moved up

Two allocators are twins (`Allocator.Twins`) when the second one is the first one
moved up by `d` frames, as far as an allocator ever looks: the run, the states, the
lists and the numbers agree, and so do the links of the frames that are or were in a
list.  A call and the same call about frames `d` higher do the same to twins and
leave twins (`perform_alike`).

Sums that one of the twins can form the other can form as well, because there is room
for a block of the largest order after the last frame of either.  Where there is no
room after a frame, it has no descriptor, and both twins refuse it, though not always
in the same words.

If `d` is zero, nothing has to fit, and twins answer, fault and record events all the
same.
-/

namespace BuddySystem

def Grant.shift (d : Nat) (g : Grant) : Grant := { g with toBlock := g.toBlock.shift d }

/-- The call about frames `d` higher. -/
def Call.shift (d : Nat) : Call → Call
  | .insert start count => .insert (start + d) count
  | .remove start count => .remove (start + d) count
  | .free block => .free (block.shift d)
  | .holds block => .holds (block.shift d)
  | call => call

/-- The reply about frames `d` higher. -/
def Reply.shift (d : Nat) : Reply → Reply
  | .moved blocks => .moved (blocks.map (Block.shift d))
  | .granted grant => .granted (grant.shift d)
  | .heads pfns => .heads (pfns.map (· + d))
  | reply => reply

/-- The call can be made `d` frames higher: it does not ask for addresses, and a run that it is
about ends below the limit. -/
def Call.Movable (d : Nat) : Call → Prop
  | .insert start count | .remove start count => start + d + count < Word.limit
  | .dump | .logDump => False
  | _ => True

instance (d : Nat) : DecidablePred (Call.Movable d)
  | .insert start count => inferInstanceAs (Decidable (start + d + count < Word.limit))
  | .remove start count => inferInstanceAs (Decidable (start + d + count < Word.limit))
  | .dump | .logDump => .isFalse id
  | .allocate .. | .free _ | .totalFree | .lastOrder | .blockCount _ | .heads _ | .holds _
  | .stats => .isTrue trivial

variable {d last o order pfn : Nat} {K known : Set Nat} {b : Block}

/-! ### Blocks and room -/

theorem Fits.mono {o f : Nat} (h : Fits d last f) (ho : 2 ^ o + pfn ≤ 2 ^ last + f) :
    Fits d o pfn :=
  h.imp_right fun h => by omega

theorem Fits.of_le {o : Nat} (h : Fits d last pfn) (ho : o ≤ last) : Fits d o pfn :=
  h.mono (Nat.add_le_add_right (Nat.pow_le_pow_right (by omega) ho) pfn)

theorem Word.sub_shift (d x y : Nat) : sub (x + d) (y + d) = sub x y := by
  unfold sub
  rw [Nat.add_sub_add_right]
  by_cases h : y ≤ x
  · rw [if_pos h, if_pos (Nat.add_le_add_right h d)]
  · rw [if_neg h, if_neg fun hle => h (Nat.le_of_add_le_add_right hle)]

theorem xor_le_add (x y : Nat) : x ^^^ y ≤ x + y := by
  induction x using Nat.strongRecOn generalizing y with
  | ind x ih =>
    by_cases hx : x = 0
    · simp [hx]
    have hhalves := ih (x / 2) (by omega) (y / 2)
    have hdiv : (x ^^^ y) / 2 = x / 2 ^^^ y / 2 := Nat.xor_div_two
    have hmod : (x ^^^ y) % 2 = (x + y) % 2 := Nat.xor_mod_two_eq
    omega

namespace Block

@[simp] theorem pfn_shift (d : Nat) (b : Block) : (b.shift d).pfn = b.pfn + d := rfl

@[simp] theorem order_shift (d : Nat) (b : Block) : (b.shift d).order = b.order := rfl

@[simp] theorem size_shift (d : Nat) (b : Block) : (b.shift d).size = b.size := rfl

theorem isAligned_shift (d base : Nat) (b : Block) :
    (b.shift d).isAligned (base + d) = b.isAligned base := by
  unfold isAligned
  rw [pfn_shift, size_shift, Nat.add_sub_add_right]
  congr 1
  exact decide_eq_decide.mpr (Nat.add_le_add_iff_right)

theorem buddyOf_shift {base : Nat} (h : Fits d b.order b.pfn) :
    (b.shift d).buddyOf (base + d) = (b.buddyOf base).map (shift d) := by
  unfold buddyOf
  rw [pfn_shift, size_shift, Word.sub_shift]
  cases hsub : Word.sub b.pfn base with
  | error fault => rfl
  | ok offset =>
    obtain ⟨hle, rfl⟩ := Word.sub_eq_ok_iff.mp hsub
    have hxor := xor_le_add (b.pfn - base) b.size
    have hadd : Word.add (base + d) ((b.pfn - base) ^^^ b.size) =
        (Word.add base ((b.pfn - base) ^^^ b.size)).map (· + d) := by
      refine Word.add_shift (h.imp_right fun h => ?_)
      rw [← size_eq] at h
      omega
    change (Word.add (base + d) _ >>= fun pfn => pure ({ b.shift d with pfn } : Block)) =
      (Word.add base _ >>= fun pfn => pure ({ b with pfn } : Block)).map (shift d)
    rw [hadd]
    cases Word.add base ((b.pfn - base) ^^^ b.size) <;> rfl

end Block

namespace Allocator

variable {a a' : Allocator} {α : Type}

/-- The second allocator is the first one moved up, and its links are among those compared. -/
structure Shifted (d last : Nat) (known : Set Nat) (a a' : Allocator) : Prop where
  registry : a.registry.Shifted d last known a'.registry
  list : ∀ o, a'.list o = (a.list o).shift d
  head : ∀ o, ∀ p ∈ (a.list o).head, p ∈ known
  lastOrder : a.lastOrder = last
  lastOrder_eq : a'.lastOrder = last
  totalFree : a'.totalFree = a.totalFree
  counters : a'.counters = a.counters

/-- The allocators are moved copies as far as the links of `K` and of some more frames go. -/
def Twins (d last : Nat) (K : Set Nat) (a a' : Allocator) : Prop :=
  ∃ known, K ⊆ known ∧ a.Shifted d last known a'

/-- Twins stay twins, and `φ` relates what the operations answer. -/
abbrev Paired (d last : Nat) (K : Set Nat) (x y : Op Allocator α) (φ : α → α → Prop) : Prop :=
  Op.Alike (d = 0) (Twins d last K) x y φ (Twins d last K)

/-! ### Looking at twins -/

theorem Shifted.threaded (h : a.Shifted d last known a') (o : Nat) :
    (a.threaded o).Shifted d last known (a'.threaded o) :=
  ⟨h.registry, h.list o, h.head o⟩

theorem Shifted.base (h : a.Shifted d last known a') : a'.base = a.base + d := h.registry.base

theorem Shifted.heads (h : a.Shifted d last known a') (o : Nat) :
    a'.heads o = (a.heads o).map (· + d) := by
  unfold Allocator.heads FreeList.heads FreeList.headsUpTo
  rw [h.list, h.registry.frameCount]
  exact h.registry.chain _ _ (h.head o)

theorem Shifted.blockCount (h : a.Shifted d last known a') (o : Nat) :
    a'.blockCount o = a.blockCount o := by
  unfold Allocator.blockCount
  rw [h.list, h.lastOrder, h.lastOrder_eq]
  rfl

theorem Shifted.stats (h : a.Shifted d last known a') : a'.stats = a.stats := by
  have hcounts : (fun i : Fin (maxOrder + 1) => a'.blockCount i) =
      fun i : Fin (maxOrder + 1) => a.blockCount i :=
    funext fun i => h.blockCount i
  unfold Allocator.stats
  rw [h.counters, h.totalFree, hcounts]

theorem Shifted.lowestFrom? (h : a.Shifted d last known a') : ∀ (orders order : Nat),
    a'.lowestFrom? orders order = (a.lowestFrom? orders order).map (Block.shift d) ∧
      ∀ b ∈ a.lowestFrom? orders order, b.pfn ∈ known ∧ order ≤ b.order ∧
        b.order < order + orders := by
  intro orders
  induction orders with
  | zero => exact fun _ => ⟨rfl, fun b hb => nomatch hb⟩
  | succ orders ih =>
    intro order
    rw [Allocator.lowestFrom?, Allocator.lowestFrom?, h.list]
    have hhead := h.head order
    unfold FreeList.shift
    cases hl : (a.list order).head with
    | none =>
      obtain ⟨heq, hmem⟩ := ih (order + 1)
      refine ⟨heq, fun b hb => ?_⟩
      obtain ⟨h1, h2, h3⟩ := hmem b hb
      exact ⟨h1, by omega, by omega⟩
    | some pfn =>
      refine ⟨rfl, fun b hb => ?_⟩
      obtain rfl := Option.some.inj hb
      exact ⟨hhead pfn hl, Nat.le_refl _, Nat.lt_add_of_pos_right (Nat.succ_pos _)⟩

/-- The search for the lowest block finds the same one, and there is room after it. -/
theorem Shifted.lowest? (h : a.Shifted d last known a') (order : Nat) :
    a'.lowest? order = (a.lowest? order).map (Block.shift d) ∧
      ∀ b ∈ a.lowest? order, order ≤ b.order ∧ Fits d b.order b.pfn := by
  unfold Allocator.lowest?
  rw [h.lastOrder, h.lastOrder_eq]
  obtain ⟨heq, hmem⟩ := h.lowestFrom? (last + 1 - order) order
  refine ⟨heq, fun b hb => ?_⟩
  obtain ⟨hknown, hle, hlt⟩ := hmem b hb
  exact ⟨hle, (h.registry.fits _ hknown).of_le (by omega)⟩

/-! ### Operations on parts -/

theorem list_setList_of_lt {t : Threaded} (ho : maxOrder < order) :
    (a.setList order t).list o = a.list o := by
  have hlists : a.lists.setIfInBounds order t.list = a.lists :=
    Vector.setIfInBounds_eq_of_size_le (by omega)
  rw [list, setList, hlists, list]

theorem Shifted.setList {t t' : Threaded} (h : a.Shifted d last known a') {known' : Set Nat}
    (hsub : known ⊆ known') (ht : t.Shifted d last known' t') :
    (a.setList order t).Shifted d last known' (a'.setList order t') where
  registry := ht.registry
  list := by
    intro o
    by_cases ho : order ≤ maxOrder
    · rw [list_setList ho, list_setList ho]
      split
      · exact ht.list
      · exact h.list o
    · rw [list_setList_of_lt (by omega), list_setList_of_lt (by omega)]
      exact h.list o
  head := by
    intro o p hp
    by_cases ho : order ≤ maxOrder
    · rw [list_setList ho] at hp
      split at hp
      · exact ht.head p hp
      · exact hsub (h.head o p hp)
    · rw [list_setList_of_lt (by omega)] at hp
      exact hsub (h.head o p hp)
  lastOrder := h.lastOrder
  lastOrder_eq := h.lastOrder_eq
  totalFree := h.totalFree
  counters := h.counters

/-- **What is done alike to two lists is done alike to the allocators.** -/
theorem onList_alike {op op' : Op Threaded α} {φ : α → α → Prop}
    (hop : ∀ known, Op.Alike (d = 0) (Threaded.Shifted d last known) op op' φ
      (Threaded.Twins d last known)) :
    Paired d last K (onList order op) (onList order op') φ := by
  rintro v a a' ⟨known, hK, h⟩
  -- The operation may add a frame to those compared; the other lists lead to the old ones only.
  obtain ⟨hvalue, ⟨known', hsub, ht⟩, hevents⟩ := hop known v _ _ (h.threaded order)
  rw [onList_apply, onList_apply]
  exact ⟨hvalue, ⟨known', hK.trans hsub, h.setList hsub ht⟩, hevents⟩

/-- Both count on from the same number, and keep what `set` makes of it. -/
theorem tally_alike {get : Allocator → Except Fault Nat} {set : Nat → Allocator → Allocator}
    (hget : ∀ a a', Twins d last K a a' → get a' = get a)
    (hset : ∀ n a a', Twins d last K a a' → Twins d last K (set n a) (set n a')) :
    Paired d last K (Op.compute get >>= fun n => Op.modify (set n))
      (Op.compute get >>= fun n => Op.modify (set n)) fun _ _ => True := by
  refine (Op.alike_compute_same hget).bind ?_
  rintro _ n rfl
  exact Op.alike_modify (hset n)

theorem Twins.totalFree (h : a.Twins d last K a') : a'.totalFree = a.totalFree := by
  obtain ⟨_, _, h⟩ := h
  exact h.totalFree

theorem Twins.counters (h : a.Twins d last K a') : a'.counters = a.counters := by
  obtain ⟨_, _, h⟩ := h
  exact h.counters

theorem Twins.setTotalFree (h : a.Twins d last K a') (n : Nat) :
    ({ a with totalFree := n } : Allocator).Twins d last K { a' with totalFree := n } := by
  obtain ⟨known, hK, h⟩ := h
  exact ⟨known, hK, { h with totalFree := rfl }⟩

theorem Twins.setCounters (h : a.Twins d last K a') (c : Counters) :
    ({ a with counters := c } : Allocator).Twins d last K { a' with counters := c } := by
  obtain ⟨known, hK, h⟩ := h
  exact ⟨known, hK, { h with counters := rfl }⟩

theorem addFree_alike (pages : Nat) :
    Paired d last K (addFree pages) (addFree pages) fun _ _ => True :=
  tally_alike (fun _ _ h => by rw [h.totalFree]) fun n _ _ h => h.setTotalFree n

theorem subFree_alike (pages : Nat) :
    Paired d last K (subFree pages) (subFree pages) fun _ _ => True :=
  tally_alike (fun _ _ h => by rw [h.totalFree]) fun n _ _ h => h.setTotalFree n

theorem count_alike (get : Counters → Nat) (set : Nat → Counters → Counters) :
    Paired d last K (count get set) (count get set) fun _ _ => True := by
  refine tally_alike (fun _ _ h => by rw [h.counters]) fun n a a' h => ?_
  rw [h.counters]
  exact h.setCounters _

theorem lastOrder_alike :
    Paired d last K (Op.query fun a => a.lastOrder) (Op.query fun a => a.lastOrder)
      fun o o' => o = last ∧ o' = last :=
  Op.alike_query fun _ _ ⟨_, _, h⟩ => ⟨h.lastOrder, h.lastOrder_eq⟩

/-- A test of the order of a block against the last one comes out the same. -/
theorem ensureOrder_alike (p : Nat → Prop) [DecidablePred p] (fault : Nat → Fault) :
    Paired d last K (Op.ensure (fun a => p a.lastOrder) fun a => fault a.lastOrder)
      (Op.ensure (fun a => p a.lastOrder) fun a => fault a.lastOrder) fun _ _ => p last := by
  refine Op.alike_ensure ?_ ?_ ?_
  · rintro a a' ⟨_, _, h⟩
    rw [h.lastOrder, h.lastOrder_eq]
  · rintro a a' ⟨_, _, h⟩ hp
    exact h.lastOrder ▸ hp
  · rintro _ a a' ⟨_, _, h⟩
    rw [h.lastOrder, h.lastOrder_eq]

/-- A sum that starts at a frame is `d` higher. -/
theorem add_alike {f n : Nat} (hroom : d = 0 ∨ f + d + n < Word.limit) :
    Paired d last K (Op.compute fun _ => Word.add f n) (Op.compute fun _ => Word.add (f + d) n)
      fun sum sum' => sum' = sum + d ∧ sum = f + n := by
  refine Op.alike_compute fun _ _ _ => ?_
  rw [Word.add_shift hroom]
  exact concur_map fun sum hs => ⟨rfl, (Word.add_eq_ok_iff.mp hs).1.symm⟩

theorem totalFree_alike :
    Paired d last K (Op.query fun a => a.totalFree) (Op.query fun a => a.totalFree)
      fun n n' => n' = n :=
  Op.alike_query fun _ _ h => h.totalFree

theorem writeState_alike (state : PageState) (count pfn : Nat) :
    Paired d last K (writeState state count pfn) (writeState state count (pfn + d))
      fun _ _ => True := by
  rintro v a a' ⟨known, hK, h⟩
  obtain ⟨hregistry, hmissing⟩ := h.registry.mark state count pfn
  have htwins : Twins d last K
      { a with registry := (Registry.mark state count pfn a.registry).1 }
      { a' with registry := (Registry.mark state count (pfn + d) a'.registry).1 } :=
    ⟨known, hK, { h with registry := hregistry }⟩
  rw [writeState_apply, writeState_apply, hmissing]
  cases (Registry.mark state count pfn a.registry).2 with
  | none => exact ⟨trivial, htwins, fun _ => rfl⟩
  | some f => exact ⟨fun hd => by rw [hd]; rfl, htwins, fun _ => rfl⟩

theorem mark_alike (state : PageState) {count : Nat}
    (hroom : d = 0 ∨ pfn + d + count < Word.limit) :
    Paired d last K (mark state count pfn) (mark state count (pfn + d)) fun _ _ => True :=
  (add_alike hroom).bind fun _ _ _ => writeState_alike state count pfn

/-! ### Single blocks -/

/-- A block that fits is of an order up to the last. -/
theorem ensureFits_alike (action : BlockAction) (b : Block) :
    Paired d last K (ensureFits action b) (ensureFits action (b.shift d))
      fun _ _ => b.order ≤ last := by
  unfold ensureFits
  refine (ensureOrder_alike (b.order ≤ ·) (.orderAboveLast action b.order)).bind fun _ _ hle => ?_
  refine Op.alike_ensure ?_ (fun _ _ _ _ => hle) fun hd _ _ _ => by rw [hd]; rfl
  rintro a a' ⟨_, _, h⟩
  rw [h.base, Block.isAligned_shift]

theorem enlist_alike (b : Block) :
    Paired d last K (enlist b) (enlist (b.shift d)) fun _ _ => True := by
  refine (ensureFits_alike _ b).bind fun _ _ _ => ?_
  refine (onList_alike fun _ => FreeList.insert_alike b.pfn).bind ?_
  rintro _ yes rfl
  cases yes with
  | true => exact addFree_alike b.size
  | false => exact Op.alike_fail fun hd => by rw [hd]; rfl

theorem delist_alike (b : Block) :
    Paired d last K (delist b) (delist (b.shift d)) fun _ _ => True := by
  refine (ensureFits_alike _ b).bind fun _ _ _ => ?_
  refine (onList_alike fun _ => FreeList.remove_alike b.pfn).bind ?_
  rintro _ yes rfl
  cases yes with
  | true => exact subFree_alike b.size
  | false => exact Op.alike_fail fun hd => by rw [hd]; rfl

theorem isListed_alike (b : Block) :
    Paired d last K (isListed b) (isListed (b.shift d))
      fun yes yes' => yes' = yes ∧ (yes = true → Fits d last b.pfn) :=
  onList_alike fun _ => FreeList.contains_alike b.pfn

theorem holds_alike (b : Block) :
    Paired d last K (holds b) (holds (b.shift d)) fun yes yes' => yes' = yes := by
  refine Op.alike_branch ?_ ?_ (Op.alike_pure rfl)
  · rintro a a' ⟨_, _, h⟩
    rw [h.lastOrder, h.lastOrder_eq]
    rfl
  · exact (isListed_alike b).mono (fun _ _ h => h.1) (fun _ _ h => h.1) fun _ _ h => h

theorem headedOrderFrom?_alike (pfn : Nat) : ∀ (orders order : Nat),
    Paired d last K (headedOrderFrom? pfn orders order) (headedOrderFrom? (pfn + d) orders order)
      fun found found' => found' = found ∧
        ∀ o ∈ found, o < order + orders ∧ Fits d last pfn := by
  intro orders
  induction orders with
  | zero => exact fun _ => Op.alike_pure ⟨rfl, fun o ho => nomatch ho⟩
  | succ orders ih =>
    intro order
    refine (isListed_alike ⟨pfn, order⟩).bind ?_
    rintro _ yes ⟨rfl, hroom⟩
    cases yes with
    | true =>
      refine Op.alike_pure ⟨rfl, fun o ho => ?_⟩
      obtain rfl := Option.some.inj ho
      exact ⟨by omega, hroom rfl⟩
    | false =>
      refine (ih (order + 1)).mono (fun _ _ h => h) ?_ fun _ _ h => h
      rintro found _ ⟨rfl, hfound⟩
      exact ⟨rfl, fun o ho => ⟨by have := (hfound o ho).1; omega, (hfound o ho).2⟩⟩

/-- **A frame heads blocks of the same order**, and there is room after it if it heads any. -/
theorem headedOrder?_alike (pfn : Nat) :
    Paired d last K (headedOrder? pfn) (headedOrder? (pfn + d))
      fun found found' => found' = found ∧ ∀ o ∈ found, o ≤ last ∧ Fits d last pfn := by
  refine lastOrder_alike.bind ?_
  rintro _ _ ⟨rfl, rfl⟩
  refine (headedOrderFrom?_alike pfn _ 0).mono (fun _ _ h => h) ?_ fun _ _ h => h
  rintro found _ ⟨rfl, hfound⟩
  exact ⟨rfl, fun o ho => ⟨by have := (hfound o ho).1; omega, (hfound o ho).2⟩⟩

/-! ### Halves and buddies -/

theorem split_alike (b : Block) (hroom : Fits d b.order b.pfn) :
    Paired d last K (split b) (split (b.shift d)) fun _ _ => True := by
  unfold split
  refine (ensureOrder_alike (fun last => 0 < b.order ∧ b.order ≤ last)
    fun _ => .splitOrder b.order).bind fun _ _ _ => ?_
  refine (delist_alike b).bind fun _ _ _ => ?_
  refine (add_alike (hroom.of_le (Nat.sub_le _ 1))).bind ?_
  rintro upper _ ⟨rfl, _⟩
  refine (enlist_alike ⟨b.pfn, b.order - 1⟩).bind fun _ _ _ => ?_
  refine (enlist_alike ⟨upper, b.order - 1⟩).bind fun _ _ _ => ?_
  refine Op.Alike.bind (Op.alike_log fun hd => by rw [hd]; rfl) fun _ _ _ => ?_
  exact count_alike _ _

theorem isFreeBuddy_alike (b : Block) :
    Paired d last K (isFreeBuddy b) (isFreeBuddy (b.shift d)) fun yes yes' => yes' = yes := by
  refine Op.alike_branch ?_ ?_ (Op.alike_pure rfl)
  · rintro a a' ⟨_, _, h⟩
    rw [h.base, Block.isAligned_shift]
    congr 1
    exact h.registry.any_state (fun state => state = .free) b.pfn
  · exact (isListed_alike b).mono (fun _ _ h => h.1) (fun _ _ h => h.1) fun _ _ h => h

/-- **A block merges with its buddy in both or in neither.** -/
theorem merge_alike (b : Block) (hroom : Fits d b.order b.pfn) :
    Paired d last K (merge b) (merge (b.shift d)) fun merged merged' =>
      merged' = merged.map (Block.shift d) ∧
        ∀ m ∈ merged, m.pfn ≤ b.pfn ∧ m.order = b.order + 1 := by
  unfold merge
  refine (ensureOrder_alike (b.order < ·) fun _ => .mergeOrder b.order).bind fun _ _ _ => ?_
  have hbuddy : Paired d last K (Op.compute fun a => b.buddyOf a.base)
      (Op.compute fun a => (b.shift d).buddyOf a.base)
      fun buddy buddy' => buddy' = buddy.shift d := by
    refine Op.alike_compute ?_
    rintro a a' ⟨_, _, h⟩
    rw [h.base, Block.buddyOf_shift hroom]
    exact concur_map fun _ _ => rfl
  refine hbuddy.bind ?_
  rintro buddy _ rfl
  refine (isFreeBuddy_alike buddy).bind ?_
  rintro _ yes rfl
  cases yes with
  | false => exact Op.alike_pure ⟨rfl, fun m hm => nomatch hm⟩
  | true =>
    have hmin : min (b.pfn + d) (buddy.pfn + d) = min b.pfn buddy.pfn + d := by omega
    refine (delist_alike b).bind fun _ _ _ => (delist_alike buddy).bind fun _ _ _ => ?_
    dsimp only [Block.pfn_shift, Block.order_shift]
    rw [hmin]
    refine (enlist_alike ⟨min b.pfn buddy.pfn, b.order + 1⟩).bind fun _ _ _ => ?_
    refine Op.Alike.bind (Op.alike_log fun hd => by rw [hd]; rfl) fun _ _ _ => ?_
    refine (count_alike _ _).bind fun _ _ _ => Op.alike_pure ⟨rfl, fun m hm => ?_⟩
    obtain rfl := Option.some.inj hm
    exact ⟨Nat.min_le_left _ _, rfl⟩

end Allocator

end BuddySystem
