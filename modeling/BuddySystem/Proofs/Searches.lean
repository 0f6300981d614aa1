import BuddySystem.Proofs.SortedLists

/-!
# Searches along any links

Nothing vouches for the links that a list finds: they can go round in circles, lead back or
end at a frame without descriptor, and the length of the list can be any number.  A search
follows them all the same.  It counts the links that it has followed, and gives up when it
stands before a frame and has followed more links than the list is long.

`Registry.Walk` tells the search link by link, with the counter as a number of 64 bits and
with nothing else to end it.  `walk_locate` says that the search ends, that it has followed
one link more than the list is long at the most, and that `Registry.locate` is what it comes
to.  The operations do what the end of the search tells them (`insert_outcome`,
`remove_outcome`).  They write to a frame that the search has passed and to the frame that
comes or goes (`locate_prev`), and both have descriptors, so an operation that is refused is
refused before it has written anything.

* `Searched`, `searched_along_any_links`: the operations on any list over any registry.
-/

namespace BuddySystem

namespace Position

/-- The frame that leads to the place that the search has come to. -/
def prev? : Position → Option Nat
  | .linked prev => prev
  | .gap prev _ => prev
  | .cycle => none
  | .broken _ => none

/-- The frame behind the gap. -/
def next? : Position → Option Nat
  | .gap _ next => next
  | .linked _ => none
  | .cycle => none
  | .broken _ => none

end Position

namespace Registry

/-- The search for `pfn` in a list of length `len`, after `visited` links and with `prev` behind
it, follows `links` more links and comes to `position`. -/
inductive Walk (r : Registry) (len pfn : Nat) :
    Nat → Option Nat → Option Nat → Nat → Position → Prop
  | ended {visited : Nat} {prev : Option Nat} :
      Walk r len pfn visited prev none 0 (.gap prev none)
  | givenUp {visited frame : Nat} {prev : Option Nat} : len < visited →
      Walk r len pfn visited prev (some frame) 0 .cycle
  | found {visited : Nat} {prev : Option Nat} : visited ≤ len →
      Walk r len pfn visited prev (some pfn) 0 (.linked prev)
  | passed {visited frame : Nat} {prev : Option Nat} : visited ≤ len → pfn < frame →
      Walk r len pfn visited prev (some frame) 0 (.gap prev (some frame))
  | broken {visited frame : Nat} {prev : Option Nat} : visited ≤ len → frame < pfn →
      r.page? frame = none → Walk r len pfn visited prev (some frame) 0 (.broken frame)
  | follow {visited counted frame links : Nat} {prev : Option Nat} {page : Page}
      {position : Position} : visited ≤ len → frame < pfn → r.page? frame = some page →
      Word.add visited 1 = .ok counted →
      Walk r len pfn counted (some frame) page.nextFree links position →
      Walk r len pfn visited prev (some frame) (links + 1) position

variable {r : Registry} {len pfn visited links links' : Nat} {prev start : Option Nat}
  {position position' : Position}

/-- **A search goes one way only.** -/
theorem Walk.unique (h : Walk r len pfn visited prev start links position)
    (h' : Walk r len pfn visited prev start links' position') :
    links' = links ∧ position' = position := by
  induction h generalizing links' with
  | ended =>
    cases h' with
    | ended => exact ⟨rfl, rfl⟩
  | givenUp hv =>
    cases h' with
    | givenUp => exact ⟨rfl, rfl⟩
    | _ => omega
  | found hv =>
    cases h' with
    | found => exact ⟨rfl, rfl⟩
    | _ => omega
  | passed hv hlt =>
    cases h' with
    | passed => exact ⟨rfl, rfl⟩
    | _ => omega
  | broken hv hlt hpage =>
    cases h' with
    | broken => exact ⟨rfl, rfl⟩
    | follow _ _ hpage' => simp [hpage] at hpage'
    | _ => omega
  | follow hv hlt hpage hcount _ ih =>
    cases h' with
    | follow _ _ hpage' hcount' hrest =>
      obtain rfl := Option.some.inj (hpage.symm.trans hpage')
      obtain rfl := Except.ok.inj (hcount.symm.trans hcount')
      obtain ⟨rfl, rfl⟩ := ih hrest
      exact ⟨rfl, rfl⟩
    | broken _ _ hpage' => simp [hpage] at hpage'
    | _ => omega

/-- **The search ends** before its counter has passed the length of the list by more than one. -/
theorem walk_locate (hlen : len + 1 < Word.limit) {budget : Nat} :
    visited + budget = len + 1 →
    ∃ links ≤ budget, Walk r len pfn visited prev start links (r.locate pfn budget prev start) := by
  fun_induction locate r pfn budget prev start generalizing visited with
  | case1 => exact fun _ => ⟨0, Nat.zero_le _, .ended⟩
  | case2 => exact fun hv => ⟨0, Nat.le_refl 0, .givenUp (by omega)⟩
  | case3 => exact fun hv => ⟨0, Nat.zero_le _, .found (by omega)⟩
  | case4 budget prev frame heq hlt =>
    exact fun hv => ⟨0, Nat.zero_le _, .passed (by omega) hlt⟩
  | case5 budget prev frame heq hlt hpage =>
    exact fun hv => ⟨0, Nat.zero_le _, .broken (by omega) (by omega) hpage⟩
  | case6 budget prev frame heq hlt page hpage ih =>
    intro hv
    have hcount : Word.add visited 1 = .ok (visited + 1) :=
      Word.add_eq_ok_iff.mpr ⟨rfl, by omega⟩
    have hrest : ∃ links ≤ budget, Walk r len pfn (visited + 1) (some frame) page.nextFree links
        (r.locate pfn budget (some frame) page.nextFree) := ih (by omega)
    obtain ⟨links, hle, hwalk⟩ := hrest
    exact ⟨links + 1, Nat.succ_le_succ hle, .follow (by omega) (by omega) hpage hcount hwalk⟩

/-- **The frame that leads to the place found has been passed**, so it is a smaller one and has a
descriptor. -/
theorem locate_prev {budget : Nat} : (∀ p ∈ prev, r.has p = true ∧ p < pfn) →
    ∀ p ∈ (r.locate pfn budget prev start).prev?, r.has p = true ∧ p < pfn := by
  fun_induction locate r pfn budget prev start with
  | case1 => exact fun hprev => hprev
  | case2 => simp [Position.prev?]
  | case3 => exact fun hprev => hprev
  | case4 => exact fun hprev => hprev
  | case5 => simp [Position.prev?]
  | case6 budget prev frame heq hlt page hpage ih =>
    intro _
    apply ih
    intro p hp
    obtain rfl := Option.some.inj hp
    exact ⟨by simp [has, hpage], by omega⟩

/-- The frame behind a gap is a larger one. -/
theorem locate_next {budget : Nat} :
    ∀ q ∈ (r.locate pfn budget prev start).next?, pfn < q := by
  fun_induction locate r pfn budget prev start with
  | case4 budget prev frame heq hlt =>
    intro q hq
    obtain rfl := Option.some.inj hq
    exact hlt
  | case6 budget prev frame heq hlt page hpage ih => exact ih
  | _ => simp [Position.next?]

end Registry

/-! ### What the operations do after any search -/

namespace FreeList

variable {t : Threaded} {pfn : Nat} {v : Verbosity}

/-- **A frame comes in at the gap that is found**, or nothing changes. -/
theorem insert_outcome :
    (insert pfn).Ends v t
      (fun yes t' =>
        (yes = true ∧ ∃ prev next, t.locate pfn = .gap prev next ∧ t.registry.has pfn = true ∧
          t' = (t.link pfn prev next).setLen (t.list.len + 1)) ∨
        (yes = false ∧ t' = t ∧
          ∀ prev next, t.locate pfn = .gap prev next → t.registry.has pfn = false))
      fun t' => Word.limit ≤ t.list.len + 1 ∧ ∃ prev next, t.locate pfn = .gap prev next ∧
        t.registry.has pfn = true ∧ t' = t.link pfn prev next := by
  unfold insert
  rw [Op.ends_bind, Op.ends_query]
  cases hloc : t.locate pfn with
  | linked prev => exact Or.inr ⟨rfl, rfl, by simp⟩
  | cycle => exact Or.inr ⟨rfl, rfl, by simp⟩
  | broken frame => exact Or.inr ⟨rfl, rfl, by simp⟩
  | gap prev next =>
    dsimp only
    rw [Op.ends_bind, Op.ends_query]
    by_cases hp : t.registry.has pfn = true
    · have hlen : (t.link pfn prev next).list.len = t.list.len := Threaded.len_relink _ _
      rw [if_pos hp, Op.ends_bind, Op.ends_modify, Op.ends_bind, Op.ends_compute, hlen]
      constructor
      · intro n hn
        obtain ⟨rfl, _⟩ := Word.add_eq_ok_iff.mp hn
        exact Or.inl ⟨rfl, prev, next, rfl, hp, rfl⟩
      · intro fault hfault
        exact ⟨Word.limit_le_of_add_error hfault, prev, next, rfl, hp, rfl⟩
    · rw [if_neg hp]
      exact Or.inr ⟨rfl, rfl, fun _ _ _ => Bool.eq_false_iff.mpr hp⟩

/-- **A frame that is found goes out**, or nothing changes. -/
theorem remove_outcome :
    (remove pfn).Ends v t
      (fun yes t' =>
        (yes = true ∧ ∃ prev, t.locate pfn = .linked prev ∧ t.registry.has pfn = true ∧
          t' = (t.unlink pfn prev).setLen (t.list.len - 1)) ∨
        (yes = false ∧ t' = t ∧
          ∀ prev, t.locate pfn = .linked prev → t.registry.has pfn = false))
      fun t' => t.list.len = 0 ∧ ∃ prev, t.locate pfn = .linked prev ∧
        t.registry.has pfn = true ∧ t' = t.unlink pfn prev := by
  unfold remove
  rw [Op.ends_bind, Op.ends_query]
  cases hloc : t.locate pfn with
  | gap prev next => exact Or.inr ⟨rfl, rfl, by simp⟩
  | cycle => exact Or.inr ⟨rfl, rfl, by simp⟩
  | broken frame => exact Or.inr ⟨rfl, rfl, by simp⟩
  | linked prev =>
    dsimp only
    rw [Op.ends_bind, Op.ends_query]
    by_cases hp : t.registry.has pfn = true
    · have hlen : (t.unlink pfn prev).list.len = t.list.len := Threaded.len_relink _ _
      rw [if_pos hp, Op.ends_bind, Op.ends_modify, Op.ends_bind, Op.ends_compute, hlen]
      constructor
      · intro n hn
        obtain ⟨_, rfl⟩ := Word.sub_eq_ok_iff.mp hn
        exact Or.inl ⟨rfl, prev, rfl, hp, rfl⟩
      · intro fault hfault
        exact ⟨Nat.lt_one_iff.mp (Word.lt_of_sub_error hfault), prev, rfl, hp, rfl⟩
    · rw [if_neg hp]
      exact Or.inr ⟨rfl, rfl, fun _ _ => Bool.eq_false_iff.mpr hp⟩

/-- A frame is in the list if the search says so, and nothing changes. -/
theorem contains_outcome :
    (contains pfn).Ends v t
      (fun yes t' => t' = t ∧ (yes = true ↔ ∃ prev, t.locate pfn = .linked prev))
      fun _ => False := by
  unfold contains
  rw [Op.ends_bind, Op.ends_query]
  cases hloc : t.locate pfn with
  | gap prev next => exact ⟨rfl, by simp⟩
  | cycle => exact ⟨rfl, by simp⟩
  | broken frame => exact ⟨rfl, by simp⟩
  | linked prev => exact ⟨rfl, by simp⟩

end FreeList

namespace Threaded

/-- The search for a frame in the list follows `links` links and comes to `position`. -/
def Walks (t : Threaded) (pfn links : Nat) (position : Position) : Prop :=
  t.registry.Walk t.list.len pfn 0 none t.list.head links position

/-- How the search for a frame goes, and what the operations on the list do with the frame. -/
structure Searched (t : Threaded) (pfn : Nat) (v : Verbosity) (links : Nat)
    (position : Position) : Prop where
  walks : t.Walks pfn links position
  unique : ∀ links' position', t.Walks pfn links' position' →
    links' = links ∧ position' = position
  links_le : links ≤ t.list.len + 1
  /-- The link that leads to the place found can be written. -/
  prev_present : ∀ p ∈ position.prev?, t.registry.has p = true
  contains : (FreeList.contains pfn).Ends v t
    (fun yes t' => t' = t ∧ (yes = true ↔ ∃ prev, position = .linked prev)) fun _ => False
  insert : (FreeList.insert pfn).Ends v t
    (fun yes t' => (yes = false → t' = t) ∧ (yes = true ↔
      (∃ prev next, position = .gap prev next) ∧ t.registry.has pfn = true)) fun _ => False
  /-- A fault comes only of a length that is no length of the list. -/
  remove : (FreeList.remove pfn).Ends v t
    (fun yes t' => (yes = false → t' = t) ∧ (yes = true ↔
      (∃ prev, position = .linked prev) ∧ t.registry.has pfn = true))
    fun _ => t.list.len = 0 ∧ t.list.head = some pfn

variable {t : Threaded} {pfn : Nat} {position : Position}

theorem prev_of_locate (hloc : t.locate pfn = position) :
    ∀ p ∈ position.prev?, t.registry.has p = true ∧ p < pfn := by
  rw [← hloc]
  exact Registry.locate_prev (by simp)

theorem next_of_locate (hloc : t.locate pfn = position) : ∀ q ∈ position.next?, pfn < q := by
  rw [← hloc]
  exact Registry.locate_next

/-- In a list of length zero only the first frame is found. -/
theorem head_eq_of_linked {prev : Option Nat} (hlen : t.list.len = 0)
    (hloc : t.locate pfn = .linked prev) : t.list.head = some pfn := by
  rw [locate, hlen] at hloc
  cases hhead : t.list.head with
  | none => simp [hhead, Registry.locate] at hloc
  | some frame =>
    by_cases heq : frame = pfn
    · rw [heq]
    by_cases hlt : pfn < frame
    · simp [hhead, Registry.locate, heq, hlt] at hloc
    cases hpage : t.registry.page? frame with
    | none => simp [hhead, Registry.locate, heq, hlt, hpage] at hloc
    | some page =>
      -- One link is followed, and any frame behind it is one too many.
      cases hnext : page.nextFree <;>
        simp [hhead, Registry.locate, heq, hlt, hpage, hnext] at hloc

/-- **Searches end along any links, and what is refused changes nothing.** -/
theorem searched_along_any_links (hlen : t.list.len + 1 < Word.limit) (pfn : Nat)
    (v : Verbosity) : ∃ links position, Searched t pfn v links position := by
  have hsearch : ∃ links ≤ t.list.len + 1, t.Walks pfn links (t.locate pfn) :=
    Registry.walk_locate hlen (Nat.zero_add _)
  obtain ⟨links, hle, hwalk⟩ := hsearch
  refine ⟨links, t.locate pfn, hwalk, fun _ _ h' => hwalk.unique h', hle, ?_,
    FreeList.contains_outcome, ?_, ?_⟩
  · exact fun p hp => (prev_of_locate rfl p hp).1
  · refine FreeList.insert_outcome.mono ?_ ?_
    · intro yes t' h
      rcases h with ⟨rfl, prev, next, hloc, hp, _⟩ | ⟨rfl, rfl, hrefused⟩
      · exact ⟨by simp, by simp [hloc, hp]⟩
      · refine ⟨fun _ => rfl, by simp, ?_⟩
        intro ⟨⟨prev, next, hloc⟩, hp⟩
        rw [hrefused prev next hloc] at hp
        exact hp
    · intro t' ⟨hlimit, _⟩
      omega
  · refine FreeList.remove_outcome.mono ?_ ?_
    · intro yes t' h
      rcases h with ⟨rfl, prev, hloc, hp, _⟩ | ⟨rfl, rfl, hrefused⟩
      · exact ⟨by simp, by simp [hloc, hp]⟩
      · refine ⟨fun _ => rfl, by simp, ?_⟩
        intro ⟨⟨prev, hloc⟩, hp⟩
        rw [hrefused prev hloc] at hp
        exact hp
    · intro t' ⟨hzero, prev, hloc, _⟩
      exact ⟨hzero, head_eq_of_linked hzero hloc⟩

/-- Two frames that lead to each other, in a list of length one: the search for a frame behind them
goes round once.  With length zero the first of them can be taken out only with a fault. -/
theorem searched_round_circle :
    ∃ t : Threaded, t.registry.link? 3 = some 4 ∧ t.registry.link? 4 = some 3 ∧
      t.list.len + 1 < Word.limit ∧ Searched t 7 none (t.list.len + 1) .cycle ∧
      (∃ links position, Searched (t.setLen 0) 3 none links position) ∧
      (FreeList.remove 3 none (t.setLen 0)).value = .error (.overflow .subtraction) := by
  let link : Nat → Option Nat := fun f => if f = 3 then some 4 else if f = 4 then some 3 else none
  let pages : Array Page := Array.ofFn fun i : Fin 8 => ⟨i, .allocated, link i⟩
  let t : Threaded := ⟨⟨some 3, 1⟩, Registry.ofTable ⟨0, pages, 4096, by decide⟩⟩
  have hwalk : t.Walks 7 2 .cycle := by
    refine .follow ?_ ?_ rfl rfl (.follow ?_ ?_ rfl rfl (.givenUp ?_)) <;> decide
  obtain ⟨links, position, hsearched⟩ := searched_along_any_links (t := t) (by decide) 7 none
  obtain ⟨rfl, rfl⟩ := hsearched.unique 2 .cycle hwalk
  exact ⟨t, rfl, rfl, by decide, hsearched,
    searched_along_any_links (t := t.setLen 0) (by decide) 3 none, rfl⟩

end Threaded

end BuddySystem
