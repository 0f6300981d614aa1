import BuddySystem.Proofs.Orderly
import Mathlib.Data.List.Sort

/-!
# What a call changes

The lemmas about operations speak of the stock and of the view of an allocator.  This
module brings that back to what a caller can read: the heads of the lists and the
states of the frames.

* `Keeps.heads_eq`: an ascending list of the right heads is the list of heads.
* `takes_iff`: a block can be taken back when its frames all read as allocated.
* `turns_of_view`: a call that writes a state into some frames changes what is read at
  these frames and nowhere else (`Turns`, and `Restates` for the frames of a block).
-/

namespace BuddySystem.Allocator

/-- The frames of the block go from one state to another one, and all other frames stay in the
state they are in. -/
structure Restates (a : Allocator) (b : Block) (old new : PageState) (a' : Allocator) : Prop where
  before : ∀ f ∈ b.frames, (a.registry.page? f).map Page.state = some old
  after : ∀ f ∈ b.frames, (a'.registry.page? f).map Page.state = some new
  other : ∀ f ∉ b.frames,
    (a'.registry.page? f).map Page.state = (a.registry.page? f).map Page.state

/-- The frames of the set go from one state to another one, and all other frames stay in the state
they are in. -/
structure Turns (a : Allocator) (F : Finset Nat) (old new : PageState) (a' : Allocator) : Prop where
  before : ∀ f ∈ F, (a.registry.page? f).map Page.state = some old
  after : ∀ f ∈ F, (a'.registry.page? f).map Page.state = some new
  other : ∀ f ∉ F,
    (a'.registry.page? f).map Page.state = (a.registry.page? f).map Page.state

variable {a a' : Allocator} {stale : Set Nat} {B : Finset Block} {b : Block} {F : Finset Nat}
  {f : Nat}

/-! ### Heads -/

theorem Keeps.heads_eq (h : a.Keeps stale B) (hs : a.view.Sighted B) {o : Nat} {xs : List Nat}
    (hxs : xs.Pairwise (· < ·)) (hmem : ∀ p, p ∈ xs ↔ (⟨p, o⟩ : Block) ∈ B) : a.heads o = xs := by
  obtain ⟨hspells, hheads⟩ := h.heads_spells hs o
  exact hspells.ascending.eq_of_mem_iff hxs fun p => by rw [hheads, hmem]

/-- A list whose blocks stay in stock stays as it is. -/
theorem Keeps.heads_congr {B' : Finset Block} (h : a.Keeps stale B) (hs : a.view.Sighted B)
    (h' : a'.Keeps stale B') (hs' : a'.view.Sighted B') {o : Nat}
    (hmem : ∀ p, (⟨p, o⟩ : Block) ∈ B' ↔ (⟨p, o⟩ : Block) ∈ B) : a'.heads o = a.heads o := by
  obtain ⟨hspells, hheads⟩ := h.heads_spells hs o
  exact h'.heads_eq hs' hspells.ascending fun p => by rw [hheads, hmem]

/-- A list that loses one block has its head erased. -/
theorem Keeps.heads_erase {B' : Finset Block} (h : a.Keeps stale B) (hs : a.view.Sighted B)
    (h' : a'.Keeps stale B') (hs' : a'.view.Sighted B') {o q : Nat}
    (hmem : ∀ p, (⟨p, o⟩ : Block) ∈ B' ↔ p ≠ q ∧ (⟨p, o⟩ : Block) ∈ B) :
    a'.heads o = (a.heads o).erase q := by
  obtain ⟨hspells, hheads⟩ := h.heads_spells hs o
  refine h'.heads_eq hs' (hspells.ascending.sublist List.erase_sublist) fun p => ?_
  rw [hspells.nodup.mem_erase_iff, hheads, hmem]

/-- A list that gains one block has its head put into its place. -/
theorem Keeps.heads_insert {B' : Finset Block} (h : a.Keeps stale B) (hs : a.view.Sighted B)
    (h' : a'.Keeps stale B') (hs' : a'.view.Sighted B') {o q : Nat} (hnew : (⟨q, o⟩ : Block) ∉ B)
    (hmem : ∀ p, (⟨p, o⟩ : Block) ∈ B' ↔ p = q ∨ (⟨p, o⟩ : Block) ∈ B) :
    a'.heads o = (a.heads o).orderedInsert (· ≤ ·) q := by
  obtain ⟨hspells, hheads⟩ := h.heads_spells hs o
  have hsorted : ((a.heads o).orderedInsert (· ≤ ·) q).Pairwise (· ≤ ·) :=
    (hspells.ascending.imp Nat.le_of_lt).orderedInsert q
  have hnodup : ((a.heads o).orderedInsert (· ≤ ·) q).Nodup := by
    rw [(List.perm_orderedInsert _ q _).nodup_iff, List.nodup_cons, hheads]
    exact ⟨hnew, hspells.nodup⟩
  refine h'.heads_eq hs' ((hsorted.and hnodup).imp fun hp => Nat.lt_of_le_of_ne hp.1 hp.2) ?_
  intro p
  rw [List.mem_orderedInsert, hheads, hmem]

/-! ### States -/

theorem state_of_reaches (h : a.view.Reaches f) :
    (a.registry.page? f).map Page.state =
      some (if f ∈ a.view.free then .free else .allocated) := by
  rw [Registry.map_state_page?, if_pos (has_iff_reaches.mpr h)]
  rfl

theorem reads_allocated_iff : (a.registry.page? f).map Page.state = some .allocated ↔
    a.view.Reaches f ∧ f ∉ a.view.free := by
  by_cases hreach : a.view.Reaches f
  · rw [state_of_reaches hreach]
    by_cases hf : f ∈ a.view.free <;> simp [hf, hreach]
  · rw [Registry.map_state_page?, if_neg (mt has_iff_reaches.mp hreach)]
    simp [hreach]

theorem reads_free_iff : (a.registry.page? f).map Page.state = some .free ↔
    a.view.Reaches f ∧ f ∈ a.view.free := by
  by_cases hreach : a.view.Reaches f
  · rw [state_of_reaches hreach]
    by_cases hf : f ∈ a.view.free <;> simp [hf, hreach]
  · rw [Registry.map_state_page?, if_neg (mt has_iff_reaches.mp hreach)]
    simp [hreach]

/-- **A block can be taken back** when the allocator can have it and its frames all read as
allocated. -/
theorem takes_iff : a.view.Takes b ↔ b.order ≤ a.lastOrder ∧ b.Aligned a.base ∧
    ∀ f ∈ b.frames, (a.registry.page? f).map Page.state = some .allocated := by
  constructor
  · intro h
    exact ⟨h.order_le, h.aligned, fun f hf => reads_allocated_iff.mpr (h.allocated f hf)⟩
  · intro ⟨ho, ha, hall⟩
    exact ⟨ho, ha, fun f hf => reads_allocated_iff.mp (hall f hf)⟩

/-- **A call that writes a state into some frames** and no other state. -/
theorem turns_of_view {old new : PageState} {counters : Counters}
    (hv : a'.view = { a.view with free := new.write a.view.free F, counters := counters })
    (hreach : ∀ f ∈ F, a.view.Reaches f) (hold : ∀ f ∈ F, f ∈ a.view.free ↔ old = .free) :
    Turns a F old new a' where
  before := by
    intro f hf
    rw [state_of_reaches (hreach f hf)]
    have hfree := hold f hf
    cases old <;> simp [hfree]
  after := by
    intro f hf
    have hreach' : a'.view.Reaches f := by
      rw [hv]
      exact hreach f hf
    rw [state_of_reaches hreach', hv]
    cases new <;> simp [PageState.write, hf]
  other := by
    intro f hf
    have hhas : a'.registry.has f = a.registry.has f := by
      rw [Bool.eq_iff_iff, has_iff_reaches, has_iff_reaches, hv]
      rfl
    have hfree : f ∈ a'.registry.freeFrames ↔ f ∈ a.registry.freeFrames := by
      show f ∈ a'.view.free ↔ f ∈ a.view.free
      rw [hv]
      cases new <;> simp [PageState.write, hf]
    rw [Registry.map_state_page?, Registry.map_state_page?, hhas]
    simp only [hfree]

/-- Allocated frames are handed over. -/
theorem turns_of_new (hv : a'.view = { a.view with free := a.view.free ∪ F })
    (hnew : ∀ f ∈ F, a.view.Reaches f ∧ f ∉ a.view.free) : Turns a F .allocated .free a' := by
  refine turns_of_view hv ?_ ?_
  · intro f hf
    exact (hnew f hf).1
  · intro f hf
    exact iff_of_false (hnew f hf).2 PageState.noConfusion

theorem restates_of_view {old new : PageState} {counters : Counters}
    (hv : a'.view = { a.view with free := new.write a.view.free b.frames, counters := counters })
    (hreach : ∀ f ∈ b.frames, a.view.Reaches f)
    (hold : ∀ f ∈ b.frames, f ∈ a.view.free ↔ old = .free) : Restates a b old new a' := by
  have h := turns_of_view hv hreach hold
  exact ⟨h.before, h.after, h.other⟩

end BuddySystem.Allocator
