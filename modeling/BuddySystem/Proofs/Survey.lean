import BuddySystem.Registry
import Mathlib.Data.Finset.Lattice.Basic
import Mathlib.Order.Interval.Finset.Nat

/-!
# What a registry holds

The descriptors of a registry carry two things: the states of the frames and the
links of the lists.  `Registry.link?` is the link of a frame and
`Registry.freeFrames` the set of the frames in the free state, in both cases as
the descriptors have it, hidden or not.  A `Registry.survey` is everything but
the links.

Writing a link changes no survey (`survey_modify_setNext`).  Writing a state into
a run of frames changes no link, and changes the survey on the frames from the
start of the run up to the first one that cannot be reached (`mark_cases`).
-/

namespace BuddySystem

/-- What there is to see of a registry besides its links. -/
structure Survey where
  base : Nat
  frameCount : Nat
  pageSize : Nat
  /-- The frames whose descriptors cannot be reached. -/
  hidden : Nat → Bool
  free : Finset Nat
  /-- The frame that each descriptor is about. -/
  pfns : Nat → Option Nat

/-- The free frames after a state is written into some frames. -/
def PageState.write : PageState → Finset Nat → Finset Nat → Finset Nat
  | .free, old, frames => old ∪ frames
  | .allocated, old, frames => old \ frames

theorem PageState.write_empty (state : PageState) (free : Finset Nat) :
    state.write free ∅ = free := by
  cases state <;> simp [PageState.write]

theorem PageState.write_write (state : PageState) (free s t : Finset Nat) :
    state.write (state.write free s) t = state.write free (s ∪ t) := by
  cases state
  · exact Finset.union_assoc free s t
  · exact sdiff_sdiff_left

theorem singleton_union_Ico (pfn n : Nat) :
    {pfn} ∪ Finset.Ico (pfn + 1) (pfn + 1 + n) = Finset.Ico pfn (pfn + (n + 1)) := by
  ext q
  rw [Finset.mem_union, Finset.mem_singleton, Finset.mem_Ico, Finset.mem_Ico]
  omega

namespace Registry

variable (r : Registry)

def link? (f : Nat) : Option Nat := (r.table.page? f).bind Page.nextFree

def run : Finset Nat := Finset.Ico r.base (r.base + r.frameCount)

def freeFrames : Finset Nat := r.run.filter fun f => (r.table.page? f).any Page.isFree

def pfns (f : Nat) : Option Nat := (r.table.page? f).map Page.pfn

def survey : Survey :=
  { base := r.base
    frameCount := r.frameCount
    pageSize := r.pageSize
    hidden := r.hidden
    free := r.freeFrames
    pfns := r.pfns }

variable {r} {f g pfn : Nat}

/-! ### Frames and descriptors -/

theorem mem_run : f ∈ r.run ↔ r.base ≤ f ∧ f < r.base + r.frameCount := Finset.mem_Ico

theorem base_add_frameCount_lt (r : Registry) : r.base + r.frameCount < Word.limit :=
  r.table.base_add_size_lt

theorem contains_iff : r.contains f = true ↔ f ∈ r.run := by
  rw [mem_run, contains, FrameTable.contains, Bool.and_eq_true, decide_eq_true_eq,
    decide_eq_true_eq]
  change r.base ≤ f ∧ f - r.base < r.frameCount ↔ _
  omega

theorem isSome_page?_iff : (r.table.page? f).isSome = true ↔ f ∈ r.run := by
  rw [FrameTable.isSome_page?]
  exact contains_iff

theorem has_iff : r.has f = true ↔ f ∈ r.run ∧ r.hidden f = false := by
  rw [← isSome_page?_iff, has, page?]
  cases r.hidden f <;> simp

theorem mem_freeFrames :
    f ∈ r.freeFrames ↔ (r.table.page? f).map Page.state = some .free := by
  have hrun := isSome_page?_iff (r := r) (f := f)
  rw [freeFrames, Finset.mem_filter, ← hrun]
  rcases r.table.page? f with _ | page <;> simp [Page.isFree]

theorem freeFrames_subset (r : Registry) : r.freeFrames ⊆ r.run := Finset.filter_subset _ _

theorem any_isFree_iff :
    (r.page? f).any Page.isFree = true ↔ r.hidden f = false ∧ f ∈ r.freeFrames := by
  rw [mem_freeFrames, page?]
  cases r.hidden f
  · rcases r.table.page? f with _ | page <;> simp [Page.isFree]
  · simp

theorem any_not_isFree_iff :
    ((r.page? f).any fun page => !page.isFree) = true ↔ r.has f = true ∧ f ∉ r.freeFrames := by
  rw [mem_freeFrames, has, page?]
  cases r.hidden f
  · rcases r.table.page? f with _ | page <;> simp [Page.isFree]
  · simp

/-- The state of a frame, as far as its descriptor can be reached. -/
theorem map_state_page? (r : Registry) (f : Nat) :
    (r.page? f).map Page.state =
      if r.has f then some (if f ∈ r.freeFrames then .free else .allocated) else none := by
  simp only [mem_freeFrames]
  rw [has, page?]
  cases r.hidden f
  · rcases r.table.page? f with _ | ⟨pfn, state, next⟩
    · rfl
    · cases state <;> simp
  · rfl

/-- No frame of a new table has a link. -/
theorem link?_of_create {pageSize base count : Nat} {table : FrameTable}
    (h : FrameTable.create pageSize base count = .ok table) (f : Nat) :
    (ofTable table).link? f = none := by
  change (table.page? f).bind Page.nextFree = none
  rw [FrameTable.page?_of_create h]
  split <;> rfl

theorem next?_of_has (h : r.has f = true) : r.next? f = r.link? f := by
  have hf := (has_iff.mp h).2
  rw [next?, link?, page?, hf]
  rfl

/-! ### Writing a link -/

theorem link?_modify_setNext (h : r.has pfn = true) (next : Option Nat) (q : Nat) :
    (r.modify pfn (Page.setNext next)).link? q = if q = pfn then next else r.link? q := by
  obtain ⟨hrun, hvis⟩ := has_iff.mp h
  have hpage := isSome_page?_iff.mpr hrun
  have htable : (r.modify pfn (Page.setNext next)).table =
      r.table.modify pfn (Page.setNext next) := by
    rw [modify, hvis]
    rfl
  rw [link?, link?, htable, FrameTable.page?_modify]
  by_cases hq : q = pfn
  · subst hq
    obtain ⟨page, hpage⟩ := Option.isSome_iff_exists.mp hpage
    rw [if_pos rfl, if_pos rfl, hpage]
    rfl
  · rw [if_neg hq, if_neg hq]

theorem freeFrames_modify_setNext (pfn : Nat) (next : Option Nat) :
    (r.modify pfn (Page.setNext next)).freeFrames = r.freeFrames := by
  ext q
  rw [mem_freeFrames, mem_freeFrames, modify]
  split
  · rfl
  · rw [FrameTable.page?_modify]
    by_cases hq : q = pfn
    · rw [if_pos hq, Option.map_map]
      rfl
    · rw [if_neg hq]

/-- A change that leaves each descriptor about the same frame. -/
theorem pfns_modify (pfn : Nat) (f : Page → Page) (hf : ∀ page, (f page).pfn = page.pfn) :
    (r.modify pfn f).pfns = r.pfns := by
  funext q
  rw [pfns, pfns, modify]
  split
  · rfl
  · rw [FrameTable.page?_modify]
    by_cases hq : q = pfn
    · rw [if_pos hq, Option.map_map]
      exact congrArg (Option.map · _) (funext hf)
    · rw [if_neg hq]

/-- **Writing a link changes nothing else.** -/
theorem survey_modify_setNext (pfn : Nat) (next : Option Nat) :
    (r.modify pfn (Page.setNext next)).survey = r.survey := by
  rw [survey, survey, base_modify, frameCount_modify, pageSize_modify, hidden_modify,
    freeFrames_modify_setNext, pfns_modify pfn (Page.setNext next) fun _ => rfl]

theorem run_modify (pfn : Nat) (f : Page → Page) : (r.modify pfn f).run = r.run := by
  rw [run, run, base_modify, frameCount_modify]

theorem has_modify (pfn : Nat) (f : Page → Page) (q : Nat) :
    (r.modify pfn f).has q = r.has q := by
  rw [Bool.eq_iff_iff, has_iff, has_iff, run_modify, hidden_modify]

/-! ### Writing a state -/

theorem link?_modify_setState (pfn : Nat) (state : PageState) (q : Nat) :
    (r.modify pfn (Page.setState state)).link? q = r.link? q := by
  rw [link?, link?, modify]
  split
  · rfl
  · rw [FrameTable.page?_modify]
    by_cases hq : q = pfn
    · rw [if_pos hq, Option.bind_map]
      rfl
    · rw [if_neg hq]

theorem freeFrames_modify_setState (h : r.has pfn = true) (state : PageState) :
    (r.modify pfn (Page.setState state)).freeFrames = state.write r.freeFrames {pfn} := by
  obtain ⟨hrun, hvis⟩ := has_iff.mp h
  obtain ⟨page, hpage⟩ := Option.isSome_iff_exists.mp (isSome_page?_iff.mpr hrun)
  have htable : (r.modify pfn (Page.setState state)).table =
      r.table.modify pfn (Page.setState state) := by
    rw [modify, hvis]
    rfl
  ext q
  rw [mem_freeFrames, htable, FrameTable.page?_modify]
  by_cases hq : q = pfn
  · subst hq
    rw [if_pos rfl, hpage]
    cases state <;> simp [PageState.write, Page.setState]
  · rw [if_neg hq, ← mem_freeFrames]
    cases state <;> simp [PageState.write, hq]

/-- **A state is written up to the first frame that cannot be reached**, and the links stay. -/
theorem mark_cases (state : PageState) : ∀ (count pfn : Nat) (r : Registry),
    ∃ n ≤ count, (∀ f ∈ Finset.Ico pfn (pfn + n), r.has f = true) ∧
      (∀ f, (mark state count pfn r).1.link? f = r.link? f) ∧
      (mark state count pfn r).1.survey =
        { r.survey with free := state.write r.freeFrames (Finset.Ico pfn (pfn + n)) } ∧
      ((mark state count pfn r).2 = none ∧ n = count ∨
        (mark state count pfn r).2 = some (pfn + n) ∧ n < count ∧ r.has (pfn + n) = false) := by
  intro count
  induction count with
  | zero =>
    intro pfn r
    refine ⟨0, Nat.le_refl 0, fun f hf => ?_, fun f => rfl, ?_, Or.inl ⟨rfl, rfl⟩⟩
    · simp at hf
    · rw [mark, Nat.add_zero, Finset.Ico_self, PageState.write_empty]
      rfl
  | succ count ih =>
    intro pfn r
    rw [mark]
    by_cases hp : r.has pfn
    · rw [if_pos hp]
      obtain ⟨n, hn, hhas, hlink, hsurvey, hend⟩ :=
        ih (pfn + 1) (r.modify pfn (Page.setState state))
      refine ⟨n + 1, Nat.succ_le_succ hn, fun f hf => ?_, fun f => ?_, ?_, ?_⟩
      · rw [← singleton_union_Ico, Finset.mem_union, Finset.mem_singleton] at hf
        rcases hf with rfl | hf
        · exact hp
        · rw [← has_modify pfn (Page.setState state)]
          exact hhas f hf
      · rw [hlink, link?_modify_setState]
      · rw [hsurvey, freeFrames_modify_setState hp, PageState.write_write, singleton_union_Ico,
          survey, survey, base_modify, frameCount_modify, pageSize_modify, hidden_modify,
          pfns_modify pfn (Page.setState state) fun _ => rfl]
      · rw [has_modify, Nat.add_assoc, Nat.add_comm 1 n] at hend
        rcases hend with ⟨h1, h2⟩ | ⟨h1, h2, h3⟩
        · exact Or.inl ⟨h1, congrArg Nat.succ h2⟩
        · exact Or.inr ⟨h1, Nat.succ_lt_succ h2, h3⟩
    · rw [if_neg hp]
      refine ⟨0, Nat.zero_le _, fun f hf => ?_, fun f => rfl, ?_, Or.inr ⟨rfl, Nat.succ_pos _, ?_⟩⟩
      · simp at hf
      · rw [Nat.add_zero, Finset.Ico_self, PageState.write_empty]
        rfl
      · exact Bool.eq_false_iff.mpr hp

/-! ### Scans -/

/-- The scan for a free frame finds one exactly where a visible frame of the run is free. -/
theorem firstFree?_eq_none_iff : ∀ (count pfn : Nat), r.firstFree? count pfn = none ↔
    ∀ f ∈ Finset.Ico pfn (pfn + count), r.hidden f = false → f ∉ r.freeFrames := by
  intro count
  induction count with
  | zero => simp [firstFree?]
  | succ count ih =>
    intro pfn
    rw [firstFree?, ← singleton_union_Ico]
    have hfree := any_isFree_iff (r := r) (f := pfn)
    by_cases hp : (r.page? pfn).any Page.isFree
    · rw [if_pos hp]
      have hp' := hfree.mp hp
      simp only [reduceCtorEq, false_iff]
      intro h
      exact h pfn (Finset.mem_union_left _ (Finset.mem_singleton_self _)) hp'.1 hp'.2
    · rw [if_neg hp, ih]
      constructor
      · intro h f hf hvis
        rcases Finset.mem_union.mp hf with hf | hf
        · rw [Finset.mem_singleton.mp hf] at hvis ⊢
          exact fun hmem => hp (hfree.mpr ⟨hvis, hmem⟩)
        · exact h f hf hvis
      · exact fun h f hf => h f (Finset.mem_union_right _ hf)

/-- The scan for a frame that is not allocated finds none exactly where all frames of the run can
be reached and are allocated. -/
theorem firstNotAllocated?_eq_none_iff : ∀ (count pfn : Nat),
    r.firstNotAllocated? count pfn = none ↔
      ∀ f ∈ Finset.Ico pfn (pfn + count), r.has f = true ∧ f ∉ r.freeFrames := by
  intro count
  induction count with
  | zero => simp [firstNotAllocated?]
  | succ count ih =>
    intro pfn
    rw [firstNotAllocated?, ← singleton_union_Ico]
    have hfree := any_not_isFree_iff (r := r) (f := pfn)
    by_cases hp : (r.page? pfn).any fun page => !page.isFree
    · rw [if_pos hp, ih]
      constructor
      · intro h f hf
        rcases Finset.mem_union.mp hf with hf | hf
        · rw [Finset.mem_singleton.mp hf]
          exact hfree.mp hp
        · exact h f hf
      · exact fun h f hf => h f (Finset.mem_union_right _ hf)
    · rw [if_neg hp]
      simp only [reduceCtorEq, false_iff]
      intro h
      exact hp (hfree.mpr (h pfn (Finset.mem_union_left _ (Finset.mem_singleton_self _))))

end Registry

end BuddySystem
