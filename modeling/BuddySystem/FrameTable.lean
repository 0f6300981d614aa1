import BuddySystem.Page
import BuddySystem.Word

/-!
# Frame tables

A frame table holds the descriptors of a run of consecutive frames.  It ends
below `Word.limit`, so the number one past its last frame is still a 64-bit
number; `FrameTable.create` refuses any other run.  It also refuses a run of more
than `maxFrames` frames, for which no piece of memory is large enough.  Whether
there is as much memory as a smaller run needs is not asked.

A table is read through `FrameTable.page?` only, and `page?_modify` says what a
change of one descriptor does to that view.
-/

namespace BuddySystem

/-- The descriptors of the frames from `base` on. -/
structure FrameTable where
  base : Nat
  pages : Array Page
  pageSize : Nat
  base_add_size_lt : base + pages.size < Word.limit

/-- The usual number of bytes in a frame. -/
def defaultPageSize : Nat := 4096

namespace FrameTable

/-- The largest number of descriptors in a table.  They lie in one piece of memory, and such a piece
has fewer than `2 ^ 63` bytes. -/
def maxFrames : Nat := (Nat.pow 2 63 - 1) / Page.width

/-- The table of `count` fresh frames from `base` on. -/
def create (pageSize base count : Nat) : Except Fault FrameTable :=
  if h : base + count < Word.limit then
    if count ≤ maxFrames then
      .ok {
        base
        pages := Array.ofFn fun i : Fin count => Page.fresh (base + i)
        pageSize
        base_add_size_lt := by simpa using h }
    else .error .tableTooLarge
  else .error (.overflow .addition)

/-- The table of the whole pages in the `size` bytes from address `start` on.  The start is
rounded up and the end rounded down to a multiple of the page size. -/
def ofRegion (pageSize start size : Nat) : Except Fault FrameTable := do
  let padded ← Word.add start pageSize
  let stop ← Word.add start size
  let firstByte := Word.clear (padded - 1) (pageSize - 1)
  let lastByte := Word.clear stop (pageSize - 1)
  create pageSize (firstByte / pageSize) ((lastByte - firstByte) / pageSize)

variable (t : FrameTable)

def frameCount : Nat := t.pages.size

/-- Whether a frame is in the run that the table describes. -/
def contains (pfn : Nat) : Bool := t.base ≤ pfn && pfn - t.base < t.frameCount

def page? (pfn : Nat) : Option Page := if t.base ≤ pfn then t.pages[pfn - t.base]? else none

/-- The table with the descriptor of one frame changed. -/
def modify (pfn : Nat) (f : Page → Page) : FrameTable :=
  if t.base ≤ pfn then
    { t with
      pages := t.pages.modify (pfn - t.base) f
      base_add_size_lt := by simpa using t.base_add_size_lt }
  else t

/-- The frame that holds a byte address. -/
def pfnOf (address : Nat) : Nat := address / t.pageSize

/-- The address of the first byte of a frame. -/
def baseAddress (pfn : Nat) : Except Fault Nat := Word.mul pfn t.pageSize

/-! ### The view -/

@[simp] theorem base_modify (pfn : Nat) (f : Page → Page) : (t.modify pfn f).base = t.base := by
  unfold modify; split <;> rfl

@[simp] theorem pageSize_modify (pfn : Nat) (f : Page → Page) :
    (t.modify pfn f).pageSize = t.pageSize := by
  unfold modify; split <;> rfl

@[simp] theorem frameCount_modify (pfn : Nat) (f : Page → Page) :
    (t.modify pfn f).frameCount = t.frameCount := by
  unfold modify frameCount; split <;> simp

/-- The descriptors are exactly those of the frames in the run. -/
theorem isSome_page? (pfn : Nat) : (t.page? pfn).isSome = t.contains pfn := by
  unfold page? contains frameCount
  by_cases h : t.base ≤ pfn
  · by_cases hlt : pfn - t.base < t.pages.size <;> simp [h, hlt]
  · simp [h]

/-- What a new table is made of. -/
theorem fields_of_create {pageSize base count : Nat} {t : FrameTable}
    (h : create pageSize base count = .ok t) :
    t.base = base ∧ t.pages = (Array.ofFn fun i : Fin count => Page.fresh (base + i)) ∧
      t.pageSize = pageSize := by
  unfold create at h
  split at h
  · split at h
    · obtain rfl := Except.ok.inj h
      exact ⟨rfl, rfl, rfl⟩
    · cases h
  · cases h

theorem run_of_create {pageSize base count : Nat} {t : FrameTable}
    (h : create pageSize base count = .ok t) :
    t.base = base ∧ t.frameCount = count ∧ t.pageSize = pageSize := by
  obtain ⟨hbase, hpages, hsize⟩ := fields_of_create h
  rw [frameCount, hpages]
  exact ⟨hbase, Array.size_ofFn, hsize⟩

/-- The frames of a new table are fresh. -/
theorem page?_of_create {pageSize base count : Nat} {t : FrameTable}
    (h : create pageSize base count = .ok t) (pfn : Nat) :
    t.page? pfn = if base ≤ pfn ∧ pfn < base + count then some (Page.fresh pfn) else none := by
  obtain ⟨hbase, hpages, _⟩ := fields_of_create h
  rw [page?, hbase, hpages]
  by_cases hle : base ≤ pfn
  · rw [if_pos hle, Array.getElem?_ofFn]
    by_cases hlt : pfn < base + count
    · rw [dif_pos (by omega), if_pos ⟨hle, hlt⟩, Nat.add_sub_cancel' hle]
    · rw [dif_neg (by omega), if_neg fun h => hlt h.2]
  · rw [if_neg hle, if_neg fun h => hle h.1]

theorem exists_create (pageSize : Nat) {base count : Nat} (hlt : base + count < Word.limit)
    (hcount : count ≤ maxFrames) : ∃ t, create pageSize base count = .ok t := by
  rw [create, dif_pos hlt, if_pos hcount]
  exact ⟨_, rfl⟩

/-- More descriptors than can lie in one piece of memory are a fault. -/
theorem create_of_lt {pageSize base count : Nat} (hlt : base + count < Word.limit)
    (hcount : maxFrames < count) : create pageSize base count = .error .tableTooLarge := by
  rw [create, dif_pos hlt, if_neg (Nat.not_le.mpr hcount)]

/-- **A change of one descriptor is seen at its frame and nowhere else.** -/
theorem page?_modify (pfn : Nat) (f : Page → Page) (q : Nat) :
    (t.modify pfn f).page? q = if q = pfn then (t.page? q).map f else t.page? q := by
  unfold modify
  split
  · rename_i h
    simp only [page?, Array.getElem?_modify]
    by_cases hq : q = pfn
    · subst hq; simp [h]
    · by_cases hb : t.base ≤ q
      · have : pfn - t.base ≠ q - t.base := by omega
        simp [hq, this]
      · simp [hq, hb]
  · rename_i h
    by_cases hq : q = pfn
    · subst hq; simp [page?, h]
    · simp [hq]

end FrameTable

end BuddySystem
