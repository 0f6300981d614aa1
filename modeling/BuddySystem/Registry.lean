import BuddySystem.FrameTable

/-!
# Registries

A registry is a frame table some of whose descriptors may be out of reach.  A
hidden descriptor keeps what it holds and shows it again once it is no longer
hidden; while it is hidden it can be neither read nor written.  Whether a frame
is in the registry's run does not depend on what is hidden.

Besides single reads and writes there are the scans over a run of frames that an
allocator makes: `Registry.mark` writes one state into a run and stops at the
first frame it cannot reach; `firstFree?` and `firstNotAllocated?` look for a
frame that stands in the way.  `Registry.chain` follows the links from one descriptor
to the next.
-/

namespace BuddySystem

/-- A frame table with some descriptors hidden. -/
structure Registry where
  table : FrameTable
  /-- The frames whose descriptors cannot be reached. -/
  hidden : Nat → Bool

namespace Registry

/-- The registry that shows all of a table. -/
def ofTable (table : FrameTable) : Registry := { table, hidden := fun _ => false }

def hide (r : Registry) (hidden : Nat → Bool) : Registry := { r with hidden }

variable (r : Registry)

def base : Nat := r.table.base

/-- The number of frames, hidden ones included. -/
def frameCount : Nat := r.table.frameCount

def pageSize : Nat := r.table.pageSize

def contains (pfn : Nat) : Bool := r.table.contains pfn

def baseAddress (pfn : Nat) : Except Fault Nat := r.table.baseAddress pfn

/-- The descriptor of a frame, if it can be reached. -/
def page? (pfn : Nat) : Option Page := if r.hidden pfn then none else r.table.page? pfn

/-- Whether a frame has a descriptor that can be reached. -/
def has (pfn : Nat) : Bool := (r.page? pfn).isSome

/-- The registry with the descriptor of one frame changed, if it can be reached. -/
def modify (pfn : Nat) (f : Page → Page) : Registry :=
  if r.hidden pfn then r else { r with table := r.table.modify pfn f }

/-! ### Runs of frames -/

/-- Writes a state into the `count` frames from `pfn` on.  The first frame that cannot be reached
ends the run; it is answered, and the frames before it stay written. -/
def mark (state : PageState) : Nat → Nat → Registry → Registry × Option Nat
  | 0, _, r => (r, none)
  | count + 1, pfn, r =>
    if r.has pfn then mark state count (pfn + 1) (r.modify pfn (Page.setState state))
    else (r, some pfn)

/-- The first of the `count` frames from `pfn` on that is free.  Frames that cannot be reached are
passed over. -/
def firstFree? : Nat → Nat → Option Nat
  | 0, _ => none
  | count + 1, pfn =>
    if (r.page? pfn).any Page.isFree then some pfn else firstFree? count (pfn + 1)

/-- The first of the `count` frames from `pfn` on that is not allocated, being free or out of
reach. -/
def firstNotAllocated? : Nat → Nat → Option Nat
  | 0, _ => none
  | count + 1, pfn =>
    if (r.page? pfn).any fun page => !page.isFree then firstNotAllocated? count (pfn + 1)
    else some pfn

/-! ### Links -/

/-- The link of a frame, if its descriptor can be reached. -/
def next? (pfn : Nat) : Option Nat := (r.page? pfn).bind Page.nextFree

/-- The frames met by following links from a frame on, at most `budget` of them.  A frame whose
descriptor cannot be reached is the last one. -/
def chain : Nat → Option Nat → List Nat
  | 0, _ => []
  | _ + 1, none => []
  | budget + 1, some pfn => pfn :: chain budget (r.next? pfn)

/-! ### The view -/

@[simp] theorem base_modify (pfn : Nat) (f : Page → Page) : (r.modify pfn f).base = r.base := by
  unfold modify base; split <;> simp

@[simp] theorem frameCount_modify (pfn : Nat) (f : Page → Page) :
    (r.modify pfn f).frameCount = r.frameCount := by
  unfold modify frameCount; split <;> simp

@[simp] theorem pageSize_modify (pfn : Nat) (f : Page → Page) :
    (r.modify pfn f).pageSize = r.pageSize := by
  unfold modify pageSize; split <;> simp

@[simp] theorem hidden_modify (pfn : Nat) (f : Page → Page) :
    (r.modify pfn f).hidden = r.hidden := by
  unfold modify; split <;> rfl

/-- **A change of one descriptor is seen at its frame and nowhere else.** -/
theorem page?_modify (pfn : Nat) (f : Page → Page) (q : Nat) :
    (r.modify pfn f).page? q = if q = pfn then (r.page? q).map f else r.page? q := by
  unfold modify page?
  by_cases hp : r.hidden pfn
  · by_cases hq : q = pfn
    · subst hq; simp [hp]
    · simp [hp, hq]
  · by_cases hq : q = pfn
    · subst hq; simp [hp, FrameTable.page?_modify]
    · simp [hp, hq, FrameTable.page?_modify]

end Registry

end BuddySystem
