import BuddySystem.Order
import BuddySystem.Word

/-!
# Statistics

An allocator counts what it does (`Counters`).  A snapshot (`Stats`) adds how
many pages are free and how many free blocks there are of each order;
`Stats.pagesInOrder` recomputes from the latter the pages that one order holds.
-/

namespace BuddySystem

/-- What an allocator has done so far. -/
structure Counters where
  allocations : Nat
  frees : Nat
  splits : Nat
  merges : Nat
  failedAllocations : Nat
deriving DecidableEq

def Counters.zero : Counters :=
  { allocations := 0, frees := 0, splits := 0, merges := 0, failedAllocations := 0 }

/-- A snapshot of an allocator. -/
structure Stats extends Counters where
  freePages : Nat
  /-- The free blocks of each order. -/
  blocksByOrder : Vector Nat (maxOrder + 1)
deriving DecidableEq

namespace Stats

def zero : Stats :=
  { Counters.zero with freePages := 0, blocksByOrder := Vector.replicate (maxOrder + 1) 0 }

/-- The free blocks of one order, if there is a count for it. -/
def blocksOf (stats : Stats) (order : Nat) : Except Fault Nat :=
  match stats.blocksByOrder[order]? with
  | some count => .ok count
  | none => .error (.orderIndex order)

def pagesInOrder (stats : Stats) (order : Nat) : Except Fault Nat := do
  Word.mul (← stats.blocksOf order) (← Word.shiftOne order)

end Stats

end BuddySystem
