import BuddySystem.Allocator.FreeBlock
import BuddySystem.Exhaustion

/-!
# Allocating and freeing blocks

`allocate` takes the lowest of the smallest free blocks that are large enough and
splits it down to the order asked for, always keeping the lower half.  `free`
takes a block back and merges it with its buddy, then the larger block with its
buddy, for as long as the buddy is free.  Allocating never merges and freeing
never splits.
-/

namespace BuddySystem.Allocator

/-! ### Allocating -/

/-- Splits the free block of order `order + splits` that starts at `pfn` down to `order`, keeping
the lower half each time. -/
def splitDown (pfn order : Nat) : Nat → Op Allocator Unit
  | 0 => pure ()
  | splits + 1 => do
    split ⟨pfn, order + splits + 1⟩
    splitDown pfn order splits

/-- Hands out the lower end of a free block of at least the given order. -/
def grant (source : Block) (order : Nat) (hints : Hints) : Op Allocator Grant := do
  let block : Block := ⟨source.pfn, order⟩
  splitDown block.pfn order (source.order - order)
  delist block
  mark .allocated block.size block.pfn
  countAllocation
  return { block with hints }

def reportExhaustion (order : Nat) : Op Allocator Unit := do
  let pageSize ← Op.query fun a => a.registry.pageSize
  let lastOrder ← Op.query fun a => a.lastOrder
  let stats ← Op.query stats
  Exhaustion.report pageSize lastOrder stats order

/-- Hands out a block of the given order, if there is one. -/
def allocate (order : Nat) (hints : Hints) : Op Allocator (Except AllocError Grant) := do
  let lastOrder ← Op.query fun a => a.lastOrder
  if lastOrder < order then
    Op.log (.orderRefused order lastOrder)
    return .error .invalidOrder
  else
    match ← Op.query fun a => a.lowest? order with
    | some source => return .ok (← grant source order hints)
    | none =>
      let totalFree ← Op.query fun a => a.totalFree
      Op.log (.exhausted order totalFree)
      countFailure
      reportExhaustion order
      return .error .noMemory

/-! ### Freeing -/

/-- Ends in a fault unless all frames of a block are allocated. -/
def ensureAllocated (block : Block) : Op Allocator Unit :=
  Op.compute fun a =>
    match a.registry.firstNotAllocated? block.size block.pfn with
    | none => .ok ()
    | some frame =>
      .error <|
        if a.registry.has frame then .doubleFree frame block.pfn block.order
        else .freeMissingPage frame

/-- Merges a free block with its buddy, and the larger block again, at most `merges` times. -/
def mergeUp : Nat → Block → Op Allocator Unit
  | 0, _ => pure ()
  | merges + 1, block => do
    match ← merge block with
    | some merged => mergeUp merges merged
    | none => pure ()

/-- Takes back a block that was handed out. -/
def free (block : Block) : Op Allocator Unit := do
  ensureFits .free block
  let _ ← Op.compute fun _ => Word.add block.pfn block.size
  ensureAllocated block
  mark .free block.size block.pfn
  enlist block
  countFree
  let lastOrder ← Op.query fun a => a.lastOrder
  mergeUp (lastOrder - block.order) block

end BuddySystem.Allocator
