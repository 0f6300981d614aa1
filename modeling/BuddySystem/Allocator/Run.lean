import BuddySystem.Allocator.FreeBlock

/-!
# Runs of frames

`insertRun` hands a run of frames to the allocator and `removeRun` withdraws one.
A run handed over is carved from its start into the largest aligned blocks that
fit, without regard to the free blocks around it; a run can be withdrawn if it is
made up of whole free blocks.  Both answer with the blocks, in ascending order.
-/

namespace BuddySystem.Allocator

/-! ### Handing over -/

/-- Ends in a fault if a frame of the run is free. -/
def ensureNoneFree (count start : Nat) : Op Allocator Unit :=
  Op.compute fun a =>
    match a.registry.firstFree? count start with
    | none => .ok ()
    | some pfn => .error (.alreadyFree pfn)

/-- The largest order up to the given one at which a block that starts at `pfn` is aligned and ends
by `stop`, or zero. -/
def fittingOrder (base stop pfn : Nat) : Nat → Except Fault Nat
  | 0 => .ok 0
  | order + 1 => do
    let block : Block := ⟨pfn, order + 1⟩
    let last ← Word.add pfn block.size
    if last ≤ stop && block.isAligned base then return block.order
    else fittingOrder base stop pfn order

/-- Lists the run from `pfn` to `stop` as free blocks.  Every block holds at least one page, so a
budget of `stop - pfn` blocks is enough. -/
def carve (stop : Nat) : Nat → Nat → Op Allocator (List Block)
  | 0, _ => return []
  | budget + 1, pfn =>
    if pfn < stop then do
      let order ← Op.compute fun a => fittingOrder a.base stop pfn a.lastOrder
      let block : Block := ⟨pfn, order⟩
      enlist block
      return block :: (← carve stop budget (pfn + block.size))
    else
      return []

/-- Hands over the `count` frames from `start` on.  None of them may be free. -/
def insertRun (start count : Nat) : Op Allocator (List Block) := do
  if count = 0 then
    Op.log (.insertedNothing start)
    return []
  else
    let stop ← Op.compute fun _ => Word.add start count
    Op.ensure (fun a => a.registry.contains start ∧ a.registry.contains (stop - 1)) fun _ =>
      .rangeOutside start stop
    ensureNoneFree count start
    mark .free count start
    let blocks ← carve stop count start
    let totalFree ← Op.query fun a => a.totalFree
    Op.log (.inserted count start totalFree)
    return blocks

/-! ### Withdrawing -/

/-- Takes the free blocks that make up the run from `pfn` to `stop` off the lists.  Every block
holds at least one page, so a budget of `stop - pfn` blocks is enough. -/
def withdraw (stop : Nat) : Nat → Nat → Op Allocator (List Block)
  | 0, _ => return []
  | budget + 1, pfn =>
    if pfn < stop then do
      match ← headedOrder? pfn with
      | none => Op.fail (.noFreeBlock pfn)
      | some order =>
        let block : Block := ⟨pfn, order⟩
        let last ← Op.compute fun _ => Word.add pfn block.size
        Op.ensure (fun _ => last ≤ stop) fun _ => .blockPastEnd pfn order stop
        delist block
        mark .allocated block.size pfn
        return block :: (← withdraw stop budget last)
    else
      return []

/-- Withdraws the `count` frames from `start` on.  They must be whole free blocks. -/
def removeRun (start count : Nat) : Op Allocator (List Block) := do
  if count = 0 then
    Op.log (.removedNothing start)
    return []
  else
    let stop ← Op.compute fun _ => Word.add start count
    let blocks ← withdraw stop count start
    let totalFree ← Op.query fun a => a.totalFree
    Op.log (.removed count start totalFree)
    return blocks

end BuddySystem.Allocator
