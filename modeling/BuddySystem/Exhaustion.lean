import BuddySystem.Op
import BuddySystem.Stats

/-!
# Reporting exhaustion

`Exhaustion.report` records the report on a request for which there was no
block.  Its sizes are products that need not fit into 64 bits.  Those of a line
are computed only if the line is recorded, so at a verbosity that records no
errors only the sizes of single blocks, which are computed on the way from one
order to the next, can end the report in a fault.
-/

namespace BuddySystem.Exhaustion

variable {σ : Type}

/-- Records a line whose numbers have yet to be computed. -/
def logLine (line : Except Fault Line) : Op σ Unit :=
  Op.logComputed .error (line.map Event.exhaustion)

def requestLine (pageSize order : Nat) : Except Fault Line := do
  let pages ← Word.shiftOne order
  let bytes ← Word.mul pages pageSize
  return .request order pages (bytes / 1024)

def freeLine (pageSize freePages : Nat) : Except Fault Line := do
  let bytes ← Word.mul freePages pageSize
  return .freePages freePages (bytes / 1024)

/-- The line on `count` free blocks of `blockSize` bytes each. -/
def blocksLine (order count blockSize : Nat) : Except Fault Line := do
  let bytes ← Word.mul count blockSize
  return .blocks order count (blockSize / 1024) (bytes / 1024)

/-- Records the lines on the free blocks of the orders below `orders`, from the largest down. -/
def reportOrders (pageSize : Nat) (stats : Stats) : Nat → Op σ Unit
  | 0 => pure ()
  | order + 1 => do
    let count ← Op.compute fun _ => stats.blocksOf order
    if 0 < count then
      let pages ← Op.compute fun _ => Word.shiftOne order
      let blockSize ← Op.compute fun _ => Word.mul pages pageSize
      logLine (blocksLine order count blockSize)
    reportOrders pageSize stats order

def report (pageSize lastOrder : Nat) (stats : Stats) (order : Nat) : Op σ Unit := do
  logLine (.ok .rule)
  logLine (requestLine pageSize order)
  logLine (freeLine pageSize stats.freePages)
  logLine (.ok (.requests stats.allocations stats.frees stats.failedAllocations))
  logLine (.ok (.restructurings stats.splits stats.merges))
  logLine (.ok .heading)
  reportOrders pageSize stats (lastOrder + 1)
  logLine (.ok .rule)

end BuddySystem.Exhaustion
