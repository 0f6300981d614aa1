import BuddySystem.Allocator.Allocation
import BuddySystem.Allocator.Dump
import BuddySystem.Allocator.Run

/-!
# Calls

What can be asked of an allocator, as data: a `Call` and the `Reply` to it.
`Allocator.perform` does what a call asks; since a fault leaves a state behind
like any other outcome, the next call can always follow.
-/

namespace BuddySystem

/-- Something asked of an allocator. -/
inductive Call where
  | insert (start count : Nat)
  | remove (start count : Nat)
  | allocate (order : Nat) (hints : Hints)
  | free (block : Block)
  | totalFree
  | lastOrder
  | blockCount (order : Nat)
  | heads (order : Nat)
  | holds (block : Block)
  | stats
  | dump
  | logDump
deriving DecidableEq

/-- What an allocator replies. -/
inductive Reply where
  | done
  | moved (blocks : List Block)
  | granted (grant : Grant)
  | refused (error : AllocError)
  | number (n : Nat)
  | answer (yes : Bool)
  | heads (pfns : List Nat)
  | stats (stats : Stats)
  | text (text : String)
deriving DecidableEq

namespace Allocator

/-- The heads of the free blocks of an order, which has to be one the allocator has blocks of. -/
def listedHeads (order : Nat) : Op Allocator (List Nat) := do
  Op.ensure (fun a => order ≤ a.lastOrder) fun _ => .orderOutOfRange order
  Op.query fun a => a.heads order

def perform : Call → Op Allocator Reply
  | .insert start count => Reply.moved <$> insertRun start count
  | .remove start count => Reply.moved <$> removeRun start count
  | .allocate order hints => do
    match ← allocate order hints with
    | .ok grant => return .granted grant
    | .error error => return .refused error
  | .free block => do
    free block
    return .done
  | .totalFree => Op.query fun a => .number a.totalFree
  | .lastOrder => Op.query fun a => .number a.lastOrder
  | .blockCount order => Op.query fun a => .number (a.blockCount order)
  | .heads order => Reply.heads <$> listedHeads order
  | .holds block => Reply.answer <$> holds block
  | .stats => Op.query fun a => .stats a.stats
  | .dump => Reply.text <$> Op.compute dump
  | .logDump => do
    logDump
    return .done

end Allocator

end BuddySystem
