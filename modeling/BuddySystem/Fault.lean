import BuddySystem.Hex
import BuddySystem.Order

/-!
# Faults

A fault ends an operation at the point where it arises; what the operation has
written by then stays written.  There is one constructor per cause, with the
numbers that belong to it, and `Fault.message` is the only place that puts a
cause into words.

`AllocError` is different: it is an answer.  A request for a block can be
refused without anything being wrong.
-/

namespace BuddySystem

/-- The arithmetic that can leave the range of a 64-bit word. -/
inductive Arithmetic where
  | addition
  | subtraction
  | multiplication
  | leftShift
deriving DecidableEq

def Arithmetic.name : Arithmetic → String
  | .addition => "add"
  | .subtraction => "subtract"
  | .multiplication => "multiply"
  | .leftShift => "shift left"

/-- The ways to hand a block to the free lists or take it from them that check
its order and its alignment. -/
inductive BlockAction where
  | insert
  | remove
  | free
deriving DecidableEq

def BlockAction.name : BlockAction → String
  | .insert => "insert"
  | .remove => "remove"
  | .free => "free"

/-- Why an operation ended early. -/
inductive Fault where
  | overflow (operation : Arithmetic)
  /-- No piece of memory can have room for the descriptors of a table. -/
  | tableTooLarge
  /-- There is no count of blocks for this order. -/
  | orderIndex (order : Nat)
  | lastOrderTooLarge (lastOrder : Nat)
  | orderOutOfRange (order : Nat)
  | orderAboveLast (action : BlockAction) (order lastOrder : Nat)
  /-- The block does not start at a multiple of its own length. -/
  | misaligned (action : BlockAction) (pfn order : Nat)
  /-- The list of this order did not take the block. -/
  | notInserted (pfn order : Nat)
  | notListed (pfn order : Nat)
  | missingPage (pfn : Nat)
  | splitOrder (order : Nat)
  | mergeOrder (order : Nat)
  /-- An end of the run is outside the registry. -/
  | rangeOutside (start stop : Nat)
  | alreadyFree (pfn : Nat)
  /-- The run to be removed reaches a frame that heads no free block. -/
  | noFreeBlock (pfn : Nat)
  /-- A free block of the run to be removed extends past its end. -/
  | blockPastEnd (pfn order stop : Nat)
  | doubleFree (frame pfn order : Nat)
  | freeMissingPage (pfn : Nat)
deriving DecidableEq

/-- The text that reports a fault. -/
def Fault.message : Fault → String
  | .overflow operation => s!"attempt to {operation.name} with overflow"
  | .tableTooLarge => "capacity overflow"
  | .orderIndex order => s!"index out of bounds: the len is {maxOrder + 1} but the index is {order}"
  | .lastOrderTooLarge lastOrder => s!"last order {lastOrder} exceeds maximum order {maxOrder}"
  | .orderOutOfRange order => s!"order {order} out of range"
  | .orderAboveLast action order lastOrder =>
    s!"{action.name}: order {order} exceeds last order {lastOrder}"
  | .misaligned action pfn order =>
    s!"{action.name}: pfn {hexLiteral pfn} is not aligned for order {order}"
  | .notInserted pfn order =>
    s!"insert: pfn {hexLiteral pfn} already linked at order {order} or not in registry"
  | .notListed pfn order => s!"remove: pfn {hexLiteral pfn} is not a free block at order {order}"
  | .missingPage pfn => s!"pfn {hexLiteral pfn} is not in the page registry"
  | .splitOrder order => s!"split: order {order} out of range"
  | .mergeOrder order => s!"merge: order {order} out of range"
  | .rangeOutside start stop =>
    s!"insert: range [{hexLiteral start}, {hexLiteral stop}) is not in the page registry"
  | .alreadyFree pfn => s!"insert: pfn {hexLiteral pfn} is already free"
  | .noFreeBlock pfn => s!"remove: pfn {hexLiteral pfn} does not head a free block"
  | .blockPastEnd pfn order stop =>
    s!"remove: free block {hexLiteral pfn} order {order}" ++
      s!" extends past end of range {hexLiteral stop}"
  | .doubleFree frame pfn order =>
    s!"free: double free of pfn {hexLiteral frame} in block {hexLiteral pfn} order {order}"
  | .freeMissingPage pfn => s!"free: pfn {hexLiteral pfn} is not in the page registry"

/-- Why a request for a block is refused. -/
inductive AllocError where
  | invalidOrder
  | noMemory
deriving DecidableEq

def AllocError.message : AllocError → String
  | .invalidOrder => "invalid block order"
  | .noMemory => "out of memory"

end BuddySystem
