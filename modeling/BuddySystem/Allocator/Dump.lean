import BuddySystem.Allocator.Basic

/-!
# Listing the free blocks

`Allocator.dump` writes out every list, one line per order.  A block is shown as
the addresses of its first and its last byte (`Block.byteRange`).
-/

namespace BuddySystem

/-- The bytes from one address to another, both included. -/
structure ByteRange where
  first : Nat
  /-- The address of the last byte. -/
  last : Nat
deriving DecidableEq

def ByteRange.text (range : ByteRange) : String :=
  s!"{hexDigits range.first}--{hexDigits range.last}"

/-- The bytes of a block whose frames are in the registry. -/
def Block.byteRange (registry : Registry) (block : Block) : Except Fault ByteRange := do
  let first ← registry.baseAddress block.pfn
  let length ← Word.mul block.size registry.pageSize
  let stop ← Word.add first length
  return { first, last := ← Word.sub stop 1 }

/-- What is asked of the registry is the size of its pages only. -/
theorem Block.byteRange_congr {r r' : Registry} (h : r'.pageSize = r.pageSize) (block : Block) :
    block.byteRange r' = block.byteRange r := by
  have hfirst : r'.baseAddress block.pfn = r.baseAddress block.pfn :=
    congrArg (Word.mul block.pfn) h
  unfold byteRange
  rw [hfirst, h]

namespace Allocator

def dumpTitle : String := "*** buddy page allocator - free list ***"

/-- The line for the blocks of one order: the order in two digits, then the blocks, each of the two
parts followed by a blank. -/
def dumpLine (order : Nat) (ranges : List ByteRange) : String :=
  let label := if order < 10 then s!"[0{order}] " else s!"[{order}] "
  ranges.foldl (fun line range => line ++ range.text ++ " ") label

variable (a : Allocator)

/-- The bytes of the free blocks of one order, in ascending order. -/
def byteRanges (order : Nat) : Except Fault (List ByteRange) :=
  (a.heads order).mapM fun pfn => Block.byteRange a.registry ⟨pfn, order⟩

def dumpLines : Except Fault (List String) := do
  let lines ← (List.range (a.lastOrder + 1)).mapM fun order =>
    return dumpLine order (← a.byteRanges order)
  return dumpTitle :: lines

/-- The listing of the free blocks. -/
def dump : Except Fault String := do
  let lines ← a.dumpLines
  return lines.foldl (fun text line => text ++ line ++ "\n") ""

def logDump : Op Allocator Unit := do
  let lines ← Op.compute dumpLines
  lines.forM fun line => Op.log (.listing line)

end Allocator

end BuddySystem
