/-!
# Hints

A request for a block can carry hints for whoever maps the block.  An allocator
does not look at them and hands them on as they came.

Hints are sets of bits.  Two bits have a meaning and a name; the others are kept
by every operation except `Hints.complement`, which knows the named ones only.
-/

namespace BuddySystem

/-- A set of hints. -/
structure Hints where
  bits : UInt32
deriving DecidableEq

namespace Hints

def empty : Hints := ⟨0⟩

/-- The contents should be zeroed before use. -/
def zero : Hints := ⟨1⟩

/-- The block is meant for a device. -/
def dma : Hints := ⟨2⟩

/-- The hints that have a name, in the order of their bits. -/
def named : List (String × Hints) := [("ZERO", zero), ("DMA", dma)]

variable (a b : Hints)

def union : Hints := ⟨a.bits ||| b.bits⟩

def intersection : Hints := ⟨a.bits &&& b.bits⟩

def difference : Hints := ⟨a.bits &&& ~~~b.bits⟩

/-- The hints in just one of `a` and `b`. -/
def symmetricDifference : Hints := ⟨a.bits ^^^ b.bits⟩

/-- All hints that have a name. -/
def all : Hints := named.foldl (fun hints flag => hints.union flag.2) empty

/-- The hints of `a` that have a name. -/
def truncate : Hints := a.intersection all

/-- The hints that have a name and are not in `a`. -/
def complement : Hints := all.difference a

def isEmpty : Bool := a = empty

def contains : Bool := a.intersection b = b

def intersects : Bool := !(a.intersection b).isEmpty

def isAll : Bool := a.contains all

def names : List String := (named.filter fun flag => a.contains flag.2).map Prod.fst

/-- The hints with these bits, if all of them have a name. -/
def ofBits? (bits : UInt32) : Option Hints :=
  let hints : Hints := ⟨bits⟩
  if all.contains hints then some hints else none

end Hints

end BuddySystem
