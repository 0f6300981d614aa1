import BuddySystem.Hints
import BuddySystem.Word

/-!
# Blocks and buddies

A block of order `o` is the run of `2 ^ o` frames from its head on.  Blocks are
laid out relative to a base frame: the head of an aligned block is a multiple of
`2 ^ o` frames away from it.  Two aligned blocks of order `o` that make up one
of order `o + 1` are **buddies**; their distances from the base differ in bit
`o` alone, which is how `buddyOf` gets one from the other.
-/

namespace BuddySystem

/-- A run of `2 ^ order` frames. -/
structure Block where
  pfn : Nat
  /-- The base-two logarithm of the length. -/
  order : Nat
deriving DecidableEq

namespace Block

variable (b : Block)

def size : Nat := Nat.pow 2 b.order

/-- The number of frames, if it fits into 64 bits. -/
def pageCount : Except Fault Nat := Word.shiftOne b.order

/-- One past the last frame, if it fits into 64 bits. -/
def endPfn : Except Fault Nat := do Word.add b.pfn (← b.pageCount)

/-- Whether the block starts a multiple of its own length away from `base`. -/
def isAligned (base : Nat) : Bool := base ≤ b.pfn && Word.isAligned (b.pfn - base) b.size

/-- The block that makes up the next larger aligned block together with this one. -/
def buddyOf (base : Nat) : Except Fault Block := do
  let offset ← Word.sub b.pfn base
  return { b with pfn := ← Word.add base (offset ^^^ b.size) }

end Block

/-- A block that was handed out, with what its taker asked for. -/
structure Grant extends Block where
  hints : Hints
deriving DecidableEq

end BuddySystem
