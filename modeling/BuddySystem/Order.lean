/-!
# Orders

A block of order `o` is a run of `2 ^ o` frames.  Orders run from `0` to
`maxOrder`, so one list of free blocks per order is `maxOrder + 1` lists.
-/

namespace BuddySystem

/-- The largest order a block may have. -/
def maxOrder : Nat := 16

end BuddySystem
