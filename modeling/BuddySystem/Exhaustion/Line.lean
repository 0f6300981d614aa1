/-!
# The lines of an exhaustion report

When no free block is large enough for a request, a report goes to the log: what
was asked for, how many pages are free, what the allocator has done so far, and
how many free blocks there are of each order.  A line is kept as the numbers it
shows; `Line.text` puts them into words.
-/

namespace BuddySystem.Exhaustion

/-- A line of the report.  Sizes are in units of 1024 bytes. -/
inductive Line where
  | rule
  | request (order pages size : Nat)
  | freePages (pages size : Nat)
  | requests (allocations frees failed : Nat)
  | restructurings (splits merges : Nat)
  | heading
  | blocks (order count sizeEach sizeTotal : Nat)
deriving DecidableEq

def Line.text : Line → String
  | .rule => "========================================"
  | .request order pages size => s!"Request: order {order} ({pages} pages, {size} KB)"
  | .freePages pages size => s!"  Free pages: {pages} ({size} KB)"
  | .requests allocations frees failed =>
    s!"  Allocations: {allocations}, frees: {frees}, failed: {failed}"
  | .restructurings splits merges => s!"  Splits: {splits}, merges: {merges}"
  | .heading => "  Free blocks by order:"
  | .blocks order count sizeEach sizeTotal =>
    s!"    Order {order}: {count} blocks ({sizeEach} KB each, {sizeTotal} KB total)"

end BuddySystem.Exhaustion
