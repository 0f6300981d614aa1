import BuddySystem.Exhaustion.Line
import BuddySystem.Hex

/-!
# What is logged

An operation records events.  An event is kept as what happened, with the frame
numbers and counts that belong to it; `Event.level` says how grave it is and
`Event.message` puts it into words.

How much is recorded is set by a `Verbosity`: nothing at all, or every event at
least as grave as a given level.
-/

namespace BuddySystem

/-- How grave an event is. -/
inductive Level where
  | error
  | warn
  | info
  | debug
  | trace
deriving DecidableEq

def Level.rank : Level → Nat
  | .error => 0
  | .warn => 1
  | .info => 2
  | .debug => 3
  | .trace => 4

def Level.name : Level → String
  | .error => "ERROR"
  | .warn => "WARN"
  | .info => "INFO"
  | .debug => "DEBUG"
  | .trace => "TRACE"

/-- The least grave level that is still recorded; with `none`, nothing is. -/
abbrev Verbosity := Option Level

/-- Whether events of this level are recorded. -/
def Verbosity.shows : Verbosity → Level → Bool
  | none, _ => false
  | some least, level => level.rank ≤ least.rank

/-- Something that happened during an operation. -/
inductive Event where
  /-- Looking for the place of a new block took more steps than the list is long. -/
  | insertCycle (pfn : Nat)
  /-- Looking for the place of a new block led to a frame without descriptor. -/
  | brokenLink (frame : Nat)
  /-- Looking for a block took more steps than the list is long. -/
  | searchCycle (pfn : Nat)
  | exhaustion (line : Exhaustion.Line)
  | insertedNothing (start : Nat)
  | removedNothing (start : Nat)
  | listing (line : String)
  | inserted (count start free : Nat)
  | removed (count start free : Nat)
  | orderRefused (order lastOrder : Nat)
  | exhausted (order free : Nat)
  | split (pfn order upper : Nat)
  | merged (pfn buddy order : Nat)
deriving DecidableEq

namespace Event

def level : Event → Level
  | .insertCycle _ | .brokenLink _ | .searchCycle _ | .exhaustion _ => .error
  | .insertedNothing _ | .removedNothing _ => .warn
  | .listing _ => .info
  | .inserted .. | .removed .. | .orderRefused .. | .exhausted .. => .debug
  | .split .. | .merged .. => .trace

/-- The words for an event. -/
def message : Event → String
  | .insertCycle pfn => s!"Potential cycle detected during insert of pfn {hexLiteral pfn}"
  | .brokenLink frame => s!"Invalid frame {hexLiteral frame} linked in free list"
  | .searchCycle pfn => s!"Potential cycle detected during search for pfn {hexLiteral pfn}"
  | .exhaustion line => line.text
  | .insertedNothing start => s!"buddy allocator: inserting 0 pages at pfn {hexLiteral start}"
  | .removedNothing start => s!"buddy allocator: removing 0 pages at pfn {hexLiteral start}"
  | .listing line => line
  | .inserted count start free =>
    s!"buddy allocator: inserted {count} pages at pfn {hexLiteral start}, {free} free"
  | .removed count start free =>
    s!"buddy allocator: removed {count} pages at pfn {hexLiteral start}, {free} free"
  | .orderRefused order lastOrder =>
    s!"buddy allocator: order {order} exceeds last order {lastOrder}"
  | .exhausted order free =>
    s!"buddy allocator: allocation failure: order {order}, {free} pages free"
  | .split pfn order upper =>
    s!"buddy allocator: split {hexLiteral pfn} order {order}" ++
      s!" -> {hexLiteral pfn}, {hexLiteral upper}"
  | .merged pfn buddy order =>
    s!"buddy allocator: merged {hexLiteral pfn} and {hexLiteral buddy} into order {order}"

end Event

end BuddySystem
