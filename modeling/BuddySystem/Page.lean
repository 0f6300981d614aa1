/-!
# Page descriptors

Every frame that an allocator manages has a descriptor: whether the frame is
free, and, while it heads a free block that a list holds, the head that follows
it in that list.
-/

namespace BuddySystem

/-- Whether a frame may be handed out. -/
inductive PageState where
  | free
  | allocated
deriving DecidableEq

def PageState.name : PageState → String
  | .free => "free"
  | .allocated => "allocated"

/-- The descriptor of one frame. -/
structure Page where
  pfn : Nat
  state : PageState
  /-- The next head in the list that holds the frame. -/
  nextFree : Option Nat
deriving DecidableEq

namespace Page

/-- The number of bytes that a descriptor takes up in memory. -/
def width : Nat := 32

/-- The descriptor of a frame that no one has handed to an allocator yet. -/
def fresh (pfn : Nat) : Page := { pfn, state := .allocated, nextFree := none }

def isFree (page : Page) : Bool := page.state = .free

def setState (state : PageState) (page : Page) : Page := { page with state }

def setNext (next : Option Nat) (page : Page) : Page := { page with nextFree := next }

end Page

end BuddySystem
