import BuddySystem.Op
import BuddySystem.Registry

/-!
# Free lists

A free list is an ascending chain of frames threaded through their descriptors:
it keeps its first frame and its length, and each descriptor names the frame that
follows.  `FreeList.heads` reads the frames off.

The links are shared by all lists over one registry, so a list can find them out
of order, broken or circular.  `Registry.locate` therefore looks for a frame under
a budget and says what it finds: the frame itself, the gap where it belongs, a
frame without descriptor, or that the budget ran out.  `insert`, `remove` and
`contains` act on the answer; the first two change nothing unless they answer
`true`.
-/

namespace BuddySystem

/-- An ascending chain of frames. -/
structure FreeList where
  head : Option Nat
  len : Nat
deriving DecidableEq

/-- What the search for a frame in a chain comes to. -/
inductive Position where
  /-- The chain holds the frame, after `prev`. -/
  | linked (prev : Option Nat)
  /-- The chain does not hold the frame, which belongs between `prev` and `next`. -/
  | gap (prev next : Option Nat)
  /-- The chain is longer than it should be. -/
  | cycle
  /-- The chain leads to a frame whose descriptor cannot be reached. -/
  | broken (frame : Nat)
deriving DecidableEq

/-- Looks for `pfn` in the chain that starts with the third argument and follows the second one,
passing at most `budget` frames on the way.  The search ends at the first frame that is not below
`pfn`. -/
def Registry.locate (r : Registry) (pfn : Nat) : Nat → Option Nat → Option Nat → Position
  | _, prev, none => .gap prev none
  | 0, _, some _ => .cycle
  | budget + 1, prev, some frame =>
    if frame = pfn then .linked prev
    else if pfn < frame then .gap prev (some frame)
    else
      match r.page? frame with
      | none => .broken frame
      | some page => locate r pfn budget (some frame) page.nextFree

/-- A free list and the registry that holds its links. -/
structure Threaded where
  list : FreeList
  registry : Registry

namespace Threaded

/-- Looks for a frame in the list.  A list of length `n` is followed for `n + 1` frames. -/
def locate (t : Threaded) (pfn : Nat) : Position :=
  t.registry.locate pfn (t.list.len + 1) none t.list.head

/-- Makes the list lead to `next` after `prev`. -/
def relink (prev next : Option Nat) (t : Threaded) : Threaded :=
  match prev with
  | none => { t with list := { t.list with head := next } }
  | some frame => { t with registry := t.registry.modify frame (Page.setNext next) }

/-- Puts a frame between `prev` and `next`. -/
def link (pfn : Nat) (prev next : Option Nat) (t : Threaded) : Threaded :=
  relink prev (some pfn) { t with registry := t.registry.modify pfn (Page.setNext next) }

/-- Takes out the frame after `prev` and clears its link. -/
def unlink (pfn : Nat) (prev : Option Nat) (t : Threaded) : Threaded :=
  let next := t.registry.next? pfn
  relink prev next { t with registry := t.registry.modify pfn (Page.setNext none) }

def setLen (len : Nat) (t : Threaded) : Threaded := { t with list := { t.list with len } }

end Threaded

namespace FreeList

def empty : FreeList := { head := none, len := 0 }

def isEmpty (l : FreeList) : Bool := l.head.isNone

/-- The first frames of the list, at most `budget` of them. -/
def headsUpTo (budget : Nat) (l : FreeList) (r : Registry) : List Nat := r.chain budget l.head

/-- The frames of the list.  Links ascend, so that there is at most one frame for every frame of
the registry, and one without descriptor at the end. -/
def heads (l : FreeList) (r : Registry) : List Nat := l.headsUpTo (r.frameCount + 1) r

/-- Puts a frame into the list.  Answers `false` if the list holds it already, if it has no
descriptor, or if the links do not lead to its place. -/
def insert (pfn : Nat) : Op Threaded Bool := do
  match ← Op.query (·.locate pfn) with
  | .linked _ => return false
  | .cycle =>
    Op.log (.insertCycle pfn)
    return false
  | .broken frame =>
    Op.log (.brokenLink frame)
    return false
  | .gap prev next =>
    if ← Op.query (·.registry.has pfn) then
      Op.modify (Threaded.link pfn prev next)
      let len ← Op.compute fun t => Word.add t.list.len 1
      Op.modify (Threaded.setLen len)
      return true
    else
      return false

/-- Takes a frame out of the list.  Answers `false` if the links do not lead to it. -/
def remove (pfn : Nat) : Op Threaded Bool := do
  match ← Op.query (·.locate pfn) with
  | .gap _ _ | .broken _ => return false
  | .cycle =>
    Op.log (.searchCycle pfn)
    return false
  | .linked prev =>
    if ← Op.query (·.registry.has pfn) then
      Op.modify (Threaded.unlink pfn prev)
      let len ← Op.compute fun t => Word.sub t.list.len 1
      Op.modify (Threaded.setLen len)
      return true
    else
      return false

/-- Whether the links lead to a frame. -/
def contains (pfn : Nat) : Op Threaded Bool := do
  match ← Op.query (·.locate pfn) with
  | .gap _ _ | .broken _ => return false
  | .cycle =>
    Op.log (.searchCycle pfn)
    return false
  | .linked _ => return true

end FreeList

end BuddySystem
