import BuddySystem.Block
import BuddySystem.FreeList
import BuddySystem.Stats

/-!
# Allocators

An allocator manages the frames of a registry in blocks of orders up to its own
`lastOrder`.  For each order it has an ascending list of the free blocks, kept as
the list of their heads; the lists above `lastOrder` stay empty.  It counts the
free pages as they come and go.

`Allocator.list` and `Allocator.heads` read one list, `Allocator.onList` runs an
operation on one list.  What an allocator answers without changing is here too:
its lists, its statistics, and its summary in `Allocator.listings`.
-/

namespace BuddySystem

/-- A buddy allocator. -/
structure Allocator where
  /-- The descriptors of the frames, which also hold the links of the lists. -/
  registry : Registry
  /-- The free blocks of each order. -/
  lists : Vector FreeList (maxOrder + 1)
  lastOrder : Nat
  /-- There is a list for every order of a block. -/
  lastOrder_le : lastOrder ≤ maxOrder
  totalFree : Nat
  counters : Counters

namespace Allocator

/-- An allocator over a registry that has been given no pages yet.  The descriptors stay as they
are. -/
def create (registry : Registry) (lastOrder : Nat) : Except Fault Allocator :=
  if h : lastOrder ≤ maxOrder then
    .ok {
      registry
      lists := Vector.replicate (maxOrder + 1) FreeList.empty
      lastOrder
      lastOrder_le := h
      totalFree := 0
      counters := Counters.zero }
  else .error (.lastOrderTooLarge lastOrder)

/-- A new allocator over the registry of this one. -/
def rebuild (a : Allocator) (lastOrder : Nat) : Except Fault Allocator :=
  create a.registry lastOrder

def hide (a : Allocator) (hidden : Nat → Bool) : Allocator :=
  { a with registry := a.registry.hide hidden }

variable (a : Allocator)

def base : Nat := a.registry.base

/-- The list of the free blocks of one order. -/
def list (order : Nat) : FreeList := (a.lists[order]?).getD FreeList.empty

/-- The heads of the free blocks of one order, in ascending order. -/
def heads (order : Nat) : List Nat := (a.list order).heads a.registry

/-- The number of free blocks of one order. -/
def blockCount (order : Nat) : Nat := if order ≤ a.lastOrder then (a.list order).len else 0

/-- The lowest free block among those of the smallest order from `order` on that has any, looking
at `orders` orders. -/
def lowestFrom? : Nat → Nat → Option Block
  | 0, _ => none
  | orders + 1, order =>
    match (a.list order).head with
    | some pfn => some ⟨pfn, order⟩
    | none => lowestFrom? orders (order + 1)

/-- The lowest free block among those of the smallest order from `order` on that has any. -/
def lowest? (order : Nat) : Option Block := a.lowestFrom? (a.lastOrder + 1 - order) order

def stats : Stats :=
  { a.counters with
    freePages := a.totalFree
    blocksByOrder := Vector.ofFn fun i : Fin (maxOrder + 1) => a.blockCount i }

/-! ### Operations on parts -/

variable {α : Type}

/-- Runs an operation on the list of one order. -/
def onList (order : Nat) (op : Op Threaded α) : Op Allocator α := fun v a =>
  let list := a.list order
  match a with
  | { registry, lists, lastOrder, lastOrder_le, totalFree, counters } =>
    match op v { list, registry } with
    | ⟨value, { list, registry }, events⟩ =>
      let lists := lists.setIfInBounds order list
      ⟨value, { registry, lists, lastOrder, lastOrder_le, totalFree, counters }, events⟩

def addFree (pages : Nat) : Op Allocator Unit := do
  let totalFree ← Op.compute fun a => Word.add a.totalFree pages
  Op.modify fun a => { a with totalFree }

def subFree (pages : Nat) : Op Allocator Unit := do
  let totalFree ← Op.compute fun a => Word.sub a.totalFree pages
  Op.modify fun a => { a with totalFree }

/-- Counts one more of what `get` reads and `set` writes. -/
def count (get : Counters → Nat) (set : Nat → Counters → Counters) : Op Allocator Unit := do
  let n ← Op.compute fun a => Word.add (get a.counters) 1
  Op.modify fun a => { a with counters := set n a.counters }

def countAllocation : Op Allocator Unit :=
  count (·.allocations) fun n c => { c with allocations := n }

def countFree : Op Allocator Unit := count (·.frees) fun n c => { c with frees := n }

def countSplit : Op Allocator Unit := count (·.splits) fun n c => { c with splits := n }

def countMerge : Op Allocator Unit := count (·.merges) fun n c => { c with merges := n }

/-- Counts a request for which there was no block. -/
def countFailure : Op Allocator Unit :=
  count (·.failedAllocations) fun n c => { c with failedAllocations := n }

/-- Writes a state into the `count` frames from `pfn` on, and ends in a fault at the first one
whose descriptor cannot be reached. -/
def writeState (state : PageState) (count pfn : Nat) : Op Allocator Unit := fun _ a =>
  match a with
  | { registry, lists, lastOrder, lastOrder_le, totalFree, counters } =>
    match Registry.mark state count pfn registry with
    | (registry, missing) =>
      let a := { registry, lists, lastOrder, lastOrder_le, totalFree, counters }
      match missing with
      | none => ⟨.ok (), a, []⟩
      | some frame => ⟨.error (.missingPage frame), a, []⟩

/-- Marks the `count` frames from `pfn` on with a state.  The frame after them has to have a 64-bit
number too. -/
def mark (state : PageState) (count pfn : Nat) : Op Allocator Unit := do
  let _ ← Op.compute fun _ => Word.add pfn count
  writeState state count pfn

/-! ### Summary -/

/-- What one list holds. -/
structure Listing where
  order : Nat
  count : Nat
  heads : List Nat

/-- What the lists hold, leaving out those of no length and no blocks.  At most `budget` heads of
each list are given. -/
def listings (budget : Nat) : List Listing :=
  (List.range (a.lastOrder + 1)).filterMap fun order =>
    let listing : Listing :=
      { order, count := a.blockCount order, heads := (a.list order).headsUpTo budget a.registry }
    if listing.count = 0 && listing.heads.isEmpty then none else some listing

end Allocator

end BuddySystem
