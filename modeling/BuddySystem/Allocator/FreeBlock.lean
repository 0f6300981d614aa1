import BuddySystem.Allocator.Basic

/-!
# Free blocks

The steps that move single blocks in and out of the lists.  `enlist` and `delist`
keep the count of free pages in step with the lists; `split` replaces a free
block by its two halves, and `merge` a free block and its free buddy by the block
they make up.
-/

namespace BuddySystem.Allocator

/-- Ends in a fault unless the block is one that the allocator can have. -/
def ensureFits (action : BlockAction) (block : Block) : Op Allocator Unit := do
  Op.ensure (fun a => block.order ≤ a.lastOrder) fun a =>
    .orderAboveLast action block.order a.lastOrder
  Op.ensure (fun a => block.isAligned a.base) fun _ => .misaligned action block.pfn block.order

/-! ### In and out of the lists -/

/-- Adds a block to the list of its order. -/
def enlist (block : Block) : Op Allocator Unit := do
  ensureFits .insert block
  if ← onList block.order (FreeList.insert block.pfn) then
    addFree block.size
  else
    Op.fail (.notInserted block.pfn block.order)

/-- Takes a block off the list of its order. -/
def delist (block : Block) : Op Allocator Unit := do
  ensureFits .remove block
  if ← onList block.order (FreeList.remove block.pfn) then
    subFree block.size
  else
    Op.fail (.notListed block.pfn block.order)

/-- Whether the list of its order holds a block. -/
def isListed (block : Block) : Op Allocator Bool :=
  onList block.order (FreeList.contains block.pfn)

/-- Whether a block is one that the allocator can have and the list of its order holds it. -/
def holds (block : Block) : Op Allocator Bool := do
  if ← Op.query fun a => decide (block.order ≤ a.lastOrder) then isListed block else return false

/-- The smallest order from `order` on whose list holds a block with this head, looking at `orders`
orders. -/
def headedOrderFrom? (pfn : Nat) : Nat → Nat → Op Allocator (Option Nat)
  | 0, _ => return none
  | orders + 1, order => do
    if ← isListed ⟨pfn, order⟩ then return some order else headedOrderFrom? pfn orders (order + 1)

/-- The smallest order whose list holds a block with this head. -/
def headedOrder? (pfn : Nat) : Op Allocator (Option Nat) := do
  let lastOrder ← Op.query fun a => a.lastOrder
  headedOrderFrom? pfn (lastOrder + 1) 0

/-! ### Halves and buddies -/

/-- Replaces a free block by its two halves. -/
def split (block : Block) : Op Allocator Unit := do
  Op.ensure (fun a => 0 < block.order ∧ block.order ≤ a.lastOrder) fun _ => .splitOrder block.order
  delist block
  let lower : Block := ⟨block.pfn, block.order - 1⟩
  let upper ← Op.compute fun _ => Word.add block.pfn lower.size
  enlist lower
  enlist ⟨upper, lower.order⟩
  Op.log (.split block.pfn block.order upper)
  countSplit

/-- Whether a buddy is a free block: it is aligned, its first frame is free and the list of its
order holds it. -/
def isFreeBuddy (buddy : Block) : Op Allocator Bool := do
  if ← Op.query fun a => (a.registry.page? buddy.pfn).any Page.isFree && buddy.isAligned a.base then
    isListed buddy
  else
    return false

/-- Replaces a free block and its buddy by the block that they make up, if the buddy is a free
block too.  Answers the larger block. -/
def merge (block : Block) : Op Allocator (Option Block) := do
  Op.ensure (fun a => block.order < a.lastOrder) fun _ => .mergeOrder block.order
  let buddy ← Op.compute fun a => block.buddyOf a.base
  if ← isFreeBuddy buddy then
    delist block
    delist buddy
    let merged : Block := ⟨min block.pfn buddy.pfn, block.order + 1⟩
    enlist merged
    Op.log (.merged block.pfn buddy.pfn merged.order)
    countMerge
    return some merged
  else
    return none

end BuddySystem.Allocator
