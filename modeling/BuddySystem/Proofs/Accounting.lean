import BuddySystem.Proofs.Cascades
import Mathlib.Algebra.BigOperators.Fin

/-!
# The statistics balance

A split makes two blocks out of one and a merge one out of two.  A block that is handed
out leaves the lists and one that is given back comes into them.  Hence the number of
listed blocks is known from the counters and from the blocks that came with runs and
went with them.  `Balanced` is this account, together with what the other counters
count; `Balanced.step` says that every call that answers keeps it.

`accounted_of_history` reads the account off the statistics (`Accounted`).  There the
number of free pages is also the sum of the pages that the orders hold, and none of the
products and sums overflows.
-/

namespace BuddySystem

/-! ### What the log tells -/

/-- The number of blocks that a run was carved into. -/
def Exchange.blocksIn (e : Exchange) : Nat :=
  match e.call, e.value with
  | .insert _ _, .ok (.moved blocks) => blocks.length
  | _, _ => 0

/-- The number of blocks that a run was withdrawn with. -/
def Exchange.blocksOut (e : Exchange) : Nat :=
  match e.call, e.value with
  | .remove _ _, .ok (.moved blocks) => blocks.length
  | _, _ => 0

def Exchange.isGrant (e : Exchange) : Bool :=
  match e.call, e.value with
  | .allocate _ _, .ok (.granted _) => true
  | _, _ => false

def Exchange.isReturn (e : Exchange) : Bool :=
  match e.call, e.value with
  | .free _, .ok _ => true
  | _, _ => false

/-- There was no block for a request. -/
def Exchange.isExhaustion (e : Exchange) : Bool :=
  match e.call, e.value with
  | .allocate _ _, .ok (.refused .noMemory) => true
  | _, _ => false

variable {B B' : Finset Block} {b c source : Block} {blocks : List Block}
  {order start stop count k : Nat}

/-! ### How many blocks there are -/

theorem card_splinters (pfn order n : Nat) : (splinters pfn order n).card = n := by
  have hinj : Function.Injective fun i => (⟨pfn + 2 ^ (order + i), order + i⟩ : Block) := by
    intro i j he
    have horder : order + i = order + j := congrArg Block.order he
    omega
  rw [splinters, Finset.card_image_of_injective _ hinj, Finset.card_range]

/-- **A request takes one block and leaves one for every split.** -/
theorem View.Sound.card_left_over {V : View} (h : V.Sound B) (hsource : source ∈ B)
    (ho : order ≤ source.order) :
    (splinters source.pfn order (source.order - order) ∪ B.erase source).card + 1 =
      B.card + (source.order - order) := by
  have hdisj : Disjoint (splinters source.pfn order (source.order - order)) (B.erase source) := by
    rw [Finset.disjoint_left]
    intro ⟨p, o⟩ hp hm
    obtain ⟨hne, hm⟩ := Finset.mem_erase.mp hm
    obtain ⟨hle, hlt, rfl⟩ := mem_splinters.mp hp
    rw [Nat.add_sub_cancel' ho] at hlt
    have hpow : 2 ^ o < 2 ^ source.order := Nat.pow_lt_pow_right (by decide) hlt
    have hin : source.pfn + 2 ^ o ∈ source.frames :=
      Block.mem_frames.mpr ⟨Nat.le_add_right _ _, Nat.add_lt_add_left hpow _⟩
    exact hne (h.eq_of_mem hm hsource (Block.pfn_mem_frames _) hin)
  have hcard := Finset.card_erase_add_one hsource
  rw [Finset.card_union_of_disjoint hdisj, card_splinters]
  omega

namespace Allocator

variable {stale : Set Nat} {a a₀ a' : Allocator} {log : List Exchange} {call : Call}
  {reply : Reply} {registry : Registry} {lastOrder : Nat}

theorem Inserted.card_eq (h : a.Keeps stale B) (hi : Inserted stale a B start count blocks a') :
    (B ∪ blocks.toFinset).card = B.card + blocks.length := by
  rw [Finset.card_union_of_disjoint (hi.disjoint h), List.toFinset_card_of_nodup hi.tiles.nodup]

theorem Withdrawn.card_eq (hw : Withdrawn stale a B start stop blocks a') :
    (B \ blocks.toFinset).card + blocks.length = B.card := by
  rw [← List.toFinset_card_of_nodup hw.tiles.nodup]
  exact Finset.card_sdiff_add_card_eq_card hw.subset

/-- **A block that comes back is one more, and every merge makes one less.** -/
theorem Freed.card_eq (hB : a.Complete B) (hf : Freed ∅ a B b k B' c a') :
    B'.card + k = B.card + 1 := by
  have hb : b.Aligned a.base := hf.takes.aligned
  have hnew := around_not_mem hB.keeps.sound hf.takes (b.order + k)
  have hpartners := Finset.card_sdiff_add_card_eq_card
    (hf.ascends.partners_subset (Finset.Subset.refl _) hb)
  have hnot : Block.around a.base (b.order + k) b.pfn ∉ B \ Block.partners a.base k b := fun hm =>
    hnew (Finset.mem_sdiff.mp hm).1
  rw [card_partners] at hpartners
  rw [(hf.settles hB).eq_insert hb, Finset.card_insert_of_notMem hnot]
  omega

/-! ### The account -/

/-- The blocks in stock are accounted for, and the counters of calls are right. -/
structure Balanced (log : List Exchange) (a : Allocator) (B : Finset Block) : Prop where
  blocks : B.card + a.counters.allocations + a.counters.merges +
      (log.map Exchange.blocksOut).sum =
    a.counters.frees + a.counters.splits + (log.map Exchange.blocksIn).sum
  allocations : a.counters.allocations = log.countP Exchange.isGrant
  frees : a.counters.frees = log.countP Exchange.isReturn
  failures : a.counters.failedAllocations = log.countP Exchange.isExhaustion

/-- What a call adds to both sides of the account. -/
theorem Balanced.cons {e : Exchange} (h : Balanced log a B)
    (hblocks : B'.card + a'.counters.allocations + a'.counters.merges + e.blocksOut +
        (a.counters.frees + a.counters.splits) =
      a'.counters.frees + a'.counters.splits + e.blocksIn +
        (B.card + a.counters.allocations + a.counters.merges))
    (hallocations : a'.counters.allocations = a.counters.allocations + e.isGrant.toNat)
    (hfrees : a'.counters.frees = a.counters.frees + e.isReturn.toNat)
    (hfailures : a'.counters.failedAllocations =
      a.counters.failedAllocations + e.isExhaustion.toNat) :
    Balanced (e :: log) a' B' := by
  have hcount : ∀ p : Exchange → Bool, (e :: log).countP p = log.countP p + (p e).toNat := by
    intro p
    rw [List.countP_cons]
    cases p e <;> rfl
  obtain ⟨hold, hgrants, hreturns, hexhaustions⟩ := h
  constructor
  · simp only [List.map_cons, List.sum_cons]
    omega
  · rw [hallocations, hgrants, hcount]
  · rw [hfrees, hreturns, hcount]
  · rw [hfailures, hexhaustions, hcount]

/-- **Every call that answers keeps the account.** -/
theorem Balanced.step (h : Balanced log a B) (hB : a.Complete B)
    (hp : Performed ∅ a B call reply a') :
    ∃ B', a'.Keeps ∅ B' ∧ Balanced (⟨a, call, .ok reply⟩ :: log) a' B' := by
  cases hp with
  | @inserted start count blocks _ hi =>
    have hc : a'.counters = a.counters := congrArg View.counters hi.view
    have hcard := hi.card_eq hB.keeps
    refine ⟨_, hi.keeps, h.cons ?_ ?_ ?_ ?_⟩ <;> rw [hc]
    · show _ + 0 + _ = _ + blocks.length + _
      omega
    all_goals rfl
  | @withdrawn start count blocks _ hw =>
    have hc : a'.counters = a.counters := congrArg View.counters hw.view
    have hcard := hw.card_eq
    refine ⟨_, hw.keeps, h.cons ?_ ?_ ?_ ?_⟩ <;> rw [hc]
    · show _ + blocks.length + _ = _ + 0 + _
      omega
    all_goals rfl
  | granted hg =>
    cases hg with
    | @granted _ source _ hlow _ _ hkeeps hv =>
      have hc : a'.counters = _ := congrArg View.counters hv
      have hcard := hB.keeps.sound.card_left_over hlow.mem hlow.order_le
      refine ⟨_, hkeeps, h.cons ?_ ?_ ?_ ?_⟩ <;> rw [hc]
      · show _ + (a.counters.allocations + 1) + a.counters.merges + 0 + _ =
          a.counters.frees + (a.counters.splits + _) + 0 + _
        omega
      all_goals rfl
  | refused hg =>
    cases hg with
    | invalid _ =>
      refine ⟨B, hB.keeps, h.cons ?_ rfl rfl rfl⟩
      show _ + 0 + _ = _ + 0 + _
      omega
    | exhausted _ _ hkeeps hv =>
      have hc : a'.counters = _ := congrArg View.counters hv
      refine ⟨B, hkeeps, h.cons ?_ ?_ ?_ ?_⟩ <;> rw [hc]
      · show _ + a.counters.allocations + a.counters.merges + 0 + _ =
          a.counters.frees + a.counters.splits + 0 + _
        omega
      all_goals rfl
  | freed hf =>
    have hc : a'.counters = _ := congrArg View.counters hf.view
    have hcard := hf.card_eq hB
    refine ⟨_, hf.keeps, h.cons ?_ ?_ ?_ ?_⟩ <;> rw [hc]
    · show _ + a.counters.allocations + (a.counters.merges + _) + 0 + _ =
        a.counters.frees + 1 + a.counters.splits + 0 + _
      omega
    all_goals rfl
  | looked hq =>
    cases call with
    | insert start count => exact hq.elim
    | remove start count => exact hq.elim
    | allocate order hints => exact hq.elim
    | free b => exact hq.elim
    | _ =>
      refine ⟨B, hB.keeps, h.cons ?_ rfl rfl rfl⟩
      show _ + 0 + _ = _ + 0 + _
      omega

theorem counters_of_create (hc : create registry lastOrder = .ok a) :
    a.counters = Counters.zero := by
  unfold create at hc
  split at hc
  · obtain rfl := Except.ok.inj hc
    rfl
  · cases hc

/-- **The account balances after every call**, if all calls are answered. -/
theorem balanced_of_history (hfresh : a₀.Fresh) (h : History a₀ log a) (hanswered : Answered log) :
    ∃ B, a.Complete B ∧ Balanced log a B := by
  induction h with
  | start =>
    obtain ⟨hkeeps, hfree, hhidden⟩ := hfresh.keeps
    obtain ⟨_, _, _, _, _, _, hcreate⟩ := hfresh
    refine ⟨∅, ⟨hkeeps, hfree, hhidden⟩, ?_⟩
    constructor <;> rw [counters_of_create hcreate] <;> rfl
  | @call log a v call _ ih =>
    obtain ⟨⟨reply, hreply⟩, hrest⟩ := List.forall_mem_cons.mp hanswered
    obtain ⟨B, hB, hbalanced⟩ := ih hrest
    have hp := performed_of_answer hB.keeps hreply
    obtain ⟨B', hkeeps, hbalanced'⟩ := hbalanced.step hB hp
    refine ⟨B', hB.of_keeps (hp.restocked hB.keeps) hkeeps, ?_⟩
    show Balanced (⟨a, call, (perform call v a).value⟩ :: log) _ B'
    rw [show (perform call v a).value = .ok reply from hreply]
    exact hbalanced'

/-! ### The statistics -/

/-- What the statistics tell, given the calls that led there. -/
structure Accounted (log : List Exchange) (a : Allocator) : Prop where
  /-- The listed blocks, those handed out, those merged away and those withdrawn are as many as
  those given back, those split off and those that runs were carved into. -/
  blocks : a.stats.blocksByOrder.toList.sum + a.stats.allocations + a.stats.merges +
      (log.map Exchange.blocksOut).sum =
    a.stats.frees + a.stats.splits + (log.map Exchange.blocksIn).sum
  freePages : a.stats.freePages = a.totalFree
  listed : ∀ o ≤ a.lastOrder, a.stats.blocksByOrder[o]? = some (a.heads o).length
  unlisted : ∀ o, a.lastOrder < o → o ≤ maxOrder → a.stats.blocksByOrder[o]? = some 0
  pagesInOrder : ∀ o ≤ a.lastOrder, a.stats.pagesInOrder o = .ok ((a.heads o).length * 2 ^ o)
  total : a.totalFree = ∑ o ∈ Finset.range (a.lastOrder + 1), (a.heads o).length * 2 ^ o
  total_lt : a.totalFree < Word.limit
  allocations : a.stats.allocations = log.countP Exchange.isGrant
  frees : a.stats.frees = log.countP Exchange.isReturn
  failures : a.stats.failedAllocations = log.countP Exchange.isExhaustion

theorem blocksByOrder_eq (a : Allocator) {o : Nat} (ho : o ≤ maxOrder) :
    a.stats.blocksByOrder[o]? = some (a.blockCount o) := by
  rw [stats, Vector.getElem?_eq_getElem (Nat.lt_succ_of_le ho), Vector.getElem_ofFn]

theorem Keeps.blockCount_eq (h : a.Keeps stale B) (o : Nat) :
    a.blockCount o = (B.filter fun b => b.order = o).card := by
  rw [h.card_order, blockCount]
  split
  · rfl
  · rename_i hlt
    rw [← h.card_order, eq_comm, Finset.card_eq_zero, Finset.filter_eq_empty_iff]
    intro b hb ho
    exact hlt (ho ▸ h.sound.order_le b hb)

/-- The blocks of all orders together are the blocks in stock. -/
theorem Keeps.sum_blocksByOrder (h : a.Keeps stale B) :
    a.stats.blocksByOrder.toList.sum = B.card := by
  have hmaps : ∀ b ∈ B, b.order ∈ Finset.range (maxOrder + 1) := fun b hb =>
    Finset.mem_range.mpr (Nat.lt_succ_of_le ((h.sound.order_le b hb).trans a.lastOrder_le))
  rw [stats, Vector.toList_ofFn, List.sum_ofFn, Fin.sum_univ_eq_sum_range a.blockCount,
    Finset.card_eq_sum_card_fiberwise hmaps]
  exact Finset.sum_congr rfl fun o _ => h.blockCount_eq o

/-- **The statistics account for the blocks, the pages and the calls**, and a request of too large
an order changes nothing. -/
theorem accounted_of_history (hfresh : a₀.Fresh) (h : History a₀ log a)
    (hanswered : Answered log) :
    Accounted log a ∧ ∀ order hints v,
      (perform (.allocate order hints) v a).value = .ok (.refused .invalidOrder) →
        (perform (.allocate order hints) v a).state = a := by
  obtain ⟨B, hB, hbalanced⟩ := balanced_of_history hfresh h hanswered
  have hlen : ∀ o, (a.list o).len = (a.heads o).length := fun o =>
    (hB.keeps.heads_spells hB.sighted o).1.len
  have htotal : a.totalFree = ∑ o ∈ Finset.range (a.lastOrder + 1), (a.heads o).length * 2 ^ o := by
    rw [hB.keeps.total_eq_sum]
    exact Finset.sum_congr rfl fun o _ => by rw [hlen, Nat.mul_comm]
  have hlt : a.totalFree < Word.limit := by
    rw [hB.keeps.total, hB.keeps.sound.sum_size]
    exact card_covered_lt hB.keeps.sound
  have hlisted : ∀ o ≤ a.lastOrder, a.stats.blocksByOrder[o]? = some (a.heads o).length := by
    intro o ho
    rw [blocksByOrder_eq a (ho.trans a.lastOrder_le), blockCount, if_pos ho, hlen]
  refine ⟨⟨?_, rfl, hlisted, ?_, ?_, htotal, hlt, hbalanced.allocations, hbalanced.frees,
    hbalanced.failures⟩, ?_⟩
  · rw [hB.keeps.sum_blocksByOrder]
    exact hbalanced.blocks
  · intro o ho hle
    rw [blocksByOrder_eq a hle, blockCount, if_neg (Nat.not_le.mpr ho)]
  · intro o ho
    have hpages : (a.heads o).length * 2 ^ o ≤ a.totalFree := by
      rw [htotal]
      exact Finset.single_le_sum (f := fun o => (a.heads o).length * 2 ^ o)
        (fun _ _ => Nat.zero_le _) (Finset.mem_range.mpr (Nat.lt_succ_of_le ho))
    have horder : o < 64 := by
      have hle : a.lastOrder ≤ 16 := a.lastOrder_le
      omega
    have hblocks : a.stats.blocksOf o = .ok (a.heads o).length := by
      rw [Stats.blocksOf, hlisted o ho]
    have hsize : Word.shiftOne o = .ok (2 ^ o) := Word.shiftOne_eq_ok_iff.mpr ⟨horder, rfl⟩
    rw [Stats.pagesInOrder, hblocks, hsize]
    exact Word.mul_eq_ok_iff.mpr ⟨rfl, by omega⟩
  · intro order hints v hinvalid
    have hp := performed_of_answer hB.keeps hinvalid
    generalize (perform (.allocate order hints) v a).state = a' at hp ⊢
    cases hp with
    | refused hg =>
      cases hg with
      | invalid _ => rfl
    | looked hq => exact hq.elim

/-- A run that was carved into three blocks, a page that was withdrawn and handed over again, and
a request of each kind that gets no block. -/
theorem accounted_after_one_merge :
    ∃ a₀ log a, a₀.Fresh ∧ History a₀ log a ∧ Answered log ∧
      (log.map Exchange.blocksIn).sum = 4 ∧ (log.map Exchange.blocksOut).sum = 1 ∧
      a.counters = ⟨3, 1, 1, 1, 1⟩ ∧
      Accounted log a ∧
      (perform (.allocate 3 Hints.empty) none a).value = .ok (.refused .invalidOrder) ∧
      (perform (.allocate 3 Hints.empty) none a).state = a := by
  have hrun : ∃ a₀ log a, Fresh a₀ ∧ History a₀ log a ∧ Answered log ∧
      (log.map Exchange.blocksIn).sum = 4 ∧ (log.map Exchange.blocksOut).sum = 1 ∧
      a.counters = ⟨3, 1, 1, 1, 1⟩ ∧
      (perform (.allocate 3 Hints.empty) none a).value = .ok (.refused .invalidOrder) := by
    refine ⟨_, _, _, ⟨4096, 3, 8, 2, _, rfl, rfl⟩,
      .call none (.free ⟨7, 0⟩) (.call none (.insert 8 1) (.call none (.allocate 3 Hints.empty)
        (.call none (.allocate 1 Hints.empty) (.call none (.allocate 2 Hints.empty)
          (.call none (.remove 8 1) (.call none (.allocate 0 Hints.empty)
            (.call none (.allocate 0 Hints.empty) (.call none (.insert 3 7) .start)))))))), ?_⟩
    decide +kernel
  obtain ⟨a₀, log, a, hfresh, h, hanswered, hin, hout, hcounters, hinvalid⟩ := hrun
  obtain ⟨haccounted, hstate⟩ := accounted_of_history hfresh h hanswered
  exact ⟨a₀, log, a, hfresh, h, hanswered, hin, hout, hcounters, haccounted, hinvalid,
    hstate 3 Hints.empty none hinvalid⟩

end Allocator

end BuddySystem
