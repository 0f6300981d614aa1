import BuddySystem.Proofs.Accounting
import BuddySystem.Proofs.Custody
import BuddySystem.Proofs.Requests

/-!
# How many requests can be granted

A listed block of order `k` is as good as `2 ^ (k - order)` blocks of a smaller order.
`Allocator.capacity` adds these numbers up.  So it counts how often the order asked for
fits into the frames of the blocks that are large enough (`Keeps.capacity_mul`), and that
does not depend on how these frames are cut up: a request takes one block out of them and
leaves what it splits off among them.

* `Drawn.grants`: while there is capacity left, a request is granted.
* `Drawn.cons`: it draws on the frames of the blocks that are large enough and on nothing
  else (`Drawn`).
* `drained_of_history`: as many requests as the capacity says use these frames up
  (`Drains`), and no further request is granted.
-/

namespace BuddySystem

/-- The blocks of the order and of larger ones. -/
def atLeast (order : Nat) (B : Finset Block) : Finset Block := B.filter fun b => order ≤ b.order

variable {V : View} {B B' : Finset Block} {b source : Block} {order n : Nat}

/-! ### The blocks that are large enough -/

theorem mem_atLeast : b ∈ atLeast order B ↔ b ∈ B ∧ order ≤ b.order := Finset.mem_filter

theorem atLeast_subset (order : Nat) (B : Finset Block) : atLeast order B ⊆ B :=
  Finset.filter_subset _ B

theorem View.Sound.covered_atLeast (h : V.Sound B) (order : Nat) :
    covered (atLeast order B) = covered B \ covered (B \ atLeast order B) := by
  rw [← h.covered_sdiff Finset.sdiff_subset, Finset.sdiff_sdiff_eq_self (atLeast_subset order B)]

/-- If blocks below the order do not change, then what is taken is taken from the others. -/
theorem View.Sound.covered_atLeast_sdiff {V' : View} (h : V.Sound B) (h' : V'.Sound B')
    (hsmall : ∀ b : Block, b.order < order → (b ∈ B' ↔ b ∈ B)) {F : Finset Nat}
    (hcov : covered B' = covered B \ F) :
    covered (atLeast order B') = covered (atLeast order B) \ F := by
  have hrest : B' \ atLeast order B' = B \ atLeast order B := by
    ext b
    simp only [Finset.mem_sdiff, mem_atLeast]
    by_cases ho : order ≤ b.order
    · simp [ho]
    · simp [ho, hsmall b (Nat.lt_of_not_le ho)]
  rw [h.covered_atLeast, h'.covered_atLeast, hrest, hcov, sdiff_right_comm]

/-- The frames of the large blocks have room for these blocks and for all the halves that splitting
one of them leaves behind. -/
theorem View.Sound.card_atLeast_add_le (h : V.Sound B)
    (hroom : (covered (atLeast order B)).card = n * 2 ^ order) (hsource : source ∈ B)
    (ho : order ≤ source.order) : (atLeast order B).card + (source.order - order) ≤ n := by
  have hmem : source ∈ atLeast order B := mem_atLeast.mpr ⟨hsource, ho⟩
  have hothers : ((atLeast order B).erase source).card * 2 ^ order ≤
      ∑ b ∈ (atLeast order B).erase source, b.size := by
    rw [← smul_eq_mul]
    apply Finset.card_nsmul_le_sum
    intro b hb
    exact Nat.pow_le_pow_right (by decide) (mem_atLeast.mp (Finset.mem_of_mem_erase hb)).2
  have hsize : (source.order - order + 1) * 2 ^ order ≤ source.size := by
    rw [Block.size_eq, ← Nat.sub_add_cancel ho, Nat.pow_add, Nat.add_sub_cancel]
    exact Nat.mul_le_mul_right _ Nat.lt_two_pow_self
  have hsum := Finset.sum_erase_add (atLeast order B) Block.size hmem
  rw [(h.mono (atLeast_subset order B)).sum_size, hroom] at hsum
  have hcard := Finset.card_erase_add_one hmem
  have hle : ((atLeast order B).card + (source.order - order)) * 2 ^ order ≤ n * 2 ^ order := by
    rw [← hsum, ← hcard, Nat.add_assoc, Nat.add_comm 1, Nat.add_mul]
    exact Nat.add_le_add hothers hsize
  exact Nat.le_of_mul_le_mul_right hle (Nat.two_pow_pos order)

namespace Allocator

/-- How many blocks of the order can be cut from the listed blocks. -/
def capacity (a : Allocator) (order : Nat) : Nat :=
  ∑ k ∈ Finset.Icc order a.lastOrder, a.blockCount k * 2 ^ (k - order)

/-- The requests in the log were granted, out of the frames of the blocks in stock `B` that are
large enough.  The other blocks are those that there were before. -/
structure Drawn (a : Allocator) (B : Finset Block) (order : Nat) (log : List Exchange)
    (a' : Allocator) (B' : Finset Block) : Prop where
  complete : a'.Complete B'
  lastOrder : a'.lastOrder = a.lastOrder
  granted : ∀ e ∈ log, ∃ g : Grant, e.value = .ok (.granted g)
  length : (held log).length = log.length
  orders : ∀ b ∈ held log, b.order = order
  disjoint : (held log).Pairwise fun b c => Disjoint b.frames c.frames
  within : covered (held log).toFinset ⊆ covered (atLeast order B)
  rest : covered (atLeast order B') = covered (atLeast order B) \ covered (held log).toFinset
  small : ∀ b : Block, b.order < order → (b ∈ B' ↔ b ∈ B)
  splits : a'.counters.splits + B.card = a.counters.splits + B'.card + log.length
  allocations : a'.counters.allocations = a.counters.allocations + log.length

/-- The requests in the log use up all listed blocks of the order and of larger ones. -/
structure Drains (a : Allocator) (order : Nat) (log : List Exchange) (a' : Allocator) : Prop where
  granted : ∀ e ∈ log, ∃ g : Grant, e.value = .ok (.granted g)
  count : (held log).length = a.capacity order
  orders : ∀ b ∈ held log, b.order = order
  nodup : (held log).Nodup
  disjoint : (held log).Pairwise fun b c => Disjoint b.frames c.frames
  frames : ∀ f, (∃ b ∈ held log, f ∈ b.frames) ↔
    ∃ o, order ≤ o ∧ ∃ p ∈ a.heads o, f ∈ (⟨p, o⟩ : Block).frames
  below : ∀ o < order, a'.heads o = a.heads o
  empty : ∀ o, order ≤ o → a'.heads o = []
  /-- A further request is refused, if the report on it does not end it in a fault. -/
  refuses : ∀ (hints : Hints) (v : Verbosity) (reply : Reply),
    (perform (.allocate order hints) v a').value = .ok reply → reply = .refused .noMemory
  /-- Requests for single pages get every free frame, and get it once. -/
  pages : order = 0 → ((held log).map Block.pfn).Nodup ∧
    ∀ f, f ∈ (held log).map Block.pfn ↔ (a.registry.page? f).map Page.state = some .free

variable {stale : Set Nat} {a a₀ a' a'' : Allocator} {log log₀ : List Exchange} {hints : Hints}
  {g : Grant} {v : Verbosity}

/-- **The capacity counts the frames of the large blocks.** -/
theorem Keeps.capacity_mul (h : a.Keeps stale B) (order : Nat) :
    a.capacity order * 2 ^ order = (covered (atLeast order B)).card := by
  have hmaps : ∀ b ∈ atLeast order B, b.order ∈ Finset.Icc order a.lastOrder := by
    intro b hb
    obtain ⟨hb, ho⟩ := mem_atLeast.mp hb
    exact Finset.mem_Icc.mpr ⟨ho, h.sound.order_le b hb⟩
  rw [← (h.sound.mono (atLeast_subset order B)).sum_size, sum_size_by_order hmaps, capacity,
    Finset.sum_mul]
  refine Finset.sum_congr rfl fun k hk => ?_
  have ho := (Finset.mem_Icc.mp hk).1
  have hsame : (atLeast order B).filter (fun b => b.order = k) = B.filter fun b => b.order = k := by
    ext b
    rw [Finset.mem_filter, Finset.mem_filter, mem_atLeast]
    exact and_congr_left fun he => and_iff_left (he ▸ ho)
  rw [hsame, h.blockCount_eq, Nat.mul_assoc, ← Nat.pow_add, Nat.sub_add_cancel ho, Nat.mul_comm]

/-! ### One request -/

theorem Complete.drawn (hB : a.Complete B) (order : Nat) : Drawn a B order [] a B where
  complete := hB
  lastOrder := rfl
  granted := by simp
  length := rfl
  orders := by simp [held]
  disjoint := .nil
  within := by simp [held, covered]
  rest := by simp [held, covered]
  small := fun _ _ => Iff.rfl
  splits := rfl
  allocations := rfl

/-- What is left of the capacity. -/
theorem Drawn.card_rest (hd : Drawn a B order log a' B') (h : a.Keeps stale B) :
    (covered (atLeast order B')).card = (a.capacity order - log.length) * 2 ^ order := by
  have hsizes : (held log).map Block.size = (held log).map fun _ => 2 ^ order := by
    apply List.map_congr_left
    intro b hb
    rw [Block.size_eq, hd.orders b hb]
  have hcard := Finset.card_sdiff_add_card_eq_card hd.within
  rw [← hd.rest, card_covered_toFinset hd.disjoint, hsizes, List.map_const', List.sum_replicate,
    smul_eq_mul, hd.length, ← h.capacity_mul] at hcard
  rw [Nat.sub_mul]
  omega

/-- One block more is drawn from the frames of the large blocks. -/
theorem Drawn.extend {e : Exchange} {c : Block} {B'' : Finset Block}
    (hd : Drawn a B order log a' B') (hB'' : a''.Complete B'')
    (hlast : a''.lastOrder = a'.lastOrder) (hgranted : ∃ g : Grant, e.value = .ok (.granted g))
    (hheld : held (e :: log) = c :: held log)
    (hc : c.order = order) (hin : c.frames ⊆ covered (atLeast order B'))
    (hrest : covered (atLeast order B'') = covered (atLeast order B') \ c.frames)
    (hsmall : ∀ b : Block, b.order < order → (b ∈ B'' ↔ b ∈ B'))
    (hsplits : a''.counters.splits + B'.card = a'.counters.splits + B''.card + 1)
    (hallocations : a''.counters.allocations = a'.counters.allocations + 1) :
    Drawn a B order (e :: log) a'' B'' := by
  rw [hd.rest] at hin hrest
  refine ⟨hB'', hlast.trans hd.lastOrder, List.forall_mem_cons.mpr ⟨hgranted, hd.granted⟩,
    ?_, ?_, ?_, ?_, ?_, ?_, ?_, ?_⟩
  · rw [hheld, List.length_cons, List.length_cons, hd.length]
  · rw [hheld]
    exact List.forall_mem_cons.mpr ⟨hc, hd.orders⟩
  · rw [hheld]
    refine List.pairwise_cons.mpr ⟨fun b hb => ?_, hd.disjoint⟩
    have hnew : Disjoint c.frames (covered (held log).toFinset) :=
      Finset.sdiff_disjoint.mono_left hin
    exact hnew.mono_right (frames_subset_covered (List.mem_toFinset.mpr hb))
  · rw [hheld, List.toFinset_cons, covered_insert]
    exact Finset.union_subset (hin.trans Finset.sdiff_subset) hd.within
  · rw [hheld, List.toFinset_cons, covered_insert, hrest, sdiff_sdiff_left, Finset.sup_eq_union,
      Finset.union_comm]
  · exact fun b ho => (hsmall b ho).trans (hd.small b ho)
  · have hcount := hd.splits
    rw [List.length_cons]
    omega
  · rw [hallocations, hd.allocations, List.length_cons, Nat.add_assoc]

/-- **A request draws on the frames of the large blocks.** -/
theorem Drawn.cons (hd : Drawn a B order log a' B')
    (ha : Allocated ∅ a' B' order hints (.ok g) a'') :
    ∃ B'', Drawn a B order (⟨a', .allocate order hints, .ok (.granted g)⟩ :: log) a'' B'' := by
  have hB' := hd.complete
  have hr := ha.restocked hB'.keeps
  cases ha with
  | @granted _ source _ hlow _ hcov hkeeps hv =>
    have hc : a''.counters = _ := congrArg View.counters hv
    have hcard := hB'.keeps.sound.card_left_over hlow.mem hlow.order_le
    have hpow : 2 ^ order ≤ 2 ^ source.order := Nat.pow_le_pow_right (by decide) hlow.order_le
    have hlower : (⟨source.pfn, order⟩ : Block).frames ⊆ source.frames :=
      Finset.Ico_subset_Ico_right (Nat.add_le_add_left hpow _)
    have hsmall : ∀ b : Block, b.order < order →
        (b ∈ splinters source.pfn order (source.order - order) ∪ B'.erase source ↔ b ∈ B') := by
      intro b ho
      have hle := hlow.order_le
      have hmem := mem_left_over (B := B') (p := b.pfn) (o := b.order) hle
      refine hmem.trans ⟨fun hb => ?_, fun hb => Or.inr ⟨by omega, hb⟩⟩
      rcases hb with hb | hb
      · omega
      · exact hb.2
    have hlast : a''.lastOrder = a'.lastOrder := congrArg View.lastOrder hv
    refine ⟨_, hd.extend (hB'.of_keeps hr hkeeps) hlast ⟨_, rfl⟩ rfl rfl ?_ ?_ hsmall ?_ ?_⟩
    · exact hlower.trans (frames_subset_covered (mem_atLeast.mpr ⟨hlow.mem, hlow.order_le⟩))
    · exact hB'.keeps.sound.covered_atLeast_sdiff hkeeps.sound hsmall hcov
    · rw [hc]
      show a'.counters.splits + (source.order - order) + B'.card = _
      omega
    · rw [hc]

/-- **A request is granted while there is capacity left**, unless a counter is full. -/
theorem Drawn.grants (hd : Drawn a B order log a' B') (h : a.Keeps stale B)
    (hlt : log.length < a.capacity order)
    (hsplits : a.counters.splits + a.capacity order < Word.limit)
    (hallocations : a.counters.allocations + a.capacity order < Word.limit) (hints : Hints) :
    (perform (.allocate order hints)).Ends v a'
      (fun reply a'' => ∃ g, reply = .granted g ∧ Allocated ∅ a' B' order hints (.ok g) a'')
      fun _ => False := by
  have hB' := hd.complete
  have hrest := hd.card_rest h
  have hpos : 0 < (covered (atLeast order B')).card := by
    rw [hrest]
    exact Nat.mul_pos (Nat.sub_pos_of_lt hlt) (Nat.two_pow_pos order)
  obtain ⟨f, hf⟩ := Finset.card_pos.mp hpos
  obtain ⟨b, hb, _⟩ := mem_covered.mp hf
  obtain ⟨hb, hob⟩ := mem_atLeast.mp hb
  have ho : order ≤ a'.lastOrder := hob.trans (hB'.keeps.sound.order_le b hb)
  obtain ⟨source, hlow⟩ := hB'.keeps.exists_lowest ho hb hob
  have hroom := hB'.keeps.sound.card_atLeast_add_le hrest hlow.mem hlow.order_le
  have hcard : B'.card ≤ B.card + (atLeast order B').card := by
    refine (Finset.card_le_card fun c hc => ?_).trans (Finset.card_union_le B (atLeast order B'))
    by_cases hco : c.order < order
    · exact Finset.mem_union_left _ ((hd.small c hco).mp hc)
    · exact Finset.mem_union_right _ (mem_atLeast.mpr ⟨hc, Nat.le_of_not_lt hco⟩)
  have hcount := hd.splits
  have hcount' := hd.allocations
  rw [perform]
  refine (allocate_grants hB'.keeps hB'.sighted hlow (by omega) (by omega) hints).bind
    (fun _ hf => hf) ?_
  rintro answer a'' ⟨he, hallocated⟩
  rw [he] at hallocated ⊢
  exact ⟨_, rfl, hallocated⟩

/-! ### All requests -/

/-- **Requests are granted as long as there is capacity.** -/
theorem Complete.drawn_of_history (hB : a.Complete B)
    (hsplits : a.counters.splits + a.capacity order < Word.limit)
    (hallocations : a.counters.allocations + a.capacity order < Word.limit)
    (h : History a log a') (hcalls : ∀ e ∈ log, ∃ hints, e.call = .allocate order hints)
    (hlength : log.length ≤ a.capacity order) : ∃ B', Drawn a B order log a' B' := by
  induction h with
  | start => exact ⟨B, hB.drawn order⟩
  | @call log a' v call _ ih =>
    obtain ⟨⟨hints, rfl⟩, hrest⟩ := List.forall_mem_cons.mp hcalls
    obtain ⟨B', hd⟩ := ih hrest (Nat.le_of_succ_le hlength)
    obtain ⟨reply, a'', events, hx, g, rfl, ha⟩ :=
      (hd.grants hB.keeps hlength hsplits hallocations hints (v := v)).exists_ok
    rw [hx]
    exact hd.cons ha

theorem Complete.reads_free_iff_mem (hB : a.Complete B) {f : Nat} :
    (a.registry.page? f).map Page.state = some .free ↔ f ∈ covered B := by
  rw [reads_free_iff, hB.free]
  refine and_iff_right_of_imp fun hf => ⟨a.view_free_subset ?_, congrFun hB.hidden f⟩
  rwa [hB.free]

/-- Blocks of single pages are known by their frames. -/
theorem mem_map_pfn_iff {blocks : List Block} (h : ∀ b ∈ blocks, b.order = 0) {f : Nat} :
    f ∈ blocks.map Block.pfn ↔ f ∈ covered blocks.toFinset := by
  rw [List.mem_map, mem_covered]
  refine exists_congr fun b => ?_
  rw [List.mem_toFinset]
  refine and_congr_right fun hb => ?_
  have hsize : b.size = 1 := by rw [Block.size_eq, h b hb, Nat.pow_zero]
  rw [Block.mem_frames]
  omega

/-- **The listed blocks of the order and of larger ones are handed out as a whole**, by as many
requests as the capacity says. -/
theorem drained_of_history (hfresh : a₀.Fresh) (h₀ : History a₀ log₀ a)
    (hanswered : Answered log₀) (horder : order ≤ a.lastOrder)
    (hsplits : a.counters.splits + a.capacity order < Word.limit)
    (hallocations : a.counters.allocations + a.capacity order < Word.limit)
    (h : History a log a') (hcalls : ∀ e ∈ log, ∃ hints, e.call = .allocate order hints)
    (hlength : log.length = a.capacity order) : Drains a order log a' := by
  obtain ⟨B, hB⟩ := complete_of_history hfresh h₀ fun e he _ _ _ => hanswered e he
  obtain ⟨B', hd⟩ := hB.drawn_of_history hsplits hallocations h hcalls (Nat.le_of_eq hlength)
  have hempty : covered (atLeast order B') = ∅ := by
    rw [← Finset.card_eq_zero, hd.card_rest hB.keeps, hlength, Nat.sub_self, Nat.zero_mul]
  have hnone : ∀ b ∈ B', b.order < order := by
    intro b hb
    by_contra hge
    have hin := frames_subset_covered (mem_atLeast.mpr ⟨hb, Nat.le_of_not_lt hge⟩) b.pfn_mem_frames
    rw [hempty] at hin
    exact Finset.notMem_empty _ hin
  have hall : covered (held log).toFinset = covered (atLeast order B) := by
    have hrest := hd.rest
    rw [hempty, eq_comm, Finset.sdiff_eq_empty_iff_subset] at hrest
    exact Finset.Subset.antisymm hd.within hrest
  constructor
  · exact hd.granted
  · exact hd.length.trans hlength
  · exact hd.orders
  · apply hd.disjoint.imp
    intro b c hdisj he
    exact Block.pfn_ne_of_disjoint hdisj (congrArg Block.pfn he)
  · exact hd.disjoint
  · intro f
    have hcovered : (∃ b ∈ held log, f ∈ b.frames) ↔ f ∈ covered (atLeast order B) := by
      rw [← hall, mem_covered]
      simp only [List.mem_toFinset]
    rw [hcovered, mem_covered]
    constructor
    · intro ⟨b, hb, hf⟩
      obtain ⟨hb, ho⟩ := mem_atLeast.mp hb
      exact ⟨b.order, ho, b.pfn, hB.mem_heads_iff.mpr hb, hf⟩
    · intro ⟨o, ho, p, hp, hf⟩
      exact ⟨⟨p, o⟩, mem_atLeast.mpr ⟨hB.mem_heads_iff.mp hp, ho⟩, hf⟩
  · intro o ho
    apply hB.keeps.heads_congr hB.sighted hd.complete.keeps hd.complete.sighted
    exact fun p => hd.small ⟨p, o⟩ ho
  · intro o ho
    apply List.eq_nil_iff_forall_not_mem.mpr
    intro p hp
    exact Nat.not_lt.mpr ho (hnone ⟨p, o⟩ (hd.complete.mem_heads_iff.mp hp))
  · intro hints v reply hanswer
    have hp := performed_of_answer hd.complete.keeps hanswer
    generalize (perform (.allocate order hints) v a').state = a'' at hp
    cases hp with
    | granted ha =>
      cases ha with
      | granted _ hlow _ _ _ _ =>
        exact absurd hlow.order_le (Nat.not_le.mpr (hnone _ hlow.mem))
    | refused ha =>
      cases ha with
      | invalid hlt =>
        rw [hd.lastOrder] at hlt
        exact absurd horder (Nat.not_le.mpr hlt)
      | exhausted _ _ _ _ => rfl
    | looked hq => exact hq.elim
  · intro hzero
    subst hzero
    constructor
    · rw [List.Nodup, List.pairwise_map]
      exact hd.disjoint.imp Block.pfn_ne_of_disjoint
    · intro f
      have hpages : atLeast 0 B = B := Finset.filter_true_of_mem fun _ _ => Nat.zero_le _
      rw [mem_map_pfn_iff hd.orders, hall, hpages, hB.reads_free_iff_mem]

/-- A page, a block of two pages and one of four are listed.  Three blocks of two pages can be cut
from them, or seven pages. -/
theorem drained_by_pairs_and_by_pages :
    ∃ a₀ log₀ a pairs a₁ pages a₂, a₀.Fresh ∧ History a₀ log₀ a ∧ History a pairs a₁ ∧
      History a pages a₂ ∧ Answered log₀ ∧ a.heads 0 = [4] ∧ a.heads 1 = [5] ∧ a.heads 2 = [7] ∧
      held pairs = [⟨9, 1⟩, ⟨7, 1⟩, ⟨5, 1⟩] ∧
      (held pages).map Block.pfn = [10, 9, 8, 7, 6, 5, 4] ∧
      Drains a 1 pairs a₁ ∧ Drains a 0 pages a₂ := by
  have hrun : ∃ a₀ log₀ a pairs a₁ pages a₂, Fresh a₀ ∧ History a₀ log₀ a ∧ History a pairs a₁ ∧
      History a pages a₂ ∧ Answered log₀ ∧ a.heads 0 = [4] ∧ a.heads 1 = [5] ∧ a.heads 2 = [7] ∧
      held pairs = [⟨9, 1⟩, ⟨7, 1⟩, ⟨5, 1⟩] ∧
      (held pages).map Block.pfn = [10, 9, 8, 7, 6, 5, 4] ∧ a.lastOrder = 2 ∧
      a.capacity 1 = 3 ∧ pairs.map Exchange.call = List.replicate 3 (.allocate 1 Hints.empty) ∧
      a.capacity 0 = 7 ∧ pages.map Exchange.call = List.replicate 7 (.allocate 0 Hints.empty) ∧
      a.counters.splits + 7 < Word.limit ∧ a.counters.allocations + 7 < Word.limit := by
    let request : Call := .allocate 0 Hints.empty
    refine ⟨_, _, _, _, _, _, _, ⟨4096, 3, 8, 2, _, rfl, rfl⟩,
      .call none request (.call none (.insert 3 8) .start),
      .call none (.allocate 1 Hints.empty) (.call none (.allocate 1 Hints.empty)
        (.call none (.allocate 1 Hints.empty) .start)),
      .call none request (.call none request (.call none request (.call none request
        (.call none request (.call none request (.call none request .start)))))), ?_⟩
    decide +kernel
  obtain ⟨a₀, log₀, a, pairs, a₁, pages, a₂, hfresh, h₀, hpairs, hpages, hanswered, hsingle,
    hdouble, hfour, hheldPairs, hheldPages, hlast, hthree, hcallPairs, hseven, hcallPages, hsplits,
    hallocations⟩ := hrun
  have hcalls : ∀ {log : List Exchange} {n order : Nat},
      log.map Exchange.call = List.replicate n (.allocate order Hints.empty) →
      log.length = n ∧ ∀ e ∈ log, ∃ hints, e.call = .allocate order hints := by
    intro log n order he
    obtain ⟨hlength, hall⟩ := List.eq_replicate_iff.mp he
    rw [List.length_map] at hlength
    exact ⟨hlength, fun e hm => ⟨_, hall _ (List.mem_map_of_mem hm)⟩⟩
  refine ⟨a₀, log₀, a, pairs, a₁, pages, a₂, hfresh, h₀, hpairs, hpages, hanswered, hsingle,
    hdouble, hfour, hheldPairs, hheldPages, ?_, ?_⟩
  · exact drained_of_history hfresh h₀ hanswered (by omega) (by omega) (by omega) hpairs
      (hcalls hcallPairs).2 ((hcalls hcallPairs).1.trans hthree.symm)
  · exact drained_of_history hfresh h₀ hanswered (by omega) (by omega) (by omega) hpages
      (hcalls hcallPages).2 ((hcalls hcallPages).1.trans hseven.symm)

end Allocator

end BuddySystem
