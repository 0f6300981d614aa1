import BuddySystem.Proofs.Custody
import Mathlib.Data.List.Sort

/-!
# Canonical free lists

Runs are handed over apart (`Exchange.Apart`) when no free frame is next to the new
run.  In a history in which they are, no block that could be merged ever has its
buddy in stock with it (`View.Merged`): carving a run leaves maximal blocks, a block
that is split has its lower end handed out, so that no half meets its buddy again,
and the cascade of merges after a block came back only ends where it has to.  That
is `Performed.merged`.

A merged stock has all the maximal blocks of the frames that it covers, so the lists
are determined by which frames are free.  `heads_eq_maximalHeads` says so, and
`canonical_of_history` draws the conclusions: after requests whose blocks have all
been given back, in whatever order, the lists are what they were.
-/

namespace BuddySystem

instance Block.decidableIsMaximal (base lastOrder : Nat) (F : Finset Nat) :
    DecidablePred (Block.IsMaximal base lastOrder F) := fun b =>
  decidable_of_iff (b.order ≤ lastOrder ∧ b.Aligned base ∧ b.frames ⊆ F ∧
      (b.order < lastOrder → ¬ (b.parent base).frames ⊆ F))
    ⟨fun h => ⟨h.1, h.2.1, h.2.2.1, h.2.2.2⟩,
      fun h => ⟨h.order_le, h.aligned, h.subset, h.largest⟩⟩

/-- The heads of the maximal blocks of one order in a set of frames of the run, in ascending
order. -/
def maximalHeads (base frameCount lastOrder : Nat) (F : Finset Nat) (o : Nat) : List Nat :=
  (List.range' base frameCount).filter fun p => (⟨p, o⟩ : Block).IsMaximal base lastOrder F

/-- If a run is handed over, no free frame comes right before or after it. -/
def Exchange.Apart (e : Exchange) : Prop :=
  match e.call with
  | .insert start count =>
    ∀ f ∈ e.before.registry.freeFrames, f + 1 ≠ start ∧ f ≠ start + count
  | _ => True

instance : DecidablePred Exchange.Apart
  | ⟨before, .insert start count, _⟩ => inferInstanceAs (Decidable
      (∀ f ∈ before.registry.freeFrames, f + 1 ≠ start ∧ f ≠ start + count))
  | ⟨_, .remove _ _, _⟩ | ⟨_, .allocate _ _, _⟩ | ⟨_, .free _, _⟩ | ⟨_, .totalFree, _⟩
  | ⟨_, .lastOrder, _⟩ | ⟨_, .blockCount _, _⟩ | ⟨_, .heads _, _⟩ | ⟨_, .holds _, _⟩
  | ⟨_, .stats, _⟩ | ⟨_, .dump, _⟩ | ⟨_, .logDump, _⟩ => isTrue trivial

def Call.IsTransfer : Call → Prop
  | .allocate _ _ | .free _ => True
  | _ => False

instance : DecidablePred Call.IsTransfer
  | .allocate _ _ | .free _ => isTrue trivial
  | .insert _ _ | .remove _ _ | .totalFree | .lastOrder | .blockCount _ | .heads _ | .holds _
  | .stats | .dump | .logDump => isFalse id

variable {V V' : View} {B B' B₁ : Finset Block} {b c : Block} {base start stop : Nat}

/-! ### Buddies of new blocks -/

theorem View.Merged.congr (h : V.Merged B) (hV : V.Continues V') : V'.Merged B := by
  unfold View.Merged at h ⊢
  rw [hV]
  exact h

/-- Where a block ends the run that it lies in and its buddy lies outside, the buddy is next to the
run. -/
theorem Block.Aligned.exists_adjacent (h : b.Aligned base) (hin : b.frames ⊆ Finset.Ico start stop)
    (hout : Disjoint (b.buddy base).frames (Finset.Ico start stop)) :
    ∃ f ∈ (b.buddy base).frames, f + 1 = start ∨ f = stop := by
  have hpos := b.size_pos
  have hfirst := Finset.mem_Ico.mp (hin b.pfn_mem_frames)
  rcases h.buddy_cases with ⟨he, _⟩ | ⟨he, _, _⟩
  · have hlast := Finset.mem_Ico.mp (hin (Block.mem_frames.mpr
      (⟨by omega, by omega⟩ : b.pfn ≤ b.pfn + b.size - 1 ∧ b.pfn + b.size - 1 < b.pfn + b.size)))
    have hmem := (b.buddy base).pfn_mem_frames
    have hnot := Finset.disjoint_left.mp hout hmem
    rw [Finset.mem_Ico] at hnot
    exact ⟨_, hmem, Or.inr (by omega)⟩
  · have hmem : b.pfn - 1 ∈ (b.buddy base).frames := by
      rw [Block.mem_frames, Block.size_buddy]
      omega
    have hnot := Finset.disjoint_left.mp hout hmem
    rw [Finset.mem_Ico] at hnot
    exact ⟨_, hmem, Or.inl (by omega)⟩

/-- The buddy of a splinter starts where the block that was split starts. -/
theorem buddy_of_mem_splinters {source : Block} {order : Nat} (h : source.Aligned base)
    (ho : order ≤ source.order) (hb : b ∈ splinters source.pfn order (source.order - order)) :
    b.Aligned base ∧ (b.buddy base).pfn = source.pfn := by
  obtain ⟨i, hi, rfl⟩ := Finset.mem_image.mp hb
  have hi := Finset.mem_range.mp hi
  have hwhole : (⟨source.pfn, order + i + 1⟩ : Block).Aligned base := h.shrink (by omega)
  have hlower := hwhole.lower (Nat.succ_pos _)
  have hupper : (⟨source.pfn, order + i + 1⟩ : Block).lower.buddy base =
      ⟨source.pfn + 2 ^ (order + i), order + i⟩ := hwhole.buddy_lower (Nat.succ_pos _)
  have hback := hlower.buddy_buddy
  rw [hupper] at hback
  have hpfn : (Block.buddy base ⟨source.pfn + 2 ^ (order + i), order + i⟩).pfn = source.pfn := by
    rw [hback]
    rfl
  exact ⟨hwhole.upper (Nat.succ_pos _), hpfn⟩

/-- A cascade brings in no block but the last one. -/
theorem Ascends.subset {k : Nat} (h : Ascends base B₁ b k B' c) (hB : B₁ ⊆ insert b B) :
    B' ⊆ insert c B := by
  induction h with
  | stay => exact hB
  | @merge B₁ B' b c k hbuddy _ ih =>
    refine ih fun d hd => ?_
    rcases Finset.mem_insert.mp hd with rfl | hd
    · exact Finset.mem_insert_self _ _
    · have hd := Finset.mem_of_mem_erase hd
      obtain ⟨hne, hd⟩ := Finset.mem_erase.mp hd
      exact Finset.mem_insert_of_mem (Finset.mem_of_mem_insert_of_ne (hB hd) hne)

namespace Allocator

variable {a a₀ a' : Allocator} {log : List Exchange} {call : Call} {reply : Reply}

/-! ### One call -/

theorem Inserted.merged {count : Nat} {blocks : List Block} (hB : a.Complete B)
    (hm : a.view.Merged B) (hi : Inserted ∅ a B start count blocks a')
    (hapart : ∀ f ∈ a.view.free, f + 1 ≠ start ∧ f ≠ start + count) :
    a.view.Merged (B ∪ blocks.toFinset) := by
  have hmax : ∀ b ∈ blocks.toFinset,
      b.IsMaximal a.base a.lastOrder (Finset.Ico start (start + count)) := fun b hb =>
    hi.maximal b (List.mem_toFinset.mp hb)
  refine hm.of_new (fun b hb => ?_) fun b hb => ?_
  · rcases Finset.mem_union.mp hb with hb | hb
    · exact hB.keeps.sound.aligned b hb
    · exact (hmax b hb).aligned
  rcases Finset.mem_union.mp hb with hb | hb
  · exact Or.inl hb
  have hbm := hmax b hb
  rcases Nat.lt_or_eq_of_le hbm.order_le with ho | ho
  swap
  · exact Or.inr (Or.inl ho)
  refine Or.inr (Or.inr fun hbuddy => ?_)
  rcases Finset.mem_union.mp hbuddy with hbuddy | hbuddy
  · -- The buddy was free before, so it is outside the run and next to it.
    have hfree : (b.buddy a.base).frames ⊆ a.view.free :=
      hB.free ▸ frames_subset_covered hbuddy
    have hout : Disjoint (b.buddy a.base).frames (Finset.Ico start (start + count)) :=
      Finset.disjoint_left.mpr fun f hf hIco => (hi.new f hIco).2 (hfree hf)
    obtain ⟨f, hf, hnext⟩ := hbm.aligned.exists_adjacent hbm.subset hout
    obtain ⟨hbefore, hafter⟩ := hapart f (hfree hf)
    exact hnext.elim hbefore hafter
  · have hparent := hbm.aligned.frames_parent
    refine hbm.largest ho ?_
    rw [hparent]
    exact Finset.union_subset hbm.subset (hmax _ hbuddy).subset

theorem merged_splinters {source : Block} {order : Nat} (h : a.view.Sound B)
    (hm : a.view.Merged B) (hsource : source ∈ B) (ho : order ≤ source.order)
    (hcov : covered (splinters source.pfn order (source.order - order) ∪ B.erase source) =
      covered B \ (⟨source.pfn, order⟩ : Block).frames) :
    a.view.Merged (splinters source.pfn order (source.order - order) ∪ B.erase source) := by
  have haligned := h.aligned source hsource
  refine hm.of_new (fun b hb => ?_) fun b hb => ?_
  · rcases Finset.mem_union.mp hb with hb | hb
    · exact (buddy_of_mem_splinters haligned ho hb).1
    · exact h.aligned b (Finset.mem_of_mem_erase hb)
  rcases Finset.mem_union.mp hb with hb | hb
  swap
  · exact Or.inl (Finset.mem_of_mem_erase hb)
  -- The buddy of a splinter would cover the first frame of the block that was handed out.
  refine Or.inr (Or.inr fun hbuddy => ?_)
  have hpfn := frames_subset_covered hbuddy (Block.pfn_mem_frames _)
  rw [(buddy_of_mem_splinters haligned ho hb).2, hcov] at hpfn
  exact (Finset.mem_sdiff.mp hpfn).2 (Block.pfn_mem_frames ⟨source.pfn, order⟩)

theorem Freed.merged {k : Nat} (hB : a.Complete B) (hm : a.view.Merged B)
    (hf : Freed ∅ a B b k B' c a') : a.view.Merged B' := by
  have hsub := hf.ascends.subset (Finset.Subset.refl _)
  refine hm.of_new (fun d hd => ?_) fun d hd => ?_
  · have hd := hf.keeps.sound.aligned d hd
    rw [hf.view] at hd
    exact hd
  rcases Finset.mem_insert.mp (hsub hd) with rfl | hd
  · exact Or.inr (hf.complete hB.sighted)
  · exact Or.inl hd

/-- **Every call that answers keeps the stock merged**, if a run that it hands over is apart from
the free frames. -/
theorem Performed.merged (hB : a.Complete B) (hm : a.view.Merged B)
    (hp : Performed ∅ a B call reply a') {value : Except Fault Reply}
    (hapart : (⟨a, call, value⟩ : Exchange).Apart) :
    ∃ B', a'.Keeps ∅ B' ∧ a.view.Merged B' := by
  cases hp with
  | inserted hi => exact ⟨_, hi.keeps, hi.merged hB hm hapart⟩
  | withdrawn hw => exact ⟨_, hw.keeps, hm.mono Finset.sdiff_subset⟩
  | granted hg =>
    cases hg with
    | granted _ hlow _ hcov hkeeps _ =>
      exact ⟨_, hkeeps, merged_splinters hB.keeps.sound hm hlow.mem hlow.order_le hcov⟩
  | refused hg =>
    cases hg with
    | invalid _ => exact ⟨B, hB.keeps, hm⟩
    | exhausted _ _ hkeeps _ => exact ⟨B, hkeeps, hm⟩
  | freed hf => exact ⟨_, hf.keeps, hf.merged hB hm⟩
  | looked _ => exact ⟨B, hB.keeps, hm⟩

/-! ### Whole histories -/

/-- **The stock stays merged** in a history whose runs are handed over apart. -/
theorem merged_of_history {B₀ : Finset Block} (hB₀ : a₀.Complete B₀) (hm₀ : a₀.view.Merged B₀)
    (h : History a₀ log a) (hanswered : Answered log) (hapart : ∀ e ∈ log, e.Apart) :
    ∃ B, a.Complete B ∧ a.view.Merged B ∧ a₀.view.Continues a.view := by
  induction h with
  | start => exact ⟨B₀, hB₀, hm₀, rfl⟩
  | @call log a v call _ ih =>
    obtain ⟨⟨reply, hreply⟩, hrest⟩ := List.forall_mem_cons.mp hanswered
    obtain ⟨hlast, hearlier⟩ := List.forall_mem_cons.mp hapart
    obtain ⟨B, hB, hm, hcont⟩ := ih hrest hearlier
    have hp := performed_of_answer hB.keeps hreply
    have hr := hp.restocked hB.keeps
    obtain ⟨B', hkeeps, hm'⟩ := hp.merged hB hm hlast
    exact ⟨B', hB.of_keeps hr hkeeps, hm'.congr hr.continues, hcont.trans hr.continues⟩

/-- **The lists are determined by the free frames**, if the stock is merged. -/
theorem heads_eq_maximalHeads (hB : a.Complete B) (hm : a.view.Merged B) (o : Nat) :
    a.heads o = maximalHeads a.base a.registry.frameCount a.lastOrder a.registry.freeFrames o := by
  obtain ⟨hspells, hmem⟩ := hB.keeps.heads_spells hB.sighted o
  have hmax := hB.keeps.sound.maximal_of_merged hm
  have hrange : (List.range' a.base a.registry.frameCount).Pairwise (· < ·) :=
    List.pairwise_lt_range' 1
  refine hspells.ascending.eq_of_mem_iff (hrange.sublist List.filter_sublist) fun p => ?_
  rw [hmem, mem_iff_isMaximal hmax, ← hB.free, maximalHeads, List.mem_filter, decide_eq_true_eq]
  refine ⟨fun hp => ⟨?_, hp⟩, fun hp => hp.2⟩
  have hrun := Finset.mem_Ico.mp (a.view_free_subset (hp.subset (Block.pfn_mem_frames _)))
  rw [List.mem_range'_1]
  exact hrun

theorem supplied_of_transfers {frames : Finset Nat} (h : ∀ e ∈ log, e.call.IsTransfer) :
    supplied frames log = frames := by
  induction log with
  | nil => rfl
  | cons e log ih =>
    have hrest := ih fun e he => h e (List.mem_cons_of_mem _ he)
    obtain ⟨before, call, value⟩ := e
    have hcall := h _ List.mem_cons_self
    cases call with
    | allocate order hints => exact hrest
    | free b => exact hrest
    | _ => exact hcall.elim

theorem apart_of_transfer {e : Exchange} (h : e.call.IsTransfer) : e.Apart := by
  obtain ⟨before, call, value⟩ := e
  cases call with
  | insert start count => exact h.elim
  | _ => trivial

/-- Requests whose blocks have all been given back leave the same frames free. -/
theorem free_eq_of_transfers (hB : a.Complete B) (h : History a log a') (hanswered : Answered log)
    (htransfer : ∀ e ∈ log, e.call.IsTransfer) (hdisc : Disciplined log) (hheld : held log = []) :
    a'.view.free = a.view.free := by
  have hstart : Custody a.view.free [] a :=
    ⟨⟨B, hB⟩, .nil, fun b hb => absurd hb List.not_mem_nil, fun f => by simp⟩
  have hend := (custody_of_history hstart h hanswered hdisc).1
  rw [supplied_of_transfers htransfer, hheld] at hend
  ext f
  rw [hend.shared f]
  simp

/-- **The lists are those of the maximal blocks of free frames.**  No two buddies are listed at an
order at which they could be merged, and requests whose blocks have all been given back leave the
lists as they were. -/
theorem canonical_of_history (hfresh : a₀.Fresh) (h : History a₀ log a) (hanswered : Answered log)
    (hapart : ∀ e ∈ log, e.Apart) :
    (∀ o, a.heads o =
      maximalHeads a.base a.registry.frameCount a.lastOrder a.registry.freeFrames o) ∧
      (∀ o < a.lastOrder, ∀ p ∈ a.heads o, ((⟨p, o⟩ : Block).buddy a.base).pfn ∉ a.heads o) ∧
      ∀ log' a', History a log' a' → Answered log' → (∀ e ∈ log', e.call.IsTransfer) →
        Disciplined log' → held log' = [] → ∀ o, a'.heads o = a.heads o := by
  obtain ⟨hkeeps, hfree, hhidden⟩ := hfresh.keeps
  obtain ⟨B, hB, hm, _⟩ := merged_of_history ⟨hkeeps, hfree, hhidden⟩
    (fun b hb => absurd hb (Finset.notMem_empty b)) h hanswered hapart
  refine ⟨heads_eq_maximalHeads hB hm, fun o ho p hp hbuddy => ?_, ?_⟩
  · have hmem := (hB.keeps.heads_spells hB.sighted o).2
    exact hm ⟨p, o⟩ ((hmem p).mp hp) ho ((hmem _).mp hbuddy)
  · intro log' a' h' hanswered' htransfer hdisc hheld o
    obtain ⟨B', hB', hm', hcont⟩ := merged_of_history hB hm h' hanswered' fun e he =>
      apart_of_transfer (htransfer e he)
    have hsame : a'.registry.freeFrames = a.registry.freeFrames :=
      free_eq_of_transfers hB h' hanswered' htransfer hdisc hheld
    have hbase : a'.base = a.base := congrArg (fun V => V.base) hcont
    have hcount : a'.registry.frameCount = a.registry.frameCount :=
      congrArg (fun V => V.frameCount) hcont
    have hlast : a'.lastOrder = a.lastOrder := congrArg View.lastOrder hcont
    rw [heads_eq_maximalHeads hB' hm', heads_eq_maximalHeads hB hm, hsame, hbase, hcount, hlast]

/-- Two runs with one frame between them, and three blocks given back in another order. -/
theorem heads_after_giving_back :
    ∃ a₀ log a log' a', a₀.Fresh ∧ History a₀ log a ∧ Answered log ∧ (∀ e ∈ log, e.Apart) ∧
      History a log' a' ∧ Answered log' ∧ (∀ e ∈ log', e.call.IsTransfer) ∧ Disciplined log' ∧
      held log' = [] ∧ log'.length = 6 ∧ a.heads 0 = [8, 9] ∧ a.heads 2 = [3] ∧
      (∀ o, a.heads o =
        maximalHeads a.base a.registry.frameCount a.lastOrder a.registry.freeFrames o) ∧
      (∀ o < a.lastOrder, ∀ p ∈ a.heads o, ((⟨p, o⟩ : Block).buddy a.base).pfn ∉ a.heads o) ∧
      ∀ o, a'.heads o = a.heads o := by
  have hrun : ∃ a₀ log a log' a', Fresh a₀ ∧ History a₀ log a ∧ Answered log ∧
      (∀ e ∈ log, e.Apart) ∧ History a log' a' ∧ Answered log' ∧
      (∀ e ∈ log', e.call.IsTransfer) ∧ Disciplined log' ∧ held log' = [] ∧
      log'.length = 6 ∧ a.heads 0 = [8, 9] ∧ a.heads 2 = [3] := by
    refine ⟨_, _, _, _, _, ⟨4096, 3, 8, 2, _, rfl, rfl⟩,
      .call none (.insert 8 2) (.call none (.insert 3 4) .start), ?_, ?_,
      .call none (.free ⟨8, 0⟩) (.call none (.free ⟨3, 0⟩) (.call none (.free ⟨9, 0⟩)
        (.call none (.allocate 0 Hints.empty) (.call none (.allocate 0 Hints.empty)
          (.call none (.allocate 0 Hints.empty) .start))))), ?_⟩ <;> decide +kernel
  obtain ⟨a₀, log, a, log', a', hfresh, h, hanswered, hapart, h', hanswered', htransfer, hdisc,
    hheld, hlength, hpages, hblock⟩ := hrun
  obtain ⟨hmaximal, hbuddies, hback⟩ := canonical_of_history hfresh h hanswered hapart
  exact ⟨a₀, log, a, log', a', hfresh, h, hanswered, hapart, h', hanswered', htransfer, hdisc,
    hheld, hlength, hpages, hblock, hmaximal, hbuddies,
    hback log' a' h' hanswered' htransfer hdisc hheld⟩

end Allocator

end BuddySystem
