import BuddySystem.Proofs.Orderly

/-!
# Blocks in custody

The log of a history tells which blocks are held by those who asked for them
(`held`) and which frames have been handed over to the allocator and not been
withdrawn (`supplied`).  The takers are disciplined when they give back nothing but
blocks that they hold and hand over no frame of a block that is held.

Then every supplied frame is either free or in just one of the held blocks, which is
what one call keeps (`Custody.step`) and a whole history with it
(`custody_of_history`).  From this `secured_of_history` gets that no two held blocks
overlap, that no held block overlaps a free one, that no page is lost or made up, and
that a held block can be given back.
-/

namespace BuddySystem

/-! ### What the log tells -/

/-- The blocks that were handed out and have not been given back. -/
def held : List Exchange → List Block
  | [] => []
  | e :: log =>
    match e.call, e.value with
    | .allocate _ _, .ok (.granted g) => g.toBlock :: held log
    | .free b, .ok _ => (held log).erase b
    | _, _ => held log

/-- What becomes of the supplied frames with a call. -/
def Exchange.supply (e : Exchange) (frames : Finset Nat) : Finset Nat :=
  match e.call, e.value with
  | .insert start count, .ok _ => frames ∪ Finset.Ico start (start + count)
  | .remove start count, .ok _ => frames \ Finset.Ico start (start + count)
  | _, _ => frames

/-- The frames that were handed over and have not been withdrawn since, if `frames` were supplied
at the start. -/
def supplied (frames : Finset Nat) (log : List Exchange) : Finset Nat :=
  log.foldr Exchange.supply frames

def Exchange.pagesIn (e : Exchange) : Nat :=
  match e.call, e.value with
  | .insert _ count, .ok _ => count
  | _, _ => 0

def Exchange.pagesOut (e : Exchange) : Nat :=
  match e.call, e.value with
  | .remove _ count, .ok _ => count
  | _, _ => 0

/-- Only held blocks are given back, and no run that is handed over meets one. -/
def Disciplined : List Exchange → Prop
  | [] => True
  | e :: log => Disciplined log ∧
    match e.call with
    | .free b => b ∈ held log
    | .insert start count => ∀ b ∈ held log, Disjoint b.frames (Finset.Ico start (start + count))
    | _ => True

instance decidableDisciplined : DecidablePred Disciplined
  | [] => isTrue trivial
  | ⟨_, call, _⟩ :: log =>
    have := decidableDisciplined log
    match call with
    | .free b => inferInstanceAs (Decidable (Disciplined log ∧ b ∈ held log))
    | .insert start count => inferInstanceAs (Decidable (Disciplined log ∧
        ∀ b ∈ held log, Disjoint b.frames (Finset.Ico start (start + count))))
    | .remove _ _ | .allocate _ _ | .totalFree | .lastOrder | .blockCount _ | .heads _ | .holds _
    | .stats | .dump | .logDump => inferInstanceAs (Decidable (Disciplined log ∧ True))

/-- The last run with the frame that was handed over has not been withdrawn. -/
def Supplied (log : List Exchange) (f : Nat) : Prop :=
  ∃ newer e older, log = newer ++ e :: older ∧
    (∃ start count, e.call = .insert start count ∧ f ∈ Finset.Ico start (start + count)) ∧
    ∀ e' ∈ newer, ∀ start count, e'.call = .remove start count →
      f ∉ Finset.Ico start (start + count)

namespace Allocator

/-- What the holder of a block can rely on. -/
structure Secured (log : List Exchange) (a : Allocator) (b : Block) : Prop where
  order_le : b.order ≤ a.lastOrder
  aligned : b.Aligned a.base
  inside : b.frames ⊆ a.registry.run
  endPfn_eq : b.endPfn = .ok (b.pfn + 2 ^ b.order)
  allocated : ∀ f ∈ b.frames, (a.registry.page? f).map Page.state = some .allocated
  unlisted : ∀ o, ∀ p ∈ a.heads o, Disjoint b.frames (⟨p, o⟩ : Block).frames
  supplied : ∀ f ∈ b.frames, Supplied log f

/-- The frames are shared out among the free frames and the blocks. -/
structure Custody (frames : Finset Nat) (blocks : List Block) (a : Allocator) : Prop where
  complete : ∃ B, a.Complete B
  disjoint : blocks.Pairwise fun b c => Disjoint b.frames c.frames
  takes : ∀ b ∈ blocks, a.view.Takes b
  shared : ∀ f, f ∈ frames ↔ f ∈ a.view.free ∨ ∃ b ∈ blocks, f ∈ b.frames

variable {a a₀ a' : Allocator} {B : Finset Block} {log : List Exchange} {blocks : List Block}
  {b : Block} {frames : Finset Nat} {f start count : Nat} {v : Verbosity} {call : Call}
  {reply : Reply}

theorem supplied_of_mem (hanswered : Answered log) (hf : f ∈ supplied ∅ log) :
    Supplied log f := by
  induction log with
  | nil => exact absurd hf (Finset.notMem_empty f)
  | cons e log ih =>
    have hrest : f ∈ supplied ∅ log → (∀ start count, e.call = .remove start count →
        f ∉ Finset.Ico start (start + count)) → Supplied (e :: log) f := by
      intro hmem hno
      obtain ⟨newer, e', older, rfl, hins, hnewer⟩ :=
        ih (fun e he => hanswered e (List.mem_cons_of_mem _ he)) hmem
      refine ⟨e :: newer, e', older, rfl, hins, fun e'' he'' => ?_⟩
      rcases List.mem_cons.mp he'' with rfl | he''
      · exact hno
      · exact hnewer e'' he''
    obtain ⟨before, call, value⟩ := e
    obtain ⟨reply, rfl : value = .ok reply⟩ := hanswered _ List.mem_cons_self
    cases call with
    | insert start count =>
      rcases Finset.mem_union.mp hf with hf | hf
      · exact hrest hf fun _ _ he => nomatch he
      · exact ⟨[], _, log, rfl, ⟨start, count, rfl, hf⟩, fun e' he' => absurd he' List.not_mem_nil⟩
    | remove start count =>
      obtain ⟨hf, hno⟩ := Finset.mem_sdiff.mp hf
      refine hrest hf fun start' count' he => ?_
      obtain ⟨rfl, rfl⟩ := Call.remove.inj he
      exact hno
    | _ => exact hrest hf fun _ _ he => nomatch he

/-! ### One call -/

namespace Custody

theorem congr (h : Custody frames blocks a) (hcomplete : ∃ B, a'.Complete B)
    (hcont : a.view.Continues a'.view) (hfree : a'.view.free = a.view.free) :
    Custody frames blocks a' where
  complete := hcomplete
  disjoint := h.disjoint
  takes := by
    intro b hb
    have ht := h.takes b hb
    exact ht.continued hcont fun f hf => hfree ▸ (ht.allocated f hf).2
  shared := fun f => hfree ▸ h.shared f

theorem inserted {new : List Block} (h : Custody frames blocks a)
    (hi : Inserted ∅ a B start count new a') (hcomplete : ∃ B, a'.Complete B)
    (hdisc : ∀ b ∈ blocks, Disjoint b.frames (Finset.Ico start (start + count))) :
    Custody (frames ∪ Finset.Ico start (start + count)) blocks a' where
  complete := hcomplete
  disjoint := h.disjoint
  takes := by
    intro b hb
    have ht := h.takes b hb
    refine ht.continued (by rw [hi.view]; rfl) fun f hf hm => ?_
    rw [hi.view] at hm
    rcases Finset.mem_union.mp hm with hm | hm
    · exact (ht.allocated f hf).2 hm
    · exact Finset.disjoint_left.mp (hdisc b hb) hf hm
  shared := by
    intro f
    rw [hi.view, Finset.mem_union, Finset.mem_union, h.shared f]
    exact or_right_comm

theorem disjoint_inserted {new : List Block} (h : Custody frames blocks a)
    (hi : Inserted ∅ a B start count new a')
    (hdisc : ∀ b ∈ blocks, Disjoint b.frames (Finset.Ico start (start + count))) :
    Disjoint frames (Finset.Ico start (start + count)) := by
  rw [Finset.disjoint_right]
  intro f hf hs
  rcases (h.shared f).mp hs with hfree | ⟨b, hb, hfb⟩
  · exact (hi.new f hf).2 hfree
  · exact Finset.disjoint_left.mp (hdisc b hb) hfb hf

theorem withdrawn_subset {old : List Block} (h : Custody frames blocks a) (hB : a.Complete B)
    (hw : Withdrawn ∅ a B start (start + count) old a') :
    Finset.Ico start (start + count) ⊆ frames := by
  intro f hf
  exact (h.shared f).mpr (Or.inl (hB.free ▸ hw.run_subset hf))

theorem withdrawn {old : List Block} (h : Custody frames blocks a) (hB : a.Complete B)
    (hw : Withdrawn ∅ a B start (start + count) old a') (hcomplete : ∃ B, a'.Complete B) :
    Custody (frames \ Finset.Ico start (start + count)) blocks a' where
  complete := hcomplete
  disjoint := h.disjoint
  takes := by
    intro b hb
    have ht := h.takes b hb
    refine ht.continued (by rw [hw.view]; rfl) fun f hf hm => ?_
    rw [hw.view] at hm
    exact (ht.allocated f hf).2 (Finset.mem_sdiff.mp hm).1
  shared := by
    intro f
    rw [hw.view, Finset.mem_sdiff, Finset.mem_sdiff, h.shared f]
    constructor
    · rintro ⟨hf | hf, hno⟩
      · exact Or.inl ⟨hf, hno⟩
      · exact Or.inr hf
    · rintro (⟨hf, hno⟩ | ⟨b, hb, hf⟩)
      · exact ⟨Or.inl hf, hno⟩
      · refine ⟨Or.inr ⟨b, hb, hf⟩, fun hm => ?_⟩
        exact ((h.takes b hb).allocated f hf).2 (hB.free ▸ hw.run_subset hm)

theorem granted {g : Block} (h : Custody frames blocks a) (hB : a.Complete B)
    (hcomplete : ∃ B, a'.Complete B) (hcont : a.view.Continues a'.view)
    (ho : g.order ≤ a.lastOrder) (ha : g.Aligned a.base) (hsub : g.frames ⊆ a.view.free)
    (hfree : a'.view.free = a.view.free \ g.frames) : Custody frames (g :: blocks) a' where
  complete := hcomplete
  disjoint := by
    refine List.pairwise_cons.mpr ⟨fun b hb => ?_, h.disjoint⟩
    rw [Finset.disjoint_left]
    exact fun f hf hfb => ((h.takes b hb).allocated f hfb).2 (hsub hf)
  takes := by
    intro b hb
    rcases List.mem_cons.mp hb with rfl | hb
    · rw [hcont]
      refine ⟨ho, ha, fun f hf => ⟨⟨a.view_free_subset (hsub hf), by rw [hB.hidden]⟩, fun hm => ?_⟩⟩
      rw [hfree] at hm
      exact (Finset.mem_sdiff.mp hm).2 hf
    · have ht := h.takes b hb
      refine ht.continued hcont fun f hf hm => ?_
      rw [hfree] at hm
      exact (ht.allocated f hf).2 (Finset.mem_sdiff.mp hm).1
  shared := by
    intro f
    have hf := @hsub f
    rw [hfree, h.shared f, Finset.mem_sdiff]
    simp only [List.mem_cons, exists_eq_or_imp]
    tauto

theorem freed (h : Custody frames blocks a) (hb : b ∈ blocks) (hcomplete : ∃ B, a'.Complete B)
    (hcont : a.view.Continues a'.view) (hfree : a'.view.free = a.view.free ∪ b.frames) :
    Custody frames (blocks.erase b) a' := by
  have hperm := List.perm_cons_erase hb
  have hpair := (hperm.pairwise_iff fun hd => Disjoint.symm hd).mp h.disjoint
  obtain ⟨hothers, hrest⟩ := List.pairwise_cons.mp hpair
  refine ⟨hcomplete, hrest, fun c hc => ?_, fun f => ?_⟩
  · have ht := h.takes c (List.mem_of_mem_erase hc)
    refine ht.continued hcont fun f hf hm => ?_
    rw [hfree] at hm
    rcases Finset.mem_union.mp hm with hm | hm
    · exact (ht.allocated f hf).2 hm
    · exact Finset.disjoint_left.mp (hothers c hc) hm hf
  · rw [hfree, h.shared f, Finset.mem_union, or_assoc]
    refine or_congr_right ?_
    simp only [hperm.mem_iff, List.mem_cons, exists_eq_or_imp]

/-- **A call that answers keeps the custody**, and the supplied frames become more or fewer by the
pages that it hands over or withdraws. -/
theorem step (h : Custody frames (held log) a) (hB : a.Complete B)
    (hp : Performed ∅ a B call reply a') (hdisc : Disciplined (⟨a, call, .ok reply⟩ :: log)) :
    Custody (Exchange.supply ⟨a, call, .ok reply⟩ frames) (held (⟨a, call, .ok reply⟩ :: log)) a' ∧
      (Exchange.supply ⟨a, call, .ok reply⟩ frames).card + Exchange.pagesOut ⟨a, call, .ok reply⟩ =
        frames.card + Exchange.pagesIn ⟨a, call, .ok reply⟩ := by
  have hr := hp.restocked hB.keeps
  have hcomplete := hB.restocked hr
  have hlast := hdisc.2
  cases hp with
  | @inserted start count _ _ hi =>
    refine ⟨h.inserted hi hcomplete hlast, ?_⟩
    have hcard := Finset.card_union_of_disjoint (h.disjoint_inserted hi hlast)
    rw [Nat.card_Ico, Nat.add_sub_cancel_left] at hcard
    exact hcard
  | @withdrawn start count _ _ hw =>
    refine ⟨h.withdrawn hB hw hcomplete, ?_⟩
    have hcard := Finset.card_sdiff_add_card_eq_card (h.withdrawn_subset hB hw)
    rw [Nat.card_Ico, Nat.add_sub_cancel_left] at hcard
    exact hcard
  | granted hg =>
    cases hg with
    | granted ho hlow hsub _ _ hv =>
      refine ⟨h.granted hB hcomplete hr.continues ho ?_ (hB.free ▸ hsub) (by rw [hv]), rfl⟩
      exact (hB.keeps.sound.aligned _ hlow.mem).shrink hlow.order_le
  | refused hg =>
    cases hg with
    | invalid _ => exact ⟨h, rfl⟩
    | exhausted _ _ _ hv => exact ⟨h.congr hcomplete hr.continues (by rw [hv]), rfl⟩
  | freed hf => exact ⟨h.freed hlast hcomplete hr.continues (by rw [hf.view]), rfl⟩
  | looked hq =>
    cases call with
    | insert start count => exact hq.elim
    | remove start count => exact hq.elim
    | allocate order hints => exact hq.elim
    | free b => exact hq.elim
    | _ => exact ⟨h, rfl⟩

end Custody

/-! ### Whole histories -/

/-- **A disciplined history keeps the custody** of the frames that are supplied. -/
theorem custody_of_history (hstart : Custody frames [] a₀) (h : History a₀ log a)
    (hanswered : Answered log) (hdisc : Disciplined log) :
    Custody (supplied frames log) (held log) a ∧
      (supplied frames log).card + (log.map Exchange.pagesOut).sum =
        frames.card + (log.map Exchange.pagesIn).sum := by
  induction h with
  | start => exact ⟨hstart, rfl⟩
  | @call log a v call _ ih =>
    obtain ⟨⟨reply, hreply⟩, hrest⟩ := List.forall_mem_cons.mp hanswered
    change (perform call v a).value = .ok reply at hreply
    obtain ⟨hold, hcount⟩ := ih hrest hdisc.1
    obtain ⟨B, hB⟩ := hold.complete
    rw [hreply] at hdisc ⊢
    obtain ⟨hcustody, hstep⟩ := hold.step hB (performed_of_answer hB.keeps hreply) hdisc
    refine ⟨hcustody, ?_⟩
    rw [List.map_cons, List.sum_cons, List.map_cons, List.sum_cons]
    change (Exchange.supply ⟨a, call, .ok reply⟩ (supplied frames log)).card +
      (Exchange.pagesOut ⟨a, call, .ok reply⟩ + (log.map Exchange.pagesOut).sum) =
      frames.card + (Exchange.pagesIn ⟨a, call, .ok reply⟩ + (log.map Exchange.pagesIn).sum)
    omega

theorem Fresh.custody (h : a.Fresh) : Custody ∅ [] a := by
  obtain ⟨hkeeps, hfree, hhidden⟩ := h.keeps
  refine ⟨⟨∅, hkeeps, hfree, hhidden⟩, .nil, fun b hb => absurd hb List.not_mem_nil, fun f => ?_⟩
  rw [hfree]
  simp

/-- A block that can be taken back is taken back, unless a counter is full. -/
theorem free_answers {stale : Set Nat} (h : a.Keeps stale B) (hs : a.view.Sighted B)
    (ht : a.view.Takes b) (hfrees : a.counters.frees + 1 < Word.limit)
    (hmerges : a.counters.merges + (a.lastOrder - b.order) < Word.limit) (v : Verbosity) :
    ∃ reply, (perform (.free b) v a).value = .ok reply := by
  have hends : (perform (.free b)).Ends v a (fun _ _ => True) fun _ => False := by
    rw [perform]
    refine (free_ends h b).bind ?_ fun _ _ _ => trivial
    rintro a' (⟨hn, _⟩ | ⟨_, hstopped⟩)
    · exact hn ht
    · rcases hstopped.cause hs with hc | ⟨k, hk, _, _, _, hc⟩
      · omega
      · omega
  obtain ⟨reply, a', events, hx, _⟩ := hends.exists_ok
  exact ⟨reply, by rw [hx]⟩

/-- Blocks that do not overlap have as many pages as they cover frames. -/
theorem card_covered_toFinset : ∀ {blocks : List Block},
    blocks.Pairwise (fun b c => Disjoint b.frames c.frames) →
    (covered blocks.toFinset).card = (blocks.map Block.size).sum := by
  intro blocks
  induction blocks with
  | nil => exact fun _ => rfl
  | cons b blocks ih =>
    intro h
    obtain ⟨hb, hrest⟩ := List.pairwise_cons.mp h
    have hdisj : Disjoint b.frames (covered blocks.toFinset) := by
      rw [Finset.disjoint_left]
      intro f hf hc
      obtain ⟨c, hc, hfc⟩ := mem_covered.mp hc
      exact Finset.disjoint_left.mp (hb c (List.mem_toFinset.mp hc)) hf hfc
    rw [List.toFinset_cons, covered_insert, Finset.card_union_of_disjoint hdisj, Block.card_frames,
      ih hrest, List.map_cons, List.sum_cons]

theorem Custody.secured (h : Custody (supplied ∅ log) (held log) a) (hB : a.Complete B)
    (hanswered : Answered log) (hb : b ∈ held log) : Secured log a b := by
  have ht := h.takes b hb
  have hrun : b.frames ⊆ a.view.run := fun f hf => (ht.allocated f hf).1.1
  constructor
  · exact ht.order_le
  · exact ht.aligned
  · exact hrun
  · have horder : b.order < 64 := by
      have h1 : b.order ≤ a.lastOrder := ht.order_le
      have h2 : a.lastOrder ≤ 16 := a.lastOrder_le
      omega
    have hcount : b.pageCount = .ok (2 ^ b.order) := Word.shiftOne_eq_ok_iff.mpr ⟨horder, rfl⟩
    rw [Block.endPfn, hcount]
    exact Word.add_eq_ok_iff.mpr ⟨rfl, stop_lt_of_subset_run hrun⟩
  · intro f hf
    obtain ⟨hreach, hnot⟩ := ht.allocated f hf
    have hany := Registry.any_not_isFree_iff.mpr ⟨has_iff_reaches.mpr hreach, hnot⟩
    cases hpage : a.registry.page? f with
    | none =>
      rw [hpage] at hany
      exact absurd hany (by simp)
    | some page =>
      rw [hpage] at hany
      rcases page with ⟨pfn, state, next⟩
      cases state with
      | free => exact absurd hany (by simp [Page.isFree])
      | allocated => rfl
  · intro o p hp
    have hlisted := frames_subset_covered (((hB.keeps.heads_spells hB.sighted o).2 p).mp hp)
    rw [Finset.disjoint_left]
    intro f hf hfp
    exact (ht.allocated f hf).2 (hB.free ▸ hlisted hfp)
  · intro f hf
    exact supplied_of_mem hanswered ((h.shared f).mpr (Or.inr ⟨b, hb, hf⟩))

/-- **No page is lost or made up.** -/
theorem Custody.card_eq (h : Custody frames blocks a) (hB : a.Complete B) :
    frames.card = a.totalFree + (blocks.map Block.size).sum := by
  have hunion : frames = a.view.free ∪ covered blocks.toFinset := by
    ext f
    rw [h.shared f, Finset.mem_union, mem_covered]
    simp only [List.mem_toFinset]
  have hdisj : Disjoint a.view.free (covered blocks.toFinset) := by
    rw [Finset.disjoint_right]
    intro f hc
    obtain ⟨b, hb, hf⟩ := mem_covered.mp hc
    exact ((h.takes b (List.mem_toFinset.mp hb)).allocated f hf).2
  rw [hunion, Finset.card_union_of_disjoint hdisj, card_covered_toFinset h.disjoint, hB.free,
    ← hB.keeps.sound.sum_size, hB.keeps.total]

/-- **Held blocks are secure, no page is lost, and every held block can be given back**, for takers
that are disciplined. -/
theorem secured_of_history (hfresh : a₀.Fresh) (h : History a₀ log a) (hanswered : Answered log)
    (hdisc : Disciplined log) :
    (held log).Pairwise (fun b c => Disjoint b.frames c.frames) ∧
      (∀ b ∈ held log, Secured log a b) ∧
      a.totalFree + ((held log).map Block.size).sum + (log.map Exchange.pagesOut).sum =
        (log.map Exchange.pagesIn).sum ∧
      ∀ b ∈ held log, a.counters.frees + 1 < Word.limit →
        a.counters.merges + (a.lastOrder - b.order) < Word.limit →
        ∀ v, ∃ reply, (perform (.free b) v a).value = .ok reply := by
  obtain ⟨hcustody, hcount⟩ := custody_of_history hfresh.custody h hanswered hdisc
  obtain ⟨B, hB⟩ := hcustody.complete
  refine ⟨hcustody.disjoint, fun b hb => hcustody.secured hB hanswered hb, ?_,
    fun b hb hfrees hmerges =>
      free_answers hB.keeps hB.sighted (hcustody.takes b hb) hfrees hmerges⟩
  rw [hcustody.card_eq hB, Finset.card_empty, Nat.zero_add] at hcount
  exact hcount

/-- Two blocks are held, one was given back, and its frame was withdrawn. -/
theorem secured_after_giving_back :
    ∃ a₀ log a, a₀.Fresh ∧ History a₀ log a ∧ Answered log ∧ Disciplined log ∧
      held log = [⟨6, 0⟩, ⟨3, 1⟩] ∧ (log.map Exchange.pagesIn).sum = 8 ∧
      (log.map Exchange.pagesOut).sum = 1 ∧
      (held log).Pairwise (fun b c => Disjoint b.frames c.frames) ∧
      (∀ b ∈ held log, Secured log a b) ∧
      a.totalFree + ((held log).map Block.size).sum + (log.map Exchange.pagesOut).sum =
        (log.map Exchange.pagesIn).sum ∧
      ∀ b ∈ held log, a.counters.frees + 1 < Word.limit →
        a.counters.merges + (a.lastOrder - b.order) < Word.limit →
        ∀ v, ∃ reply, (perform (.free b) v a).value = .ok reply := by
  have hrun : ∃ a₀ log a, Fresh a₀ ∧ History a₀ log a ∧ Answered log ∧ Disciplined log ∧
      held log = [⟨6, 0⟩, ⟨3, 1⟩] ∧ (log.map Exchange.pagesIn).sum = 8 ∧
      (log.map Exchange.pagesOut).sum = 1 := by
    refine ⟨_, _, _, ⟨4096, 3, 8, 2, _, rfl, rfl⟩,
      .call none (.remove 5 1) (.call none (.free ⟨5, 0⟩)
        (.call none (.allocate 0 Hints.empty) (.call none (.allocate 0 Hints.empty)
          (.call none (.allocate 1 Hints.empty) (.call none (.insert 3 8) .start))))),
      ?_⟩
    decide +kernel
  obtain ⟨a₀, log, a, hfresh, h, hanswered, hdisc, hheld, hin, hout⟩ := hrun
  exact ⟨a₀, log, a, hfresh, h, hanswered, hdisc, hheld, hin, hout,
    secured_of_history hfresh h hanswered hdisc⟩

end Allocator

end BuddySystem
