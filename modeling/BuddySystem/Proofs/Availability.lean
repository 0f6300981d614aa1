import BuddySystem.Proofs.Canonical

/-!
# When a request is granted

A request is granted from the smallest block in stock that is large enough; nothing is
merged for it.  In a history whose runs are handed over apart this is no loss.  The
blocks in stock are then all the maximal blocks of the free frames, and an aligned run
of free frames lies inside one of them (`exists_le_order`).  So a request is granted
just when some aligned run of its length is free, in whatever way it became free, and
the block comes from the lowest of the smallest maximal blocks.  That is
`granted_iff_of_history`.
-/

namespace BuddySystem

/-- Where the blocks in stock are maximal, no aligned run of free frames is longer than all of
them. -/
theorem exists_le_order {base lastOrder : Nat} {B : Finset Block} {b : Block}
    (hmax : ∀ c ∈ B, c.IsMaximal base lastOrder (covered B)) (hb : b.Aligned base)
    (ho : b.order ≤ lastOrder) (hsub : b.frames ⊆ covered B) : ∃ c ∈ B, b.order ≤ c.order := by
  obtain ⟨c, hc, hf⟩ := mem_covered.mp (hsub b.pfn_mem_frames)
  refine ⟨c, hc, Nat.le_of_not_lt fun hlt => ?_⟩
  have hin := (hmax c hc).aligned.frames_parent_subset hb hlt hf b.pfn_mem_frames
  exact (hmax c hc).largest (hlt.trans_le ho) (hin.trans hsub)

namespace Allocator

variable {a a₀ : Allocator} {B : Finset Block} {log : List Exchange} {order : Nat}
  {hints : Hints} {v : Verbosity} {g : Grant}

/-- What is granted is the lower end of the lowest of the smallest blocks that are large enough. -/
theorem exists_lowest_of_granted (hB : a.Complete B)
    (hg : (perform (.allocate order hints) v a).value = .ok (.granted g)) :
    ∃ source, Lowest B order source ∧ g = { toBlock := ⟨source.pfn, order⟩, hints } := by
  have hp := performed_of_answer hB.keeps hg
  generalize (perform (.allocate order hints) v a).state = a' at hp
  cases hp with
  | granted hallocated =>
    cases hallocated with
    | granted _ hlow _ _ _ _ => exact ⟨_, hlow, rfl⟩
  | looked hq => exact hq.elim

/-- A request is granted if some block in stock is large enough, unless a counter might become
full. -/
theorem granted_of_mem (hB : a.Complete B) (ho : order ≤ a.lastOrder) {c : Block} (hc : c ∈ B)
    (hoc : order ≤ c.order) (hallocations : a.counters.allocations + 1 < Word.limit)
    (hsplits : a.counters.splits + (a.lastOrder - order) < Word.limit) :
    ∃ g, (perform (.allocate order hints) v a).value = .ok (.granted g) := by
  obtain ⟨source, hlow⟩ := hB.keeps.exists_lowest ho hc hoc
  have hle : source.order ≤ a.lastOrder := hB.keeps.sound.order_le source hlow.mem
  have hends : (perform (.allocate order hints)).Ends v a
      (fun reply _ => ∃ g, reply = .granted g) fun _ => False := by
    rw [perform]
    refine (allocate_grants hB.keeps hB.sighted hlow (by omega) hallocations hints).bind
      (fun _ hf => hf) ?_
    rintro answer a' ⟨he, _⟩
    rw [he]
    exact ⟨_, rfl⟩
  obtain ⟨_, _, _, hx, g, rfl⟩ := hends.exists_ok
  exact ⟨g, by rw [hx]⟩

/-- **A request is granted if and only if some aligned run of its length is free**, and then from
the lowest of the smallest maximal blocks of free frames that are large enough. -/
theorem granted_iff_of_history (hfresh : a₀.Fresh) (h : History a₀ log a)
    (hanswered : Answered log) (hapart : ∀ e ∈ log, e.Apart) (ho : order ≤ a.lastOrder)
    (hints : Hints) (v : Verbosity) :
    (a.counters.allocations + 1 < Word.limit →
      a.counters.splits + (a.lastOrder - order) < Word.limit →
      ((∃ g, (perform (.allocate order hints) v a).value = .ok (.granted g)) ↔
        ∃ p, (⟨p, order⟩ : Block).Aligned a.base ∧
          (⟨p, order⟩ : Block).frames ⊆ a.registry.freeFrames)) ∧
      ∀ g, (perform (.allocate order hints) v a).value = .ok (.granted g) →
        ∃ source : Block, g = { toBlock := ⟨source.pfn, order⟩, hints } ∧
          order ≤ source.order ∧
          source.IsMaximal a.base a.lastOrder a.registry.freeFrames ∧
          ∀ d : Block, d.IsMaximal a.base a.lastOrder a.registry.freeFrames → order ≤ d.order →
            source.order < d.order ∨ source.order = d.order ∧ source.pfn ≤ d.pfn := by
  obtain ⟨hkeeps, hfree, hhidden⟩ := hfresh.keeps
  obtain ⟨B, hB, hm, _⟩ := merged_of_history ⟨hkeeps, hfree, hhidden⟩
    (fun b hb => absurd hb (Finset.notMem_empty b)) h hanswered hapart
  have hmax : ∀ b ∈ B, b.IsMaximal a.base a.lastOrder (covered B) :=
    hB.keeps.sound.maximal_of_merged hm
  have hfrees : a.registry.freeFrames = covered B := hB.free
  rw [hfrees]
  refine ⟨fun hallocations hsplits => ⟨?_, ?_⟩, fun g hg => ?_⟩
  · rintro ⟨g, hg⟩
    obtain ⟨source, hlow, rfl⟩ := exists_lowest_of_granted hB hg
    have hsource := hmax source hlow.mem
    refine ⟨source.pfn, hsource.aligned.shrink hlow.order_le, ?_⟩
    have hin := (hsource.aligned.shrink hlow.order_le).frames_subset hsource.aligned hlow.order_le
      (Block.pfn_mem_frames ⟨source.pfn, order⟩) source.pfn_mem_frames
    exact hin.trans hsource.subset
  · rintro ⟨p, hp, hsub⟩
    obtain ⟨c, hc, hoc⟩ := exists_le_order hmax hp ho hsub
    exact granted_of_mem hB ho hc hoc hallocations hsplits
  · obtain ⟨source, hlow, rfl⟩ := exists_lowest_of_granted hB hg
    refine ⟨source, rfl, hlow.order_le, hmax source hlow.mem, fun d hd hod => ?_⟩
    exact hlow.least d ((mem_iff_isMaximal hmax).mpr hd) hod

/-- A block of two pages from a block of four that three blocks given back made up, although two
free pages next to each other come after it: they are not aligned. -/
theorem granted_after_giving_back :
    ∃ a₀ log a, a₀.Fresh ∧ History a₀ log a ∧ Answered log ∧ (∀ e ∈ log, e.Apart) ∧
      1 ≤ a.lastOrder ∧ a.heads 0 = [8, 9] ∧ a.heads 2 = [3] ∧
      (perform (.allocate 1 Hints.empty) none a).value =
        .ok (.granted { pfn := 3, order := 1, hints := Hints.empty }) ∧
      (∃ p, (⟨p, 1⟩ : Block).Aligned a.base ∧
        (⟨p, 1⟩ : Block).frames ⊆ a.registry.freeFrames) ∧
      ∃ source : Block, source.pfn = 3 ∧ 1 ≤ source.order ∧
        source.IsMaximal a.base a.lastOrder a.registry.freeFrames ∧
        ∀ d : Block, d.IsMaximal a.base a.lastOrder a.registry.freeFrames → 1 ≤ d.order →
          source.order < d.order ∨ source.order = d.order ∧ source.pfn ≤ d.pfn := by
  have hrun : ∃ a₀ log a, Fresh a₀ ∧ History a₀ log a ∧ Answered log ∧ (∀ e ∈ log, e.Apart) ∧
      1 ≤ a.lastOrder ∧ a.heads 0 = [8, 9] ∧ a.heads 2 = [3] ∧
      a.counters.allocations + 1 < Word.limit ∧
      a.counters.splits + (a.lastOrder - 1) < Word.limit ∧
      (perform (.allocate 1 Hints.empty) none a).value =
        .ok (.granted { pfn := 3, order := 1, hints := Hints.empty }) := by
    refine ⟨_, _, _, ⟨4096, 3, 8, 2, _, rfl, rfl⟩,
      .call none (.free ⟨9, 0⟩) (.call none (.free ⟨3, 0⟩) (.call none (.free ⟨8, 0⟩)
        (.call none (.allocate 0 Hints.empty) (.call none (.allocate 0 Hints.empty)
          (.call none (.allocate 0 Hints.empty) (.call none (.insert 8 2)
            (.call none (.insert 3 4) .start))))))), ?_⟩
    decide +kernel
  obtain ⟨a₀, log, a, hfresh, h, hanswered, hapart, ho, hpages, hblock, hallocations, hsplits,
    hgranted⟩ := hrun
  obtain ⟨hiff, hsource⟩ := granted_iff_of_history hfresh h hanswered hapart ho Hints.empty none
  obtain ⟨source, hg, hsource⟩ := hsource _ hgranted
  have hpfn : source.pfn = 3 := (congrArg (fun g => g.pfn) hg).symm
  exact ⟨a₀, log, a, hfresh, h, hanswered, hapart, ho, hpages, hblock, hgranted,
    (hiff hallocations hsplits).mp ⟨_, hgranted⟩, source, hpfn, hsource⟩

end Allocator

end BuddySystem
