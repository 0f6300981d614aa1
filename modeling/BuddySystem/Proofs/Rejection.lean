import BuddySystem.Proofs.Custody
import BuddySystem.Proofs.Effects
import BuddySystem.Proofs.Footprints

/-!
# Blocks that are not taken back

A block that is given back is either taken, with everything that follows from it, or it
is refused before anything is written.  This is so over any registry, with any frames
hidden for good, and whatever faults there have been: the frames in stock are always in
sight (`sighted_of_history`), because a hidden frame cannot be freed and so never comes
into stock.  Then nothing but a full counter can stop a block that has passed the checks
at the start (`free_answers`).

A frame that was freed or handed over stays free until it is handed out or withdrawn
(`free_of_returned`), so giving it back once more is always refused.  A withdrawal that
ends in a fault has withdrawn the blocks before the one it stopped at, and a request that
ends in a fault has handed out nothing.
-/

namespace BuddySystem

/-! ### What the log tells -/

/-- The frame is freed or handed over by the call. -/
def Exchange.Frees (e : Exchange) (f : Nat) : Prop :=
  match e.call, e.value with
  | .insert start count, .ok _ => f ∈ Finset.Ico start (start + count)
  | .free b, .ok _ => f ∈ b.frames
  | _, _ => False

/-- The frame is handed out or withdrawn by the call.  It can be withdrawn by a call that ends in a
fault, if listed blocks lead up to it from the start of the run. -/
def Exchange.Removes (e : Exchange) (f : Nat) : Prop :=
  match e.call with
  | .allocate _ _ => ∃ g, e.value = .ok (.granted g) ∧ f ∈ g.frames
  | .remove start count => start + count < Word.limit ∧
      ∃ mid ≤ start + count, ∃ blocks, Tiles start mid blocks ∧
        (∀ b ∈ blocks, b.pfn ∈ e.before.heads b.order) ∧ f ∈ Finset.Ico start mid
  | _ => False

/-- The frame has been freed or handed over, and not been handed out or withdrawn since. -/
def Returned (f : Nat) : List Exchange → Prop
  | [] => False
  | e :: log => e.Frees f ∨ (Returned f log ∧ ¬ e.Removes f)

namespace Allocator

variable {stale : Set Nat} {states : Set PageState} {a a₀ a' : Allocator} {B B' : Finset Block}
  {b : Block} {v : Verbosity} {call : Call} {log : List Exchange} {registry : Registry}
  {lastOrder f : Nat}

/-! ### The stock stays in sight -/

/-- No hidden frame comes into stock, if no free frame gets lost. -/
theorem Writes.sighted (hw : Writes states a a') (hs : a.view.Sighted B)
    (h' : a'.Keeps stale B') (hlost : a.view.free \ covered B ⊆ a'.view.free \ covered B') :
    a'.view.Sighted B' := by
  intro f hf
  rw [hw.hidden]
  by_contra hhidden
  have hhidden : a.view.hidden f = true := Bool.eq_true_of_not_eq_false hhidden
  have hfree : f ∈ a.view.free := (hw.unseen f hhidden).mp (h'.sound.free hf)
  by_cases hc : f ∈ covered B
  · rw [hs f hc] at hhidden
    cases hhidden
  · exact (Finset.mem_sdiff.mp (hlost (Finset.mem_sdiff.mpr ⟨hfree, hc⟩))).2 hf

/-- **The stock stays in sight**, whether a call answers or faults. -/
theorem sighted_of_perform (h : a.Keeps stale B) (hs : a.view.Sighted B) (call : Call)
    (v : Verbosity) :
    ∃ B', (perform call v a).state.Keeps stale B' ∧
      (perform call v a).state.view.Sighted B' := by
  have hends : (perform call).Ends v a
      (fun _ a' => ∃ B', a'.Keeps stale B' ∧ a.view.free \ covered B ⊆ a'.view.free \ covered B')
      fun a' => ∃ B', a'.Keeps stale B' ∧
        a.view.free \ covered B ⊆ a'.view.free \ covered B' := by
    refine (perform_ends h call).mono ?_ ?_
    · intro reply a' hp
      obtain ⟨B', hkeeps, hlost⟩ := (hp.restocked h).keeps
      exact ⟨B', hkeeps, (hlost hs).ge⟩
    · intro a' ⟨_, ⟨B', hkeeps, hlost⟩, _⟩
      exact ⟨B', hkeeps, hlost hs⟩
  obtain ⟨B', hkeeps, hlost⟩ := hends.state
  exact ⟨B', hkeeps, (confined_perform call v a).sighted hs hkeeps hlost⟩

theorem sighted_of_history (hcreate : create registry lastOrder = .ok a₀) (h : History a₀ log a) :
    ∃ B, a.Keeps Set.univ B ∧ a.view.Sighted B := by
  induction h with
  | start =>
    refine ⟨∅, (keeps_of_create hcreate fun f hf => absurd (Set.mem_univ f) hf).1, ?_⟩
    intro f hf
    exact absurd hf (Finset.notMem_empty f)
  | call v call _ ih =>
    obtain ⟨B, hB, hs⟩ := ih
    exact sighted_of_perform hB hs call v

/-! ### Frames stay free -/

theorem grant_keeps_free {source : Block} {order : Nat} (h : a.Keeps stale B)
    (hs : a.view.Sighted B) (hsource : source ∈ B) (ho : order ≤ source.order) (hints : Hints) :
    (grant source order hints).Ends v a (fun _ _ => True)
      fun a' => Word.limit ≤ a.counters.allocations + 1 ∨ a'.view.free = a.view.free := by
  have hconfined : (splitDown source.pfn order (source.order - order)).Confined ∅ :=
    confined_splitDown _ _ _
  unfold grant
  refine (hconfined.ends.and (splitDown_source_ends h hsource ho)).bind ?_ ?_
  · intro a' ⟨hw, _⟩
    exact Or.inr hw.free_eq
  intro _ a₁ ⟨hw, h₁, hcov, hv₁⟩
  have hs₁ : a₁.view.Sighted (insert ⟨source.pfn, order⟩
      (splinters source.pfn order (source.order - order) ∪ B.erase source)) := by
    intro f hf
    rw [hw.hidden]
    exact hs f (hcov ▸ hf)
  rw [← bind_assoc]
  refine (takeOut_ends h₁ (Finset.mem_insert_self _ _)).bind ?_ ?_
  · intro a' hstopped
    exact (hstopped.cause hs₁).elim
  intro _ a₂ ⟨h₂, hv₂⟩
  refine (count_ends h₂ _ _).bind ?_ fun _ _ _ => trivial
  intro a' ⟨_, hfull⟩
  have hc₂ : a₂.counters = a₁.counters := congrArg View.counters hv₂
  have hc₁ : a₁.counters = { a.counters with
      splits := a.counters.splits + (source.order - order) } := congrArg View.counters hv₁
  rw [hc₂, hc₁] at hfull
  exact Or.inl hfull

/-- **A request that ends in a fault has allocated no frame**, unless the counter is full. -/
theorem allocate_keeps_free (h : a.Keeps stale B) (hs : a.view.Sighted B) (order : Nat)
    (hints : Hints) :
    (allocate order hints).Ends v a (fun _ _ => True)
      fun a' => Word.limit ≤ a.counters.allocations + 1 ∨ a'.view.free = a.view.free := by
  unfold allocate
  rw [Op.ends_bind, Op.ends_query]
  by_cases hlt : a.lastOrder < order
  · rw [if_pos hlt, Op.ends_bind, Op.ends_log]
    trivial
  have hcases := lowest?_cases h (Nat.le_of_not_lt hlt)
  rw [if_neg hlt, Op.ends_bind, Op.ends_query]
  cases hlowest : a.lowest? order with
  | none =>
    exact (confined_exhausted order).ends.mono (fun _ _ _ => trivial)
      fun a' (hw : Writes ∅ a a') => Or.inr hw.free_eq
  | some source =>
    rw [hlowest] at hcases
    exact (grant_keeps_free h hs hcases.mem hcases.order_le hints).bind (fun _ he => he)
      fun _ _ _ => trivial

theorem free_of_allocate {order : Nat} {hints : Hints} (h : a.Keeps stale B)
    (hs : a.view.Sighted B) (hf : f ∈ a.view.free)
    (hallocations : a.counters.allocations + 1 < Word.limit)
    (hno : ∀ g, (perform (.allocate order hints) v a).value = .ok (.granted g) → f ∉ g.frames) :
    f ∈ (perform (.allocate order hints) v a).state.view.free := by
  have hends : (perform (.allocate order hints)).Ends v a
      (fun reply a' => (∀ g, reply = .granted g → f ∉ g.frames) → f ∈ a'.view.free)
      fun a' => f ∈ a'.view.free := by
    rw [perform]
    refine ((allocate_keeps_free h hs order hints).and (allocate_ends h order hints)).bind ?_ ?_
    · rintro a' ⟨hfull | he, _⟩
      · omega
      · rw [he]
        exact hf
    · rintro answer a' ⟨_, hallocated⟩
      cases hallocated with
      | invalid _ => exact fun _ => hf
      | exhausted _ _ _ hv =>
        intro _
        rw [hv]
        exact hf
      | granted _ _ _ _ _ hv =>
        intro hnot
        rw [hv]
        exact Finset.mem_sdiff.mpr ⟨hf, hnot _ rfl⟩
  rcases hx : perform (.allocate order hints) v a with ⟨fault | reply, a', events⟩
  · exact hends.of_error hx
  · rw [hx] at hno
    exact hends.of_ok hx fun g he => hno g (congrArg Except.ok he)

theorem free_of_remove {start count : Nat} (h : a.Keeps stale B) (hs : a.view.Sighted B)
    (hf : f ∈ a.view.free)
    (hno : ¬ (start + count < Word.limit ∧ ∃ mid ≤ start + count, ∃ blocks,
      Tiles start mid blocks ∧ (∀ b ∈ blocks, b.pfn ∈ a.heads b.order) ∧
        f ∈ Finset.Ico start mid)) :
    f ∈ (perform (.remove start count) v a).state.view.free := by
  have hwithdrawn : ∀ {mid blocks a'}, start + count < Word.limit → mid ≤ start + count →
      Withdrawn stale a B start mid blocks a' → f ∈ a'.view.free := by
    intro mid blocks a' hlt hmid hw
    rw [hw.view]
    refine Finset.mem_sdiff.mpr ⟨hf, fun hm => hno ⟨hlt, mid, hmid, blocks, hw.tiles, ?_, hm⟩⟩
    exact fun b hb => ((h.heads_spells hs b.order).2 b.pfn).mpr (hw.mem b hb)
  have hends : (perform (.remove start count)).Ends v a (fun _ a' => f ∈ a'.view.free)
      fun a' => f ∈ a'.view.free := by
    rw [perform, Op.ends_map]
    refine (removeRun_ends h start count).mono ?_ ?_
    · intro blocks a' hw
      by_cases hlt : start + count < Word.limit
      · exact hwithdrawn hlt (Nat.le_refl _) hw
      -- The run would reach beyond the registry, so it is empty.
      rw [hw.view]
      refine Finset.mem_sdiff.mpr ⟨hf, fun hm => ?_⟩
      have hm := Finset.mem_Ico.mp hm
      have hlast : start + count - 1 ∈ covered B :=
        hw.run_subset (Finset.mem_Ico.mpr (by omega))
      have hnext := succ_lt_of_mem_run (a.view_free_subset (h.sound.free hlast))
      omega
    · intro a' hfault
      rcases hfault with ⟨_, he⟩ | ⟨hlt, _, _, hwhy⟩
      · rw [he]
        exact hf
      · obtain ⟨mid, hmid, blocks, hw, _⟩ := hwhy hs
        exact hwithdrawn hlt (Nat.le_of_lt hmid) hw
  exact hends.state

/-- **A free frame stays free** until it is handed out or withdrawn. -/
theorem free_of_not_removes (h : a.Keeps stale B) (hs : a.view.Sighted B) (hf : f ∈ a.view.free)
    (hallocations : a.counters.allocations + 1 < Word.limit)
    (hno : ¬ Exchange.Removes ⟨a, call, (perform call v a).value⟩ f) :
    f ∈ (perform call v a).state.view.free := by
  have hwrites := confined_perform call v a
  cases call with
  | allocate order hints =>
    exact free_of_allocate h hs hf hallocations fun g he hg => hno ⟨g, he, hg⟩
  | remove start count => exact free_of_remove h hs hf hno
  | insert start count => exact hwrites.free (by simp [Call.writes]) hf
  | free b => exact hwrites.free (by simp [Call.writes]) hf
  | _ => exact hwrites.free (Set.notMem_empty _) hf

theorem free_of_frees (h : a.Keeps stale B)
    (hfrees : Exchange.Frees ⟨a, call, (perform call v a).value⟩ f) :
    f ∈ (perform call v a).state.view.free := by
  have hends := perform_ends (v := v) h call
  rcases hx : perform call v a with ⟨fault | reply, a', events⟩
  · rw [hx] at hfrees
    cases call <;> exact hfrees.elim
  · have hp := hends.of_ok hx
    rw [hx] at hfrees
    show f ∈ a'.view.free
    cases hp with
    | inserted hi =>
      rw [hi.view]
      exact Finset.mem_union_right _ hfrees
    | freed hf =>
      rw [hf.view]
      exact Finset.mem_union_right _ hfrees
    | withdrawn _ => exact hfrees.elim
    | granted _ => exact hfrees.elim
    | refused _ => exact hfrees.elim
    | looked hq =>
      cases call with
      | insert start count => exact hq.elim
      | free b => exact hq.elim
      | _ => exact hfrees.elim

/-- **A frame that was freed or handed over is free** until it is handed out or withdrawn. -/
theorem free_of_returned (hcreate : create registry lastOrder = .ok a₀) (h : History a₀ log a)
    (hallocations : a.counters.allocations + 1 < Word.limit) (hf : Returned f log) :
    f ∈ a.view.free := by
  induction h with
  | start => exact hf.elim
  | @call log a v call hold ih =>
    obtain ⟨B, hB, hs⟩ := sighted_of_history hcreate hold
    have hcount := (confined_perform call v a).allocations
    rcases hf with hfrees | ⟨hf, hno⟩
    · exact free_of_frees hB hfrees
    · exact free_of_not_removes hB hs (ih (by omega) hf) (by omega) hno

/-! ### Giving back -/

/-- Why a block is not taken back. -/
theorem not_takes_iff : ¬ a.view.Takes b ↔ a.lastOrder < b.order ∨ b.pfn < a.base ∨
    ¬ b.size ∣ b.pfn - a.base ∨ ∃ f ∈ b.frames, a.registry.page? f = none ∨
      (a.registry.page? f).map Page.state = some .free := by
  have hstate : ∀ f, ¬ (a.registry.page? f).map Page.state = some .allocated ↔
      a.registry.page? f = none ∨ (a.registry.page? f).map Page.state = some .free := by
    intro f
    rcases a.registry.page? f with _ | ⟨pfn, state, next⟩
    · simp
    · cases state <;> simp
  rw [takes_iff, Block.Aligned, not_and_or, not_and_or, not_and_or, or_assoc, Nat.not_le,
    Nat.not_le]
  simp only [not_forall, hstate, exists_prop]

/-- **A block that cannot be taken back is refused and changes nothing.** -/
theorem free_refuses (h : a.Keeps stale B) (hn : ¬ a.view.Takes b) (v : Verbosity) :
    ∃ fault, (perform (.free b) v a).value = .error fault ∧ (perform (.free b) v a).state = a := by
  have hends : (perform (.free b)).Ends v a (fun _ _ => False) fun a' => a' = a := by
    rw [perform]
    refine (free_ends h b).bind ?_ ?_
    · intro a' hfault
      rcases hfault with ⟨_, he⟩ | ⟨ht, _⟩
      · exact he
      · exact absurd ht hn
    · rintro _ a' ⟨_, _, _, hf⟩
      exact absurd hf.takes hn
  obtain ⟨fault, a', events, hx, he⟩ := hends.exists_error
  exact ⟨fault, by rw [hx], by rw [hx]; exact he⟩

/-- **Giving a block back faults for just these reasons, and a fault changes nothing.**  The block
is none that the allocator can have, or one of its frames is out of reach or free.  This is so
whatever calls and faults there were before, unless a counter might become full. -/
theorem refused_iff_of_history (hcreate : create registry lastOrder = .ok a₀)
    (h : History a₀ log a) (b : Block) (v : Verbosity)
    (hfrees : a.counters.frees + 1 < Word.limit)
    (hmerges : a.counters.merges + (a.lastOrder - b.order) < Word.limit) :
    ((∃ fault, (perform (.free b) v a).value = .error fault) ↔
      a.lastOrder < b.order ∨ b.pfn < a.base ∨ ¬ b.size ∣ b.pfn - a.base ∨
        ∃ f ∈ b.frames, a.registry.page? f = none ∨
          (a.registry.page? f).map Page.state = some .free) ∧
      (∀ fault, (perform (.free b) v a).value = .error fault →
        (perform (.free b) v a).state = a) ∧
      (a.counters.allocations + 1 < Word.limit → ∀ f ∈ b.frames, Returned f log →
        ∃ fault, (perform (.free b) v a).value = .error fault ∧
          (perform (.free b) v a).state = a) := by
  obtain ⟨B, hB, hs⟩ := sighted_of_history hcreate h
  have hfault : ∀ fault, (perform (.free b) v a).value = .error fault → ¬ a.view.Takes b := by
    intro fault he ht
    obtain ⟨reply, hreply⟩ := free_answers hB hs ht hfrees hmerges v
    rw [he] at hreply
    cases hreply
  refine ⟨?_, ?_, ?_⟩
  · rw [← not_takes_iff]
    constructor
    · intro ⟨fault, he⟩
      exact hfault fault he
    · intro hn
      obtain ⟨fault, he, _⟩ := free_refuses hB hn v
      exact ⟨fault, he⟩
  · intro fault he
    exact (free_refuses hB (hfault fault he) v).choose_spec.2
  · intro hallocations f hf hreturned
    have hfree := free_of_returned hcreate h hallocations hreturned
    exact free_refuses hB (fun ht => (ht.allocated f hf).2 hfree) v

/-- A page is given back twice, over a table with a hidden frame that two runs stopped at.  The
second run has been withdrawn up to there. -/
theorem refused_after_broken_removal :
    ∃ table a₀ log a, FrameTable.create 4096 3 8 = .ok table ∧
      create ((Registry.ofTable table).hide fun f => f = 9) 2 = .ok a₀ ∧ History a₀ log a ∧
      log.map Exchange.call = [.remove 5 4, .free ⟨3, 0⟩, .allocate 1 Hints.empty,
        .insert 7 4, .insert 3 4] ∧
      log.map (fun e => e.value.isOk) = [false, true, true, false, true] ∧
      (a.registry.page? 5).map Page.state = some .allocated ∧ Returned 3 log ∧
      (perform (.free ⟨4, 0⟩) none a).value = .ok .done ∧
      ((∃ fault, (perform (.free ⟨3, 1⟩) none a).value = .error fault) ↔
        a.lastOrder < 1 ∨ 3 < a.base ∨ ¬ 2 ∣ 3 - a.base ∨
          ∃ f ∈ (⟨3, 1⟩ : Block).frames, a.registry.page? f = none ∨
            (a.registry.page? f).map Page.state = some .free) ∧
      ∃ fault, (perform (.free ⟨3, 1⟩) none a).value = .error fault ∧
        (perform (.free ⟨3, 1⟩) none a).state = a := by
  have hrun : ∃ table a₀ log a, FrameTable.create 4096 3 8 = .ok table ∧
      create ((Registry.ofTable table).hide fun f => f = 9) 2 = .ok a₀ ∧ History a₀ log a ∧
      log.map Exchange.call = [.remove 5 4, .free ⟨3, 0⟩, .allocate 1 Hints.empty,
        .insert 7 4, .insert 3 4] ∧
      log.map (fun e => e.value.isOk) = [false, true, true, false, true] ∧
      (a.registry.page? 5).map Page.state = some .allocated ∧
      (perform (.free ⟨4, 0⟩) none a).value = .ok .done ∧
      a.counters.frees + 1 < Word.limit ∧ a.counters.merges + a.lastOrder < Word.limit ∧
      a.counters.allocations + 1 < Word.limit := by
    refine ⟨_, _, _, _, rfl, rfl, .call none (.remove 5 4) (.call none (.free ⟨3, 0⟩)
      (.call none (.allocate 1 Hints.empty) (.call none (.insert 7 4)
        (.call none (.insert 3 4) .start)))), rfl, ?_⟩
    decide +kernel
  obtain ⟨table, a₀, log, a, htable, hcreate, h, hcalls, hvalues, hstate, hdone, hfrees, hmerges,
    hallocations⟩ := hrun
  have hreturned : Returned 3 log := by
    obtain ⟨e, rest, rfl, hremove, hrest⟩ := List.map_eq_cons_iff.mp hcalls
    obtain ⟨e', older, rfl, hfree, _⟩ := List.map_eq_cons_iff.mp hrest
    obtain ⟨reply, hreply⟩ := exists_ok_iff.mp (List.cons.inj (List.cons.inj hvalues).2).1
    refine Or.inr ⟨Or.inl ?_, ?_⟩
    · simp only [Exchange.Frees, hfree, hreply]
      decide
    · simp only [Exchange.Removes, hremove]
      intro ⟨_, mid, _, _, _, _, hm⟩
      exact absurd (Finset.mem_Ico.mp hm).1 (by decide)
  obtain ⟨hiff, _, hagain⟩ := refused_iff_of_history hcreate h ⟨3, 1⟩ none hfrees
    (Nat.lt_of_le_of_lt (Nat.add_le_add_left (Nat.sub_le _ _) _) hmerges)
  exact ⟨table, a₀, log, a, htable, hcreate, h, hcalls, hvalues, hstate, hreturned, hdone, hiff,
    hagain hallocations 3 (by decide) hreturned⟩

end Allocator

end BuddySystem
