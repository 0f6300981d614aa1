import BuddySystem.Proofs.Histories

/-!
# Allocators in order

An allocator is in order (`Allocator.Orderly`) when each of its lists is an ascending
chain of as many heads as its length says, the blocks that the lists hold are
aligned, free and pairwise disjoint, and the count of free pages is right.  All of
this is about what can be read off the descriptors; `Keeps.orderly` gets it from a
stock that is kept and in sight.

* `orderly_of_history`: over a new table an allocator stays in order, and its lists
  cover just the free frames, in whatever way calls other than those that hand over
  a run end.
* `orderly_of_evolves`: over any registry the descriptors stay in order, also while
  some are hidden, whatever faults happen and however often the allocator is built
  anew.
-/

namespace BuddySystem.Allocator

/-- The lists, the descriptors and the count of free pages fit together. -/
structure Orderly (a : Allocator) : Prop where
  /-- Links lead from the first head of a list through all of its heads to their end. -/
  chained : ∀ o, Leads a.registry.next? (a.list o).head (a.heads o) none
  ascending : ∀ o, (a.heads o).Pairwise (· < ·)
  length : ∀ o, (a.list o).len = (a.heads o).length
  vacant : ∀ o, a.lastOrder < o → a.list o = FreeList.empty
  aligned : ∀ o, ∀ p ∈ a.heads o, (⟨p, o⟩ : Block).Aligned a.base
  inside : ∀ o, ∀ p ∈ a.heads o, p + 2 ^ o ≤ a.base + a.registry.frameCount
  free : ∀ o, ∀ p ∈ a.heads o, (⟨p, o⟩ : Block).frames ⊆ a.registry.freeFrames
  disjoint : ∀ o, ∀ p ∈ a.heads o, ∀ o', ∀ p' ∈ a.heads o', (⟨p, o⟩ : Block) ≠ ⟨p', o'⟩ →
    Disjoint (⟨p, o⟩ : Block).frames (⟨p', o'⟩ : Block).frames
  /-- Every list counts with the pages of its blocks. -/
  total : a.totalFree = ∑ o ∈ Finset.range (a.lastOrder + 1), 2 ^ o * (a.list o).len

/-- What can happen to an allocator and its registry: calls with any outcome, other frames being
hidden, and a new allocator being built over the registry. -/
inductive Evolves (a₀ : Allocator) : Allocator → Prop
  | start : Evolves a₀ a₀
  | call {a : Allocator} (v : Verbosity) (call : Call) :
      Evolves a₀ a → Evolves a₀ (perform call v a).state
  | hide {a : Allocator} (hidden : Nat → Bool) : Evolves a₀ a → Evolves a₀ (a.hide hidden)
  | rebuild {a a' : Allocator} {lastOrder : Nat} :
      Evolves a₀ a → a.rebuild lastOrder = .ok a' → Evolves a₀ a'

variable {stale : Set Nat} {a a₀ : Allocator} {B : Finset Block} {log : List Exchange}
  {registry : Registry} {lastOrder : Nat}

/-! ### From the stock to the lists -/

/-- The heads read off a list are those of the blocks in stock. -/
theorem Keeps.heads_spells (h : a.Keeps stale B) (hs : a.view.Sighted B) (o : Nat) :
    (a.threaded o).Spells (a.heads o) ∧ ∀ p, p ∈ a.heads o ↔ (⟨p, o⟩ : Block) ∈ B := by
  obtain ⟨xs, hxs, hmem⟩ := h.spells o
  have hvis : ∀ x ∈ xs, a.registry.has x = true := fun x hx =>
    reaches_of_sighted h.sound hs
      (frames_subset_covered ((hmem x).mp hx) (Block.pfn_mem_frames _))
  have hlen : xs.length ≤ a.registry.frameCount + 1 := by
    have hxsB := length_le_card hxs hmem
    have hcard := h.sound.card_le
    have hrun := Finset.card_le_card (h.sound.free.trans a.view_free_subset)
    rw [Survey.run, Nat.card_Ico] at hrun
    change _ ≤ a.view.base + a.registry.frameCount - a.view.base at hrun
    omega
  have hheads : a.heads o = xs :=
    Registry.chain_eq_of_leads (Registry.leads_next? hxs.leads hvis) hlen
  rw [hheads]
  exact ⟨hxs, hmem⟩

theorem Keeps.card_order (h : a.Keeps stale B) (o : Nat) :
    (B.filter fun b => b.order = o).card = (a.list o).len := by
  obtain ⟨xs, hxs, hmem⟩ := h.spells o
  have himage : (B.filter fun b => b.order = o) = xs.toFinset.image fun p => ⟨p, o⟩ := by
    ext b
    rw [Finset.mem_filter, Finset.mem_image]
    constructor
    · rintro ⟨hb, rfl⟩
      exact ⟨b.pfn, List.mem_toFinset.mpr ((hmem b.pfn).mpr hb), rfl⟩
    · rintro ⟨p, hp, rfl⟩
      exact ⟨(hmem p).mp (List.mem_toFinset.mp hp), rfl⟩
  have hinj : Function.Injective fun p => (⟨p, o⟩ : Block) := fun p q he => congrArg Block.pfn he
  rw [himage, Finset.card_image_of_injective _ hinj, List.toFinset_card_of_nodup hxs.nodup]
  exact hxs.len.symm

theorem sum_size_order (S : Finset Block) (o : Nat) :
    ∑ b ∈ S.filter (fun b => b.order = o), b.size =
      2 ^ o * (S.filter fun b => b.order = o).card := by
  have hsize : ∀ b ∈ S.filter fun b => b.order = o, b.size = 2 ^ o := by
    intro b hb
    rw [Block.size_eq, (Finset.mem_filter.mp hb).2]
  rw [Finset.sum_const_nat hsize, Nat.mul_comm]

/-- The pages of blocks are counted order by order. -/
theorem sum_size_by_order {S : Finset Block} {orders : Finset Nat}
    (h : ∀ b ∈ S, b.order ∈ orders) :
    ∑ b ∈ S, b.size = ∑ o ∈ orders, 2 ^ o * (S.filter fun b => b.order = o).card := by
  rw [← Finset.sum_fiberwise_of_maps_to h]
  exact Finset.sum_congr rfl fun o _ => sum_size_order S o

/-- **The free pages are counted order by order.** -/
theorem Keeps.total_eq_sum (h : a.Keeps stale B) :
    a.totalFree = ∑ o ∈ Finset.range (a.lastOrder + 1), 2 ^ o * (a.list o).len := by
  have hmaps : ∀ b ∈ B, b.order ∈ Finset.range (a.lastOrder + 1) := fun b hb =>
    Finset.mem_range.mpr (Nat.lt_succ_of_le (h.sound.order_le b hb))
  rw [h.total, sum_size_by_order hmaps]
  exact Finset.sum_congr rfl fun o _ => by rw [h.card_order]

/-- **A stock that is kept and in sight has its lists in order.** -/
theorem Keeps.orderly (h : a.Keeps stale B) (hs : a.view.Sighted B) : a.Orderly := by
  have hB := fun o p => (h.heads_spells hs o).2 p
  have hcov : ∀ {o p}, p ∈ a.heads o → (⟨p, o⟩ : Block).frames ⊆ covered B :=
    fun hp => frames_subset_covered ((hB _ _).mp hp)
  constructor
  · intro o
    refine Registry.leads_next? (h.heads_spells hs o).1.leads fun x hx => ?_
    exact reaches_of_sighted h.sound hs (hcov hx (Block.pfn_mem_frames _))
  · exact fun o => (h.heads_spells hs o).1.ascending
  · exact fun o => (h.heads_spells hs o).1.len
  · intro o ho
    have hspells := (h.heads_spells hs o).1
    have hnil : a.heads o = [] := by
      apply List.eq_nil_iff_forall_not_mem.mpr
      intro p hp
      exact Nat.not_le.mpr ho (h.sound.order_le _ ((hB o p).mp hp))
    rw [hnil] at hspells
    have hhead : (a.list o).head = none := hspells.leads
    have hlen : (a.list o).len = 0 := hspells.len
    rcases hlist : a.list o with ⟨head, len⟩
    rw [hlist] at hhead hlen
    change head = none at hhead
    change len = 0 at hlen
    rw [hhead, hlen]
    rfl
  · exact fun o p hp => h.sound.aligned _ ((hB o p).mp hp)
  · exact fun o p hp => (inside_of_subset_run (h.frames_subset_run ((hB o p).mp hp))).2
  · exact fun o p hp => (hcov hp).trans h.sound.free
  · exact fun o p hp o' p' hp' hne => h.sound.disjoint ((hB o p).mp hp) ((hB o' p').mp hp') hne
  · exact h.total_eq_sum

/-! ### Over a new table -/

theorem keeps_of_create (hc : create registry lastOrder = .ok a)
    (hidle : ∀ f ∉ stale, registry.link? f = none) :
    a.Keeps stale ∅ ∧ a.registry = registry := by
  unfold create at hc
  split at hc
  · obtain rfl := Except.ok.inj hc
    refine ⟨⟨⟨?_, ?_, ?_, ?_⟩, fun o => ⟨[], ?_, ?_⟩, rfl, fun f hf _ => hidle f hf⟩, rfl⟩
    · simp
    · simp
    · exact Finset.empty_subset _
    · simp
    · have hempty : ∀ list : FreeList, list = FreeList.empty →
          (⟨list, registry⟩ : Threaded).Spells [] := fun list he => he ▸ ⟨rfl, .nil, rfl⟩
      refine hempty _ ?_
      rw [list, Vector.getElem?_replicate]
      split <;> rfl
    · simp
  · cases hc

/-- The frames of a new table are allocated and have no links. -/
theorem Fresh.keeps (h : a.Fresh) :
    a.Keeps ∅ ∅ ∧ a.view.free = ∅ ∧ a.view.hidden = fun _ => false := by
  obtain ⟨pageSize, base, count, lastOrder, table, htable, hcreate⟩ := h
  have hpage : ∀ f page, table.page? f = some page → page = Page.fresh f := by
    intro f page hp
    rw [FrameTable.page?_of_create htable] at hp
    split at hp
    · exact (Option.some.inj hp).symm
    · cases hp
  have hnew : a.Keeps ∅ ∅ ∧ a.registry = Registry.ofTable table :=
    keeps_of_create hcreate fun f _ => Registry.link?_of_create htable f
  obtain ⟨hkeeps, hregistry⟩ := hnew
  refine ⟨hkeeps, ?_, ?_⟩
  · change a.registry.freeFrames = ∅
    rw [hregistry]
    ext f
    rw [Registry.mem_freeFrames]
    change (table.page? f).map Page.state = some .free ↔ _
    cases hp : table.page? f with
    | none => simp
    | some page =>
      rw [hpage f page hp]
      simp [Page.fresh]
  · change a.registry.hidden = _
    rw [hregistry]
    rfl

/-- Nothing is hidden, and the stock covers all free frames. -/
structure Complete (a : Allocator) (B : Finset Block) : Prop where
  keeps : a.Keeps ∅ B
  free : a.view.free = covered B
  hidden : a.view.hidden = fun _ => false

theorem Complete.sighted (h : a.Complete B) : a.view.Sighted B := fun f _ => by rw [h.hidden]

theorem Complete.restocked {a' : Allocator} (h : a.Complete B) (hr : Restocked ∅ a B a') :
    ∃ B', a'.Complete B' := by
  obtain ⟨B', hkeeps, hlost⟩ := hr.keeps
  have hempty := hlost h.sighted
  rw [h.free, Finset.sdiff_self, Finset.sdiff_eq_empty_iff_subset] at hempty
  refine ⟨B', hkeeps, Finset.Subset.antisymm hempty hkeeps.sound.free, ?_⟩
  rw [hr.continues]
  exact h.hidden

/-- The stock that is kept after a call is the complete one. -/
theorem Complete.of_keeps {a' : Allocator} {B' : Finset Block} (h : a.Complete B)
    (hr : Restocked ∅ a B a') (h' : a'.Keeps ∅ B') : a'.Complete B' := by
  obtain ⟨B₁, hB₁⟩ := h.restocked hr
  obtain rfl := hB₁.keeps.unique h'
  exact hB₁

/-- **The stock covers all free frames** after every call, if no run that was handed over was
refused. -/
theorem complete_of_history (hfresh : a₀.Fresh) (h : History a₀ log a)
    (hinsert : ∀ e ∈ log, ∀ start count, e.call = .insert start count →
      ∃ reply, e.value = .ok reply) :
    ∃ B, a.Complete B := by
  induction h with
  | start =>
    obtain ⟨hkeeps, hfree, hhidden⟩ := hfresh.keeps
    exact ⟨∅, hkeeps, hfree, hhidden⟩
  | @call log a v call _ ih =>
    obtain ⟨B, hB⟩ := ih fun e he => hinsert e (List.mem_cons_of_mem _ he)
    have hends := perform_ends (v := v) hB.keeps call
    have hlast := hinsert _ List.mem_cons_self
    rcases hx : perform call v a with ⟨fault | reply, a', events⟩
    · rw [hx] at hlast
      refine hB.restocked ((hends.of_error hx).2.2 ?_)
      rintro start count rfl
      obtain ⟨reply, hr⟩ := hlast start count rfl
      cases hr
    · exact hB.restocked ((hends.of_ok hx).restocked hB.keeps)

/-- **An allocator over a new table stays in order**, its lists cover the free frames and no others,
and no frame but a head has a link. -/
theorem orderly_of_history (hfresh : a₀.Fresh) (h : History a₀ log a)
    (hinsert : ∀ e ∈ log, ∀ start count, e.call = .insert start count →
      ∃ reply, e.value = .ok reply) :
    a.Orderly ∧
      (∀ f, f ∈ a.registry.freeFrames ↔
        ∃ o, ∃ p ∈ a.heads o, f ∈ (⟨p, o⟩ : Block).frames) ∧
      a.totalFree = a.registry.freeFrames.card ∧
      ∀ f, (∀ o, f ∉ a.heads o) → a.registry.next? f = none := by
  obtain ⟨B, hB⟩ := complete_of_history hfresh h hinsert
  have hmem := fun o p => (hB.keeps.heads_spells hB.sighted o).2 p
  have hfree : a.registry.freeFrames = covered B := hB.free
  refine ⟨hB.keeps.orderly hB.sighted, fun f => ?_, ?_, fun f hf => ?_⟩
  · rw [hfree, mem_covered]
    constructor
    · rintro ⟨b, hb, hf⟩
      exact ⟨b.order, b.pfn, (hmem _ _).mpr hb, hf⟩
    · rintro ⟨o, p, hp, hf⟩
      exact ⟨⟨p, o⟩, (hmem o p).mp hp, hf⟩
  · rw [hfree, hB.keeps.total, hB.keeps.sound.sum_size]
  · have hlink := hB.keeps.idle f (Set.notMem_empty f) fun o hm => hf o ((hmem o f).mpr hm)
    rw [Registry.next?, Registry.page?, show a.registry.hidden = _ from hB.hidden]
    exact hlink

/-- A removal that stops at a block that is too long, and a request after it. -/
theorem orderly_after_broken_removal :
    ∃ a₀ log a, a₀.Fresh ∧ History a₀ log a ∧
      (∀ e ∈ log, ∀ start count, e.call = .insert start count →
        ∃ reply, e.value = .ok reply) ∧
      log.map Exchange.call = [.allocate 0 Hints.empty, .remove 3 5, .insert 3 6] ∧
      (∃ e ∈ log, e.call = .remove 3 5 ∧ ∃ fault, e.value = .error fault) ∧
      a.Orderly ∧
      (∀ f, f ∈ a.registry.freeFrames ↔
        ∃ o, ∃ p ∈ a.heads o, f ∈ (⟨p, o⟩ : Block).frames) ∧
      a.totalFree = a.registry.freeFrames.card ∧
      ∀ f, (∀ o, f ∉ a.heads o) → a.registry.next? f = none := by
  have hrun : ∃ a₀ log a, Fresh a₀ ∧ History a₀ log a ∧
      (∀ e ∈ log, ∀ start count, e.call = .insert start count →
        ∃ reply, e.value = .ok reply) ∧
      log.map Exchange.call = [.allocate 0 Hints.empty, .remove 3 5, .insert 3 6] ∧
      ∃ e ∈ log, e.call = .remove 3 5 ∧ ∃ fault, e.value = .error fault := by
    refine ⟨_, _, _, ⟨4096, 3, 8, 2, _, rfl, rfl⟩, .call none (.allocate 0 Hints.empty)
      (.call none (.remove 3 5) (.call none (.insert 3 6) .start)), ?_, rfl,
      _, List.mem_cons_of_mem _ List.mem_cons_self, rfl, _, rfl⟩
    intro e he start count hcall
    rcases List.mem_cons.mp he with rfl | he
    · cases hcall
    rcases List.mem_cons.mp he with rfl | he
    · cases hcall
    rw [List.mem_singleton.mp he]
    exact ⟨_, rfl⟩
  obtain ⟨a₀, log, a, hfresh, h, hinsert, hcalls, hfault⟩ := hrun
  exact ⟨a₀, log, a, hfresh, h, hinsert, hcalls, hfault, orderly_of_history hfresh h hinsert⟩

/-! ### Over any registry -/

theorem Keeps.hide (h : a.Keeps stale B) (hidden : Nat → Bool) : (a.hide hidden).Keeps stale B :=
  h.congr ⟨h.sound.order_le, h.sound.aligned, h.sound.free, h.sound.disjoint⟩
    (fun _ => rfl) (fun _ => rfl) rfl

/-- **Some stock is kept** whatever happens. -/
theorem keeps_of_evolves (hcreate : create registry lastOrder = .ok a₀) (h : Evolves a₀ a) :
    ∃ B, a.Keeps Set.univ B := by
  induction h with
  | start => exact ⟨∅, (keeps_of_create hcreate fun f hf => absurd (Set.mem_univ f) hf).1⟩
  | @call a v call _ ih =>
    obtain ⟨B, hB⟩ := ih
    have hends : (perform call).Ends v a (fun _ a' => ∃ B', a'.Keeps Set.univ B')
        fun a' => ∃ B', a'.Keeps Set.univ B' := by
      refine (perform_ends hB call).mono (fun reply a' hp => ?_) fun a' he => ?_
      · obtain ⟨B', hkeeps, _⟩ := (hp.restocked hB).keeps
        exact ⟨B', hkeeps⟩
      · obtain ⟨B', hkeeps, _⟩ := he.2.1
        exact ⟨B', hkeeps⟩
    exact hends.state
  | hide hidden _ ih =>
    obtain ⟨B, hB⟩ := ih
    exact ⟨B, hB.hide hidden⟩
  | rebuild _ hrebuild _ =>
    exact ⟨∅, (keeps_of_create hrebuild fun f hf => absurd (Set.mem_univ f) hf).1⟩

/-- **The descriptors stay in order**, those that are hidden included. -/
theorem orderly_of_evolves (hcreate : create registry lastOrder = .ok a₀) (h : Evolves a₀ a) :
    (a.hide fun _ => false).Orderly := by
  obtain ⟨B, hB⟩ := keeps_of_evolves hcreate h
  exact (hB.hide fun _ => false).orderly fun _ _ => rfl

/-- A split that loses its upper half because that has been hidden, over descriptors with links that
lead in circles. -/
theorem orderly_after_lost_half :
    ∃ registry a₀ a, registry.link? 4 = some 4 ∧ create registry 3 = .ok a₀ ∧ Evolves a₀ a ∧
      a.totalFree = 4 ∧ a.heads 2 = [0] ∧ a.heads 3 = [] ∧
      (a.hide fun _ => false).Orderly := by
  have hrun : ∃ registry a₀ a, registry.link? 4 = some 4 ∧ create registry 3 = .ok a₀ ∧
      Evolves a₀ a ∧ a.totalFree = 4 ∧ a.heads 2 = [0] ∧ a.heads 3 = [] := by
    refine ⟨Registry.ofTable ⟨0, Array.replicate 8 ⟨0, .allocated, some 4⟩, 4096, by decide⟩,
      _, _, rfl, rfl, .call none (.allocate 0 Hints.empty) (.hide (fun f => f = 4)
        (.call none (.insert 0 8) .start)), ?_⟩
    decide +kernel
  obtain ⟨registry, a₀, a, hlink, hcreate, h, hstate⟩ := hrun
  exact ⟨registry, a₀, a, hlink, hcreate, h, hstate.1, hstate.2.1, hstate.2.2,
    orderly_of_evolves hcreate h⟩

end BuddySystem.Allocator
