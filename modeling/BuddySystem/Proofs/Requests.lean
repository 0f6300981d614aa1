import BuddySystem.Proofs.Effects

/-!
# What a request does

A request takes its block from the first list, from the order asked for on, that is not
empty.  There it takes the lowest block (`FirstFrom`), and splits it until a block of
the order asked for is left.  Every split leaves its upper half behind, and the lists
that the halves go to were empty.  So each of them holds one block in the end.

`Serves` says what there is to read afterwards: the list that the block was taken from
is without it, each list in between holds the half that was left over, and all other
lists are as they were.  Only the frames of the block handed out change their state.
That is `Allocated.serves`, and `serves_of_history` says it of every request in a
history over a new table, together with what a request of too large an order does.
-/

namespace BuddySystem

variable {B : Finset Block} {order : Nat} {source : Block}

namespace Allocator

/-- The first block in the lists from an order on: the lists before its own are empty, and it is the
lowest block of its own list. -/
structure FirstFrom (a : Allocator) (order : Nat) (source : Block) : Prop where
  order_le : order ≤ source.order
  le_last : source.order ≤ a.lastOrder
  empty : ∀ o, order ≤ o → o < source.order → a.heads o = []
  mem : source.pfn ∈ a.heads source.order
  least : ∀ p ∈ a.heads source.order, source.pfn ≤ p

/-- A block of the given order is handed out, and it is the lower end of `source`. -/
structure Serves (a : Allocator) (order : Nat) (source : Block) (a' : Allocator) : Prop where
  /-- The list that the block was taken from has lost just that block. -/
  taken : a'.heads source.order = (a.heads source.order).erase source.pfn
  /-- Every split has left its upper half in a list that was empty. -/
  halves : ∀ o, order ≤ o → o < source.order → a'.heads o = [source.pfn + 2 ^ o]
  others : ∀ o, o < order ∨ source.order < o → a'.heads o = a.heads o
  total : a'.totalFree + 2 ^ order = a.totalFree
  restates : Restates a ⟨source.pfn, order⟩ .free .allocated a'
  counters : a'.counters = { a.counters with
    splits := a.counters.splits + (source.order - order)
    allocations := a.counters.allocations + 1 }
  continues : a.view.Continues a'.view
  orderly : a'.Orderly

variable {a a₀ a' : Allocator} {hints : Hints} {log : List Exchange} {v : Verbosity}

/-! ### The block that is split -/

theorem Complete.firstFrom (hB : a.Complete B) (h : Lowest B order source) :
    a.FirstFrom order source := by
  have hheads := fun o p => (hB.keeps.heads_spells hB.sighted o).2 p
  constructor
  · exact h.order_le
  · exact hB.keeps.sound.order_le source h.mem
  · intro o ho hlt
    apply List.eq_nil_iff_forall_not_mem.mpr
    exact fun p hp => h.not_mem ho hlt ((hheads o p).mp hp)
  · exact (hheads _ _).mpr h.mem
  · intro p hp
    rcases h.least ⟨p, source.order⟩ ((hheads _ p).mp hp) h.order_le with hlt | ⟨_, hle⟩
    · exact absurd hlt (Nat.lt_irrefl _)
    · exact hle

theorem FirstFrom.unique {source' : Block} (h : a.FirstFrom order source)
    (h' : a.FirstFrom order source') : source = source' := by
  have ho : source.order = source'.order := by
    rcases Nat.lt_trichotomy source.order source'.order with hlt | heq | hgt
    · have hmem := h.mem
      rw [h'.empty _ h.order_le hlt] at hmem
      exact absurd hmem List.not_mem_nil
    · exact heq
    · have hmem := h'.mem
      rw [h.empty _ h'.order_le hgt] at hmem
      exact absurd hmem List.not_mem_nil
  obtain ⟨pfn, o⟩ := source
  obtain ⟨pfn', o'⟩ := source'
  obtain rfl : o = o' := ho
  rw [show pfn = pfn' from Nat.le_antisymm (h.least pfn' h'.mem) (h'.least pfn h.mem)]

/-! ### One request -/

/-- The stock after a request, order by order. -/
theorem mem_left_over {p o : Nat} (ho : order ≤ source.order) :
    (⟨p, o⟩ : Block) ∈ splinters source.pfn order (source.order - order) ∪ B.erase source ↔
      (order ≤ o ∧ o < source.order ∧ p = source.pfn + 2 ^ o) ∨
        (¬ (p = source.pfn ∧ o = source.order) ∧ (⟨p, o⟩ : Block) ∈ B) := by
  have hne : (⟨p, o⟩ : Block) = source ↔ p = source.pfn ∧ o = source.order := by
    obtain ⟨pfn, order'⟩ := source
    exact Block.mk.injEq .. ▸ Iff.rfl
  rw [Finset.mem_union, mem_splinters, Finset.mem_erase, Nat.add_sub_cancel' ho, Ne, hne]

/-- **What can be read after a request that is granted.** -/
theorem serves_of_granted (hB : a.Complete B) (hlow : Lowest B order source)
    (hsub : (⟨source.pfn, order⟩ : Block).frames ⊆ covered B)
    (hcov : covered (splinters source.pfn order (source.order - order) ∪ B.erase source) =
      covered B \ (⟨source.pfn, order⟩ : Block).frames)
    (h' : a'.Keeps ∅ (splinters source.pfn order (source.order - order) ∪ B.erase source))
    (hv : a'.view = { a.view with
      free := a.view.free \ (⟨source.pfn, order⟩ : Block).frames
      counters := { a.counters with
        splits := a.counters.splits + (source.order - order)
        allocations := a.counters.allocations + 1 } }) :
    Serves a order source a' := by
  have hs := hB.sighted
  have hs' : a'.view.Sighted
      (splinters source.pfn order (source.order - order) ∪ B.erase source) := by
    intro f _
    rw [hv]
    exact congrFun hB.hidden f
  have hmem := fun p o => mem_left_over (B := B) (p := p) (o := o) hlow.order_le
  constructor
  · apply hB.keeps.heads_erase hs h' hs'
    intro p
    rw [hmem]
    simp
  · intro o ho hlt
    apply h'.heads_eq hs' (List.pairwise_singleton _ _)
    intro p
    have hnone : (⟨p, o⟩ : Block) ∉ B := hlow.not_mem ho hlt
    rw [hmem, List.mem_singleton]
    simp [ho, hlt, hnone]
  · intro o ho
    have hle := hlow.order_le
    apply hB.keeps.heads_congr hs h' hs'
    intro p
    rw [hmem]
    constructor
    · intro hp
      rcases hp with hp | hp
      · omega
      · exact hp.2
    · intro hp
      exact Or.inr ⟨by omega, hp⟩
  · have hcard := Finset.card_sdiff_add_card_eq_card hsub
    rw [← hcov, Block.card_frames, ← h'.sound.sum_size, ← h'.total, ← hB.keeps.sound.sum_size,
      ← hB.keeps.total] at hcard
    exact hcard
  · have hfree := hsub.trans hB.keeps.sound.free
    apply restates_of_view hv
    · intro f hf
      exact has_iff_reaches.mp (reaches_of_sighted hB.keeps.sound hs (hsub hf))
    · intro f hf
      exact iff_of_true (hfree hf) rfl
  · exact congrArg View.counters hv
  · rw [hv]
    rfl
  · exact h'.orderly hs'

/-- **What a request does, from beginning to end.**  A request of too large an order is refused and
changes nothing.  If there is a block that is large enough, then the request is granted from the
first one, unless a counter is full. -/
theorem serves_of_history (hfresh : a₀.Fresh) (h : History a₀ log a) (hanswered : Answered log)
    (order : Nat) (hints : Hints) (v : Verbosity) :
    (a.lastOrder < order →
      (perform (.allocate order hints) v a).value = .ok (.refused .invalidOrder) ∧
        (perform (.allocate order hints) v a).state = a) ∧
      (order ≤ a.lastOrder → (∃ o, order ≤ o ∧ a.heads o ≠ []) →
        ∃ source, a.FirstFrom order source ∧
          (a.counters.splits + (source.order - order) < Word.limit →
            a.counters.allocations + 1 < Word.limit →
            (perform (.allocate order hints) v a).value =
                .ok (.granted { toBlock := ⟨source.pfn, order⟩, hints }) ∧
              Serves a order source (perform (.allocate order hints) v a).state)) := by
  obtain ⟨B, hB⟩ := complete_of_history hfresh h fun e he _ _ _ => hanswered e he
  constructor
  · intro hlt
    have hends : (perform (.allocate order hints)).Ends v a
        (fun reply a' => reply = .refused .invalidOrder ∧ a' = a) fun _ => False := by
      rw [perform, Op.ends_bind, allocate, Op.ends_bind, Op.ends_query, if_pos hlt, Op.ends_bind,
        Op.ends_log]
      exact ⟨rfl, rfl⟩
    obtain ⟨reply, a', events, hx, hreply, hstate⟩ := hends.exists_ok
    rw [hx]
    exact ⟨congrArg Except.ok hreply, hstate⟩
  · rintro ho ⟨o, hle, hne⟩
    obtain ⟨p, hp⟩ := List.exists_mem_of_ne_nil _ hne
    obtain ⟨source, hlow⟩ :=
      hB.keeps.exists_lowest ho (((hB.keeps.heads_spells hB.sighted o).2 p).mp hp) hle
    refine ⟨source, hB.firstFrom hlow, fun hsplits hallocations => ?_⟩
    have hends : (perform (.allocate order hints)).Ends v a
        (fun reply a' => reply = .granted { toBlock := ⟨source.pfn, order⟩, hints } ∧
          Serves a order source a') fun _ => False := by
      rw [perform]
      refine (allocate_grants hB.keeps hB.sighted hlow hsplits hallocations hints).bind
        (fun _ hf => hf) ?_
      rintro answer a' ⟨he, hallocated⟩
      cases hallocated with
      | invalid _ => cases he
      | exhausted _ _ _ _ => cases he
      | granted _ hlow' hsub hcov h' hv =>
        obtain rfl := hlow.unique hlow'
        exact ⟨rfl, serves_of_granted hB hlow hsub hcov h' hv⟩
    obtain ⟨reply, a', events, hx, hreply, hserves⟩ := hends.exists_ok
    rw [hx]
    exact ⟨congrArg Except.ok hreply, hserves⟩

/-- A page from the last block of four pages, and a request of too large an order. -/
theorem serves_after_one_block :
    ∃ a₀ log a, a₀.Fresh ∧ History a₀ log a ∧ Answered log ∧
      a.heads 0 = [] ∧ a.heads 1 = [] ∧ a.heads 2 = [7] ∧
      (perform (.allocate 3 Hints.empty) none a).value = .ok (.refused .invalidOrder) ∧
      (perform (.allocate 3 Hints.empty) none a).state = a ∧
      ∃ source, a.FirstFrom 0 source ∧
        (perform (.allocate 0 Hints.empty) none a).value =
          .ok (.granted { toBlock := ⟨source.pfn, 0⟩, hints := Hints.empty }) ∧
        Serves a 0 source (perform (.allocate 0 Hints.empty) none a).state := by
  have hrun : ∃ a₀ log a, Fresh a₀ ∧ History a₀ log a ∧ Answered log ∧
      a.heads 0 = [] ∧ a.heads 1 = [] ∧ a.heads 2 = [7] ∧ a.lastOrder = 2 ∧
      a.counters.splits + 2 < Word.limit ∧ a.counters.allocations + 1 < Word.limit := by
    refine ⟨_, _, _, ⟨4096, 3, 8, 2, _, rfl, rfl⟩,
      .call none (.allocate 2 Hints.empty) (.call none (.insert 3 8) .start), ?_⟩
    decide +kernel
  obtain ⟨a₀, log, a, hfresh, h, hanswered, hpages, hpairs, hblocks, hlast, hsplits,
    hallocations⟩ := hrun
  obtain ⟨hinvalid, hstate⟩ := (serves_of_history hfresh h hanswered 3 Hints.empty none).1
    (by rw [hlast]; decide)
  obtain ⟨source, hfirst, hserves⟩ := (serves_of_history hfresh h hanswered 0 Hints.empty none).2
    (Nat.zero_le _) ⟨2, Nat.zero_le 2, by rw [hblocks]; decide⟩
  have hle := hfirst.le_last
  obtain ⟨hgranted, hserves⟩ := hserves (by omega) hallocations
  exact ⟨a₀, log, a, hfresh, h, hanswered, hpages, hpairs, hblocks, hinvalid, hstate, source,
    hfirst, hgranted, hserves⟩

end Allocator

end BuddySystem
