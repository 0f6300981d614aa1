import BuddySystem.Proofs.Cascades

/-!
# How a run is cut up

A run that is handed over is cut from its start into the largest blocks that fit.  The
choice looks at one block at a time, but what comes out does not depend on where the
cutting began: it is the set of all maximal blocks of the run.  There is no way to cover
the run with fewer blocks, and the blocks that were listed before are left alone.

* `Carves`: what can be read after a run was taken over.
* `carves_of_history`: in a history over a new table, a run of allocated frames is taken
  over, if the table does not end near the limit of numbers.
-/

namespace BuddySystem.Allocator

variable {B : Finset Block} {blocks : List Block} {start count : Nat}

/-- The run of `count` frames from `start` on is free now, in the given blocks. -/
structure Carves (a : Allocator) (start count : Nat) (blocks : List Block) (a' : Allocator) :
    Prop where
  tiles : Tiles start (start + count) blocks
  mem_iff : ∀ b, b ∈ blocks ↔ b.IsMaximal a.base a.lastOrder (Finset.Ico start (start + count))
  /-- No aligned blocks, be they disjoint or not, cover the run with fewer of them. -/
  fewest : ∀ T : Finset Block, (∀ b ∈ T, b.order ≤ a.lastOrder ∧ b.Aligned a.base) →
    covered T = Finset.Ico start (start + count) → blocks.length ≤ T.card
  listed : ∀ o p, p ∈ a'.heads o ↔ p ∈ a.heads o ∨ (⟨p, o⟩ : Block) ∈ blocks
  unlisted : ∀ b ∈ blocks, b.pfn ∉ a.heads b.order
  total : a'.totalFree = a.totalFree + count
  turns : Turns a (Finset.Ico start (start + count)) .allocated .free a'
  counters : a'.counters = a.counters
  continues : a.view.Continues a'.view
  orderly : a'.Orderly

variable {a a₀ a' : Allocator} {log : List Exchange}

/-- **What can be read after a run was taken over.** -/
theorem Inserted.carves (hB : a.Complete B) (hi : Inserted ∅ a B start count blocks a') :
    Carves a start count blocks a' := by
  have hB' : a'.Complete (B ∪ blocks.toFinset) := hB.of_keeps hi.restocked hi.keeps
  have hcov : covered blocks.toFinset = Finset.Ico start (start + count) := hi.tiles.covered_eq
  constructor
  · exact hi.tiles
  · intro b
    rw [← List.mem_toFinset, ← hcov]
    apply mem_iff_isMaximal
    intro c hc
    rw [hcov]
    exact hi.maximal c (List.mem_toFinset.mp hc)
  · intro T hT hrun
    rw [← List.toFinset_card_of_nodup hi.tiles.nodup]
    exact card_le_of_covered (fun b hb => hi.maximal b (List.mem_toFinset.mp hb)) hT hrun
  · intro o p
    have hold := hB.mem_heads_iff (b := ⟨p, o⟩)
    have hnew := hB'.mem_heads_iff (b := ⟨p, o⟩)
    rw [hnew, hold, Finset.mem_union, List.mem_toFinset]
  · intro b hb hhead
    have hnew := Finset.disjoint_left.mp (hi.disjoint hB.keeps)
    exact hnew (hB.mem_heads_iff.mp hhead) (List.mem_toFinset.mpr hb)
  · have htotal := hB.keeps.total_of_tiles hB'.keeps hi.tiles fun f hf => (hi.new f hf).2
    rwa [Nat.add_sub_cancel_left] at htotal
  · exact turns_of_new hi.view hi.new
  · exact congrArg View.counters hi.view
  · rw [hi.view]
    rfl
  · exact hB'.keeps.orderly hB'.sighted

/-- **A run of allocated frames is taken over**, and it is cut into its maximal blocks. -/
theorem carves_of_history (hfresh : a₀.Fresh) (h : History a₀ log a) (hanswered : Answered log)
    (hcount : 0 < count)
    (hrun : ∀ f ∈ Finset.Ico start (start + count),
      (a.registry.page? f).map Page.state = some .allocated)
    (hroom : a.base + a.registry.frameCount + 2 ^ a.lastOrder ≤ Word.limit) (v : Verbosity) :
    ∃ blocks, (perform (.insert start count) v a).value = .ok (.moved blocks) ∧
      Carves a start count blocks (perform (.insert start count) v a).state := by
  obtain ⟨B, hB⟩ := complete_of_history hfresh h fun e he _ _ _ => hanswered e he
  have hnew : ∀ f ∈ Finset.Ico start (start + count), a.view.Reaches f ∧ f ∉ a.view.free :=
    fun f hf => reads_allocated_iff.mp (hrun f hf)
  have hends : (perform (.insert start count)).Ends v a
      (fun reply a' => ∃ blocks, reply = .moved blocks ∧ Inserted ∅ a B start count blocks a')
      fun _ => False := by
    rw [perform, Op.ends_map]
    refine (insertRun_ends hB.keeps start count).mono ?_ ?_
    · intro blocks a' hi
      exact ⟨blocks, rfl, hi⟩
    · intro a' hfault
      have hlimit := (hfault.2.2 hB.sighted).limit_lt hnew
      have hlast := (hnew (start + count - 1) (Finset.mem_Ico.mpr (by omega))).1.1
      have hlt : start + count - 1 < a.base + a.registry.frameCount := (Finset.mem_Ico.mp hlast).2
      omega
  obtain ⟨reply, a', events, hx, ⟨blocks, rfl, hi⟩⟩ := hends.exists_ok
  rw [hx]
  exact ⟨blocks, rfl, hi.carves hB⟩

/-- A run whose first page and last page have their buddies in the lists. -/
theorem carves_between_buddies :
    ∃ a₀ log a, a₀.Fresh ∧ History a₀ log a ∧ Answered log ∧ a.heads 0 = [7, 14] ∧ 0 < 6 ∧
      (∀ f ∈ Finset.Ico 8 (8 + 6), (a.registry.page? f).map Page.state = some .allocated) ∧
      a.base + a.registry.frameCount + 2 ^ a.lastOrder ≤ Word.limit ∧
      (perform (.insert 8 6) none a).value = .ok (.moved [⟨8, 0⟩, ⟨9, 1⟩, ⟨11, 1⟩, ⟨13, 0⟩]) ∧
      Carves a 8 6 [⟨8, 0⟩, ⟨9, 1⟩, ⟨11, 1⟩, ⟨13, 0⟩] (perform (.insert 8 6) none a).state := by
  have hstate : ∃ a₀ log a, Fresh a₀ ∧ History a₀ log a ∧ Answered log ∧ a.heads 0 = [7, 14] ∧
      (∀ f ∈ Finset.Ico 8 (8 + 6), (a.registry.page? f).map Page.state = some .allocated) ∧
      a.base + a.registry.frameCount + 2 ^ a.lastOrder ≤ Word.limit ∧
      (perform (.insert 8 6) none a).value =
        .ok (.moved [⟨8, 0⟩, ⟨9, 1⟩, ⟨11, 1⟩, ⟨13, 0⟩]) := by
    refine ⟨_, _, _, ⟨4096, 3, 16, 3, _, rfl, rfl⟩,
      .call none (.insert 14 1) (.call none (.insert 7 1) .start), ?_⟩
    decide +kernel
  obtain ⟨a₀, log, a, hfresh, h, hanswered, hheads, hrun, hroom, hvalue⟩ := hstate
  obtain ⟨blocks, hmoved, hcarves⟩ :=
    carves_of_history hfresh h hanswered (by decide) hrun hroom none
  obtain rfl : blocks = [⟨8, 0⟩, ⟨9, 1⟩, ⟨11, 1⟩, ⟨13, 0⟩] := by
    rw [hvalue] at hmoved
    cases hmoved
    rfl
  exact ⟨a₀, log, a, hfresh, h, hanswered, hheads, by decide, hrun, hroom, hmoved, hcarves⟩

end BuddySystem.Allocator
