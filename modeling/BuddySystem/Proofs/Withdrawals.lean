import BuddySystem.Proofs.Runs
import BuddySystem.Proofs.Settling

/-!
# What can be withdrawn

`removeRun` is not told how a run was cut up.  It looks every block up by the frame that
it starts at, and in a sound stock there is at most one such block.  So whenever blocks in
stock tile the run, these blocks are found, one after the other, and no others.

* `View.Sound.exists_rest`, `View.Sound.tiles_unique`: of two tilings from one frame on
  by blocks in stock, the longer one continues the shorter one.
* `removeRun_of_tiles`: a run that blocks in stock tile is withdrawn.
* `restored_of_history`: a run that was taken over can be withdrawn at once, whatever was
  free around it, and then the allocator is the one that there was before.
-/

namespace BuddySystem

variable {V : View} {B : Finset Block} {blocks blocks' : List Block} {start mid stop count : Nat}

/-! ### Tilings from one stock -/

/-- **Of two tilings from one frame on, the longer one continues the shorter one**, since the
blocks are found by their first frames.  The induction is on the shorter one. -/
theorem View.Sound.exists_rest (hB : V.Sound B) : ∀ {blocks blocks' : List Block} {start : Nat},
    Tiles start mid blocks → Tiles start stop blocks' → (∀ b ∈ blocks, b ∈ B) →
    (∀ b ∈ blocks', b ∈ B) → mid ≤ stop →
    ∃ rest, blocks' = blocks ++ rest ∧ Tiles mid stop rest := by
  intro blocks
  induction blocks with
  | nil =>
    intro blocks' start h h' _ _ _
    obtain rfl : start = mid := h
    exact ⟨blocks', rfl, h'⟩
  | cons b blocks ih =>
    rintro blocks' start ⟨rfl, h⟩ h' hmem hmem' hle
    have hpos := b.size_pos
    have hfits := h.le
    cases blocks' with
    | nil =>
      have he : b.pfn = stop := h'
      omega
    | cons c blocks' =>
      obtain ⟨hc, h'⟩ := h'
      obtain rfl : c = b :=
        hB.eq_of_pfn_eq (hmem' c List.mem_cons_self) (hmem b List.mem_cons_self) hc
      obtain ⟨rest, hrest, htiles⟩ := ih h h' (fun d hd => hmem d (List.mem_cons_of_mem _ hd))
        (fun d hd => hmem' d (List.mem_cons_of_mem _ hd)) hle
      exact ⟨rest, by rw [hrest, List.cons_append], htiles⟩

theorem View.Sound.tiles_unique (hB : V.Sound B) (h : Tiles start stop blocks)
    (h' : Tiles start stop blocks') (hmem : ∀ b ∈ blocks, b ∈ B) (hmem' : ∀ b ∈ blocks', b ∈ B) :
    blocks = blocks' := by
  obtain ⟨rest, hrest, htiles⟩ := hB.exists_rest h h' hmem hmem' (Nat.le_refl stop)
  cases rest with
  | nil => rw [hrest, List.append_nil]
  | cons b rest =>
    have hle := htiles.2.le
    have hpos := b.size_pos
    omega

/-- Where a tiling is cut short, a block in stock starts that is not too long. -/
theorem View.Sound.exists_next (hB : V.Sound B) (h : Tiles start mid blocks)
    (h' : Tiles start stop blocks') (hmem : ∀ b ∈ blocks, b ∈ B) (hmem' : ∀ b ∈ blocks', b ∈ B)
    (hlt : mid < stop) : ∃ b ∈ B, b.pfn = mid ∧ mid + b.size ≤ stop := by
  obtain ⟨rest, hrest, htiles⟩ := hB.exists_rest h h' hmem hmem' (Nat.le_of_lt hlt)
  cases rest with
  | nil => exact absurd htiles (Nat.ne_of_lt hlt)
  | cons b rest =>
    obtain ⟨hpfn, htiles⟩ := htiles
    refine ⟨b, hmem' b ?_, hpfn, htiles.le⟩
    rw [hrest]
    exact List.mem_append_right _ List.mem_cons_self

namespace Allocator

variable {a a₀ a' : Allocator} {stale : Set Nat} {log : List Exchange} {v : Verbosity}
  {reply : Reply}

/-! ### Withdrawing a run -/

/-- A run that blocks in stock tile ends before the last number. -/
theorem Keeps.stop_lt_limit (h : a.Keeps stale B) (htiles : Tiles start stop blocks)
    (hmem : ∀ b ∈ blocks, b ∈ B) (hlt : start < stop) : stop < Word.limit := by
  have hcov : covered blocks.toFinset ⊆ covered B :=
    covered_mono fun b hb => hmem b (List.mem_toFinset.mp hb)
  have hlast : stop - 1 ∈ covered blocks.toFinset := by
    rw [htiles.covered_eq, Finset.mem_Ico]
    omega
  have hnext := succ_lt_of_mem_run (a.view_free_subset (h.sound.free (hcov hlast)))
  omega

/-- **A run that blocks in stock tile is withdrawn**, and those are the blocks. -/
theorem removeRun_of_tiles (h : a.Keeps stale B) (hs : a.view.Sighted B)
    (htiles : Tiles start (start + count) blocks) (hmem : ∀ b ∈ blocks, b ∈ B) :
    (removeRun start count).Ends v a
      (fun found a' => found = blocks ∧ Withdrawn stale a B start (start + count) blocks a')
      fun _ => False := by
  by_cases hcount : count = 0
  · -- An empty run may lie anywhere, the numbers that are too large included.
    subst hcount
    obtain rfl : [] = blocks :=
      h.sound.tiles_unique (h.withdrawn start).tiles htiles (h.withdrawn start).mem hmem
    rw [removeRun, if_pos rfl, Op.ends_bind, Op.ends_log]
    exact ⟨rfl, h.withdrawn start⟩
  have hlimit : start + count < Word.limit := h.stop_lt_limit htiles hmem (by omega)
  refine (removeRun_ends h start count).mono ?_ ?_
  · intro found a' hw
    obtain rfl := h.sound.tiles_unique hw.tiles htiles hw.mem hmem
    exact ⟨rfl, hw⟩
  · rintro a' (⟨hge, _⟩ | ⟨_, _, _, hwhy⟩)
    · exact Nat.not_lt.mpr hge hlimit
    · obtain ⟨mid, hmid, found, hw, hno⟩ := hwhy hs
      obtain ⟨b, hb, hpfn, hfits⟩ := h.sound.exists_next hw.tiles htiles hw.mem hmem hmid
      exact Nat.not_lt.mpr hfits (hno b hb hpfn)

/-- What is left after a run was withdrawn does not depend on how that was done. -/
theorem Withdrawn.unique {a₁ a₂ : Allocator} (h : a.Keeps stale B)
    (hw₁ : Withdrawn ∅ a B start stop blocks a₁) (hw₂ : Withdrawn ∅ a B start stop blocks' a₂) :
    a₁ = a₂ := by
  obtain rfl := h.sound.tiles_unique hw₁.tiles hw₂.tiles hw₁.mem hw₂.mem
  exact hw₁.keeps.ext hw₂.keeps (hw₁.view.trans hw₂.view.symm)

/-! ### Withdrawing what was taken over -/

/-- **A run that is taken over and then withdrawn leaves nothing behind.** -/
theorem Inserted.undone {a₁ : Allocator} (h : a.Keeps ∅ B)
    (hi : Inserted ∅ a B start count blocks a₁)
    (hw : Withdrawn ∅ a₁ (B ∪ blocks.toFinset) start (start + count) blocks a') : a' = a := by
  have hkeeps : a'.Keeps ∅ B := by
    have hB := hw.keeps
    rwa [Finset.union_sdiff_cancel_right (hi.disjoint h)] at hB
  have hrun : Disjoint a.view.free (Finset.Ico start (start + count)) :=
    Finset.disjoint_right.mpr fun f hf => (hi.new f hf).2
  refine hkeeps.ext h ?_
  rw [hw.view, hi.view]
  dsimp only
  rw [Finset.union_sdiff_cancel_right hrun]

/-- **A run that was taken over can be withdrawn at once**, and that restores the allocator: the
lists, the states and links of all descriptors, the count of free pages and the counters. -/
theorem restored_of_history (hfresh : a₀.Fresh) (h : History a₀ log a) (hanswered : Answered log)
    (start count : Nat) (v v' : Verbosity)
    (hinserted : (perform (.insert start count) v a).value = .ok reply) :
    (perform (.remove start count) v' (perform (.insert start count) v a).state).value =
        .ok reply ∧
      (perform (.remove start count) v' (perform (.insert start count) v a).state).state = a := by
  obtain ⟨B, hB⟩ := complete_of_history hfresh h fun e he _ _ _ => hanswered e he
  have hp := performed_of_answer hB.keeps hinserted
  generalize (perform (.insert start count) v a).state = a₁ at hp ⊢
  cases hp with
  | looked hq => exact hq.elim
  | @inserted _ _ blocks _ hi =>
    have hB₁ : a₁.Complete (B ∪ blocks.toFinset) := hB.of_keeps hi.restocked hi.keeps
    have hends : (perform (.remove start count)).Ends v' a₁
        (fun answer a' => answer = .moved blocks ∧ a' = a) fun _ => False := by
      rw [perform, Op.ends_map]
      refine (removeRun_of_tiles hB₁.keeps hB₁.sighted hi.tiles ?_).mono ?_ fun _ hf => hf
      · exact fun b hb => Finset.mem_union_right _ (List.mem_toFinset.mpr hb)
      · rintro found a' ⟨rfl, hw⟩
        exact ⟨rfl, hi.undone hB.keeps hw⟩
    obtain ⟨answer, a', events, hx, hanswer, hstate⟩ := hends.exists_ok
    rw [hx]
    exact ⟨congrArg Except.ok hanswer, hstate⟩

/-- A run that is cut into four blocks, whose heads come between those of other blocks. -/
theorem restored_between_neighbours :
    ∃ a₀ log a, a₀.Fresh ∧ History a₀ log a ∧ Answered log ∧
      a.heads 0 = [4, 15] ∧ a.heads 1 = [5] ∧
      (perform (.insert 8 6) none a).value = .ok (.moved [⟨8, 0⟩, ⟨9, 1⟩, ⟨11, 1⟩, ⟨13, 0⟩]) ∧
      (perform (.insert 8 6) none a).state.heads 0 = [4, 8, 13, 15] ∧
      (perform (.insert 8 6) none a).state.heads 1 = [5, 9, 11] ∧
      (perform (.remove 8 6) none (perform (.insert 8 6) none a).state).value =
        .ok (.moved [⟨8, 0⟩, ⟨9, 1⟩, ⟨11, 1⟩, ⟨13, 0⟩]) ∧
      (perform (.remove 8 6) none (perform (.insert 8 6) none a).state).state = a := by
  have hrun : ∃ a₀ log a, Fresh a₀ ∧ History a₀ log a ∧ Answered log ∧
      a.heads 0 = [4, 15] ∧ a.heads 1 = [5] ∧
      (perform (.insert 8 6) none a).value = .ok (.moved [⟨8, 0⟩, ⟨9, 1⟩, ⟨11, 1⟩, ⟨13, 0⟩]) ∧
      (perform (.insert 8 6) none a).state.heads 0 = [4, 8, 13, 15] ∧
      (perform (.insert 8 6) none a).state.heads 1 = [5, 9, 11] := by
    refine ⟨_, _, _, ⟨4096, 3, 16, 3, _, rfl, rfl⟩, .call none (.insert 15 1)
      (.call none (.allocate 0 Hints.empty) (.call none (.insert 3 4) .start)), ?_⟩
    decide +kernel
  obtain ⟨a₀, log, a, hfresh, h, hanswered, h₀, h₁, hinserted, h₀', h₁'⟩ := hrun
  obtain ⟨hremoved, hstate⟩ :=
    restored_of_history hfresh h hanswered 8 6 none none hinserted
  exact ⟨a₀, log, a, hfresh, h, hanswered, h₀, h₁, hinserted, h₀', h₁', hremoved, hstate⟩

end Allocator

end BuddySystem
