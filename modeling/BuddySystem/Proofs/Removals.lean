import BuddySystem.Proofs.Cascades
import BuddySystem.Proofs.Withdrawals

/-!
# Which runs can be given up

A run can be given up just when its frames are those of some listed blocks
(`Allocator.MadeOfBlocks`).  These blocks tile the run then (`View.Sound.exists_tiles`), and
they are the only listed blocks in it.

From a run that is not of this kind the blocks are taken one after the other until none
fits, and they stay out.  Any part of the run from its start on that blocks make up ends
there or before, since a longer one would go on with a block that fits.  So what is left is
what one gets by giving up the longest such part (`leaves_longest_part`).

* `Withdraws`: what can be read after a run was given up.
* `removes_of_history`: in a history over a new table, all this holds of every run.
-/

namespace BuddySystem

variable {V : View} {B T : Finset Block} {blocks : List Block} {start stop count : Nat}

/-! ### Runs that blocks make up -/

/-- **Blocks in stock that make up a run tile it.**  The induction is on their set: one of them
starts the run, and the others make up the rest. -/
theorem View.Sound.exists_tiles (hT : V.Sound T) (hcov : covered T = Finset.Ico start stop)
    (hle : start ≤ stop) : ∃ blocks, Tiles start stop blocks ∧ ∀ b ∈ blocks, b ∈ T := by
  induction T using Finset.strongInduction generalizing start with
  | H T ih =>
    rcases Nat.eq_or_lt_of_le hle with rfl | hlt
    · exact ⟨[], rfl, fun b hb => absurd hb List.not_mem_nil⟩
    have hstart : start ∈ covered T := by
      rw [hcov]
      exact Finset.left_mem_Ico.mpr hlt
    obtain ⟨b, hb, hfirst⟩ := mem_covered.mp hstart
    have hin : b.frames ⊆ Finset.Ico start stop := by
      rw [← hcov]
      exact frames_subset_covered hb
    obtain ⟨hge, hend⟩ := Block.frames_subset_Ico_iff.mp hin
    obtain rfl : b.pfn = start := Nat.le_antisymm (Block.mem_frames.mp hfirst).1 hge
    have hrest : covered (T.erase b) = Finset.Ico (b.pfn + b.size) stop := by
      rw [hT.covered_erase hb, hcov, Block.frames, Finset.Ico_sdiff_Ico_left,
        max_eq_right (Nat.le_add_right _ _)]
    obtain ⟨blocks, htiles, hmem⟩ :=
      ih (T.erase b) (Finset.erase_ssubset hb) (hT.mono (Finset.erase_subset b T)) hrest hend
    refine ⟨b :: blocks, ⟨rfl, htiles⟩, List.forall_mem_cons.mpr ⟨hb, fun c hc => ?_⟩⟩
    exact Finset.mem_of_mem_erase (hmem c hc)

namespace Allocator

/-- The frames are those of some listed blocks. -/
def MadeOfBlocks (a : Allocator) (F : Finset Nat) : Prop :=
  ∃ T : Finset Block, (∀ b ∈ T, b.pfn ∈ a.heads b.order) ∧ covered T = F

/-- The run of `count` frames from `start` on is given up, in the given blocks. -/
structure Withdraws (a : Allocator) (start count : Nat) (blocks : List Block) (a' : Allocator) :
    Prop where
  tiles : Tiles start (start + count) blocks
  mem_iff : ∀ b, b ∈ blocks ↔
    b.pfn ∈ a.heads b.order ∧ b.frames ⊆ Finset.Ico start (start + count)
  /-- Just these blocks leave the lists. -/
  heads : ∀ o, a'.heads o = (a.heads o).filter fun p => (⟨p, o⟩ : Block) ∉ blocks
  total : a'.totalFree + count = a.totalFree
  turns : Turns a (Finset.Ico start (start + count)) .free .allocated a'
  counters : a'.counters = a.counters
  continues : a.view.Continues a'.view
  orderly : a'.Orderly

/-- What comes of asking for the `count` frames from `start` on. -/
structure Removes (a : Allocator) (start count : Nat) (x : Outcome Allocator Reply) : Prop where
  answers_iff : (∃ reply, x.value = .ok reply) ↔
    a.MadeOfBlocks (Finset.Ico start (start + count))
  withdraws : a.MadeOfBlocks (Finset.Ico start (start + count)) →
    ∃ blocks, x.value = .ok (.moved blocks) ∧ Withdraws a start count blocks x.state
  /-- A fault leaves what is left when the longest part that blocks make up is asked for. -/
  stops : ¬ a.MadeOfBlocks (Finset.Ico start (start + count)) → start + count < Word.limit →
    ∃ part, IsGreatest {c | c < count ∧ a.MadeOfBlocks (Finset.Ico start (start + c))} part ∧
      ∀ v, x.state = (perform (.remove start part) v a).state
  /-- An empty run is made of no blocks, wherever it lies. -/
  unchanged : Word.limit ≤ start + count → 0 < count →
    (∃ fault, x.value = .error fault) ∧ x.state = a
  /-- A listed block that is not in the run as a whole stays as it is. -/
  untouched : ∀ o, ∀ p ∈ a.heads o,
    p ∉ Finset.Ico start (start + count) ∨ start + count < p + 2 ^ o →
    p ∈ x.state.heads o ∧ ∀ f ∈ (⟨p, o⟩ : Block).frames,
      (x.state.registry.page? f).map Page.state = (a.registry.page? f).map Page.state

variable {a a₀ a' : Allocator} {log : List Exchange} {v : Verbosity}

theorem Complete.madeOfBlocks_iff (hB : a.Complete B) (hle : start ≤ stop) :
    a.MadeOfBlocks (Finset.Ico start stop) ↔
      ∃ blocks, Tiles start stop blocks ∧ ∀ b ∈ blocks, b ∈ B := by
  constructor
  · intro ⟨T, hlisted, hcov⟩
    have hT : T ⊆ B := fun b hb => hB.mem_heads_iff.mp (hlisted b hb)
    obtain ⟨blocks, htiles, hmem⟩ := (hB.keeps.sound.mono hT).exists_tiles hcov hle
    exact ⟨blocks, htiles, fun b hb => hT (hmem b hb)⟩
  · intro ⟨blocks, htiles, hmem⟩
    refine ⟨blocks.toFinset, fun b hb => ?_, htiles.covered_eq⟩
    exact hB.mem_heads_iff.mpr (hmem b (List.mem_toFinset.mp hb))

/-! ### Runs that are given up -/

/-- **What can be read after a run was given up.** -/
theorem Withdrawn.withdraws (hB : a.Complete B)
    (hw : Withdrawn ∅ a B start (start + count) blocks a') : Withdraws a start count blocks a' := by
  have hs := hB.keeps.sound
  have hB' : a'.Complete (B \ blocks.toFinset) := hB.of_keeps (hw.restocked hB.keeps) hw.keeps
  constructor
  · exact hw.tiles
  · intro b
    rw [hB.mem_heads_iff]
    constructor
    · intro hb
      exact ⟨hw.mem b hb, hw.tiles.frames_subset hb⟩
    · intro ⟨hb, hin⟩
      have hpfn := hin b.pfn_mem_frames
      rw [← hw.tiles.covered_eq, mem_covered] at hpfn
      obtain ⟨c, hc, hf⟩ := hpfn
      have hc := List.mem_toFinset.mp hc
      rwa [hs.eq_of_mem hb (hw.mem c hc) b.pfn_mem_frames hf]
  · intro o
    obtain ⟨hspells, hheads⟩ := hB.keeps.heads_spells hB.sighted o
    apply hB'.keeps.heads_eq hB'.sighted (hspells.ascending.sublist List.filter_sublist)
    intro p
    rw [List.mem_filter, hheads, Finset.mem_sdiff, List.mem_toFinset, decide_eq_true_iff]
  · have hcard := Finset.card_sdiff_add_card_eq_card hw.run_subset
    rwa [← hw.covered_eq hB.keeps, ← hB'.keeps.sound.sum_size, ← hB'.keeps.total, ← hs.sum_size,
      ← hB.keeps.total, Nat.card_Ico, Nat.add_sub_cancel_left] at hcard
  · have hfree := hw.run_subset.trans hs.free
    apply turns_of_view hw.view
    · intro f hf
      exact has_iff_reaches.mp (reaches_of_sighted hs hB.sighted (hw.run_subset hf))
    · intro f hf
      exact iff_of_true (hfree hf) rfl
  · exact congrArg View.counters hw.view
  · rw [hw.view]
    rfl
  · exact hB'.keeps.orderly hB'.sighted

/-- A listed block that is not in the whole run stays when a part of the run is given up, and so do
the states of its frames. -/
theorem Withdraws.untouched (hB : a.Complete B) {part : Nat} (hpart : part ≤ count)
    (hw : Withdraws a start part blocks a') {o p : Nat} (hp : p ∈ a.heads o)
    (hout : p ∉ Finset.Ico start (start + count) ∨ start + count < p + 2 ^ o) :
    p ∈ a'.heads o ∧ ∀ f ∈ (⟨p, o⟩ : Block).frames,
      (a'.registry.page? f).map Page.state = (a.registry.page? f).map Page.state := by
  have hnot : (⟨p, o⟩ : Block) ∉ blocks := by
    intro hm
    obtain ⟨hge, hend⟩ := Block.frames_subset_Ico_iff.mp ((hw.mem_iff _).mp hm).2
    change start ≤ p at hge
    change p + 2 ^ o ≤ start + part at hend
    have hpos := Nat.two_pow_pos o
    rcases hout with hout | hout
    · exact hout (Finset.mem_Ico.mpr ⟨hge, by omega⟩)
    · omega
  constructor
  · rw [hw.heads, List.mem_filter, decide_eq_true_iff]
    exact ⟨hp, hnot⟩
  · intro f hf
    apply hw.turns.other
    intro hrun
    rw [← hw.tiles.covered_eq, mem_covered] at hrun
    obtain ⟨c, hc, hfc⟩ := hrun
    have hc := List.mem_toFinset.mp hc
    have hlisted : c ∈ B := hB.mem_heads_iff.mp ((hw.mem_iff c).mp hc).1
    rw [hB.keeps.sound.eq_of_mem (hB.mem_heads_iff.mp hp) hlisted hf hfc] at hnot
    exact hnot hc

/-! ### Runs that are not -/

theorem remove_ends_of_tiles (hB : a.Complete B) (htiles : Tiles start (start + count) blocks)
    (hmem : ∀ b ∈ blocks, b ∈ B) :
    (perform (.remove start count)).Ends v a
      (fun _ a' => Withdrawn ∅ a B start (start + count) blocks a') fun _ => False := by
  rw [perform, Op.ends_map]
  refine (removeRun_of_tiles hB.keeps hB.sighted htiles hmem).mono ?_ fun _ hf => hf
  exact fun _ _ hw => hw.2

/-- **What is asked for is withdrawn as far as there are blocks for it.** -/
theorem remove_ends (hB : a.Complete B) (start count : Nat) :
    (perform (.remove start count)).Ends v a
      (fun reply a' => ∃ blocks, reply = .moved blocks ∧
        Withdrawn ∅ a B start (start + count) blocks a')
      fun a' => (Word.limit ≤ start + count ∧ a' = a) ∨
        (start + count < Word.limit ∧ ∃ part < count, ∃ blocks,
          Withdrawn ∅ a B start (start + part) blocks a' ∧
          ∀ b ∈ B, b.pfn = start + part → start + count < start + part + b.size) := by
  rw [perform, Op.ends_map]
  refine (removeRun_ends hB.keeps start count).mono ?_ ?_
  · intro blocks a' hw
    exact ⟨blocks, rfl, hw⟩
  · intro a' hfault
    rcases hfault with hbeyond | ⟨hlimit, _, _, hwhy⟩
    · exact Or.inl hbeyond
    · obtain ⟨mid, hmid, blocks, hw, hno⟩ := hwhy hB.sighted
      obtain ⟨part, rfl⟩ := Nat.exists_eq_add_of_le hw.tiles.le
      exact Or.inr ⟨hlimit, part, by omega, blocks, hw, hno⟩

/-- **What is left is what giving up the longest part leaves.** -/
theorem leaves_longest_part (hB : a.Complete B) {part : Nat} (hlt : part < count)
    (hw : Withdrawn ∅ a B start (start + part) blocks a')
    (hno : ∀ b ∈ B, b.pfn = start + part → start + count < start + part + b.size) :
    IsGreatest {c | c < count ∧ a.MadeOfBlocks (Finset.Ico start (start + c))} part ∧
      ∀ v, a' = (perform (.remove start part) v a).state := by
  have hs := hB.keeps.sound
  constructor
  · constructor
    · exact ⟨hlt, (hB.madeOfBlocks_iff (Nat.le_add_right _ _)).mpr ⟨blocks, hw.tiles, hw.mem⟩⟩
    · intro c ⟨hc, hmade⟩
      by_contra hgt
      obtain ⟨blocks', htiles, hmem⟩ := (hB.madeOfBlocks_iff (Nat.le_add_right _ _)).mp hmade
      obtain ⟨b, hb, hpfn, hfits⟩ := hs.exists_next hw.tiles htiles hw.mem hmem (by omega)
      have hlong := hno b hb hpfn
      omega
  · intro v
    have hends : (perform (.remove start part)).Ends v a (fun _ a₁ => a' = a₁)
        fun a₁ => a' = a₁ :=
      (remove_ends_of_tiles hB hw.tiles hw.mem).mono (fun _ _ hw' => hw.unique hB.keeps hw')
        fun _ hf => hf.elim
    exact hends.state

/-- **A run is given up if and only if blocks make it up.**  Otherwise the longest part that they
make up is, or nothing at all if the run ends beyond all numbers. -/
theorem removes_of_history (hfresh : a₀.Fresh) (h : History a₀ log a) (hanswered : Answered log)
    (start count : Nat) (v : Verbosity) :
    Removes a start count (perform (.remove start count) v a) := by
  obtain ⟨B, hB⟩ := complete_of_history hfresh h fun e he _ _ _ => hanswered e he
  have hmade := hB.madeOfBlocks_iff (Nat.le_add_right start count)
  have hends := remove_ends (v := v) hB start count
  rcases hx : perform (.remove start count) v a with ⟨fault | reply, a', events⟩
  · have hnot : ¬ a.MadeOfBlocks (Finset.Ico start (start + count)) := by
      intro hm
      obtain ⟨blocks, htiles, hmem⟩ := hmade.mp hm
      exact (remove_ends_of_tiles hB htiles hmem).of_error hx
    rcases hends.of_error hx with ⟨hlimit, rfl⟩ | ⟨hlimit, part, hpart, blocks, hw, hno⟩
    · constructor
      · exact iff_of_false (fun ⟨_, he⟩ => nomatch he) hnot
      · exact fun hm => absurd hm hnot
      · exact fun _ hlt => absurd hlt (Nat.not_lt.mpr hlimit)
      · exact fun _ _ => ⟨⟨fault, rfl⟩, rfl⟩
      · exact fun o p hp _ => ⟨hp, fun _ _ => rfl⟩
    · constructor
      · exact iff_of_false (fun ⟨_, he⟩ => nomatch he) hnot
      · exact fun hm => absurd hm hnot
      · exact fun _ _ => ⟨part, leaves_longest_part hB hpart hw hno⟩
      · exact fun hge _ => absurd hlimit (Nat.not_lt.mpr hge)
      · exact fun o p => (hw.withdraws hB).untouched hB (Nat.le_of_lt hpart)
  · obtain ⟨blocks, rfl, hw⟩ := hends.of_ok hx
    have hm := hmade.mpr ⟨blocks, hw.tiles, hw.mem⟩
    constructor
    · exact iff_of_true ⟨_, rfl⟩ hm
    · exact fun _ => ⟨blocks, rfl, hw.withdraws hB⟩
    · exact fun hnot => absurd hm hnot
    · intro hlimit hcount
      have hlt := hB.keeps.stop_lt_limit hw.tiles hw.mem (by omega)
      exact absurd hlt (Nat.not_lt.mpr hlimit)
    · exact fun o p => (hw.withdraws hB).untouched hB (Nat.le_refl count)

/-- A run that ends within a block of two pages.  The blocks before that one are given up. -/
theorem removes_up_to_third_page :
    ∃ a₀ log a, a₀.Fresh ∧ History a₀ log a ∧ Answered log ∧
      a.heads 0 = [8, 13] ∧ a.heads 1 = [9, 11] ∧
      (perform (.remove 8 4) none a).value = .error (.blockPastEnd 11 1 12) ∧
      (perform (.remove 8 4) none a).state.heads 0 = [13] ∧
      (perform (.remove 8 4) none a).state.heads 1 = [11] ∧
      Removes a 8 4 (perform (.remove 8 4) none a) ∧
      Removes a 8 3 (perform (.remove 8 3) none a) := by
  have hrun : ∃ a₀ log a, Fresh a₀ ∧ History a₀ log a ∧ Answered log ∧
      a.heads 0 = [8, 13] ∧ a.heads 1 = [9, 11] ∧
      (perform (.remove 8 4) none a).value = .error (.blockPastEnd 11 1 12) ∧
      (perform (.remove 8 4) none a).state.heads 0 = [13] ∧
      (perform (.remove 8 4) none a).state.heads 1 = [11] := by
    refine ⟨_, _, _, ⟨4096, 3, 16, 3, _, rfl, rfl⟩, .call none (.insert 8 6) .start, ?_⟩
    decide +kernel
  obtain ⟨a₀, log, a, hfresh, h, hanswered, hpages, hpairs, hvalue, hpages', hpairs'⟩ := hrun
  exact ⟨a₀, log, a, hfresh, h, hanswered, hpages, hpairs, hvalue, hpages', hpairs',
    removes_of_history hfresh h hanswered 8 4 none, removes_of_history hfresh h hanswered 8 3 none⟩

end Allocator

end BuddySystem
