import BuddySystem.Proofs.Stock
import Mathlib.Combinatorics.Enumerative.DoubleCounting

/-!
# Tilings by maximal blocks

Blocks tile a run (`Tiles`) when each starts where the one before ends.  A block is
maximal in a set of frames (`Block.IsMaximal`) when it lies in the set and its
parent does not, unless it has the largest order there is.

* `Tiles.maximal`: cutting off the largest block that fits, again and again, leaves
  nothing but maximal blocks of the run.
* `View.Sound.maximal_of_merged`: the blocks of a sound stock in which no block has
  its buddy beside it (`View.Merged`) are maximal in the frames covered.
* `mem_iff_isMaximal`: and they are all the maximal blocks there are, so that a
  merged stock is known from the frames that it covers.
* `card_le_of_covered`: there is no way to cover the frames with fewer blocks.
-/

namespace BuddySystem

/-- The block lies in the set of frames, and no aligned block of the next order around it does. -/
structure Block.IsMaximal (base lastOrder : Nat) (F : Finset Nat) (b : Block) : Prop where
  order_le : b.order ≤ lastOrder
  aligned : b.Aligned base
  subset : b.frames ⊆ F
  largest : b.order < lastOrder → ¬ (b.parent base).frames ⊆ F

/-- The blocks follow each other from `start` to `stop`. -/
def Tiles : Nat → Nat → List Block → Prop
  | start, stop, [] => start = stop
  | start, stop, b :: blocks => b.pfn = start ∧ Tiles (start + b.size) stop blocks

/-- No aligned block of a larger order that starts where this one starts ends by `stop`. -/
structure Carved (base lastOrder stop : Nat) (b : Block) : Prop where
  order_le : b.order ≤ lastOrder
  aligned : b.Aligned base
  largest : ∀ o, b.order < o → o ≤ lastOrder → (⟨b.pfn, o⟩ : Block).Aligned base →
    stop < b.pfn + 2 ^ o

/-- No block that could be merged has its buddy in the stock. -/
def View.Merged (V : View) (B : Finset Block) : Prop :=
  ∀ b ∈ B, b.order < V.lastOrder → b.buddy V.base ∉ B

variable {V : View} {B B' : Finset Block} {b c : Block} {blocks : List Block}
  {start stop base lastOrder f : Nat}

/-! ### Runs of blocks -/

namespace Tiles

theorem le : ∀ {blocks : List Block} {start : Nat}, Tiles start stop blocks → start ≤ stop := by
  intro blocks
  induction blocks with
  | nil => exact fun h => Nat.le_of_eq h
  | cons b blocks ih => exact fun h => (Nat.le_add_right _ _).trans (ih h.2)

theorem covered_eq : ∀ {blocks : List Block} {start : Nat}, Tiles start stop blocks →
    covered blocks.toFinset = Finset.Ico start stop := by
  intro blocks
  induction blocks with
  | nil =>
    intro start h
    rw [show start = stop from h, Finset.Ico_self]
    rfl
  | cons b blocks ih =>
    rintro start ⟨rfl, h⟩
    rw [List.toFinset_cons, covered_insert, ih h]
    exact Finset.Ico_union_Ico_eq_Ico (Nat.le_add_right _ _) h.le

theorem frames_subset (h : Tiles start stop blocks) (hb : b ∈ blocks) :
    b.frames ⊆ Finset.Ico start stop := by
  rw [← h.covered_eq]
  exact frames_subset_covered (List.mem_toFinset.mpr hb)

theorem eq_of_mem : ∀ {blocks : List Block} {start : Nat}, Tiles start stop blocks →
    b ∈ blocks → c ∈ blocks → f ∈ b.frames → f ∈ c.frames → b = c := by
  intro blocks
  induction blocks with
  | nil => exact fun _ hb => absurd hb List.not_mem_nil
  | cons d blocks ih =>
    rintro start ⟨rfl, h⟩ hb hc hfb hfc
    have hlater : ∀ e ∈ blocks, f ∈ e.frames → f ∉ d.frames := by
      intro e he hfe hfd
      have hge := (Finset.mem_Ico.mp (h.frames_subset he hfe)).1
      have hlt := (Block.mem_frames.mp hfd).2
      omega
    rcases List.mem_cons.mp hb with hbd | hb <;> rcases List.mem_cons.mp hc with hcd | hc
    · rw [hbd, hcd]
    · exact absurd (hbd ▸ hfb) (hlater c hc hfc)
    · exact absurd (hcd ▸ hfc) (hlater b hb hfb)
    · exact ih h hb hc hfb hfc

theorem nodup : ∀ {blocks : List Block} {start : Nat}, Tiles start stop blocks →
    blocks.Nodup := by
  intro blocks
  induction blocks with
  | nil => exact fun _ => List.nodup_nil
  | cons b blocks ih =>
    intro start h
    obtain ⟨rfl, h⟩ := h
    refine List.nodup_cons.mpr ⟨fun hb => ?_, ih h⟩
    have hge := (Finset.mem_Ico.mp (h.frames_subset hb b.pfn_mem_frames)).1
    have hpos := b.size_pos
    omega

/-- **A run cut into the largest blocks that fit is cut into maximal blocks.** -/
theorem maximal (h : Tiles start stop blocks)
    (hcarved : ∀ b ∈ blocks, Carved base lastOrder stop b) :
    ∀ b ∈ blocks, b.IsMaximal base lastOrder (Finset.Ico start stop) := by
  intro b hb
  have hcb := hcarved b hb
  refine ⟨hcb.order_le, hcb.aligned, h.frames_subset hb, fun ho hsub => ?_⟩
  -- The block that covers the start of the parent is too small or too large.
  have hpfn := (b.parent base).pfn_mem_frames
  have hcov := hsub hpfn
  rw [← h.covered_eq, mem_covered] at hcov
  obtain ⟨c, hc, hfc⟩ := hcov
  have hc := List.mem_toFinset.mp hc
  have hcc := hcarved c hc
  have hparent := Block.aligned_parent base b
  by_cases hle : c.order ≤ b.order
  · have hin := hcc.aligned.frames_subset hparent (Nat.le_succ_of_le hle) hfc hpfn
    have hge := (Block.mem_frames.mp (hin c.pfn_mem_frames)).1
    have hstart : c.pfn = (b.parent base).pfn :=
      Nat.le_antisymm (Block.mem_frames.mp hfc).1 hge
    have hlt := hcc.largest (b.order + 1) (Nat.lt_succ_of_le hle) ho (by rw [hstart]; exact hparent)
    have hlast : (b.parent base).pfn + (b.parent base).size - 1 ∈ (b.parent base).frames := by
      have hpos := (b.parent base).size_pos
      rw [Block.mem_frames]
      omega
    have hend := (Finset.mem_Ico.mp (hsub hlast)).2
    change stop < c.pfn + (b.parent base).size at hlt
    omega
  · have hin := hparent.frames_subset hcc.aligned (Nat.lt_of_not_le hle) hpfn hfc
    have hbc := h.eq_of_mem hb hc b.pfn_mem_frames
      (hin (hcb.aligned.frames_subset_parent b.pfn_mem_frames))
    exact hle (by rw [hbc])

end Tiles

/-! ### Merged stocks -/

namespace View

theorem Merged.mono (h : V.Merged B) (hB : B' ⊆ B) : V.Merged B' := fun b hb ho hbuddy =>
  h b (hB hb) ho (hB hbuddy)

/-- A stock stays merged if the blocks that come in have no buddies in it. -/
theorem Merged.of_new (h : V.Merged B) (halign : ∀ b ∈ B', b.Aligned V.base)
    (hnew : ∀ b ∈ B', b ∈ B ∨ b.order = V.lastOrder ∨ b.buddy V.base ∉ B') : V.Merged B' := by
  intro b hb ho hbuddy
  rcases hnew b hb with hold | hlast | hno
  · rcases hnew _ hbuddy with hold' | hlast | hno
    · exact h b hold ho hold'
    · exact Nat.ne_of_lt ho hlast
    · rw [(halign b hb).buddy_buddy] at hno
      exact hno hb
  · exact Nat.ne_of_lt ho hlast
  · exact hno hbuddy

/-- **The blocks of a merged stock are maximal.**  A block whose parent is covered has in its
buddy's place the buddy itself or smaller blocks; the induction is on the order. -/
theorem Sound.maximal_of_merged (h : V.Sound B) (hm : V.Merged B) :
    ∀ b ∈ B, b.IsMaximal V.base V.lastOrder (covered B) := by
  have key : ∀ o, ∀ b ∈ B, b.order = o → o < V.lastOrder →
      ¬ (b.parent V.base).frames ⊆ covered B := by
    intro o
    induction o using Nat.strong_induction_on with
    | h o ih =>
      intro b hb hbo ho hsub
      have ha := h.aligned b hb
      have hbuddy := (b.buddy V.base).pfn_mem_frames
      obtain ⟨c, hc, hfc⟩ := mem_covered.mp (hsub (ha.buddy_subset_parent hbuddy))
      have hac := h.aligned c hc
      rcases Nat.lt_trichotomy c.order o with hlt | heq | hgt
      · have hin : (c.parent V.base).frames ⊆ (b.buddy V.base).frames :=
          hac.frames_parent_subset ha.buddy (by rw [Block.order_buddy, hbo]; exact hlt) hfc hbuddy
        exact ih c.order hlt c hc rfl (hlt.trans ho)
          (hin.trans (ha.buddy_subset_parent.trans hsub))
      · have hcb : c = b.buddy V.base :=
          hac.eq_of_mem ha.buddy (by rw [Block.order_buddy, heq, hbo]) hfc hbuddy
        exact hm b hb (by omega) (hcb ▸ hc)
      · have hin : ((b.buddy V.base).parent V.base).frames ⊆ c.frames :=
          ha.buddy.frames_parent_subset hac (by rw [Block.order_buddy, hbo]; exact hgt) hbuddy hfc
        rw [ha.parent_buddy] at hin
        have hbc := h.eq_of_mem hb hc b.pfn_mem_frames
          (hin (ha.frames_subset_parent b.pfn_mem_frames))
        rw [← hbc] at hgt
        omega
  intro b hb
  exact ⟨h.order_le b hb, h.aligned b hb, frames_subset_covered hb,
    fun ho => key b.order b hb rfl ho⟩

end View

/-! ### Maximal blocks -/

namespace Block.IsMaximal

variable {F : Finset Nat}

theorem order_le_of_mem (hb : b.IsMaximal base lastOrder F) (ho : c.order ≤ lastOrder)
    (hc : c.Aligned base) (hsub : c.frames ⊆ F) (hfb : f ∈ b.frames) (hfc : f ∈ c.frames) :
    c.order ≤ b.order := by
  by_contra hle
  have hlt := Nat.lt_of_not_le hle
  have hin := hb.aligned.frames_parent_subset hc hlt hfb hfc
  exact hb.largest (hlt.trans_le ho) (hin.trans hsub)

/-- An aligned block of the set that meets a maximal one lies in it. -/
theorem subset_of_mem (hb : b.IsMaximal base lastOrder F) (ho : c.order ≤ lastOrder)
    (hc : c.Aligned base) (hsub : c.frames ⊆ F) (hfb : f ∈ b.frames) (hfc : f ∈ c.frames) :
    c.frames ⊆ b.frames :=
  hc.frames_subset hb.aligned (hb.order_le_of_mem ho hc hsub hfb hfc) hfc hfb

/-- Maximal blocks do not meet. -/
theorem eq_of_mem (hb : b.IsMaximal base lastOrder F) (hc : c.IsMaximal base lastOrder F)
    (hfb : f ∈ b.frames) (hfc : f ∈ c.frames) : b = c := by
  have hle := hb.order_le_of_mem hc.order_le hc.aligned hc.subset hfb hfc
  have hge := hc.order_le_of_mem hb.order_le hb.aligned hb.subset hfc hfb
  exact hb.aligned.eq_of_mem hc.aligned (Nat.le_antisymm hge hle) hfb hfc

end Block.IsMaximal

/-- **Blocks that are maximal in what they cover are all the maximal blocks of it.** -/
theorem mem_iff_isMaximal (hmax : ∀ b ∈ B, b.IsMaximal base lastOrder (covered B)) :
    b ∈ B ↔ b.IsMaximal base lastOrder (covered B) := by
  refine ⟨hmax b, fun hb => ?_⟩
  obtain ⟨c, hc, hf⟩ := mem_covered.mp (hb.subset b.pfn_mem_frames)
  rwa [hb.eq_of_mem (hmax c hc) b.pfn_mem_frames hf]

/-- **Aligned blocks that cover a set are at least as many as its maximal blocks**, since each of
them lies in one maximal block only. -/
theorem card_le_of_covered {F : Finset Nat} (hmax : ∀ b ∈ B, b.IsMaximal base lastOrder F)
    (hB' : ∀ c ∈ B', c.order ≤ lastOrder ∧ c.Aligned base) (hcov : covered B' = F) :
    B.card ≤ B'.card := by
  -- A maximal block goes to a block that covers its first frame.
  refine Finset.card_le_card_of_forall_subsingleton (fun b c => b.pfn ∈ c.frames) ?_ ?_
  · intro b hb
    have hpfn := (hmax b hb).subset b.pfn_mem_frames
    rwa [← hcov, mem_covered] at hpfn
  · rintro c hc b ⟨hb, hbc⟩ d ⟨hd, hdc⟩
    obtain ⟨ho, ha⟩ := hB' c hc
    have hsub : c.frames ⊆ F := hcov ▸ frames_subset_covered hc
    have hin := (hmax b hb).subset_of_mem ho ha hsub b.pfn_mem_frames hbc hdc
    exact (hmax b hb).eq_of_mem (hmax d hd) hin d.pfn_mem_frames

end BuddySystem
