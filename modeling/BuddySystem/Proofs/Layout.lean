import BuddySystem.Block
import Mathlib.Data.Finset.Lattice.Basic
import Mathlib.Data.Nat.Basic
import Mathlib.Order.Interval.Finset.Nat
import Mathlib.Tactic.Linarith

/-!
# How blocks lie

`Block.frames` is the set of frames of a block, and `Block.Aligned base` says that
the block starts a multiple of its own length after `base`.  The aligned blocks of
one order tile the frames from `base` on: `Block.around base o f` is the one that
holds `f`, and an aligned block that holds `f` is that one (`Aligned.eq_around`).

* `Aligned.frames_subset`: of two aligned blocks that meet, the one of smaller
  order lies inside the other.
* `Aligned.frames_parent`: a block and its buddy are disjoint, and together they
  are the block of the next order around either of them, their parent.
* `Aligned.merged_eq_parent`: the parent starts where the lower of the two starts.
* `frames_halves`: a block is the disjoint union of its two halves, which are
  buddies with that block as their parent.

The buddy is computed by flipping one bit of the distance from `base`;
`Aligned.buddy_cases` turns this into an addition or a subtraction, and nothing
after it looks at bits.
-/

namespace BuddySystem.Block

def frames (b : Block) : Finset Nat := Finset.Ico b.pfn (b.pfn + b.size)

/-- The block starts a multiple of its own length after `base`. -/
def Aligned (base : Nat) (b : Block) : Prop := base ≤ b.pfn ∧ b.size ∣ b.pfn - base

/-- The aligned block of an order that holds a frame. -/
def around (base order f : Nat) : Block := ⟨base + (f - base) / 2 ^ order * 2 ^ order, order⟩

/-- The aligned block of the next order that holds the block. -/
def parent (base : Nat) (b : Block) : Block := around base (b.order + 1) b.pfn

/-- The other block of the same order in the parent. -/
def buddy (base : Nat) (b : Block) : Block := ⟨base + ((b.pfn - base) ^^^ b.size), b.order⟩

def lower (b : Block) : Block := ⟨b.pfn, b.order - 1⟩

def upper (b : Block) : Block := ⟨b.pfn + 2 ^ (b.order - 1), b.order - 1⟩

variable {base f : Nat} {b c : Block}

instance : DecidablePred (Aligned base) := fun b =>
  inferInstanceAs (Decidable (base ≤ b.pfn ∧ b.size ∣ b.pfn - base))

/-! ### Frames -/

theorem size_eq (b : Block) : b.size = 2 ^ b.order := rfl

theorem size_pos (b : Block) : 0 < b.size := Nat.two_pow_pos b.order

@[simp] theorem mem_frames : f ∈ b.frames ↔ b.pfn ≤ f ∧ f < b.pfn + b.size := Finset.mem_Ico

theorem pfn_mem_frames (b : Block) : b.pfn ∈ b.frames :=
  mem_frames.mpr ⟨Nat.le_refl _, Nat.lt_add_of_pos_right b.size_pos⟩

@[simp] theorem card_frames (b : Block) : b.frames.card = b.size := by
  rw [frames, Nat.card_Ico, Nat.add_sub_cancel_left]

theorem frames_subset_Ico_iff {start stop : Nat} :
    b.frames ⊆ Finset.Ico start stop ↔ start ≤ b.pfn ∧ b.pfn + b.size ≤ stop :=
  Finset.Ico_subset_Ico_iff (Nat.lt_add_of_pos_right b.size_pos)

theorem pfn_ne_of_disjoint (h : Disjoint b.frames c.frames) : b.pfn ≠ c.pfn := fun he =>
  Finset.disjoint_left.mp h b.pfn_mem_frames (he ▸ c.pfn_mem_frames)

theorem isAligned_iff : b.isAligned base = true ↔ b.Aligned base := by
  rw [isAligned, Aligned, Bool.and_eq_true, decide_eq_true_eq, size, Word.isAligned_pow_iff]

/-! ### The tiling by aligned blocks -/

/-- **The frames of an aligned block are those with one quotient.** -/
theorem Aligned.mem_frames_iff (h : b.Aligned base) :
    f ∈ b.frames ↔ base ≤ f ∧ (f - base) / b.size = (b.pfn - base) / b.size := by
  obtain ⟨hb, q, hq⟩ := h
  have hpos := b.size_pos
  rw [hq, Nat.mul_div_cancel_left q hpos, mem_frames]
  have hpfn : b.pfn = base + b.size * q := by omega
  constructor
  · rintro ⟨h1, h2⟩
    refine ⟨by omega, Nat.div_eq_of_lt_le ?_ ?_⟩
    · rw [Nat.mul_comm]
      omega
    · rw [Nat.mul_comm, Nat.mul_succ]
      omega
  · rintro ⟨h1, h2⟩
    have hlow := Nat.div_mul_le_self (f - base) b.size
    have hhigh := Nat.lt_div_mul_add (a := f - base) hpos
    rw [h2, Nat.mul_comm] at hlow hhigh
    omega

theorem aligned_around (base order f : Nat) : (around base order f).Aligned base := by
  refine ⟨Nat.le_add_right _ _, ?_⟩
  rw [around, Nat.add_sub_cancel_left]
  exact Nat.dvd_mul_left _ _

theorem mem_frames_around (h : base ≤ f) (order : Nat) : f ∈ (around base order f).frames := by
  rw [(aligned_around base order f).mem_frames_iff]
  refine ⟨h, ?_⟩
  rw [around, Nat.add_sub_cancel_left]
  exact (Nat.mul_div_cancel _ (Nat.two_pow_pos order)).symm

theorem Aligned.eq_around (h : b.Aligned base) (hf : f ∈ b.frames) :
    b = around base b.order f := by
  have hq := (h.mem_frames_iff.mp hf).2
  obtain ⟨hb, hd⟩ := h
  have hpfn : b.pfn = base + (f - base) / b.size * b.size := by
    rw [hq, Nat.div_mul_cancel hd]
    omega
  exact congrArg (fun pfn => (⟨pfn, b.order⟩ : Block)) hpfn

/-- **Of two aligned blocks that meet, the one of smaller order lies inside the other.** -/
theorem Aligned.frames_subset (hb : b.Aligned base) (hc : c.Aligned base)
    (ho : b.order ≤ c.order) (hfb : f ∈ b.frames) (hfc : f ∈ c.frames) :
    b.frames ⊆ c.frames := by
  intro g hg
  rw [hb.mem_frames_iff] at hfb hg
  rw [hc.mem_frames_iff] at hfc ⊢
  have hsize : c.size = b.size * 2 ^ (c.order - b.order) := by
    rw [size_eq, size_eq, ← Nat.pow_add, Nat.add_sub_cancel' ho]
  refine ⟨hg.1, ?_⟩
  rw [← hfc.2, hsize, ← Nat.div_div_eq_div_mul, ← Nat.div_div_eq_div_mul, hg.2, hfb.2]

theorem Aligned.eq_of_mem (hb : b.Aligned base) (hc : c.Aligned base) (ho : b.order = c.order)
    (hfb : f ∈ b.frames) (hfc : f ∈ c.frames) : b = c := by
  rw [hb.eq_around hfb, hc.eq_around hfc, ho]

/-! ### Parents and buddies -/

@[simp] theorem order_parent : (b.parent base).order = b.order + 1 := rfl

@[simp] theorem order_buddy : (b.buddy base).order = b.order := rfl

@[simp] theorem size_parent : (b.parent base).size = 2 * b.size := by
  rw [size_eq, order_parent, Nat.pow_succ, Nat.mul_comm, size_eq]

@[simp] theorem size_buddy : (b.buddy base).size = b.size := rfl

theorem aligned_parent (base : Nat) (b : Block) : (b.parent base).Aligned base :=
  aligned_around _ _ _

theorem Aligned.frames_parent_subset (hb : b.Aligned base) (hc : c.Aligned base)
    (ho : b.order < c.order) (hfb : f ∈ b.frames) (hfc : f ∈ c.frames) :
    (b.parent base).frames ⊆ c.frames :=
  (aligned_parent base b).frames_subset hc ho (mem_frames_around hb.1 _)
    (hb.frames_subset hc (Nat.le_of_lt ho) hfb hfc b.pfn_mem_frames)

theorem mul_two_pow_xor_two_pow (q o : Nat) : (q * 2 ^ o) ^^^ 2 ^ o = (q ^^^ 1) * 2 ^ o := by
  rw [← Nat.shiftLeft_eq, ← Nat.shiftLeft_eq, Nat.shiftLeft_xor_distrib, Nat.one_shiftLeft]

theorem xor_one_eq (q : Nat) : q ^^^ 1 = if q % 2 = 0 then q + 1 else q - 1 := by
  have hdiv := Nat.xor_div_two (a := q) (b := 1)
  have hmod := Nat.xor_mod_two_eq_one (a := q) (b := 1)
  rw [show 1 / 2 = 0 from rfl, Nat.xor_zero] at hdiv
  split <;> omega

/-- **The buddy is the next block or the one before**, and the parent starts at the lower of the
two. -/
theorem Aligned.buddy_cases (h : b.Aligned base) :
    ((b.buddy base).pfn = b.pfn + b.size ∧ (b.parent base).pfn = b.pfn) ∨
      ((b.buddy base).pfn + b.size = b.pfn ∧ (b.parent base).pfn = (b.buddy base).pfn ∧
        base ≤ (b.buddy base).pfn) := by
  obtain ⟨hb, q, hq⟩ := h
  have hbuddy : (b.buddy base).pfn = base + (q ^^^ 1) * b.size := by
    rw [buddy, hq, size_eq, Nat.mul_comm, mul_two_pow_xor_two_pow]
  have hparent : (b.parent base).pfn = base + q / 2 * (2 * b.size) := by
    have hpow : 2 ^ (b.order + 1) = b.size * 2 := pow_succ 2 b.order
    rw [parent, around, hq]
    simp only [hpow]
    rw [← Nat.div_div_eq_div_mul, Nat.mul_div_cancel_left q b.size_pos, Nat.mul_comm b.size]
  have hpfn : b.pfn = base + q * b.size := by rw [Nat.mul_comm]; omega
  rw [hbuddy, hparent, hpfn, xor_one_eq]
  rcases Nat.mod_two_eq_zero_or_one q with he | ho
  · left
    have hhalf : q / 2 * (2 * b.size) = q * b.size := by
      rw [← Nat.mul_assoc, Nat.div_mul_cancel (Nat.dvd_of_mod_eq_zero he)]
    rw [if_pos he, hhalf, Nat.succ_mul]
    omega
  · right
    have hhalf : q / 2 * (2 * b.size) = (q - 1) * b.size := by
      rw [← Nat.mul_assoc]
      congr 1
      omega
    have hstep : q * b.size = (q - 1) * b.size + b.size := by
      rw [← Nat.succ_mul]
      congr 1
      omega
    rw [if_neg (by omega), hhalf]
    omega

theorem Aligned.buddy (h : b.Aligned base) : (b.buddy base).Aligned base := by
  obtain ⟨hb, hd⟩ := id h
  refine ⟨Nat.le_add_right _ _, ?_⟩
  rw [size_buddy]
  rcases h.buddy_cases with ⟨he, _⟩ | ⟨he, _, hge⟩
  · rw [he, Nat.sub_add_comm hb]
    exact Nat.dvd_add hd (Nat.dvd_refl _)
  · have : b.pfn - base = (b.buddy base).pfn - base + b.size := by omega
    rw [this] at hd
    exact (Nat.dvd_add_left (Nat.dvd_refl _)).mp hd

theorem Aligned.shrink (h : b.Aligned base) {o : Nat} (ho : o ≤ b.order) :
    (⟨b.pfn, o⟩ : Block).Aligned base :=
  ⟨h.1, (Nat.pow_dvd_pow 2 ho).trans h.2⟩

theorem Aligned.pfn_buddy_le (h : b.Aligned base) : (b.buddy base).pfn ≤ b.pfn + b.size := by
  rcases h.buddy_cases with ⟨he, _⟩ | ⟨he, _⟩ <;> omega

theorem Aligned.disjoint_buddy (h : b.Aligned base) :
    Disjoint b.frames (b.buddy base).frames := by
  rw [Finset.disjoint_left]
  intro f hf hf'
  rw [mem_frames] at hf hf'
  rw [size_buddy] at hf'
  rcases h.buddy_cases with ⟨he, _⟩ | ⟨he, _⟩ <;> omega

theorem Aligned.buddy_ne (h : b.Aligned base) : b.buddy base ≠ b := fun he =>
  pfn_ne_of_disjoint h.disjoint_buddy (congrArg pfn he).symm

/-- **A block and its buddy together are their parent.** -/
theorem Aligned.frames_parent (h : b.Aligned base) :
    (b.parent base).frames = b.frames ∪ (b.buddy base).frames := by
  ext f
  rw [Finset.mem_union, mem_frames, mem_frames, mem_frames, size_parent, size_buddy]
  rcases h.buddy_cases with ⟨he, hp⟩ | ⟨he, hp, _⟩ <;> omega

theorem Aligned.frames_subset_parent (h : b.Aligned base) :
    b.frames ⊆ (b.parent base).frames := by
  rw [h.frames_parent]
  exact Finset.subset_union_left

theorem Aligned.buddy_subset_parent (h : b.Aligned base) :
    (b.buddy base).frames ⊆ (b.parent base).frames := by
  rw [h.frames_parent]
  exact Finset.subset_union_right

theorem Aligned.parent_buddy (h : b.Aligned base) :
    (b.buddy base).parent base = b.parent base :=
  (aligned_parent base _).eq_of_mem (aligned_parent base b) rfl
    (h.buddy.frames_subset_parent (pfn_mem_frames _)) (h.buddy_subset_parent (pfn_mem_frames _))

/-- Two blocks with one parent are the same or buddies. -/
theorem Aligned.eq_or_eq_buddy (hb : b.Aligned base) (hc : c.Aligned base)
    (h : c.parent base = b.parent base) : c = b ∨ c = b.buddy base := by
  have ho : c.order = b.order := Nat.succ.inj (congrArg order h)
  have hmem : c.pfn ∈ b.frames ∪ (b.buddy base).frames := by
    rw [← hb.frames_parent, ← h]
    exact hc.frames_subset_parent c.pfn_mem_frames
  rcases Finset.mem_union.mp hmem with hf | hf
  · exact Or.inl (hc.eq_of_mem hb ho c.pfn_mem_frames hf)
  · exact Or.inr (hc.eq_of_mem hb.buddy ho c.pfn_mem_frames hf)

theorem Aligned.buddy_buddy (h : b.Aligned base) : (b.buddy base).buddy base = b := by
  have hp : ((b.buddy base).buddy base).parent base = b.parent base := by
    rw [h.buddy.parent_buddy, h.parent_buddy]
  rcases h.eq_or_eq_buddy h.buddy.buddy hp with he | he
  · exact he
  · exact absurd he h.buddy.buddy_ne

/-- The block that two buddies are merged into is their parent. -/
theorem Aligned.merged_eq_parent (h : b.Aligned base) :
    (⟨min b.pfn (b.buddy base).pfn, b.order + 1⟩ : Block) = b.parent base := by
  have hp : min b.pfn (b.buddy base).pfn = (b.parent base).pfn := by
    rcases h.buddy_cases with ⟨he, hp⟩ | ⟨he, hp, _⟩ <;> omega
  rw [hp]
  rfl

/-- The buddy is computed without a fault where its head is below the limit. -/
theorem buddyOf_eq_of_lt (hb : base ≤ b.pfn) (hlt : (b.buddy base).pfn < Word.limit) :
    b.buddyOf base = .ok (b.buddy base) := by
  have hsub : Word.sub b.pfn base = .ok (b.pfn - base) := Word.sub_eq_ok_iff.mpr ⟨hb, rfl⟩
  have hadd : Word.add base ((b.pfn - base) ^^^ b.size) = .ok (b.buddy base).pfn :=
    Word.add_eq_ok_iff.mpr ⟨rfl, hlt⟩
  rw [buddyOf, hsub]
  change (Word.add base ((b.pfn - base) ^^^ b.size) >>= fun pfn => pure { b with pfn }) = _
  rw [hadd]
  rfl

/-- The buddy is computed without a fault where the block ends below the limit. -/
theorem Aligned.buddyOf_eq (h : b.Aligned base) (hlt : b.pfn + b.size < Word.limit) :
    b.buddyOf base = .ok (b.buddy base) :=
  buddyOf_eq_of_lt h.1 (Nat.lt_of_le_of_lt h.pfn_buddy_le hlt)

/-! ### The blocks around a frame -/

theorem Aligned.around_eq (h : b.Aligned base) : around base b.order b.pfn = b :=
  (h.eq_around b.pfn_mem_frames).symm

/-- The larger blocks around a block are the blocks around its parent. -/
theorem Aligned.around_parent (h : b.Aligned base) {order : Nat} (ho : b.order < order) :
    around base order (b.parent base).pfn = around base order b.pfn := by
  have hin : (b.parent base).frames ⊆ (around base order b.pfn).frames :=
    h.frames_parent_subset (aligned_around base order b.pfn) ho b.pfn_mem_frames
      (mem_frames_around h.1 order)
  exact ((aligned_around base order b.pfn).eq_around (hin (pfn_mem_frames _))).symm

/-! ### Halves -/

@[simp] theorem pfn_lower : b.lower.pfn = b.pfn := rfl

@[simp] theorem order_lower : b.lower.order = b.order - 1 := rfl

theorem pfn_upper : b.upper.pfn = b.lower.pfn + b.lower.size := rfl

theorem size_eq_two_mul (h : 0 < b.order) : b.size = 2 * 2 ^ (b.order - 1) := by
  rw [size_eq, ← Nat.pow_succ', Nat.succ_eq_add_one, Nat.sub_add_cancel h]

theorem Aligned.lower (h : b.Aligned base) (ho : 0 < b.order) : b.lower.Aligned base :=
  ⟨h.1, (Dvd.intro_left 2 (size_eq_two_mul ho).symm).trans h.2⟩

theorem Aligned.parent_lower (h : b.Aligned base) (ho : 0 < b.order) :
    b.lower.parent base = b := by
  have horder : (b.lower.parent base).order = b.order := by
    rw [order_parent, order_lower, Nat.sub_add_cancel ho]
  exact (aligned_parent base _).eq_of_mem h horder
    ((h.lower ho).frames_subset_parent b.lower.pfn_mem_frames) b.pfn_mem_frames

theorem Aligned.buddy_lower (h : b.Aligned base) (ho : 0 < b.order) :
    b.lower.buddy base = b.upper := by
  have hp := congrArg pfn (h.parent_lower ho)
  have hpfn : (b.lower.buddy base).pfn = b.upper.pfn := by
    have hpos := b.lower.size_pos
    rw [pfn_upper]
    rcases (h.lower ho).buddy_cases with ⟨he, _⟩ | ⟨he, hp', _⟩
    · exact he
    · rw [pfn_lower] at he
      omega
  exact congrArg (fun pfn => (⟨pfn, b.order - 1⟩ : Block)) hpfn

theorem Aligned.upper (h : b.Aligned base) (ho : 0 < b.order) : b.upper.Aligned base :=
  h.buddy_lower ho ▸ (h.lower ho).buddy

theorem frames_halves (ho : 0 < b.order) : b.frames = b.lower.frames ∪ b.upper.frames := by
  have hsize := size_eq_two_mul ho
  ext f
  rw [Finset.mem_union, mem_frames, mem_frames, mem_frames]
  simp only [lower, upper, size_eq] at hsize ⊢
  omega

theorem disjoint_halves (b : Block) : Disjoint b.lower.frames b.upper.frames := by
  rw [Finset.disjoint_left]
  intro f hf hf'
  rw [mem_frames] at hf hf'
  simp only [lower, upper, size_eq] at hf hf'
  omega

end BuddySystem.Block
