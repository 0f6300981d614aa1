import BuddySystem.Allocator.Allocation
import BuddySystem.Proofs.Stock

/-!
# Splitting and merging

Splitting a block and merging two buddies exchange blocks of the stock for others
that cover the same frames.  `split_ends` and `merge_ends` are about one such step;
by induction `splitDown_ends` says what a number of splits leaves (`splinters`) and
`mergeUp_ends` which blocks a cascade of merges goes through (`Ascends`).

A fault on the way leaves a sound stock too.  `Allocator.Stopped` says so; if no
frame in stock was hidden, moreover, no free frame has got lost
(`Allocator.Restocked`), and the fault has the cause that is named.
-/

namespace BuddySystem

variable {V : View} {B : Finset Block} {b : Block}

/-- The blocks left over when the block of order `order + n` at `pfn` is split down to `order`: the
upper half of each split. -/
def splinters (pfn order n : Nat) : Finset Block :=
  (Finset.range n).image fun i => ⟨pfn + 2 ^ (order + i), order + i⟩

/-- A cascade of merges takes the block `b` of the stock `B` to `c` of `B'` in so many steps.  Each
step exchanges the block and its buddy for their parent. -/
inductive Ascends (base : Nat) : Finset Block → Block → Nat → Finset Block → Block → Prop
  | stay (B : Finset Block) (b : Block) : Ascends base B b 0 B b
  | merge {B B' : Finset Block} {b c : Block} {k : Nat} : b.buddy base ∈ B →
      Ascends base (insert (b.parent base) ((B.erase b).erase (b.buddy base))) (b.parent base) k
        B' c →
      Ascends base B b (k + 1) B' c

/-! ### Stocks that cover the same frames -/

theorem splinters_zero (pfn order : Nat) : splinters pfn order 0 = ∅ := rfl

theorem splinters_succ (pfn order n : Nat) :
    splinters pfn order (n + 1) =
      insert ⟨pfn + 2 ^ (order + n), order + n⟩ (splinters pfn order n) := by
  rw [splinters, Finset.range_add_one, Finset.image_insert]
  rfl

theorem mem_splinters {pfn order n p o : Nat} :
    (⟨p, o⟩ : Block) ∈ splinters pfn order n ↔ order ≤ o ∧ o < order + n ∧ p = pfn + 2 ^ o := by
  rw [splinters, Finset.mem_image]
  constructor
  · intro ⟨i, hi, he⟩
    have hi := Finset.mem_range.mp hi
    obtain ⟨hp, ho⟩ := Block.mk.inj he
    subst ho
    exact ⟨Nat.le_add_right _ _, Nat.add_lt_add_left hi order, hp.symm⟩
  · intro ⟨hle, hlt, hp⟩
    refine ⟨o - order, Finset.mem_range.mpr (by omega), ?_⟩
    rw [Nat.add_sub_cancel' hle, hp]

theorem not_mem_of_disjoint (h : Disjoint b.frames (covered B)) : b ∉ B := fun hb =>
  Finset.disjoint_left.mp h b.pfn_mem_frames (frames_subset_covered hb b.pfn_mem_frames)

namespace View.Sound

theorem covered_halves (h : V.Sound B) (hb : b ∈ B) (ho : 0 < b.order) :
    covered (insert b.upper (insert b.lower (B.erase b))) = covered B := by
  rw [covered_insert, covered_insert, h.covered_erase hb, ← Finset.union_assoc,
    Finset.union_comm b.upper.frames, ← Block.frames_halves ho,
    Finset.union_sdiff_of_subset (frames_subset_covered hb)]

theorem lower (h : V.Sound B) (hb : b ∈ B) (ho : 0 < b.order) :
    V.Sound (insert b.lower (B.erase b)) := by
  have hsub : b.lower.frames ⊆ b.frames := by
    rw [Block.frames_halves ho]
    exact Finset.subset_union_left
  refine (h.mono (Finset.erase_subset b B)).add ?_ ((h.aligned b hb).lower ho) ?_ ?_
  · exact (Nat.sub_le _ _).trans (h.order_le b hb)
  · exact hsub.trans ((frames_subset_covered hb).trans h.free)
  · exact (h.disjoint_erase hb).mono_left hsub

theorem upper (h : V.Sound B) (hb : b ∈ B) (ho : 0 < b.order) :
    V.Sound (insert b.upper (insert b.lower (B.erase b))) := by
  have hsub : b.upper.frames ⊆ b.frames := by
    rw [Block.frames_halves ho]
    exact Finset.subset_union_right
  refine (h.lower hb ho).add ?_ ((h.aligned b hb).upper ho) ?_ ?_
  · exact (Nat.sub_le _ _).trans (h.order_le b hb)
  · exact hsub.trans ((frames_subset_covered hb).trans h.free)
  · rw [covered_insert, Finset.disjoint_union_right]
    exact ⟨(Block.disjoint_halves b).symm, (h.disjoint_erase hb).mono_left hsub⟩

theorem buddy_mem_erase (h : V.Sound B) (hb : b ∈ B) (hbuddy : b.buddy V.base ∈ B) :
    b.buddy V.base ∈ B.erase b :=
  Finset.mem_erase.mpr ⟨(h.aligned b hb).buddy_ne, hbuddy⟩

theorem covered_erase_buddies (h : V.Sound B) (hb : b ∈ B) (hbuddy : b.buddy V.base ∈ B) :
    covered ((B.erase b).erase (b.buddy V.base)) =
      covered B \ (b.parent V.base).frames := by
  rw [(h.mono (Finset.erase_subset b B)).covered_erase (h.buddy_mem_erase hb hbuddy),
    h.covered_erase hb, sdiff_sdiff_left, (h.aligned b hb).frames_parent]
  rfl

theorem parent_subset (h : V.Sound B) (hb : b ∈ B) (hbuddy : b.buddy V.base ∈ B) :
    (b.parent V.base).frames ⊆ covered B := by
  rw [(h.aligned b hb).frames_parent]
  exact Finset.union_subset (frames_subset_covered hb) (frames_subset_covered hbuddy)

theorem covered_merged (h : V.Sound B) (hb : b ∈ B) (hbuddy : b.buddy V.base ∈ B) :
    covered (insert (b.parent V.base) ((B.erase b).erase (b.buddy V.base))) = covered B := by
  rw [covered_insert, h.covered_erase_buddies hb hbuddy,
    Finset.union_sdiff_of_subset (h.parent_subset hb hbuddy)]

theorem merged (h : V.Sound B) (hb : b ∈ B) (hbuddy : b.buddy V.base ∈ B)
    (ho : b.order < V.lastOrder) :
    V.Sound (insert (b.parent V.base) ((B.erase b).erase (b.buddy V.base))) := by
  refine (h.mono ?_).add ho (Block.aligned_parent _ b) ?_ ?_
  · exact (Finset.erase_subset _ _).trans (Finset.erase_subset b B)
  · exact (h.parent_subset hb hbuddy).trans h.free
  · rw [h.covered_erase_buddies hb hbuddy]
    exact Finset.disjoint_sdiff

end View.Sound

namespace Allocator

variable {stale : Set Nat} {a a' a₁ : Allocator} {B₁ : Finset Block} {cause cause₁ : Prop}
  {v : Verbosity}

/-! ### Changes of the stock and faults -/

/-- The stock `B` is exchanged for another one.  Where no frame in stock was hidden, the frames that
are free and not in stock stay the same: no free frame gets lost. -/
structure Restocked (stale : Set Nat) (a : Allocator) (B : Finset Block) (a' : Allocator) :
    Prop where
  continues : a.view.Continues a'.view
  keeps : ∃ B', a'.Keeps stale B' ∧
    (a.view.Sighted B → a'.view.free \ covered B' = a.view.free \ covered B)

/-- How a fault leaves an allocator that had the stock `B`. -/
structure Stopped (stale : Set Nat) (a : Allocator) (B : Finset Block) (cause : Prop)
    (a' : Allocator) : Prop extends Restocked stale a B a' where
  cause : a.view.Sighted B → cause

theorem Keeps.restocked (h : a.Keeps stale B) : Restocked stale a B a := ⟨rfl, B, h, fun _ => rfl⟩

theorem Stopped.imp (h : Stopped stale a B cause₁ a') (hcause : cause₁ → cause) :
    Stopped stale a B cause a' :=
  ⟨h.toRestocked, fun hs => hcause (h.cause hs)⟩

theorem Keeps.stopped (h : a.Keeps stale B) (he : a' = a) (hcause : a.view.Sighted B → cause) :
    Stopped stale a B cause a' :=
  ⟨he ▸ h.restocked, hcause⟩

/-- A fault on account of what is hidden. -/
theorem Keeps.restocked_blind (h : a'.Keeps stale B₁) (hcont : a.view.Continues a'.view)
    (hblind : ¬ a.view.Sighted B) : Restocked stale a B a' :=
  ⟨hcont, B₁, h, fun hs => absurd hs hblind⟩

theorem Keeps.stopped_blind (h : a'.Keeps stale B₁) (hcont : a.view.Continues a'.view)
    (hblind : ¬ a.view.Sighted B) : Stopped stale a B cause a' :=
  ⟨h.restocked_blind hcont hblind, fun hs => absurd hs hblind⟩

/-- **A fault after a step is a fault of the whole**, if the step hid nothing and lost no frame. -/
theorem Stopped.trans (h : Stopped stale a₁ B₁ cause₁ a') (hcont : a.view.Continues a₁.view)
    (hsight : a.view.Sighted B → a₁.view.Sighted B₁)
    (hlost : a.view.Sighted B → a₁.view.free \ covered B₁ = a.view.free \ covered B)
    (hcause : a.view.Sighted B → cause₁ → cause) : Stopped stale a B cause a' := by
  obtain ⟨B', hkeeps, hlost'⟩ := h.keeps
  refine ⟨⟨hcont.trans h.continues, B', hkeeps, fun hs => ?_⟩, fun hs => ?_⟩
  · rw [hlost' (hsight hs), hlost hs]
  · exact hcause hs (h.cause (hsight hs))

theorem Stopped.after (h : Stopped stale a₁ B₁ cause₁ a') (hcont : a.view.Continues a₁.view)
    (hfree : a₁.view.free = a.view.free) (hcovered : covered B₁ = covered B)
    (hcause : a.view.Sighted B → cause₁ → cause) : Stopped stale a B cause a' := by
  refine h.trans hcont (fun hs f hf => ?_) (fun _ => by rw [hfree, hcovered]) hcause
  rw [hcovered] at hf
  exact (hcont.sighted hs) f hf

/-! ### One split -/

/-- **A block is exchanged for its two halves.** -/
theorem split_ends (h : a.Keeps stale B) (hb : b ∈ B) (ho : 0 < b.order) :
    (split b).Ends v a
      (fun _ a' => a'.Keeps stale (insert b.upper (insert b.lower (B.erase b))) ∧
        a'.view = { a.view with counters := { a.counters with splits := a.counters.splits + 1 } })
      (Stopped stale a B (Word.limit ≤ a.counters.splits + 1)) := by
  have hs := h.sound
  have hsplit := hs.covered_halves hb ho
  have hstop := stop_lt_of_subset_run (h.frames_subset_run hb)
  have hsize := Block.size_eq_two_mul ho
  unfold split
  rw [Op.ends_bind, Op.ends_ensure]
  refine ⟨fun _ => ?_, fun hn => absurd ⟨ho, hs.order_le b hb⟩ hn⟩
  refine (delist_ends h hb).bind (fun a' he => h.stopped he.1 fun hsight => absurd hsight he.2) ?_
  rintro _ a₁ ⟨h₁, hv₁⟩
  rw [Op.ends_bind]
  have hupper : Word.add b.pfn b.lower.size = .ok b.upper.pfn := by
    refine Word.add_eq_ok_iff.mpr ⟨rfl, ?_⟩
    simp only [Block.upper]
    omega
  refine Op.Ends.compute hupper ?_
  have hlow : a₁.view.Sound (insert b.lower (B.erase b)) := hv₁ ▸ hs.lower hb ho
  have hlow' : b.lower ∉ B.erase b := by
    refine not_mem_of_disjoint ((hs.disjoint_erase hb).mono_left ?_)
    rw [Block.frames_halves ho]
    exact Finset.subset_union_left
  refine (enlist_ends h₁ hlow hlow').bind (fun a' he => ?_) ?_
  · rw [he.1]
    refine h₁.stopped_blind (by rw [hv₁]; exact .refl _) fun hsight => he.2 fun f hf => ?_
    rw [hv₁]
    refine hsight f ?_
    rw [← hsplit, covered_insert]
    exact Finset.mem_union_right _ hf
  rintro _ a₂ ⟨h₂, hv₂⟩
  rw [hv₁] at hv₂
  have hup : a₂.view.Sound (insert b.upper (insert b.lower (B.erase b))) := hv₂ ▸ hs.upper hb ho
  have hup' : b.upper ∉ insert b.lower (B.erase b) := by
    refine not_mem_of_disjoint ?_
    rw [covered_insert, Finset.disjoint_union_right]
    exact ⟨(Block.disjoint_halves b).symm, (hs.disjoint_erase hb).mono_left
      (by rw [Block.frames_halves ho]; exact Finset.subset_union_right)⟩
  refine (enlist_ends h₂ hup hup').bind (fun a' he => ?_) ?_
  · rw [he.1]
    refine h₂.stopped_blind (by rw [hv₂]; exact .refl _) fun hsight => he.2 fun f hf => ?_
    rw [hv₂]
    rw [hsplit] at hf
    exact hsight f hf
  rintro _ a₃ ⟨h₃, hv₃⟩
  rw [hv₂] at hv₃
  have hc₃ : a₃.counters = a.counters := congrArg View.counters hv₃
  rw [Op.ends_bind, Op.ends_log]
  refine (count_ends h₃ _ _).mono ?_ fun a' he => ?_
  · rintro _ a' ⟨h', hv'⟩
    rw [hv₃, hc₃] at hv'
    exact ⟨h', hv'⟩
  · rw [hc₃] at he
    refine (h₃.stopped he.1 fun _ => he.2).after (by rw [hv₃]; exact .refl _)
      (congrArg (fun V => V.free) hv₃) hsplit fun _ hc => hc

/-! ### One merge -/

theorem isFreeBuddy_ends (h : a.Keeps stale B) (buddy : Block) :
    (isFreeBuddy buddy).Ends v a
      (fun yes a' => a' = a ∧ if yes then buddy ∈ B else a.view.Sighted B → buddy ∉ B)
      fun _ => False := by
  unfold isFreeBuddy
  rw [Op.ends_bind, Op.ends_query]
  split
  · exact isListed_ends h
  · rename_i hn
    refine ⟨rfl, fun hsight hmem => hn ?_⟩
    have hpfn := frames_subset_covered hmem buddy.pfn_mem_frames
    rw [Bool.and_eq_true, Registry.any_isFree_iff, Block.isAligned_iff]
    exact ⟨⟨hsight _ hpfn, h.sound.free hpfn⟩, h.sound.aligned _ hmem⟩

/-- **A block and its buddy are exchanged for their parent**, if the buddy is in stock.  A fault
comes only with a merge that cannot be counted. -/
theorem merge_ends (h : a.Keeps stale B) (hb : b ∈ B) (ho : b.order < a.lastOrder) :
    (merge b).Ends v a
      (fun merged a' => match merged with
        | none => a' = a ∧ (a.view.Sighted B → b.buddy a.base ∉ B)
        | some c => c = b.parent a.base ∧ b.buddy a.base ∈ B ∧
          a'.Keeps stale (insert (b.parent a.base) ((B.erase b).erase (b.buddy a.base))) ∧
          a'.view =
            { a.view with counters := { a.counters with merges := a.counters.merges + 1 } })
      (Stopped stale a B (b.buddy a.base ∈ B ∧ Word.limit ≤ a.counters.merges + 1)) := by
  have hs := h.sound
  have ha := hs.aligned b hb
  unfold merge
  rw [Op.ends_bind, Op.ends_ensure]
  refine ⟨fun _ => ?_, fun hn => absurd ho hn⟩
  rw [Op.ends_bind]
  refine Op.Ends.compute (ha.buddyOf_eq (stop_lt_of_subset_run (h.frames_subset_run hb))) ?_
  refine (isFreeBuddy_ends h (b.buddy a.base)).bind (fun _ hf => hf.elim) ?_
  rintro yes a₀ ⟨he, hyes⟩
  rw [he]
  cases yes with
  | false => exact ⟨rfl, hyes⟩
  | true =>
    have hbuddy : b.buddy a.base ∈ B := hyes
    have hmerged := hs.covered_merged hb hbuddy
    rw [if_pos rfl]
    refine (delist_ends h hb).bind
      (fun a' he => h.stopped he.1 fun hsight => absurd hsight he.2) ?_
    rintro _ a₁ ⟨h₁, hv₁⟩
    refine (delist_ends h₁ (hs.buddy_mem_erase hb hbuddy)).bind (fun a' he => ?_) ?_
    · rw [he.1]
      refine h₁.stopped_blind (by rw [hv₁]; exact .refl _) fun hsight => he.2 fun f hf => ?_
      rw [hv₁]
      exact hsight f (covered_mono (Finset.erase_subset b B) hf)
    rintro _ a₂ ⟨h₂, hv₂⟩
    rw [hv₁] at hv₂
    rw [ha.merged_eq_parent]
    have hparent : a₂.view.Sound
        (insert (b.parent a.base) ((B.erase b).erase (b.buddy a.base))) :=
      hv₂ ▸ hs.merged hb hbuddy ho
    have hnot : b.parent a.base ∉ (B.erase b).erase (b.buddy a.base) := by
      refine not_mem_of_disjoint ?_
      have hcov := hs.covered_erase_buddies hb hbuddy
      change covered ((B.erase b).erase (b.buddy a.base)) = _ at hcov
      rw [hcov]
      exact Finset.disjoint_sdiff
    refine (enlist_ends h₂ hparent hnot).bind (fun a' he => ?_) ?_
    · rw [he.1]
      refine h₂.stopped_blind (by rw [hv₂]; exact .refl _) fun hsight => he.2 fun f hf => ?_
      rw [hv₂]
      exact hsight f (hmerged ▸ hf)
    rintro _ a₃ ⟨h₃, hv₃⟩
    rw [hv₂] at hv₃
    have hc₃ : a₃.counters = a.counters := congrArg View.counters hv₃
    rw [Op.ends_bind, Op.ends_log]
    refine (count_ends h₃ _ _).bind (fun a' he => ?_) ?_
    · rw [hc₃] at he
      refine (h₃.stopped he.1 fun _ => he.2).after (by rw [hv₃]; exact .refl _)
        (congrArg (fun V => V.free) hv₃) hmerged fun _ hc => ⟨hbuddy, hc⟩
    · rintro _ a' ⟨h', hv'⟩
      rw [hv₃, hc₃] at hv'
      exact ⟨rfl, hbuddy, h', hv'⟩

/-! ### Splitting down -/

theorem splitDown_ends {pfn order : Nat} : ∀ (n : Nat) {a : Allocator} {B : Finset Block},
    a.Keeps stale B → ⟨pfn, order + n⟩ ∈ B →
    (splitDown pfn order n).Ends v a
      (fun _ a' =>
        a'.Keeps stale (insert ⟨pfn, order⟩ (splinters pfn order n ∪ B.erase ⟨pfn, order + n⟩)) ∧
        covered (insert ⟨pfn, order⟩ (splinters pfn order n ∪ B.erase ⟨pfn, order + n⟩)) =
          covered B ∧
        a'.view = { a.view with counters := { a.counters with splits := a.counters.splits + n } })
      (Stopped stale a B (Word.limit ≤ a.counters.splits + n)) := by
  intro n
  induction n with
  | zero =>
    intro a B h hb
    have hB : insert ⟨pfn, order⟩ (splinters pfn order 0 ∪ B.erase ⟨pfn, order + 0⟩) = B := by
      rw [splinters_zero, Finset.empty_union]
      exact Finset.insert_erase hb
    rw [hB]
    exact ⟨h, rfl, rfl⟩
  | succ n ih =>
    intro a B h hb
    have ho : 0 < (⟨pfn, order + n + 1⟩ : Block).order := Nat.succ_pos _
    have hhalves : covered (insert ⟨pfn + 2 ^ (order + n), order + n⟩
        (insert ⟨pfn, order + n⟩ (B.erase ⟨pfn, order + n + 1⟩))) = covered B :=
      h.sound.covered_halves hb ho
    have hlow : (⟨pfn, order + n⟩ : Block) ∉ B.erase ⟨pfn, order + n + 1⟩ := fun hm =>
      Nat.ne_add_one (order + n) (h.pfn_unique (Finset.mem_of_mem_erase hm) hb)
    have hne : (⟨pfn + 2 ^ (order + n), order + n⟩ : Block) ≠ ⟨pfn, order + n⟩ := fun he =>
      absurd (congrArg Block.pfn he) (Nat.ne_of_gt (Nat.lt_add_of_pos_right (Nat.two_pow_pos _)))
    have hB : splinters pfn order n ∪ (insert ⟨pfn + 2 ^ (order + n), order + n⟩
        (insert ⟨pfn, order + n⟩ (B.erase ⟨pfn, order + n + 1⟩))).erase ⟨pfn, order + n⟩ =
        splinters pfn order (n + 1) ∪ B.erase ⟨pfn, order + n + 1⟩ := by
      rw [Finset.erase_insert_of_ne hne, Finset.erase_insert hlow, splinters_succ,
        Finset.insert_union, Finset.union_insert]
    rw [splitDown]
    refine (split_ends h hb ho).bind (fun a' hs => ?_) ?_
    · exact hs.imp fun hc => hc.trans (by omega)
    rintro _ a₁ ⟨h₁, hv₁⟩
    change a₁.Keeps stale (insert ⟨pfn + 2 ^ (order + n), order + n⟩
      (insert ⟨pfn, order + n⟩ (B.erase ⟨pfn, order + n + 1⟩))) at h₁
    have hc₁ : a₁.counters = { a.counters with splits := a.counters.splits + 1 } :=
      congrArg View.counters hv₁
    refine (ih h₁ (Finset.mem_insert_of_mem (Finset.mem_insert_self _ _))).mono ?_ fun a' hs => ?_
    · rintro _ a' ⟨h', hcov, hv'⟩
      rw [hB] at h' hcov
      refine ⟨h', hcov.trans hhalves, ?_⟩
      rw [hv', hv₁, hc₁, Nat.add_assoc, Nat.add_comm 1 n]
    · refine hs.after (by rw [hv₁]; rfl) (congrArg (fun V => V.free) hv₁) hhalves fun _ hc => ?_
      rw [hc₁] at hc
      exact hc.trans (by change a.counters.splits + 1 + n ≤ _; omega)

/-! ### Merging up -/

/-- **A cascade of merges** goes on for as long as the buddy is in stock.  A fault comes only with a
merge of the cascade that cannot be counted. -/
theorem mergeUp_ends : ∀ (n : Nat) {a : Allocator} {B : Finset Block} {b : Block},
    a.Keeps stale B → b ∈ B → b.order + n ≤ a.lastOrder →
    (mergeUp n b).Ends v a
      (fun _ a' => ∃ k ≤ n, ∃ B' c, Ascends a.base B b k B' c ∧ covered B' = covered B ∧
        a'.Keeps stale B' ∧
        a'.view = { a.view with counters := { a.counters with merges := a.counters.merges + k } } ∧
        (a.view.Sighted B → c.order = b.order + n ∨ c.buddy a.base ∉ B'))
      (Stopped stale a B (∃ k ≤ n, ∃ B' c, Ascends a.base B b k B' c ∧
        Word.limit ≤ a.counters.merges + k)) := by
  intro n
  induction n with
  | zero =>
    intro a B b h _ _
    exact ⟨0, Nat.le_refl 0, B, b, .stay B b, rfl, h, rfl, fun _ => Or.inl rfl⟩
  | succ n ih =>
    intro a B b h hb hn
    have ho : b.order < a.lastOrder := by omega
    rw [mergeUp]
    refine (merge_ends h hb ho).bind (fun a' hs => ?_) ?_
    · exact hs.imp fun ⟨hbuddy, hc⟩ =>
        ⟨1, Nat.succ_le_succ (Nat.zero_le n), _, _, .merge hbuddy (.stay _ _), hc⟩
    intro merged a₁ hmerged
    cases merged with
    | none =>
      obtain ⟨he, hbuddy⟩ := hmerged
      rw [he]
      exact ⟨0, Nat.zero_le _, B, b, .stay B b, rfl, h, rfl, fun hsight => Or.inr (hbuddy hsight)⟩
    | some c =>
      obtain ⟨rfl, hbuddy, h₁, hv₁⟩ := hmerged
      have hcov := h.sound.covered_merged hb hbuddy
      have hc₁ : a₁.counters = { a.counters with merges := a.counters.merges + 1 } :=
        congrArg View.counters hv₁
      have hbase : a₁.base = a.base := congrArg (fun V => V.base) hv₁
      have hlast : a₁.lastOrder = a.lastOrder := congrArg View.lastOrder hv₁
      have hn₁ : (b.parent a.base).order + n ≤ a₁.lastOrder := by
        rw [hlast, Block.order_parent]
        omega
      refine (ih h₁ (Finset.mem_insert_self _ _) hn₁).mono ?_ fun a' hs => ?_
      · rintro _ a' ⟨k, hk, B', c, hasc, hcov', h', hv', hend⟩
        rw [hbase] at hasc hend
        refine ⟨k + 1, Nat.succ_le_succ hk, B', c, .merge hbuddy hasc, hcov'.trans hcov, h', ?_,
          fun hsight => ?_⟩
        · rw [hv', hv₁, hc₁, Nat.add_assoc, Nat.add_comm 1 k]
        · rw [Nat.add_comm n 1, ← Nat.add_assoc]
          refine hend fun f hf => ?_
          rw [hv₁]
          exact hsight f (hcov ▸ hf)
      · refine hs.after (by rw [hv₁]; rfl) (congrArg (fun V => V.free) hv₁) hcov fun _ hc => ?_
        obtain ⟨k, hk, B', c, hasc, hfull⟩ := hc
        rw [hbase] at hasc
        rw [hc₁, Nat.add_assoc, Nat.add_comm 1 k] at hfull
        exact ⟨k + 1, Nat.succ_le_succ hk, B', c, .merge hbuddy hasc, hfull⟩

end Allocator

end BuddySystem
