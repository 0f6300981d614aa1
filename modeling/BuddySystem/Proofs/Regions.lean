import BuddySystem.FrameTable
import Mathlib.Data.Nat.Basic
import Mathlib.Order.Interval.Finset.Nat

/-!
# The whole pages of a region

A frame stands for a page of memory: `frameBytes pageSize f` are the addresses of the
bytes of frame `f`.  A table that is made for a region of memory has a descriptor for a
frame just when the region holds all bytes of the frame.

The table is found by rounding: the start of the region up and its end down to a multiple
of the page size.  Page sizes are powers of two, and rounding clears the lowest bits
(`Word.clear_two_pow`).  What comes out are two quotients (`ofRegion_eq`), and a run of frames
lies between them just when its bytes lie in the region (`between_rounded_iff`); where the region
holds no whole page the second quotient can be the smaller one, and the table is empty.

A region that fits into 64 bits can still hold more pages than a table has room for.  Its pages
are then shorter than two descriptors, since `2 ^ 58` pages of 64 bytes make up all of the
addresses.

* `DescribesRegion`, `ofRegion_describes`: the table of any region, or the fault where its
  padded start or its end does not fit into 64 bits or its pages do not fit into a table.
-/

namespace BuddySystem

/-- The addresses of the bytes of a frame. -/
def frameBytes (pageSize f : Nat) : Finset Nat := Finset.Ico (f * pageSize) ((f + 1) * pageSize)

variable {pageSize start size f address : Nat}

theorem mem_frameBytes_iff (hpage : 0 < pageSize) :
    address ∈ frameBytes pageSize f ↔ address / pageSize = f := by
  rw [frameBytes, Finset.mem_Ico, Nat.div_eq_iff hpage, Nat.succ_mul]
  omega

/-- A region holds all bytes of a frame if it holds the first and the last one. -/
theorem frameBytes_subset_iff (hpage : 0 < pageSize) :
    frameBytes pageSize f ⊆ Finset.Ico start (start + size) ↔
      start ≤ f * pageSize ∧ (f + 1) * pageSize ≤ start + size := by
  refine Finset.Ico_subset_Ico_iff ?_
  rw [Nat.succ_mul]
  omega

/-! ### Rounding -/

/-- **Clearing the lowest bits rounds down** to a multiple of a power of two. -/
theorem Word.clear_two_pow (n k : Nat) : clear n (2 ^ k - 1) = n / 2 ^ k * 2 ^ k := by
  rw [clear, Nat.and_two_pow_sub_one_eq_mod]
  have hdiv := Nat.div_add_mod' n (2 ^ k)
  omega

/-- **Frames lie between the rounded ends of a region just when the region holds their bytes.** -/
theorem between_rounded_iff (hpage : 0 < pageSize) (n : Nat) :
    (start + pageSize - 1) / pageSize ≤ f ∧ f + n ≤ (start + size) / pageSize ↔
      start ≤ f * pageSize ∧ (f + n) * pageSize ≤ start + size := by
  rw [Nat.div_le_iff_le_mul_add_pred hpage, Nat.le_div_iff_mul_le hpage, Nat.mul_comm pageSize f]
  omega

/-- The region holds all bytes of `n` frames in a row. -/
def HoldsFrames (pageSize start size n : Nat) : Prop :=
  ∃ f, start ≤ f * pageSize ∧ (f + n) * pageSize ≤ start + size

theorem holdsFrames_iff (hpage : 0 < pageSize) {n : Nat} (hn : 0 < n) :
    HoldsFrames pageSize start size n ↔
      n ≤ (start + size) / pageSize - (start + pageSize - 1) / pageSize := by
  simp only [HoldsFrames, ← between_rounded_iff hpage]
  constructor
  · rintro ⟨f, hlow, hhigh⟩
    omega
  · intro hle
    exact ⟨_, Nat.le_refl _, by omega⟩

/-- `2 ^ 58` pages of 64 bytes make up all of the addresses. -/
theorem not_holdsFrames (hpage : 64 ≤ pageSize) (hstop : start + size < Word.limit) :
    ¬ HoldsFrames pageSize start size (2 ^ 58) := by
  rintro ⟨f, _, hle⟩
  have hbytes : 2 ^ 58 * 64 ≤ (f + 2 ^ 58) * pageSize :=
    Nat.mul_le_mul (Nat.le_add_left _ f) hpage
  have hlimit : Word.limit = 2 ^ 58 * 64 := by decide
  omega

namespace FrameTable

theorem maxFrames_succ : maxFrames + 1 = 2 ^ 58 := by
  decide

/-- A sum that does not fit is a fault. -/
theorem ofRegion_overflows (h : Word.limit ≤ start + pageSize ∨ Word.limit ≤ start + size) :
    ofRegion pageSize start size = .error (.overflow .addition) := by
  rw [ofRegion]
  by_cases hpad : start + pageSize < Word.limit
  · rw [Word.add_eq_ok_iff.mpr ⟨rfl, hpad⟩,
      Word.add_of_limit_le (h.resolve_left (Nat.not_le.mpr hpad))]
    rfl
  · rw [Word.add_of_limit_le (Nat.le_of_not_lt hpad)]
    rfl

/-- Where both sums fit, the table of a region lies between its rounded ends. -/
theorem ofRegion_eq (k : Nat) (hpad : start + 2 ^ k < Word.limit)
    (hstop : start + size < Word.limit) :
    ofRegion (2 ^ k) start size =
      create (2 ^ k) ((start + 2 ^ k - 1) / 2 ^ k)
        ((start + size) / 2 ^ k - (start + 2 ^ k - 1) / 2 ^ k) := by
  have hpow : 0 < 2 ^ k := Nat.two_pow_pos k
  rw [ofRegion, Word.add_eq_ok_iff.mpr ⟨rfl, hpad⟩, Word.add_eq_ok_iff.mpr ⟨rfl, hstop⟩]
  change create (2 ^ k) (Word.clear (start + 2 ^ k - 1) (2 ^ k - 1) / 2 ^ k)
    ((Word.clear (start + size) (2 ^ k - 1) - Word.clear (start + 2 ^ k - 1) (2 ^ k - 1)) /
      2 ^ k) = _
  rw [Word.clear_two_pow, Word.clear_two_pow, ← Nat.sub_mul, Nat.mul_div_cancel _ hpow,
    Nat.mul_div_cancel _ hpow]

/-- **A region is refused just when one of the two sums does not fit into 64 bits or its pages do not
fit into a table.** -/
theorem ofRegion_faults_iff (k start size : Nat) :
    (∃ fault, ofRegion (2 ^ k) start size = .error fault) ↔
      Word.limit ≤ start + 2 ^ k ∨ Word.limit ≤ start + size ∨
        HoldsFrames (2 ^ k) start size (2 ^ 58) := by
  by_cases hover : Word.limit ≤ start + 2 ^ k ∨ Word.limit ≤ start + size
  · rw [← or_assoc]
    exact iff_of_true ⟨_, ofRegion_overflows hover⟩ (Or.inl hover)
  have hpad : start + 2 ^ k < Word.limit := by omega
  have hstop : start + size < Word.limit := by omega
  -- Either rounded end is below the limit, and so the run between them is.
  have hlow := Nat.div_le_self (start + 2 ^ k - 1) (2 ^ k)
  have hhigh := Nat.div_le_self (start + size) (2 ^ k)
  have hfits : (start + 2 ^ k - 1) / 2 ^ k +
      ((start + size) / 2 ^ k - (start + 2 ^ k - 1) / 2 ^ k) < Word.limit := by omega
  rw [← or_assoc, or_iff_right hover, ofRegion_eq k hpad hstop,
    holdsFrames_iff (Nat.two_pow_pos k) (Nat.two_pow_pos 58), ← maxFrames_succ, Nat.succ_le_iff]
  by_cases hcount : (start + size) / 2 ^ k - (start + 2 ^ k - 1) / 2 ^ k ≤ maxFrames
  · obtain ⟨t, ht⟩ := exists_create (2 ^ k) hfits hcount
    rw [ht]
    exact iff_of_false (fun ⟨_, hfault⟩ => nomatch hfault) (Nat.not_lt.mpr hcount)
  · have hlarge := Nat.lt_of_not_le hcount
    exact iff_of_true ⟨_, create_of_lt hfits hlarge⟩ hlarge

/-- The frames of the table are the whole pages of the region, and they are fresh. -/
structure Describes (t : FrameTable) (pageSize start size : Nat) : Prop where
  pageSize_eq : t.pageSize = pageSize
  contains_iff : ∀ f, t.contains f = true ↔
    start ≤ f * pageSize ∧ (f + 1) * pageSize ≤ start + size
  isSome_iff : ∀ f, (t.page? f).isSome = true ↔
    start ≤ f * pageSize ∧ (f + 1) * pageSize ≤ start + size
  fresh : ∀ f page, t.page? f = some page → page.pfn = f ∧ page.state = .allocated
  /-- The frame of a byte is in the table just when the region holds the entire page of the byte. -/
  contains_pfnOf_iff : ∀ address, t.contains (t.pfnOf address) = true ↔
    ∀ f, address ∈ frameBytes pageSize f → frameBytes pageSize f ⊆ Finset.Ico start (start + size)
  empty_of_small : size < pageSize → t.frameCount = 0
  empty_of_none : (∀ f, ¬ frameBytes pageSize f ⊆ Finset.Ico start (start + size)) → t.frameCount = 0

/-- What comes of a region: a fault if a sum does not fit into 64 bits or if the region holds
`2 ^ 58` whole pages, and else the table of its whole pages. -/
structure DescribesRegion (result : Except Fault FrameTable) (pageSize start size : Nat) :
    Prop where
  faults_iff : (∃ fault, result = .error fault) ↔
    Word.limit ≤ start + pageSize ∨ Word.limit ≤ start + size ∨
      HoldsFrames pageSize start size (2 ^ 58)
  /-- By pages of 64 bytes or more only the sums are in the way. -/
  faults_iff_of_le : 64 ≤ pageSize → ((∃ fault, result = .error fault) ↔
    Word.limit ≤ start + pageSize ∨ Word.limit ≤ start + size)
  describes : ∀ t, result = .ok t → t.Describes pageSize start size

/-- A table with a descriptor for every whole page of a region, and for no other. -/
theorem describes_of_contains {t : FrameTable} (hpage : 0 < pageSize)
    (hsize : t.pageSize = pageSize)
    (hcontains : ∀ f, t.contains f = true ↔
      start ≤ f * pageSize ∧ (f + 1) * pageSize ≤ start + size)
    (hfresh : ∀ f page, t.page? f = some page → page = Page.fresh f) :
    t.Describes pageSize start size := by
  have hempty : (∀ f, ¬ (start ≤ f * pageSize ∧ (f + 1) * pageSize ≤ start + size)) →
      t.frameCount = 0 := by
    intro hnone
    by_contra hpos
    apply hnone t.base
    rw [← hcontains, contains]
    simp only [Bool.and_eq_true, decide_eq_true_eq]
    omega
  constructor
  · exact hsize
  · exact hcontains
  · intro f
    rw [isSome_page?]
    exact hcontains f
  · intro f page hp
    rw [hfresh f page hp]
    exact ⟨rfl, rfl⟩
  · intro address
    rw [hcontains, ← frameBytes_subset_iff hpage, pfnOf, hsize]
    constructor
    · intro h f hf
      rw [mem_frameBytes_iff hpage] at hf
      rw [← hf]
      exact h
    · intro h
      exact h _ ((mem_frameBytes_iff hpage).mpr rfl)
  · intro hsmall
    apply hempty
    intro f hf
    rw [Nat.succ_mul] at hf
    omega
  · intro hnone
    apply hempty
    intro f hf
    exact hnone f ((frameBytes_subset_iff hpage).mpr hf)

/-- **The table of a region has the whole pages of the region and no others.** -/
theorem ofRegion_describes (k start size : Nat) :
    DescribesRegion (ofRegion (2 ^ k) start size) (2 ^ k) start size := by
  have hpow : 0 < 2 ^ k := Nat.two_pow_pos k
  constructor
  · exact ofRegion_faults_iff k start size
  · intro hpage
    rw [ofRegion_faults_iff]
    refine or_congr_right (or_iff_left_of_imp fun hholds => ?_)
    exact Nat.le_of_not_lt fun hstop => not_holdsFrames hpage hstop hholds
  · intro t ht
    have hsums : ¬ (Word.limit ≤ start + 2 ^ k ∨ Word.limit ≤ start + size) := by
      intro hover
      rw [ofRegion_overflows hover] at ht
      cases ht
    rw [ofRegion_eq k (by omega) (by omega)] at ht
    obtain ⟨hbase, hcount, hsize⟩ := run_of_create ht
    refine describes_of_contains hpow hsize ?_ ?_
    · intro f
      rw [← between_rounded_iff hpow, contains, hbase, hcount]
      simp only [Bool.and_eq_true, decide_eq_true_eq]
      omega
    · intro f page hp
      rw [page?_of_create ht] at hp
      split at hp
      · exact (Option.some.inj hp).symm
      · cases hp

/-- The sums are small, but there are `2 ^ 58` pages of one byte. -/
theorem not_faults_iff_sums :
    ¬ ((∃ fault, ofRegion (2 ^ 0) 0 (2 ^ 58) = .error fault) ↔
      Word.limit ≤ 0 + 2 ^ 0 ∨ Word.limit ≤ 0 + 2 ^ 58) := by
  intro hiff
  have hfault : ofRegion (2 ^ 0) 0 (2 ^ 58) = .error .tableTooLarge := rfl
  have hsums := hiff.mp ⟨_, hfault⟩
  exact absurd hsums (by decide)

/-- Partial pages at both ends are dropped. -/
example : (ofRegion 4096 0x10800 0x4000).map (fun t => (t.base, t.frameCount)) = .ok (0x11, 3) :=
  rfl

end FrameTable

end BuddySystem
