import BuddySystem.Fault

/-!
# Checked 64-bit arithmetic

Frame numbers, counts and addresses are natural numbers below `Word.limit`.  An
operation whose result would not be one is a fault, never a wrapped number, so
`Word.add a b` is `.ok (a + b)` whenever it is anything but a fault.

The bit tests need no check: `Word.isAligned` and `Word.clear` stay below their
argument.
-/

namespace BuddySystem.Word

/-- One past the largest 64-bit number. -/
def limit : Nat := Nat.pow 2 64

def add (a b : Nat) : Except Fault Nat :=
  if a + b < limit then .ok (a + b) else .error (.overflow .addition)

/-- The difference, if it is not negative. -/
def sub (a b : Nat) : Except Fault Nat :=
  if b ≤ a then .ok (a - b) else .error (.overflow .subtraction)

def mul (a b : Nat) : Except Fault Nat :=
  if a * b < limit then .ok (a * b) else .error (.overflow .multiplication)

/-- The power `2 ^ exponent`, as one bit shifted left; the shift is refused from
64 places on. -/
def shiftOne (exponent : Nat) : Except Fault Nat :=
  if exponent < 64 then .ok (Nat.pow 2 exponent) else .error (.overflow .leftShift)

/-- Whether no bit below the power of two `align` is set in `n`. -/
def isAligned (n align : Nat) : Bool := n &&& (align - 1) == 0

/-- The number `n` with the bits of `mask` cleared. -/
def clear (n mask : Nat) : Nat := n - (n &&& mask)

/-! ### When a checked operation answers -/

theorem add_eq_ok_iff {a b n : Nat} : add a b = .ok n ↔ a + b = n ∧ n < limit := by
  unfold add
  split
  · simp only [Except.ok.injEq]; omega
  · simp only [reduceCtorEq, false_iff]; omega

theorem add_of_limit_le {a b : Nat} (h : limit ≤ a + b) :
    add a b = .error (.overflow .addition) :=
  if_neg (Nat.not_lt.mpr h)

theorem limit_le_of_add_error {a b : Nat} {fault : Fault} (h : add a b = .error fault) :
    limit ≤ a + b := by
  refine Nat.le_of_not_lt fun hlt => ?_
  rw [add_eq_ok_iff.mpr ⟨rfl, hlt⟩] at h
  cases h

theorem sub_eq_ok_iff {a b n : Nat} : sub a b = .ok n ↔ b ≤ a ∧ a - b = n := by
  unfold sub
  split
  · simp only [Except.ok.injEq]; omega
  · simp only [reduceCtorEq, false_iff]; omega

theorem lt_of_sub_error {a b : Nat} {fault : Fault} (h : sub a b = .error fault) : a < b := by
  refine Nat.lt_of_not_le fun hle => ?_
  rw [sub_eq_ok_iff.mpr ⟨hle, rfl⟩] at h
  cases h

theorem mul_eq_ok_iff {a b n : Nat} : mul a b = .ok n ↔ a * b = n ∧ n < limit := by
  unfold mul
  split
  · simp only [Except.ok.injEq]; omega
  · simp only [reduceCtorEq, false_iff]; omega

theorem shiftOne_eq_ok_iff {e n : Nat} : shiftOne e = .ok n ↔ e < 64 ∧ Nat.pow 2 e = n := by
  unfold shiftOne
  split
  · simp only [Except.ok.injEq]; omega
  · simp only [reduceCtorEq, false_iff]; omega

/-! ### What the bit tests say -/

/-- **No bit below a power of two is set just in its multiples.** -/
theorem isAligned_pow_iff {n k : Nat} :
    isAligned n (Nat.pow 2 k) = true ↔ Nat.pow 2 k ∣ n := by
  have hmod : n &&& (Nat.pow 2 k - 1) = n % Nat.pow 2 k := Nat.and_two_pow_sub_one_eq_mod n k
  rw [isAligned, beq_iff_eq, hmod, Nat.dvd_iff_mod_eq_zero]

end BuddySystem.Word
