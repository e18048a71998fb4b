import Mathlib.Algebra.Order.Round
import Mathlib.Data.Int.Log
import Mathlib.Data.Rat.Floor
import Mathlib.Tactic.Linarith
import Mathlib.Tactic.NormNum

/-!
# Rounding to 53 significant bits

The value of a double-precision operation is its exact result rounded to the
nearest number with 53 significant bits, ties to even. The bounds of the
exponent are not modelled, so there is no overflow and no gradual underflow.
-/

set_option autoImplicit false

namespace WatchAndSee.Library.Binary64

/-- Nearest integer, ties to even. -/
def roundEven (q : ℚ) : ℤ :=
  let below := ⌊q⌋
  if q - below < 1 / 2 then below
  else if 1 / 2 < q - below then below + 1
  else if below % 2 = 0 then below
  else below + 1

/-- Exponent of the last significant bit. -/
def lastBit (q : ℚ) : ℤ := Int.log 2 |q| - 52

def round (q : ℚ) : ℚ := roundEven (q / 2 ^ lastBit q) * 2 ^ lastBit q

theorem roundEven_int (n : ℤ) : roundEven n = n := by
  unfold roundEven
  simp

/-- A number whose last bit is within its 53 significant ones is kept. -/
theorem round_eq_self {q : ℚ} (m : ℤ) (scaled : q = m * 2 ^ lastBit q) : round q = q := by
  have nonzero : (2 : ℚ) ^ lastBit q ≠ 0 := zpow_ne_zero _ (by norm_num)
  have quotient : q / 2 ^ lastBit q = m := by
    rw [div_eq_iff nonzero]
    exact scaled
  rw [round, quotient, roundEven_int]
  exact scaled.symm

theorem lastBit_nonpos {n : ℤ} (bound : |n| < 2 ^ 53) : lastBit n ≤ 0 := by
  unfold lastBit
  by_cases zero : n = 0
  · subst zero
    simp
  · have positive : (0 : ℚ) < |(n : ℚ)| := abs_pos.mpr (by exact_mod_cast zero)
    have small : |(n : ℚ)| < ((2 : ℕ) : ℚ) ^ (53 : ℤ) := by
      have cast : |(n : ℚ)| < 2 ^ 53 := by exact_mod_cast bound
      simpa using cast
    have log := (Int.lt_zpow_iff_log_lt (by norm_num) positive).mp small
    omega

/-- Integers of up to 53 bits are exact, and so is the power of two after them. -/
theorem round_int (n : ℤ) (bound : |n| ≤ 2 ^ 53) : round n = n := by
  rcases lt_or_eq_of_le bound with small | large
  · obtain ⟨k, shift⟩ := Int.eq_ofNat_of_zero_le (neg_nonneg.mpr (lastBit_nonpos small))
    have last : lastBit n = -(k : ℤ) := by
      have := shift
      omega
    apply round_eq_self (n * 2 ^ k)
    rw [last, zpow_neg, zpow_natCast]
    push_cast
    rw [mul_assoc, mul_inv_cancel₀ (pow_ne_zero _ (by norm_num)), mul_one]
  · have last : lastBit n = 1 := by
      have abs : |(n : ℚ)| = ((2 : ℕ) : ℚ) ^ (53 : ℤ) := by
        have cast : |(n : ℚ)| = 2 ^ 53 := by exact_mod_cast large
        rw [cast]
        norm_num
      rw [lastBit, abs, Int.log_zpow (by norm_num)]
      rfl
    rcases abs_eq (by norm_num) |>.mp large with positive | negative
    · apply round_eq_self (2 ^ 52)
      rw [last, positive]
      norm_num
    · apply round_eq_self (-2 ^ 52)
      rw [last, negative]
      norm_num

end WatchAndSee.Library.Binary64
