import Mathlib.Algebra.Field.Rat
import Mathlib.Data.Int.Cast.Lemmas
import Mathlib.Data.List.TakeWhile
import WatchAndSee.Library.Decimal

/-!
# Decimal texts of numbers

The exact value of a text made of an optional sign, digits with an optional
point, and an optional exponent, and the text of an integer. Nothing else may
stand in the text, not even blanks.
-/

set_option autoImplicit false

namespace WatchAndSee.Library.DecimalText
open Decimal (numeral digits)

/-- Digits only, at least one. -/
def naturalValue (text : List Char) : Option Nat :=
  if text ≠ [] ∧ text.all Char.isDigit then some (Nat.ofDigitChars 10 text 0) else none

/-- An optional sign before what `read` accepts. -/
def signed {α : Type} [Neg α] (read : List Char → Option α) : List Char → Option α
  | '-' :: rest => (read rest).map (- ·)
  | '+' :: rest => read rest
  | text => read text

def exponentValue : List Char → Option ℤ
  | [] => some 0
  | c :: rest =>
    if c = 'e' ∨ c = 'E' then signed (fun digits => (naturalValue digits).map Int.ofNat) rest
    else none

/-- Digits before and after an optional point, at least one in all, and an
optional exponent. -/
def unsignedValue (text : List Char) : Option ℚ :=
  let whole := text.takeWhile Char.isDigit
  let (fraction, rest) :=
    match text.dropWhile Char.isDigit with
    | '.' :: tail => (tail.takeWhile Char.isDigit, tail.dropWhile Char.isDigit)
    | tail => ([], tail)
  if whole = [] ∧ fraction = [] then none
  else (exponentValue rest).map fun exponent =>
    (Nat.ofDigitChars 10 (whole ++ fraction) 0 : ℚ) * 10 ^ (exponent - (fraction.length : ℤ))

/-- The number that a text spells. -/
def value (text : String) : Option ℚ := signed unsignedValue text.toList

/-- The text of an integer. -/
def integer (t : ℤ) : String := t.repr

theorem unsignedValue_digits (n : Nat) : unsignedValue (digits n) = some (n : ℚ) := by
  have all : ∀ c ∈ digits n, c.isDigit = true := fun _ => Decimal.isDigit_of_mem_digits
  have nonempty : digits n ≠ [] := List.length_pos_iff.mp (Decimal.width_pos n)
  have whole : (digits n).takeWhile Char.isDigit = digits n := List.takeWhile_eq_self_iff.mpr all
  have rest : (digits n).dropWhile Char.isDigit = [] := List.dropWhile_eq_nil_iff.mpr all
  have spelled : Nat.ofDigitChars 10 (digits n) 0 = n := Nat.ofDigitChars_ten_toDigits
  unfold unsignedValue
  simp [whole, rest, nonempty, exponentValue, spelled]

theorem signed_digits (n : Nat) : signed unsignedValue (digits n) = some (n : ℚ) := by
  have all : ∀ c ∈ digits n, c.isDigit = true := fun _ => Decimal.isDigit_of_mem_digits
  rw [← unsignedValue_digits]
  unfold signed
  split
  · next same =>
    have sign := all '-' (by simp [same])
    cases sign
  · next same =>
    have sign := all '+' (by simp [same])
    cases sign
  · rfl

/-- The text of an integer spells it. -/
theorem value_integer (t : ℤ) : value (integer t) = some (t : ℚ) := by
  cases t with
  | ofNat n =>
    have text : (integer (Int.ofNat n)).toList = digits n := Decimal.toList_numeral n
    rw [value, text, signed_digits]
    rfl
  | negSucc n =>
    have text : (integer (Int.negSucc n)).toList = '-' :: digits (n + 1) := by
      have written : integer (Int.negSucc n) = "-" ++ numeral (n + 1) := rfl
      rw [written, String.toList_append, Decimal.toList_numeral]
      rfl
    rw [value, text, signed, unsignedValue_digits]
    simp [Int.negSucc_eq]

theorem integer_injective {s t : ℤ} (same : integer s = integer t) : s = t := by
  have values := value_integer s
  rw [same, value_integer, Option.some.injEq] at values
  exact_mod_cast values.symm

end WatchAndSee.Library.DecimalText
