import Mathlib.Data.String.Basic
import Mathlib.Data.List.Induction
import Mathlib.Data.List.Lex
import Mathlib.Order.Defs.LinearOrder

/-!
# Decimal numerals and their order as strings

The numeral of a natural number is its decimal digits without leading zeros. Strings compare lexicographically, numbers by value; the two
orders agree on numerals of one length, and for a shorter numeral the string
order compares with the leading digits of the longer one
(`numeral_lt_iff`).
-/

set_option autoImplicit false

namespace WatchAndSee.Library.Decimal

abbrev digits (n : Nat) : List Char := Nat.toDigits 10 n

def numeral (n : Nat) : String := n.repr

/-- Number of decimal digits. -/
def width (n : Nat) : Nat := (digits n).length

@[simp] theorem toList_numeral (n : Nat) : (numeral n).toList = digits n := Nat.toList_repr

theorem digits_injective {m n : Nat} (same : digits m = digits n) : m = n := by
  have value := congrArg (fun l => Nat.ofDigitChars 10 l 0) same
  simpa only [Nat.ofDigitChars_ten_toDigits] using value

theorem numeral_injective {m n : Nat} (same : numeral m = numeral n) : m = n := by
  apply digits_injective
  rw [← toList_numeral, ← toList_numeral, same]

theorem width_pos (n : Nat) : 0 < width n := Nat.length_toDigits_pos

theorem width_le_iff {n k : Nat} (positive : 0 < k) : width n ≤ k ↔ n < 10 ^ k :=
  Nat.length_toDigits_le_iff (by decide) positive

theorem lt_pow_width (n : Nat) : n < 10 ^ width n :=
  (width_le_iff (width_pos n)).mp (Nat.le_refl _)

theorem width_mono {m n : Nat} (le : m ≤ n) : width m ≤ width n :=
  (width_le_iff (width_pos n)).mpr (Nat.lt_of_le_of_lt le (lt_pow_width n))

/-- A numeral of more than `k` digits spells a number of at least `10 ^ k`. -/
theorem pow_le_of_lt_width {n k : Nat} (longer : k < width n) (nonzero : n ≠ 0) : 10 ^ k ≤ n := by
  cases k with
  | zero => simpa [Nat.one_le_iff_ne_zero] using nonzero
  | succ k =>
    by_contra small
    have := (width_le_iff (Nat.succ_pos k)).mpr (Nat.lt_of_not_le small)
    omega

theorem isDigit_of_mem_digits {n : Nat} {c : Char} (member : c ∈ digits n) : c.isDigit = true :=
  Nat.isDigit_of_mem_toDigits (by decide) (by decide) member

/-- A digit's character is ordered like its value. -/
theorem digit_toNat_bounds {c : Char} (digit : c.isDigit = true) :
    '0'.toNat ≤ c.toNat ∧ c.toNat - '0'.toNat < 10 := by
  have bounds : 48 ≤ c.toNat ∧ c.toNat ≤ 57 := Char.isDigit_iff_toNat.mp digit
  have zero : '0'.toNat = 48 := rfl
  omega

theorem char_lt_iff (c d : Char) : c < d ↔ c.toNat < d.toNat := by
  rw [Char.lt_def, UInt32.lt_iff_toNat_lt]
  rfl

theorem value_cons (c : Char) (l : List Char) :
    Nat.ofDigitChars 10 (c :: l) 0 =
      10 ^ l.length * (c.toNat - '0'.toNat) + Nat.ofDigitChars 10 l 0 := by
  rw [Nat.ofDigitChars_cons, Nat.ofDigitChars_eq_ofDigitChars_zero, Nat.mul_zero, Nat.zero_add]

/-- The value of a digit string stays below the power of its length. -/
theorem value_lt_pow (l : List Char) (allDigits : ∀ c ∈ l, c.isDigit = true) :
    Nat.ofDigitChars 10 l 0 < 10 ^ l.length := by
  induction l with
  | nil => simp
  | cons c rest ih =>
    have tail := ih (fun d member => allDigits d (by simp [member]))
    have head := digit_toNat_bounds (allDigits c (by simp))
    rw [value_cons, List.length_cons, Nat.pow_succ]
    have scaled : 10 ^ rest.length * (c.toNat - '0'.toNat) ≤ 10 ^ rest.length * 9 :=
      Nat.mul_le_mul_left _ (by omega)
    omega

theorem digitChar_value {c : Char} (digit : c.isDigit = true) :
    Nat.digitChar (c.toNat - '0'.toNat) = c := by
  have bounds := digit_toNat_bounds digit
  have zero : '0'.toNat = 48 := rfl
  apply Char.toNat_inj.mp
  rw [Nat.toNat_digitChar_of_lt_ten bounds.2]
  omega

/-- A digit string without a leading zero is the numeral of its value. -/
theorem digits_value (l : List Char) (nonempty : l ≠ [])
    (allDigits : ∀ c ∈ l, c.isDigit = true) (noLeadingZero : l.head? = some '0' → l.length = 1) :
    digits (Nat.ofDigitChars 10 l 0) = l := by
  induction l using List.reverseRecOn with
  | nil => exact absurd rfl nonempty
  | append_singleton front c ih =>
    have digit := allDigits c (by simp)
    have bounds := digit_toNat_bounds digit
    have value : Nat.ofDigitChars 10 (front ++ [c]) 0 =
        10 * Nat.ofDigitChars 10 front 0 + (c.toNat - '0'.toNat) := by
      rw [Nat.ofDigitChars_append, Nat.ofDigitChars_cons, Nat.ofDigitChars_nil]
    rw [value]
    by_cases empty : front = []
    · subst empty
      rw [Nat.ofDigitChars_nil, Nat.mul_zero, Nat.zero_add, digits,
        Nat.toDigits_of_lt_base bounds.2, digitChar_value digit, List.nil_append]
    · have head : (front ++ [c]).head? = front.head? := List.head?_append_of_ne_nil _ empty
      have longer : (front ++ [c]).length ≠ 1 := by
        have := List.length_pos_iff.mpr empty
        simp only [List.length_append, List.length_singleton]
        omega
      have notZero : front.head? ≠ some '0' :=
        fun zero => longer (noLeadingZero (head.trans zero))
      have front_eq := ih empty (fun x member => allDigits x (by simp [member]))
        (fun zero => absurd zero notZero)
      have positive : 0 < Nat.ofDigitChars 10 front 0 := by
        -- the value zero would make the numeral "0" the front, which has no leading zero
        rcases Nat.eq_zero_or_pos (Nat.ofDigitChars 10 front 0) with zero | positive
        · rw [zero] at front_eq
          exact absurd (by rw [← front_eq]; rfl) notZero
        · exact positive
      have split := Nat.toDigits_append_toDigits (b := 10) (d := c.toNat - '0'.toNat) (by decide)
        positive bounds.2
      rw [digits, ← split, Nat.toDigits_of_lt_base bounds.2, digitChar_value digit]
      exact congrArg (· ++ [c]) front_eq

/-- Cutting `k` digits off the end of a numeral leaves the numeral of the quotient. -/
theorem digits_split (n k : Nat) (large : 10 ^ k ≤ n) :
    ∃ back, digits n = digits (n / 10 ^ k) ++ back ∧ back.length = k := by
  induction k with
  | zero => exact ⟨[], by simp, rfl⟩
  | succ k ih =>
    have smaller : 10 ^ k ≤ n := Nat.le_trans (Nat.pow_le_pow_right (by decide) (Nat.le_succ k)) large
    obtain ⟨back, split, lengths⟩ := ih smaller
    have quotient : 10 ≤ n / 10 ^ k := by
      rw [Nat.le_div_iff_mul_le (Nat.pow_pos (by decide)), Nat.mul_comm, ← Nat.pow_succ]
      exact large
    have front : digits (n / 10 ^ k) =
        digits (n / 10 ^ (k + 1)) ++ [Nat.digitChar (n / 10 ^ k % 10)] := by
      rw [digits, Nat.toDigits_of_base_le (by decide) quotient, Nat.div_div_eq_div_mul,
        ← Nat.pow_succ]
    exact ⟨Nat.digitChar (n / 10 ^ k % 10) :: back, by rw [split, front]; simp, by simp [lengths]⟩

/-- Exactly the numerals: digits only, none in front of a zero. -/
theorem eq_numeral_iff (s : String) :
    (∃ n, s = numeral n) ↔ s.toList ≠ [] ∧ (∀ c ∈ s.toList, c.isDigit = true) ∧
      (s.toList.head? = some '0' → s.toList.length = 1) := by
  constructor
  · intro given
    obtain ⟨n, same⟩ := given
    subst same
    refine ⟨by simp, by rw [toList_numeral]; exact fun _ => isDigit_of_mem_digits, ?_⟩
    intro zero
    rw [toList_numeral] at zero ⊢
    by_contra longer
    have wide : 1 < width n := by have := width_pos n; unfold width at *; omega
    have large : 10 ^ (width n - 1) ≤ n :=
      pow_le_of_lt_width (by omega) (by rintro rfl; exact absurd wide (by decide))
    obtain ⟨back, split, lengths⟩ := digits_split n (width n - 1) large
    -- the front is one digit, whose value is the leading quotient and not zero
    have front : width (n / 10 ^ (width n - 1)) = 1 := by
      have total := congrArg List.length split
      rw [List.length_append, lengths] at total
      unfold width at *
      omega
    have small : n / 10 ^ (width n - 1) < 10 := by
      simpa using (width_le_iff (k := 1) (by decide)).mp (Nat.le_of_eq front)
    have nonzero : 0 < n / 10 ^ (width n - 1) := Nat.div_pos large (Nat.pow_pos (by decide))
    rw [split, digits, Nat.toDigits_of_lt_base small, List.singleton_append, List.head?_cons,
      Option.some.injEq] at zero
    have value := congrArg Char.toNat zero
    rw [Nat.toNat_digitChar_of_lt_ten small] at value
    have code : '0'.toNat = 48 := rfl
    omega
  · intro given
    obtain ⟨nonempty, allDigits, noLeadingZero⟩ := given
    refine ⟨Nat.ofDigitChars 10 s.toList 0, ?_⟩
    apply String.toList_inj.mp
    rw [toList_numeral, digits_value s.toList nonempty allDigits noLeadingZero]

/-- Digit strings of one length compare like their values. -/
theorem lex_lt_iff_value_lt (l m : List Char) (same : l.length = m.length)
    (digitsL : ∀ c ∈ l, c.isDigit = true) (digitsM : ∀ c ∈ m, c.isDigit = true) :
    l < m ↔ Nat.ofDigitChars 10 l 0 < Nat.ofDigitChars 10 m 0 := by
  induction l generalizing m with
  | nil =>
    have empty : m = [] := List.eq_nil_of_length_eq_zero same.symm
    simp [empty]
  | cons c l ih =>
    cases m with
    | nil => simp at same
    | cons d m =>
      have lengths : l.length = m.length := by simpa using same
      have restL := fun x (member : x ∈ l) => digitsL x (List.mem_cons_of_mem c member)
      have restM := fun x (member : x ∈ m) => digitsM x (List.mem_cons_of_mem d member)
      have headC := digit_toNat_bounds (digitsL c (by simp))
      have headD := digit_toNat_bounds (digitsM d (by simp))
      have valueL := value_lt_pow l restL
      have valueM := value_lt_pow m restM
      rw [← lengths] at valueM
      rw [List.cons_lt_cons_iff, ih m lengths restL restM, value_cons, value_cons, ← lengths,
        char_lt_iff]
      rcases Nat.lt_trichotomy c.toNat d.toNat with less | equal | greater
      · have step : 10 ^ l.length * (c.toNat - '0'.toNat + 1) ≤
            10 ^ l.length * (d.toNat - '0'.toNat) :=
          Nat.mul_le_mul_left _ (by omega)
        rw [Nat.mul_add, Nat.mul_one] at step
        exact ⟨fun _ => by omega, fun _ => Or.inl less⟩
      · have chars : c = d := Char.toNat_inj.mp equal
        subst chars
        simp
      · have step : 10 ^ l.length * (d.toNat - '0'.toNat + 1) ≤
            10 ^ l.length * (c.toNat - '0'.toNat) :=
          Nat.mul_le_mul_left _ (by omega)
        rw [Nat.mul_add, Nat.mul_one] at step
        constructor
        · rintro (less | ⟨rfl, _⟩)
          · omega
          · omega
        · intro less
          omega

/-- Comparing a string with a longer one looks at the longer one's beginning. -/
theorem lex_lt_append_iff (l front back : List Char) (same : l.length = front.length) :
    l < front ++ back ↔ l < front ∨ (l = front ∧ back ≠ []) := by
  induction l generalizing front with
  | nil =>
    have empty : front = [] := List.eq_nil_of_length_eq_zero same.symm
    subst empty
    cases back <;> simp
  | cons c l ih =>
    cases front with
    | nil => simp at same
    | cons d front =>
      have lengths : l.length = front.length := by simpa using same
      simp only [List.cons_append, List.cons_lt_cons_iff, ih front lengths, List.cons.injEq]
      constructor
      · rintro (less | ⟨equal, less | ⟨rest, longer⟩⟩)
        · exact .inl (.inl less)
        · exact .inl (.inr ⟨equal, less⟩)
        · exact .inr ⟨⟨equal, rest⟩, longer⟩
      · rintro ((less | ⟨equal, less⟩) | ⟨⟨equal, rest⟩, longer⟩)
        · exact .inl less
        · exact .inr ⟨equal, .inl less⟩
        · exact .inr ⟨equal, .inr ⟨rest, longer⟩⟩

theorem digits_lt_iff_of_width_eq {m n : Nat} (same : width m = width n) :
    digits m < digits n ↔ m < n := by
  have order := lex_lt_iff_value_lt (digits m) (digits n) same
    (fun _ => isDigit_of_mem_digits) (fun _ => isDigit_of_mem_digits)
  rwa [Nat.ofDigitChars_ten_toDigits, Nat.ofDigitChars_ten_toDigits] at order

/-- For a smaller number the numerals are in the same order exactly when it
does not exceed the leading digits, as many as it has, of the larger one. -/
theorem digits_lt_iff {m n : Nat} (less : m < n) :
    digits m < digits n ↔ m ≤ n / 10 ^ (width n - width m) := by
  have positive : n ≠ 0 := by omega
  have widths := width_mono (Nat.le_of_lt less)
  have large : 10 ^ (width n - width m) ≤ n :=
    pow_le_of_lt_width (by have := width_pos m; omega) positive
  obtain ⟨back, split, lengths⟩ := digits_split n (width n - width m) large
  have frontWidth : width (n / 10 ^ (width n - width m)) = width m := by
    have total := congrArg List.length split
    rw [List.length_append, lengths] at total
    unfold width at *
    omega
  rw [split, lex_lt_append_iff _ _ _ frontWidth.symm,
    digits_lt_iff_of_width_eq frontWidth.symm]
  constructor
  · rintro (smaller | ⟨equal, _⟩)
    · exact Nat.le_of_lt smaller
    · exact Nat.le_of_eq (digits_injective equal)
  · intro le
    rcases Nat.lt_or_eq_of_le le with smaller | equal
    · exact .inl smaller
    · refine .inr ⟨congrArg digits equal, ?_⟩
      intro empty
      rw [empty, List.length_nil] at lengths
      rw [← lengths, Nat.pow_zero, Nat.div_one] at equal
      omega

/-- A common prefix does not change the order of strings. -/
theorem append_lt_append_iff (label a b : String) : label ++ a < label ++ b ↔ a < b := by
  rw [String.lt_iff_toList_lt, String.lt_iff_toList_lt, String.toList_append, String.toList_append]
  induction label.toList with
  | nil => rfl
  | cons c rest ih => simpa [List.cons_lt_cons_iff] using ih

theorem numeral_lt_iff {m n : Nat} (less : m < n) :
    numeral m < numeral n ↔ m ≤ n / 10 ^ (width n - width m) := by
  rw [String.lt_iff_toList_lt, toList_numeral, toList_numeral, digits_lt_iff less]

end WatchAndSee.Library.Decimal
