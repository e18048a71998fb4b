import Mathlib.Data.Nat.Digits.Defs
import Mathlib.Data.String.Basic
import Mathlib.Tactic.Common

/-!
# UTF-16 code units and decimal readings of them

A string is read one code unit at a time: a character of the basic plane is one
unit, any other a pair of surrogates, and no two strings share their units. The
digits of a reading are code units from 48 to 57; readings of one length with
one value are the same digits.
-/

set_option autoImplicit false

namespace WatchAndSee.Library.CodeUnits

/-- The code units of a character. -/
def units (c : Char) : List Nat :=
  if c.toNat < 0x10000 then [c.toNat]
  else [0xD800 + (c.toNat - 0x10000) / 0x400, 0xDC00 + (c.toNat - 0x10000) % 0x400]

def unichars (s : String) : List Nat := s.toList.flatMap units

/-- A scalar value is no surrogate. -/
theorem scalar_bounds (c : Char) :
    c.toNat < 0xD800 ∨ (0xDFFF < c.toNat ∧ c.toNat < 0x110000) := c.valid

theorem units_append_injective {c d : Char} {l m : List Nat} (same : units c ++ l = units d ++ m) :
    c = d ∧ l = m := by
  have boundsLeft := scalar_bounds c
  have boundsRight := scalar_bounds d
  suffices agree : c.toNat = d.toNat ∧ l = m from ⟨Char.toNat_inj.mp agree.1, agree.2⟩
  unfold units at same
  split at same <;> split at same
  · simpa using same
  · obtain ⟨first, _⟩ := List.cons.inj same
    omega
  · obtain ⟨first, _⟩ := List.cons.inj same
    omega
  · obtain ⟨first, others⟩ := List.cons.inj same
    obtain ⟨second, rest⟩ := List.cons.inj others
    refine ⟨?_, rest⟩
    omega

theorem flatMap_units_injective {l m : List Char} (same : l.flatMap units = m.flatMap units) :
    l = m := by
  have nonempty : ∀ c : Char, units c ≠ [] := by
    intro c
    unfold units
    split <;> simp
  induction l generalizing m with
  | nil =>
    cases m with
    | nil => rfl
    | cons d rest => simp [nonempty] at same
  | cons c rest ih =>
    cases m with
    | nil => simp [nonempty] at same
    | cons d rest' =>
      rw [List.flatMap_cons, List.flatMap_cons] at same
      obtain ⟨first, others⟩ := units_append_injective same
      rw [first, ih others]

/-- Strings are told apart by their code units. -/
theorem unichars_injective : Function.Injective unichars := fun _ _ same =>
  String.toList_injective (flatMap_units_injective same)

theorem units_ascii {c : Char} (ascii : c.toNat < 128) : units c = [c.toNat] := by
  unfold units
  rw [if_pos (by omega)]

theorem unichars_ascii {s : String} (ascii : ∀ c ∈ s.toList, c.toNat < 128) :
    unichars s = s.toList.map Char.toNat := by
  unfold unichars
  generalize s.toList = l at ascii ⊢
  induction l with
  | nil => rfl
  | cons c rest ih =>
    rw [List.flatMap_cons, units_ascii (ascii c (by simp)), ih fun d member =>
      ascii d (List.mem_cons_of_mem _ member)]
    rfl

/-! ## Decimal readings -/

def IsDigit (unit : Nat) : Prop := 48 ≤ unit ∧ unit ≤ 57

instance (unit : Nat) : Decidable (IsDigit unit) := inferInstanceAs (Decidable (_ ∧ _))

/-- The number that the digits spell, the most significant one first. -/
def reading (l : List Nat) : Nat := Nat.ofDigits 10 (l.map fun unit => unit - 48).reverse

theorem reading_cons (unit : Nat) (l : List Nat) :
    reading (unit :: l) = (unit - 48) * 10 ^ l.length + reading l := by
  unfold reading
  rw [List.map_cons, List.reverse_cons, Nat.ofDigits_append, Nat.ofDigits_singleton,
    List.length_reverse, List.length_map, Nat.mul_comm, Nat.add_comm]

theorem reading_lt (l : List Nat) (digits : ∀ unit ∈ l, IsDigit unit) :
    reading l < 10 ^ l.length := by
  unfold reading
  have bound := Nat.ofDigits_lt_base_pow_length (b := 10)
    (l := (l.map fun unit => unit - 48).reverse) (by omega) (by
      intro d member
      obtain ⟨unit, inside, rfl⟩ := List.mem_map.mp (List.mem_reverse.mp member)
      have := (digits unit inside).2
      omega)
  simpa using bound

/-- Digits of one length are told apart by the number they spell. -/
theorem reading_injective {l m : List Nat} (length : l.length = m.length)
    (left : ∀ unit ∈ l, IsDigit unit) (right : ∀ unit ∈ m, IsDigit unit)
    (same : reading l = reading m) : l = m := by
  induction l generalizing m with
  | nil => exact (List.eq_nil_of_length_eq_zero length.symm).symm
  | cons a rest ih =>
    cases m with
    | nil => simp at length
    | cons b rest' =>
      have lengths : rest.length = rest'.length := by simpa using length
      have leftRest : ∀ unit ∈ rest, IsDigit unit := fun unit member =>
        left unit (List.mem_cons_of_mem _ member)
      have rightRest : ∀ unit ∈ rest', IsDigit unit := fun unit member =>
        right unit (List.mem_cons_of_mem _ member)
      have below := reading_lt rest leftRest
      have below' := reading_lt rest' rightRest
      rw [reading_cons, reading_cons, ← lengths] at same
      rw [← lengths] at below'
      -- the leading digit is the quotient by the power, the rest the remainder
      have leading := congrArg (· / 10 ^ rest.length) same
      have trailing := congrArg (· % 10 ^ rest.length) same
      simp only [Nat.mul_comm _ (10 ^ rest.length),
        Nat.mul_add_div (Nat.pow_pos (by omega : 0 < 10)), Nat.mul_add_mod,
        Nat.div_eq_of_lt below, Nat.div_eq_of_lt below', Nat.mod_eq_of_lt below,
        Nat.mod_eq_of_lt below'] at leading trailing
      have digitLeft := left a (by simp)
      have digitRight := right b (by simp)
      unfold IsDigit at digitLeft digitRight
      rw [ih lengths leftRest rightRest trailing]
      congr 1
      omega

theorem reading_zeros (k : Nat) : reading (List.replicate k 48) = 0 := by
  induction k with
  | zero => rfl
  | succ k ih => rw [List.replicate_succ, reading_cons, ih]; simp

end WatchAndSee.Library.CodeUnits
