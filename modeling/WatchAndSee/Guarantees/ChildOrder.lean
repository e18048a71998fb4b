import Mathlib.Tactic.Linarith
import WatchAndSee.Guarantees.SortedDictionaryRuns
import WatchAndSee.Library.DecimalText
import WatchAndSee.Source.FUtilities

/-!
# The order of children

`compareKey:toKey:` sorts keys that spell a 32-bit integer by value, before all
other keys, which it sorts by code units. It is a total preorder; two different
keys tie only where one is a negative zero, as long as the other.
-/

set_option autoImplicit false

namespace WatchAndSee.Guarantees
open Library
open Library.CodeUnits
open Source
open Source.FImmutableSortedDictionary

/-! ## What parses as an integer -/

theorem parseDigits_eq (value : Nat) (l : List Nat) (digits : ∀ unit ∈ l, IsDigit unit) :
    parseDigits value l = some (value * 10 ^ l.length + reading l) := by
  induction l generalizing value with
  | nil => simp [parseDigits, reading]
  | cons c rest ih =>
    have digit := digits c (by simp)
    unfold IsDigit at digit
    unfold parseDigits
    rw [if_neg (by omega), ih _ fun unit member => digits unit (List.mem_cons_of_mem _ member),
      reading_cons, List.length_cons, Nat.pow_succ]
    congr 1
    ring

theorem parseDigits_eq_some_iff (l : List Nat) (result : Nat) :
    parseDigits 0 l = some result ↔ (∀ unit ∈ l, IsDigit unit) ∧ result = reading l := by
  constructor
  · intro parsed
    have digits : ∀ unit ∈ l, IsDigit unit := by
      generalize 0 = value at parsed
      induction l generalizing value with
      | nil => simp
      | cons c rest ih =>
        unfold parseDigits at parsed
        split at parsed
        · contradiction
        · next digit =>
          have first : IsDigit c := by
            unfold IsDigit
            omega
          simpa [first] using ih _ parsed
    rw [parseDigits_eq 0 l digits] at parsed
    exact ⟨digits, by simpa using parsed.symm⟩
  · intro given
    obtain ⟨digits, rfl⟩ := given
    rw [parseDigits_eq 0 l digits]
    simp

/-- The digits of an integer key, with the sign that stands before them. -/
inductive Spells : List Nat → Int → Prop where
  | positive (digits : List Nat) (nonempty : digits ≠ []) (all : ∀ unit ∈ digits, IsDigit unit) :
      Spells digits (reading digits)
  | negative (digits : List Nat) (nonempty : digits ≠ []) (all : ∀ unit ∈ digits, IsDigit unit) :
      Spells (45 :: digits) (-reading digits)

theorem Spells.nonempty {str : List Nat} {v : Int} (spells : Spells str v) : 0 < str.length := by
  cases spells with
  | positive _ nonempty _ => exact List.length_pos_iff.mpr nonempty
  | negative digits _ _ => simp

/-- Integer keys have at most eleven characters and fit in 32 bits. -/
theorem tryParseUnits_eq_some_iff (str : List Nat) (v : Int) :
    tryParseUnits str = some v ↔
      Spells str v ∧ str.length ≤ 11 ∧ INTEGER_32_MIN ≤ v ∧ v ≤ INTEGER_32_MAX := by
  constructor
  · intro parsed
    unfold tryParseUnits at parsed
    split at parsed
    · contradiction
    next short =>
    dsimp only at parsed
    split at parsed
    · contradiction
    next signed =>
    split at parsed
    · contradiction
    next digits read =>
    obtain ⟨all, rfl⟩ := (parseDigits_eq_some_iff _ _).mp read
    by_cases sign : str.head? = some 45
    · simp only [sign, true_and, if_true] at all parsed signed
      split at parsed
      · contradiction
      next inRange =>
      obtain ⟨rest, rfl⟩ := List.head?_eq_some_iff.mp sign
      obtain rfl := Option.some.inj parsed
      refine ⟨.negative rest ?_ all, by omega, by omega⟩
      rintro rfl
      exact signed rfl
    · simp only [if_neg sign] at all parsed
      split at parsed
      · contradiction
      next inRange =>
      obtain rfl := Option.some.inj parsed
      exact ⟨.positive str (List.length_pos_iff.mp (by omega)) all, by omega, by omega⟩
  · intro given
    obtain ⟨spells, short, low, high⟩ := given
    have nonempty := spells.nonempty
    unfold tryParseUnits
    rw [if_neg (by omega)]
    cases spells with
    | positive digits _ all =>
      have noSign : ¬ str.head? = some 45 := by
        intro sign
        have digit := all 45 (List.mem_of_mem_head? sign)
        unfold IsDigit at digit
        omega
      simp only [noSign, false_and, if_false, (parseDigits_eq_some_iff _ _).mpr
        ⟨all, rfl⟩]
      rw [if_neg (by omega)]
    | negative digits present all =>
      have longer : ¬ ((45 :: digits).head? = some 45 ∧ (45 :: digits).length = 1) := by
        simpa using present
      rw [if_neg longer]
      simp only [List.head?_cons, if_true, List.drop_one, List.tail_cons,
        (parseDigits_eq_some_iff _ _).mpr ⟨all, rfl⟩]
      rw [if_neg (by omega)]

/-! ## A total preorder -/

/-- The four groups of names. -/
def group : FName → Nat
  | .minName => 0
  | .key a => if (tryParseStringToInt a).isSome then 1 else 2
  | .maxName => 3

def integerValue : FName → Int
  | .key a => (tryParseStringToInt a).getD 0
  | _ => 0

def integerLength : FName → Nat
  | .key a => if (tryParseStringToInt a).isSome then (unichars a).length else 0
  | _ => 0

def spelling : FName → List Nat
  | .key a => if (tryParseStringToInt a).isSome then [] else unichars a
  | _ => []

theorem branch_then {α : Type} [LinearOrder α] (x y : α) (rest : Ordering) :
    (if x > y then .gt else if x < y then .lt else rest) = (compare x y).then rest := by
  rcases lt_trichotomy x y with less | rfl | more
  · rw [if_neg (not_lt_of_gt less), if_pos less, compare_lt_iff_lt.mpr less]
    rfl
  · rw [if_neg (lt_irrefl x), if_neg (lt_irrefl x), compare_eq_iff_eq.mpr rfl]
    rfl
  · rw [if_pos more, compare_gt_iff_gt.mpr more]
    rfl

/-- Names compare by group, value, length and spelling, in this order. -/
theorem compareKey_eq :
    compareKey = compareLex (compareOn group) (compareLex (compareOn integerValue)
      (compareLex (compareOn integerLength) (compareOn spelling))) := by
  funext a b
  unfold compareLex compareOn
  cases a with
  | minName =>
    cases b with
    | key b =>
      simp only [group]
      split <;> rfl
    | _ => rfl
  | maxName =>
    cases b with
    | key b =>
      simp only [group]
      split <;> rfl
    | _ => rfl
  | key a =>
    cases b with
    | minName =>
      simp only [group]
      split <;> rfl
    | maxName =>
      simp only [group]
      split <;> rfl
    | key b =>
      unfold compareKey
      cases left : tryParseStringToInt a <;> cases right : tryParseStringToInt b <;>
        simp only [branch_then, group, integerValue, integerLength, spelling, left, right] <;> rfl

instance : Std.TransCmp compareKey := by
  rw [compareKey_eq]
  infer_instance

instance : Std.TransCmp keyComparator where
  eq_swap {a b} := by
    unfold keyComparator
    exact Std.OrientedCmp.eq_swap
  isLE_trans {a b c} first second := by
    unfold keyComparator at first second ⊢
    exact Std.TransCmp.isLE_trans first second

/-! ## Ties -/

def zeros (k : Nat) : String := String.ofList (List.replicate k '0')

/-- A minus sign before `k` zeros. -/
def negativeZeros (k : Nat) : String := String.ofList ('-' :: List.replicate k '0')

theorem unichars_zeros (k : Nat) : unichars (zeros k) = List.replicate k 48 := by
  rw [unichars_ascii]
  · simp [zeros]
  · intro c member
    rw [zeros, String.toList_ofList] at member
    rw [List.eq_of_mem_replicate member]
    decide

theorem unichars_negativeZeros (k : Nat) :
    unichars (negativeZeros k) = 45 :: List.replicate k 48 := by
  rw [unichars_ascii]
  · simp [negativeZeros]
  · intro c member
    rw [negativeZeros, String.toList_ofList, List.mem_cons] at member
    rcases member with rfl | member
    · decide
    · rw [List.eq_of_mem_replicate member]
      decide

theorem replicate_isDigit (k : Nat) : ∀ unit ∈ List.replicate k 48, IsDigit unit := by
  intro unit member
  rw [List.eq_of_mem_replicate member]
  decide

theorem zeros_of_reading {l : List Nat} (digits : ∀ unit ∈ l, IsDigit unit)
    (zero : reading l = 0) : l = List.replicate l.length 48 :=
  reading_injective (by simp) digits (replicate_isDigit _) (by rw [zero, reading_zeros])

/-- Two spellings of one length and one value. -/
theorem Spells.same_value {s t : List Nat} {v w : Int} (left : Spells s v) (right : Spells t w)
    (value : v = w) (length : s.length = t.length) :
    s = t ∨ ∃ k, 0 < k ∧ s.length = k + 1 ∧
      ((s = List.replicate (k + 1) 48 ∧ t = 45 :: List.replicate k 48) ∨
        (s = 45 :: List.replicate k 48 ∧ t = List.replicate (k + 1) 48)) := by
  cases left with
  | positive digits nonempty all =>
    cases right with
    | positive digits' _ all' =>
      exact .inl (reading_injective length all all' (by omega))
    | negative digits' nonempty' all' =>
      have zero := zeros_of_reading all (by omega)
      have zero' := zeros_of_reading all' (by omega)
      have size : s.length = digits'.length + 1 := by simpa using length
      refine .inr ⟨digits'.length, List.length_pos_iff.mpr nonempty', size, .inl ⟨?_, ?_⟩⟩
      · rw [← size]
        exact zero
      · rw [← zero']
  | negative digits nonempty all =>
    cases right with
    | positive digits' nonempty' all' =>
      have zero := zeros_of_reading all (by omega)
      have zero' := zeros_of_reading all' (by omega)
      have size : digits.length + 1 = t.length := by simpa using length
      refine .inr ⟨digits.length, List.length_pos_iff.mpr nonempty, by simp, .inr ⟨?_, ?_⟩⟩
      · rw [← zero]
      · rw [size]
        exact zero'
    | negative digits' _ all' =>
      have size : digits.length = digits'.length := by simpa using length
      rw [reading_injective size all all' (by omega)]
      exact .inl rfl

/-- Two keys tie as integers of one value and length, or as equal strings. -/
theorem compareKey_eq_iff_parsed (a b : String) :
    compareKey (.key a) (.key b) = .eq ↔
      (∃ v, tryParseStringToInt a = some v ∧ tryParseStringToInt b = some v ∧
        (unichars a).length = (unichars b).length) ∨ a = b := by
  unfold compareKey
  cases left : tryParseStringToInt a with
  | none =>
    cases right : tryParseStringToInt b with
    | none =>
      have literal : literalCompare a b = .eq ↔ unichars a = unichars b := by
        unfold literalCompare
        exact Std.LawfulEqCmp.compare_eq_iff_eq
      simp [left, right, literal, unichars_injective.eq_iff]
    | some n =>
      have different : a ≠ b := by
        rintro rfl
        simp [left] at right
      simp [left, right, different]
  | some m =>
    cases right : tryParseStringToInt b with
    | none =>
      have different : a ≠ b := by
        rintro rfl
        simp [left] at right
      simp [left, right, different]
    | some n =>
      simp only [left, right, branch_then, Ordering.then_eq_eq, compare_eq_iff_eq, and_true]
      constructor
      · intro given
        obtain ⟨rfl, length⟩ := given
        exact .inl ⟨m, rfl, rfl, length⟩
      · rintro (⟨v, one, two, length⟩ | rfl)
        · exact ⟨(Option.some.inj one).trans (Option.some.inj two).symm, length⟩
        · exact ⟨Option.some.inj (left.symm.trans right), rfl⟩

theorem parse_zeros (k : Nat) (short : k ≤ 10) :
    tryParseStringToInt (zeros (k + 1)) = some 0 ∧
      (0 < k → tryParseStringToInt (negativeZeros k) = some 0) := by
  unfold tryParseStringToInt
  rw [unichars_zeros, unichars_negativeZeros, tryParseUnits_eq_some_iff]
  have length : (List.replicate (k + 1) 48).length ≤ 11 := by
    rw [List.length_replicate]
    omega
  refine ⟨⟨?_, length, by decide, by decide⟩, fun positive => ?_⟩
  · have spells := Spells.positive (List.replicate (k + 1) 48) (by simp) (replicate_isDigit _)
    rwa [reading_zeros] at spells
  · rw [tryParseUnits_eq_some_iff]
    have signed : (45 :: List.replicate k 48).length ≤ 11 := by
      rw [List.length_cons, List.length_replicate]
      omega
    refine ⟨?_, signed, by decide, by decide⟩
    have spells := Spells.negative (List.replicate k 48)
      (by simpa using Nat.pos_iff_ne_zero.mp positive) (replicate_isDigit _)
    rwa [reading_zeros] at spells

/-- Two different keys tie only as a run of zeros and a negative zero of the same
length. -/
theorem compareKey_eq_iff (a b : String) :
    compareKey (.key a) (.key b) = .eq ↔ a = b ∨ ∃ k, 0 < k ∧ k ≤ 10 ∧
      ((a = zeros (k + 1) ∧ b = negativeZeros k) ∨ (a = negativeZeros k ∧ b = zeros (k + 1))) := by
  rw [compareKey_eq_iff_parsed]
  constructor
  · rintro (⟨v, left, right, length⟩ | same)
    · obtain ⟨spells, short, _⟩ := (tryParseUnits_eq_some_iff _ _).mp left
      obtain ⟨spells', _, _⟩ := (tryParseUnits_eq_some_iff _ _).mp right
      rcases spells.same_value spells' rfl length with same | ⟨k, positive, size, tie⟩
      · exact .inl (unichars_injective same)
      · refine .inr ⟨k, positive, by omega, ?_⟩
        rw [← unichars_zeros, ← unichars_negativeZeros] at tie
        simpa only [unichars_injective.eq_iff] using tie
    · exact .inl same
  · rintro (same | ⟨k, positive, short, tie⟩)
    · exact .inr same
    · obtain ⟨zero, negative⟩ := parse_zeros k short
      have length : (unichars (zeros (k + 1))).length = (unichars (negativeZeros k)).length := by
        rw [unichars_zeros, unichars_negativeZeros]
        simp
      rcases tie with ⟨rfl, rfl⟩ | ⟨rfl, rfl⟩
      · exact .inl ⟨0, zero, negative positive, length⟩
      · exact .inl ⟨0, negative positive, zero, length.symm⟩

/-! ## Numerals -/

theorem reading_toNat (l : List Char) :
    reading (l.map Char.toNat) = Nat.ofDigitChars 10 l 0 := by
  induction l with
  | nil => rfl
  | cons c rest ih =>
    rw [List.map_cons, reading_cons, ih, Decimal.value_cons, List.length_map, Nat.mul_comm]
    rfl

/-- The code units of the digits of a number. -/
def digitUnits (n : Nat) : List Nat := (Decimal.digits n).map Char.toNat

theorem isDigit_of_mem_digitUnits {n unit : Nat} (member : unit ∈ digitUnits n) : IsDigit unit := by
  obtain ⟨c, inside, rfl⟩ := List.mem_map.mp member
  exact Char.isDigit_iff_toNat.mp (Decimal.isDigit_of_mem_digits inside)

theorem reading_digitUnits (n : Nat) : reading (digitUnits n) = n := by
  unfold digitUnits
  rw [reading_toNat]
  exact Nat.ofDigitChars_ten_toDigits

theorem length_digitUnits (n : Nat) : (digitUnits n).length = Decimal.width n := by
  unfold digitUnits Decimal.width
  rw [List.length_map]

theorem unichars_integer (t : ℤ) : unichars (DecimalText.integer t) =
    if t < 0 then 45 :: digitUnits t.natAbs else digitUnits t.natAbs := by
  have ascii : ∀ n, ∀ c ∈ Decimal.digits n, c.toNat < 128 := by
    intro n c member
    have digit := isDigit_of_mem_digitUnits (List.mem_map_of_mem (f := Char.toNat) member)
    unfold IsDigit at digit
    omega
  cases t with
  | ofNat n =>
    have text : (DecimalText.integer (Int.ofNat n)).toList = Decimal.digits n :=
      Decimal.toList_numeral n
    have natural : ¬ Int.ofNat n < 0 := Int.not_lt.mpr (Int.natCast_nonneg n)
    rw [if_neg natural, unichars_ascii, text]
    · rfl
    · rw [text]
      exact ascii n
  | negSucc n =>
    have text : (DecimalText.integer (Int.negSucc n)).toList = '-' :: Decimal.digits (n + 1) := by
      have written : DecimalText.integer (Int.negSucc n) = "-" ++ Decimal.numeral (n + 1) := rfl
      rw [written, String.toList_append, Decimal.toList_numeral]
      rfl
    rw [if_pos (by omega), unichars_ascii, text]
    · rfl
    · rw [text]
      exact List.forall_mem_cons.mpr ⟨by decide, ascii (n + 1)⟩

/-- The text of a number of 32 bits parses as that number. -/
theorem tryParseStringToInt_integer {t : ℤ} (low : INTEGER_32_MIN ≤ t) (high : t ≤ INTEGER_32_MAX) :
    tryParseStringToInt (DecimalText.integer t) = some t := by
  have digits : ∀ unit ∈ digitUnits t.natAbs, IsDigit unit := fun _ => isDigit_of_mem_digitUnits
  have width : Decimal.width t.natAbs ≤ 10 := by
    unfold INTEGER_32_MIN at low
    unfold INTEGER_32_MAX at high
    exact (Decimal.width_le_iff (by omega)).mpr (by omega)
  have length := length_digitUnits t.natAbs
  have nonempty : digitUnits t.natAbs ≠ [] := by
    have := Decimal.width_pos t.natAbs
    exact List.length_pos_iff.mp (by omega)
  unfold tryParseStringToInt
  rw [unichars_integer, tryParseUnits_eq_some_iff]
  split
  · next below =>
    have spells := Spells.negative _ nonempty digits
    rw [reading_digitUnits, show -(t.natAbs : ℤ) = t by omega] at spells
    exact ⟨spells, by rw [List.length_cons]; omega, low, high⟩
  · have spells := Spells.positive _ nonempty digits
    rw [reading_digitUnits, show (t.natAbs : ℤ) = t by omega] at spells
    exact ⟨spells, by omega, low, high⟩

/-- Numerals compare as numbers. -/
theorem compareKey_integers {m n : ℤ} (lowLeft : INTEGER_32_MIN ≤ m) (highLeft : m ≤ INTEGER_32_MAX)
    (lowRight : INTEGER_32_MIN ≤ n) (highRight : n ≤ INTEGER_32_MAX) :
    compareKey (.key (DecimalText.integer m)) (.key (DecimalText.integer n)) = compare m n := by
  have left := tryParseStringToInt_integer lowLeft highLeft
  have right := tryParseStringToInt_integer lowRight highRight
  by_cases same : m = n
  · have self : compare m n = .eq := compare_eq_iff_eq.mpr same
    rw [self, same]
    exact Std.ReflCmp.compare_self
  · unfold compareKey
    simp only [left, right, branch_then]
    rcases lt_or_gt_of_ne same with less | more
    · rw [compare_lt_iff_lt.mpr less]
      rfl
    · rw [compare_gt_iff_gt.mpr more]
      rfl

/-- Children names form a total preorder between the two sentinels. Different
keys tie only as a negative zero and the zeros of its length; 32-bit numerals
stand in numerical order. -/
theorem child_names_ordered :
    (∀ a b, compareKey a b = (compareKey b a).swap) ∧
    (∀ a b c, (compareKey a b).isLE → (compareKey b c).isLE → (compareKey a c).isLE) ∧
    (∀ a, compareKey .minName (.key a) = .lt ∧ compareKey (.key a) .maxName = .lt) ∧
    (∀ a b, compareKey (.key a) (.key b) = .eq ↔ a = b ∨ ∃ k, 0 < k ∧ k ≤ 10 ∧
      ((a = zeros (k + 1) ∧ b = negativeZeros k) ∨
        (a = negativeZeros k ∧ b = zeros (k + 1)))) ∧
    (∀ m n, INTEGER_32_MIN ≤ m → m ≤ INTEGER_32_MAX → INTEGER_32_MIN ≤ n → n ≤ INTEGER_32_MAX →
      compareKey (.key (DecimalText.integer m)) (.key (DecimalText.integer n)) = compare m n) :=
  ⟨fun _ _ => Std.OrientedCmp.eq_swap, fun _ _ _ => Std.TransCmp.isLE_trans,
    fun _ => ⟨rfl, rfl⟩, compareKey_eq_iff, fun _ _ => compareKey_integers⟩

theorem nine_before_ten :
    compareKey (.key (DecimalText.integer 9)) (.key (DecimalText.integer 10)) = compare (9 : ℤ) 10 :=
  child_names_ordered.2.2.2.2 9 10 (by decide) (by decide) (by decide) (by decide)

/-! ## A dictionary of children -/

/-- A key on which the comparator is exact: no negative zero. -/
structure ChildKey where
  string : String
  noNegativeZero : ∀ k, 0 < k → k ≤ 10 → string ≠ negativeZeros k

theorem ChildKey.string_injective : Function.Injective ChildKey.string := by
  rintro ⟨a, _⟩ ⟨b, _⟩ rfl
  rfl

instance : LinearOrder ChildKey := LinearOrder.lift' ChildKey.string ChildKey.string_injective

/-- `keyComparator` between children. -/
def childComparator (a b : ChildKey) : Ordering := compareKey (.key a.string) (.key b.string)

instance : Std.TransCmp childComparator where
  eq_swap {a b} := by
    unfold childComparator
    exact Std.OrientedCmp.eq_swap
  isLE_trans {a b c} first second := by
    unfold childComparator at first second ⊢
    exact Std.TransCmp.isLE_trans first second

instance : Std.LawfulEqCmp childComparator where
  compare_self {a} := by
    unfold childComparator
    exact Std.ReflCmp.compare_self
  eq_of_compare {a b} same := by
    unfold childComparator at same
    rcases (compareKey_eq_iff _ _).mp same with equal | ⟨k, positive, short, tie⟩
    · exact ChildKey.string_injective equal
    · rcases tie with ⟨_, negative⟩ | ⟨negative, _⟩
      · exact absurd negative (b.noNegativeZero k positive short)
      · exact absurd negative (a.noNegativeZero k positive short)

/-- A list whose members with `p` never stand behind a member without it. -/
theorem filter_append_filter {A : Type} {p : A → Bool} {l : List A}
    (grouped : l.Pairwise fun a b => p b = true → p a = true) :
    l.filter p ++ l.filter (fun a => !p a) = l := by
  induction l with
  | nil => rfl
  | cons a rest ih =>
    obtain ⟨first, others⟩ := List.pairwise_cons.mp grouped
    cases holds : p a with
    | true => simp [holds, ih others]
    | false =>
      have none : ∀ b ∈ rest, p b = false := by
        intro b member
        cases other : p b with
        | false => rfl
        | true => simp [first b member other] at holds
      have noneKept : rest.filter p = [] := by simpa [List.filter_eq_nil_iff] using none
      have allKept : rest.filter (fun b => !p b) = rest := by
        simpa [List.filter_eq_self] using none
      simp [holds, noneKept, allKept]

def isIntegerKey (k : ChildKey) : Bool := (tryParseStringToInt k.string).isSome

/-- Integer keys before the others. -/
theorem integer_before {a b : ChildKey} (less : childComparator a b = .lt)
    (integer : isIntegerKey b = true) : isIntegerKey a = true := by
  unfold childComparator compareKey at less
  unfold isIntegerKey at integer ⊢
  cases left : tryParseStringToInt a.string with
  | some _ => rfl
  | none =>
    cases right : tryParseStringToInt b.string with
    | some _ => simp [left, right] at less
    | none => simp [right] at integer

/-- The smaller number, or the same number with fewer leading zeros. -/
def NumberBefore (a b : ChildKey) : Prop :=
  ∃ v w, tryParseStringToInt a.string = some v ∧ tryParseStringToInt b.string = some w ∧
    (v < w ∨ (v = w ∧ (unichars a.string).length < (unichars b.string).length))

/-- Neither is an integer key; the code units decide. -/
def TextBefore (a b : ChildKey) : Prop :=
  tryParseStringToInt a.string = none ∧ tryParseStringToInt b.string = none ∧
    literalCompare a.string b.string = .lt

theorem number_before {a b : ChildKey} (less : childComparator a b = .lt)
    (integer : isIntegerKey b = true) : NumberBefore a b := by
  have integer' := integer_before less integer
  obtain ⟨v, left⟩ := Option.isSome_iff_exists.mp integer'
  obtain ⟨w, right⟩ := Option.isSome_iff_exists.mp integer
  refine ⟨v, w, left, right, ?_⟩
  unfold childComparator compareKey at less
  simp only [left, right, branch_then] at less
  rcases Ordering.then_eq_lt.mp less with first | ⟨same, second⟩
  · exact .inl (compare_lt_iff_lt.mp first)
  · rw [Ordering.then_eq_lt] at second
    refine .inr ⟨compare_eq_iff_eq.mp same, compare_lt_iff_lt.mp ?_⟩
    simpa using second

theorem text_before {a b : ChildKey} (less : childComparator a b = .lt)
    (text : isIntegerKey a = false) : TextBefore a b := by
  have text' : isIntegerKey b = false := by
    cases integer : isIntegerKey b with
    | false => rfl
    | true => rw [integer_before less integer] at text; exact text
  have left := Option.isNone_iff_eq_none.mp (by simpa [isIntegerKey] using text)
  have right := Option.isNone_iff_eq_none.mp (by simpa [isIntegerKey] using text')
  refine ⟨left, right, ?_⟩
  unfold childComparator compareKey at less
  simpa [left, right] using less

universe u

variable {V : Type u}

/-- After any run over children without negative zeros, from a start whose count
does not wrap, the enumeration hands out the integer keys in numerical order and
then the other keys in the order of their code units, each key that holds a child
once. -/
theorem children_listed_in_key_order (E : Enumeration ChildKey V) (start : Dictionary ChildKey V)
    (writes : List (SortedListing.Write ChildKey V)) (fits : start.keys.card + 1 < 2 ^ 32) :
    ∃ d integers texts, runDictionary childComparator E start writes = .ok d ∧
      Yields KeyEnumerator.nextObject d.keyEnumerator (integers ++ texts) ∧
      integers.Pairwise NumberBefore ∧ texts.Pairwise TextBefore ∧
      (∀ k ∈ integers, ∀ j ∈ texts, childComparator k j = .lt) ∧
      (integers ++ texts).Nodup ∧
      ∀ k, k ∈ integers ++ texts ↔ (runReads start writes k).isSome := by
  obtain ⟨d, l, run, _, ascending, represents, members⟩ :=
    runDictionary_represents childComparator E start writes fits
  have ordered : (SortedListing.keys l).Pairwise fun a b => childComparator a b = .lt :=
    List.pairwise_map.mpr ascending
  have split := filter_append_filter (p := isIntegerKey)
    (ordered.imp fun {a b} less integer => integer_before less integer)
  have sorted := ordered
  rw [← split, List.pairwise_append] at sorted
  refine ⟨d, (SortedListing.keys l).filter isIntegerKey,
    (SortedListing.keys l).filter (fun k => !isIntegerKey k), run, ?_, ?_, ?_, sorted.2.2, ?_, ?_⟩
  · rw [split]
    exact represents.keyEnumerator
  · refine List.Pairwise.imp_of_mem (fun {a b} _ inside less => ?_) sorted.1
    exact number_before less (List.mem_filter.mp inside).2
  · refine List.Pairwise.imp_of_mem (fun {a b} inside _ less => ?_) sorted.2.1
    exact text_before less (by simpa using (List.mem_filter.mp inside).2)
  · rw [split]
    exact SortedListing.nodup_keys ascending
  · intro k
    rw [split, Option.isSome_iff_exists]
    unfold SortedListing.keys
    simp [← members]

/-- The key of a child in an array. -/
def arrayKey (n : Nat) : ChildKey where
  string := Decimal.numeral n
  noNegativeZero := by
    intro k _ _ same
    have sign : '-' ∈ (Decimal.numeral n).toList := by
      rw [same, negativeZeros, String.toList_ofList]
      exact List.mem_cons_self
    rw [Decimal.toList_numeral] at sign
    exact absurd (Decimal.isDigit_of_mem_digits sign) (by decide)

theorem noNegativeZero_of_head {string : String} {c : Char} {rest : List Char}
    (chars : string.toList = c :: rest) (noSign : c ≠ '-') (k : Nat) (_ : 0 < k) (_ : k ≤ 10) :
    string ≠ negativeZeros k := by
  rintro rfl
  rw [negativeZeros, String.toList_ofList] at chars
  exact noSign (List.cons.inj chars).1.symm

/-- A text key, and a number with a leading zero. -/
def saltKey : ChildKey := ⟨"sal", noNegativeZero_of_head rfl (by decide)⟩
def paddedKey : ChildKey := ⟨"09", noNegativeZero_of_head rfl (by decide)⟩

/-- Texts and numbers mixed, one of them padded, one written twice, one removed. -/
def mixedWrites : List (SortedListing.Write ChildKey Bool) :=
  [.insert saltKey true, .insert (arrayKey 10) true, .insert paddedKey true, .insert (arrayKey 9) false,
    .insert (arrayKey 2) true, .insert (arrayKey 10) false, .remove (arrayKey 2)]

theorem children_listed_in_key_order_array :
    ∃ d integers texts, runDictionary childComparator Enumeration.ascending Dictionary.empty
        mixedWrites = .ok d ∧
      Yields KeyEnumerator.nextObject d.keyEnumerator (integers ++ texts) ∧
      integers.Pairwise NumberBefore ∧ texts.Pairwise TextBefore ∧
      (∀ k ∈ integers, ∀ j ∈ texts, childComparator k j = .lt) ∧
      (integers ++ texts).Nodup ∧
      ∀ k, k ∈ integers ++ texts ↔ (runReads Dictionary.empty mixedWrites k).isSome :=
  children_listed_in_key_order Enumeration.ascending Dictionary.empty _ (by decide)

/-- A padded number stands behind the same number, and before the next one. -/
example : childComparator (arrayKey 9) paddedKey = .lt ∧
    childComparator paddedKey (arrayKey 10) = .lt ∧ childComparator (arrayKey 10) saltKey = .lt := by
  decide

end WatchAndSee.Guarantees
