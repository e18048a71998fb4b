import WatchAndSee.Library.Decimal
import WatchAndSee.Source.SwiftValues

/-!
# Snapshot/FChildrenNode.m: `valForExport:NO`

How the database library turns a node into the value that a `DataSnapshot`
hands out. Children are enumerated in some order of their keys; the result does
not depend on it. A node key is never empty, so taking its first character does
not fail. Priorities appear only in `valForExport:YES` and are left out, and
the key counts stay far below the range of the library's integers.
-/

set_option autoImplicit false

namespace WatchAndSee.Source
open Library
open Library.Decimal (numeral)

/-- `FLeafNode` and `FChildrenNode`. -/
inductive FNode where
  | leaf (value : AnyValue)
  | children (entries : Dictionary String FNode)

/-- `+ intForString:` — digits only, at least one; decimal digits outside ASCII are
left out. The scanner saturates beyond `NSInteger`, which is above twice any number
of keys like the numeral itself. -/
def intForString (string : String) : Option Nat :=
  if string.toList ≠ [] ∧ string.toList.all Char.isDigit then
    some (Nat.ofDigitChars 10 string.toList 0)
  else none

/-- The block variables of the enumeration. -/
structure KeyScan where
  numKeys : Nat
  maxKey : Nat
  allIntegerKeys : Bool
  deriving DecidableEq, Repr

def scanKey (scan : KeyScan) (key : String) : KeyScan :=
  let scan := { scan with numKeys := scan.numKeys + 1 }
  if !scan.allIntegerKeys then scan
  -- leading zeroes that are not exactly "0" make the key a string
  else if key.toList.head? = some '0' ∧ key.toList.length > 1 then
    { scan with allIntegerKeys := false }
  else
    match intForString key with
    | some keyAsInt => if keyAsInt > scan.maxKey then { scan with maxKey := keyAsInt } else scan
    | none => { scan with allIntegerKeys := false }

def scanKeys (keys : List String) : KeyScan := keys.foldl scanKey ⟨0, 0, true⟩

/-- The end of `valForExport:NO`, once every child is exported into `obj`. -/
def exportChildren (E : Enumeration String AnyValue) (obj : AnyDictionary) : AnyValue :=
  if obj.keys = ∅ then .null
  else
    let scan := scanKeys ((E.order obj).map Prod.fst)
    if scan.allIntegerKeys ∧ scan.maxKey < 2 * scan.numKeys then
      .array ((List.range (scan.maxKey + 1)).map fun i => (obj.get? (numeral i)).getD .null)
    else .dictionary obj

/-- `- valForExport:NO`, which is `- val`. -/
def valForExport (E : Enumeration String AnyValue) : FNode → AnyValue
  | .leaf value => value
  | .children ⟨keys, value⟩ => exportChildren E ⟨keys, fun k => valForExport E (value k)⟩

theorem valForExport_children (E : Enumeration String AnyValue) (entries : Dictionary String FNode) :
    valForExport E (.children entries) = exportChildren E (entries.mapValues (valForExport E)) := by
  rw [valForExport]
  rfl

/-! ## When a node becomes an array -/

/-- A key that counts as an integer: a numeral. -/
def IsNumeral (key : String) : Prop := ∃ n, key = numeral n

theorem intForString_numeral (n : Nat) : intForString (numeral n) = some n := by
  have allDigits : (numeral n).toList.all Char.isDigit = true := by
    rw [List.all_eq_true, Decimal.toList_numeral]
    exact fun _ => Decimal.isDigit_of_mem_digits
  rw [intForString, if_pos ⟨by simp, allDigits⟩, Decimal.toList_numeral,
    Nat.ofDigitChars_ten_toDigits]

theorem intForString_isSome_iff (key : String) :
    (intForString key).isSome ↔ key.toList ≠ [] ∧ ∀ c ∈ key.toList, c.isDigit = true := by
  unfold intForString
  split
  · next digits => simpa [List.all_eq_true] using digits
  · next notDigits =>
    simp only [Option.isSome_none, Bool.false_eq_true, false_iff]
    simpa [List.all_eq_true] using notDigits

/-- One key of the scan while all keys so far were integers. -/
theorem scanKey_numeral (numKeys maxKey n : Nat) :
    scanKey ⟨numKeys, maxKey, true⟩ (numeral n) = ⟨numKeys + 1, max maxKey n, true⟩ := by
  have single := ((Decimal.eq_numeral_iff (numeral n)).mp ⟨n, rfl⟩).2.2
  have noLeadingZero :
      ¬ ((numeral n).toList.head? = some '0' ∧ (numeral n).toList.length > 1) := by
    intro given
    obtain ⟨zero, longer⟩ := given
    have := single zero
    omega
  simp only [scanKey, Bool.not_true, Bool.false_eq_true, if_false, if_neg noLeadingZero,
    intForString_numeral]
  by_cases larger : n > maxKey
  · rw [if_pos larger, Nat.max_eq_right (Nat.le_of_lt larger)]
  · rw [if_neg larger, Nat.max_eq_left (Nat.le_of_not_lt larger)]

theorem scanKey_not_numeral (numKeys maxKey : Nat) (key : String) (other : ¬ IsNumeral key) :
    scanKey ⟨numKeys, maxKey, true⟩ key = ⟨numKeys + 1, maxKey, false⟩ := by
  unfold scanKey
  simp only [Bool.not_true, Bool.false_eq_true, if_false]
  split
  · rfl
  · next noLeadingZero =>
    cases parsed : intForString key with
    | none => rfl
    | some n =>
      have digits := (intForString_isSome_iff key).mp (by simp [parsed])
      refine absurd ((Decimal.eq_numeral_iff key).mpr ⟨digits.1, digits.2, ?_⟩) other
      intro zero
      have positive := List.length_pos_iff.mpr digits.1
      by_contra longer
      exact noLeadingZero ⟨zero, by omega⟩

theorem scan_after_string_key (keys : List String) (scan : KeyScan)
    (found : scan.allIntegerKeys = false) : (keys.foldl scanKey scan).allIntegerKeys = false := by
  induction keys generalizing scan with
  | nil => exact found
  | cons key rest ih => exact ih _ (by simp [scanKey, found])

/-- The scan over integer keys counts them and finds the largest. -/
theorem scan_numerals (numbers : List Nat) (numKeys maxKey : Nat) :
    (numbers.map numeral).foldl scanKey ⟨numKeys, maxKey, true⟩ =
      ⟨numKeys + numbers.length, numbers.foldl max maxKey, true⟩ := by
  induction numbers generalizing numKeys maxKey with
  | nil => rfl
  | cons n rest ih =>
    rw [List.map_cons, List.foldl_cons, scanKey_numeral, ih, List.length_cons, List.foldl_cons]
    congr 1
    omega

theorem scan_with_string_key (keys : List String) (numKeys maxKey : Nat)
    (stringKey : ∃ key ∈ keys, ¬ IsNumeral key) :
    (keys.foldl scanKey ⟨numKeys, maxKey, true⟩).allIntegerKeys = false := by
  induction keys generalizing numKeys maxKey with
  | nil => simp at stringKey
  | cons key rest ih =>
    rw [List.foldl_cons]
    by_cases integer : IsNumeral key
    · obtain ⟨n, rfl⟩ := integer
      rw [scanKey_numeral]
      apply ih
      obtain ⟨other, member, notNumeral⟩ := stringKey
      rcases List.mem_cons.mp member with rfl | tail
      · exact absurd ⟨n, rfl⟩ notNumeral
      · exact ⟨other, tail, notNumeral⟩
    · rw [scanKey_not_numeral _ _ _ integer]
      exact scan_after_string_key rest _ rfl

theorem foldl_max_lt_iff (numbers : List Nat) (start bound : Nat) :
    numbers.foldl max start < bound ↔ start < bound ∧ ∀ n ∈ numbers, n < bound := by
  induction numbers generalizing start with
  | nil => simp
  | cons n rest ih =>
    rw [List.foldl_cons, ih, List.forall_mem_cons, Nat.max_lt, and_assoc]

/-- Key sets that export as an array: numerals only, all of them below twice
the number of keys. -/
def ExportsAsArray (keys : Finset String) : Prop :=
  (∀ key ∈ keys, IsNumeral key) ∧ ∀ n, numeral n ∈ keys → n < 2 * keys.card

theorem numerals_of_keys (keys : List String) (integer : ∀ key ∈ keys, IsNumeral key) :
    ∃ numbers : List Nat, keys = numbers.map numeral := by
  induction keys with
  | nil => exact ⟨[], rfl⟩
  | cons key rest ih =>
    obtain ⟨n, rfl⟩ := integer key (by simp)
    obtain ⟨numbers, rfl⟩ := ih (fun other member => integer other (by simp [member]))
    exact ⟨n :: numbers, rfl⟩

/-- With integer keys only, the largest of them decides. -/
theorem exportsAsArray_iff (keys : Finset String) (numbers : List Nat)
    (same : ∀ key, key ∈ keys ↔ key ∈ numbers.map numeral) :
    ExportsAsArray keys ↔ ∀ n ∈ numbers, n < 2 * keys.card := by
  have listed (n : Nat) : numeral n ∈ keys ↔ n ∈ numbers := by
    rw [same, List.mem_map_of_injective fun _ _ equal => Decimal.numeral_injective equal]
  have integer : ∀ key ∈ keys, IsNumeral key := by
    intro key member
    obtain ⟨n, _, equal⟩ := List.mem_map.mp ((same key).mp member)
    exact ⟨n, equal.symm⟩
  unfold ExportsAsArray
  simp only [listed]
  exact and_iff_right integer

/-- The branch of `valForExport:NO`, whatever the order of enumeration. -/
theorem scan_decides (E : Enumeration String AnyValue) (obj : AnyDictionary)
    (nonempty : obj.keys ≠ ∅) :
    ((scanKeys ((E.order obj).map Prod.fst)).allIntegerKeys ∧
      (scanKeys ((E.order obj).map Prod.fst)).maxKey <
        2 * (scanKeys ((E.order obj).map Prod.fst)).numKeys) ↔ ExportsAsArray obj.keys := by
  have listing := E.lists obj
  have listed := listing.key_mem_iff
  by_cases integer : ∀ key ∈ obj.keys, IsNumeral key
  · obtain ⟨numbers, same⟩ := numerals_of_keys _ (fun key member => integer key ((listed key).mp member))
    have count : numbers.length = obj.keys.card := by
      rw [← listing.length_eq, ← List.length_map Prod.fst, same, List.length_map]
    have positive : 0 < obj.keys.card := Finset.card_pos.mpr (Finset.nonempty_iff_ne_empty.mpr nonempty)
    have start : 0 < 2 * obj.keys.card := by omega
    rw [exportsAsArray_iff obj.keys numbers (fun key => by rw [← listed, same]), same, scanKeys,
      scan_numerals, foldl_max_lt_iff, count, Nat.zero_add]
    simp only [true_and, start]
  · have stringKey : ∃ key ∈ (E.order obj).map Prod.fst, ¬ IsNumeral key := by
      simpa [listed] using integer
    rw [scanKeys, scan_with_string_key _ _ _ stringKey]
    simp [ExportsAsArray, integer]

theorem export_dictionary (E : Enumeration String AnyValue) (obj : AnyDictionary)
    (nonempty : obj.keys ≠ ∅) (notArray : ¬ ExportsAsArray obj.keys) :
    exportChildren E obj = .dictionary obj := by
  unfold exportChildren
  simp only [if_neg nonempty, if_neg (mt (scan_decides E obj nonempty).mp notArray)]

theorem export_array (E : Enumeration String AnyValue) (obj : AnyDictionary)
    (nonempty : obj.keys ≠ ∅) (isArray : ExportsAsArray obj.keys) :
    ∃ elements, exportChildren E obj = .array elements := by
  unfold exportChildren
  simp only [if_neg nonempty, if_pos ((scan_decides E obj nonempty).mpr isArray)]
  exact ⟨_, rfl⟩

/-- One key that is not a numeral keeps a node a dictionary. -/
theorem not_exportsAsArray {keys : Finset String} {key : String} (member : key ∈ keys)
    (other : ¬ IsNumeral key) : ¬ ExportsAsArray keys :=
  fun array => other (array.1 key member)

end WatchAndSee.Source
