import WatchAndSee.Guarantees.TreeBalance
import WatchAndSee.Guarantees.TreeContents

/-!
# The tree builder

`rootFrom12List:` reads the digits of the count in base {1, 2}: a digit at
position `j` takes that many chunks of `2 ^ j` keys from the end of what is left
of the sorted keys. Each chunk is a node over a perfect tree, so the tree that
hangs to its left has black depth `j` as well; the second chunk of a digit 2 is
red and leaves the black depth alone.
-/

set_option autoImplicit false

namespace WatchAndSee.Guarantees
open Library
open Library.SortedListing
open Source
open Source.FTreeSortedDictionary

universe u v

variable {K : Type u} {V : Type v}

/-- The entries from `start` on, `length` of them. -/
def slice (entries : List (K × V)) (start length : Nat) : List (K × V) :=
  (entries.drop start).take length

theorem slice_split (entries : List (K × V)) (start before after : Nat) (e : K × V)
    (middle : entries[start + before]? = some e) :
    slice entries start before ++ e :: slice entries (start + before + 1) after =
      slice entries start (before + 1 + after) := by
  have rest : entries.drop (start + before) = e :: entries.drop (start + before + 1) :=
    List.drop_eq_getElem?_toList_append.trans (by rw [middle]; rfl)
  unfold slice
  rw [show before + 1 + after = before + (after + 1) by omega, List.take_add, List.drop_drop, rest,
    List.take_succ_cons]

theorem take_append_slice (entries : List (K × V)) (start length : Nat) :
    entries.take start ++ slice entries start length = entries.take (start + length) := by
  rw [slice, List.take_add]

theorem entryAt_of_lt (entries : List (K × V)) {index : Nat} (inside : index < entries.length) :
    ∃ e, entries[index]? = some e ∧ entryAt entries index = .ok e := by
  refine ⟨entries[index], List.getElem?_eq_getElem inside, ?_⟩
  rw [entryAt, List.getElem?_eq_getElem inside]

/-! ## Perfect trees -/

theorem buildBalancedTree_perfect (entries : List (K × V)) (depth start : Nat)
    (inside : start + (2 ^ depth - 1) ≤ entries.length) :
    ∃ t, buildBalancedTree entries start (2 ^ depth - 1) = .ok t ∧ Balanced t depth ∧
      t.isRed = false ∧ t.entries = slice entries start (2 ^ depth - 1) := by
  induction depth generalizing start with
  | zero =>
    refine ⟨.empty, ?_, .empty, rfl, by simp [slice, FLLRBNode.entries]⟩
    rw [buildBalancedTree]
    simp
  | succ depth ih =>
    have size : 2 ^ (depth + 1) - 1 = (2 ^ depth - 1) + 1 + (2 ^ depth - 1) := by
      have := Nat.two_pow_pos depth
      rw [Nat.pow_succ]
      omega
    rw [size] at inside ⊢
    generalize half : 2 ^ depth - 1 = middle at inside ih ⊢
    have bounded : (if start ≤ entries.length then
        min (entries.length - start) (middle + 1 + middle) else middle + 1 + middle) =
        middle + 1 + middle := by
      rw [if_pos (by omega)]
      omega
    obtain ⟨left, leftBuilt, leftBalanced, leftBlack, leftEntries⟩ := ih start (by omega)
    obtain ⟨right, rightBuilt, rightBalanced, rightBlack, rightEntries⟩ :=
      ih (start + middle + 1) (by omega)
    obtain ⟨e, found, read⟩ := entryAt_of_lt entries (show start + middle < entries.length by omega)
    refine ⟨.node e.1 e.2 .black left right, ?_, .black leftBalanced rightBalanced rightBlack, rfl, ?_⟩
    · rw [buildBalancedTree]
      simp only [bounded]
      rw [if_neg (by omega)]
      by_cases single : middle + 1 + middle = 1
      · have none : middle = 0 := by omega
        subst none
        have childless : depth = 0 := by
          by_contra positive
          have := Nat.one_lt_two_pow positive
          omega
        subst childless
        obtain rfl := leftBalanced.of_zero leftBlack
        obtain rfl := rightBalanced.of_zero rightBlack
        rw [if_pos single, ← Nat.add_zero start, read]
        rfl
      · rw [if_neg single, show (middle + 1 + middle) / 2 = middle by omega, leftBuilt, rightBuilt,
          read]
        rfl
    · rw [FLLRBNode.entries, leftEntries, rightEntries]
      exact slice_split entries start middle middle e found

/-! ## Pennants -/

theorem buildPennant_chunk (entries : List (K × V)) (color : FLLRBColor) (depth index : Nat)
    (inside : index + 2 ^ depth ≤ entries.length) :
    ∃ pennant, buildPennant entries color (2 ^ depth) (index + 2 ^ depth) = .ok (pennant, index) ∧
      pennant.color = color ∧ Balanced pennant.childTree depth ∧ pennant.childTree.isRed = false ∧
      pennant.entry :: pennant.childTree.entries = slice entries index (2 ^ depth) := by
  have positive := Nat.two_pow_pos depth
  obtain ⟨child, built, balanced, black, childEntries⟩ :=
    buildBalancedTree_perfect entries depth (index + 1) (by omega)
  obtain ⟨e, found, read⟩ := entryAt_of_lt entries (show index < entries.length by omega)
  refine ⟨⟨e, color, child⟩, ?_, rfl, balanced, black, ?_⟩
  · have start : index + 2 ^ depth - 2 ^ depth = index := by omega
    have notBelow : ¬ index + 2 ^ depth < 2 ^ depth := by omega
    simp only [buildPennant, start, notBelow, if_false, read, built, bind, Except.bind, pure,
      Except.pure]
  · have whole := slice_split entries index 0 (2 ^ depth - 1) e found
    rw [childEntries, show 2 ^ depth = 0 + 1 + (2 ^ depth - 1) by omega, ← whole]
    simp [slice]

/-- The keys that the last `remaining` digits take. -/
def keysLeft (bits remaining : Nat) : Nat := 2 ^ remaining - 1 + bits % 2 ^ remaining

theorem keysLeft_succ (bits remaining : Nat) :
    keysLeft bits (remaining + 1) =
      keysLeft bits remaining + 2 ^ remaining +
        (if bits.testBit remaining then 2 ^ remaining else 0) := by
  have positive := Nat.two_pow_pos remaining
  unfold keysLeft
  rw [Nat.mod_pow_succ, Nat.testBit_eq_decide_div_mod_eq, Nat.pow_succ]
  have digit : bits / 2 ^ remaining % 2 = 0 ∨ bits / 2 ^ remaining % 2 = 1 := by omega
  rcases digit with zero | one
  · simp [zero]
    omega
  · simp [one]
    omega

theorem pennants_chunks (entries : List (K × V)) (remaining : Nat) (list : Base1_2List)
    (short : remaining < 65536) (current : remaining ≠ 0 → list.current + 1 = remaining)
    (inside : keysLeft list.bits remaining ≤ entries.length) :
    ∃ built, pennants entries remaining list (keysLeft list.bits remaining) = .ok built ∧
      Balanced (attachPennants built) remaining ∧ (attachPennants built).isRed = false ∧
      (attachPennants built).entries = entries.take (keysLeft list.bits remaining) := by
  induction remaining generalizing list with
  | zero => exact ⟨[], rfl, .empty, rfl, by simp [keysLeft, attachPennants, FLLRBNode.entries, Nat.mod_one]⟩
  | succ remaining ih =>
    have position : list.current = remaining := by
      have := current (by omega)
      omega
    have digits := keysLeft_succ list.bits remaining
    rw [digits] at inside
    have rest : keysLeft list.bits remaining ≤ entries.length :=
      (Nat.le_add_right _ _).trans ((Nat.le_add_right _ _).trans inside)
    obtain ⟨later, laterBuilt, laterBalanced, laterBlack, laterEntries⟩ :=
      ih { list with current := (list.current + 65535) % 65536 } (by omega)
        (fun positive => by simp only [position]; omega) rest
    simp only at laterBuilt laterEntries
    cases digit : list.bits.testBit remaining with
    | false =>
      rw [digit] at digits inside
      simp only [Bool.false_eq_true, if_false, Nat.add_zero] at digits inside
      obtain ⟨black, blackBuilt, blackColor, childBalanced, childBlack, blackEntries⟩ :=
        buildPennant_chunk entries .black remaining (keysLeft list.bits remaining) (by omega)
      refine ⟨black :: later, ?_, ?_, ?_, ?_⟩
      · simp only [pennants, base1_2List_next, position, digit, Bool.not_false, if_true, digits,
          blackBuilt, bind, Except.bind]
        simp only [position] at laterBuilt
        rw [laterBuilt]
        rfl
      · rw [attachPennants, blackColor]
        exact .black laterBalanced childBalanced childBlack
      · rw [attachPennants, blackColor]
        rfl
      · rw [attachPennants, FLLRBNode.entries, laterEntries, digits, ← take_append_slice,
          ← blackEntries]
    | true =>
      rw [digit] at digits inside
      simp only [if_true] at digits inside
      obtain ⟨red, redBuilt, redColor, redBalanced, redBlack, redEntries⟩ :=
        buildPennant_chunk entries .red remaining (keysLeft list.bits remaining) (by omega)
      obtain ⟨black, blackBuilt, blackColor, childBalanced, childBlack, blackEntries⟩ :=
        buildPennant_chunk entries .black remaining (keysLeft list.bits remaining + 2 ^ remaining)
          (by omega)
      refine ⟨black :: red :: later, ?_, ?_, ?_, ?_⟩
      · simp only [pennants, base1_2List_next, position, digit, Bool.not_true, Bool.false_eq_true,
          if_false, digits, blackBuilt, redBuilt, bind, Except.bind]
        simp only [position] at laterBuilt
        rw [laterBuilt]
        rfl
      · rw [attachPennants, attachPennants, blackColor, redColor]
        exact .black (.red laterBalanced redBalanced laterBlack redBlack) childBalanced childBlack
      · rw [attachPennants, blackColor]
        rfl
      · rw [attachPennants, attachPennants, FLLRBNode.entries, FLLRBNode.entries, laterEntries,
          digits, ← take_append_slice, ← take_append_slice, ← redEntries, ← blackEntries]

/-- The digits of a count that does not wrap. -/
theorem base1_2List_new_eq {length : Nat} (fits : length + 1 < 2 ^ 32) :
    base1_2List_new length =
      { bits := (length + 1) % 2 ^ (length + 1).log2
        count := (length + 1).log2
        current := ((length + 1).log2 + 65535) % 65536 } := by
  have small : (length + 1).log2 < 32 := (Nat.log2_lt (by omega)).mpr fits
  have mask : bit_mask (length + 1).log2 = 2 ^ (length + 1).log2 - 1 := if_neg (by omega)
  unfold base1_2List_new
  simp only [Nat.mod_eq_of_lt fits, log_base2, mask, Nat.and_two_pow_sub_one_eq_mod]

/-- The base {1, 2} number of `length` stands for all keys. -/
theorem keysLeft_new {length : Nat} (fits : length + 1 < 2 ^ 32) :
    keysLeft (base1_2List_new length).bits (base1_2List_new length).count = length := by
  have nonzero : length + 1 ≠ 0 := by omega
  have lower := Nat.log2_self_le nonzero
  have upper := Nat.lt_log2_self (n := length + 1)
  rw [Nat.pow_succ] at upper
  have remainder : (length + 1) % 2 ^ (length + 1).log2 = length + 1 - 2 ^ (length + 1).log2 := by
    rw [Nat.mod_eq_sub_mod lower, Nat.mod_eq_of_lt (by omega)]
  rw [base1_2List_new_eq fits]
  simp only [keysLeft, Nat.mod_mod]
  rw [remainder]
  omega

/-- The builder on any sorted listing whose count fits: no index is out of
bounds, the tree is balanced and black, and it holds the listing. -/
theorem rootFrom12List_balanced (entries : List (K × V)) (fits : entries.length + 1 < 2 ^ 32) :
    ∃ root, rootFrom12List (base1_2List_new entries.length) entries = .ok root ∧
      Balanced root (entries.length + 1).log2 ∧ root.isRed = false ∧
      root.entries = entries := by
  have whole := keysLeft_new fits
  have small : (entries.length + 1).log2 < 32 := (Nat.log2_lt (by omega)).mpr fits
  have digits := base1_2List_new_eq fits
  have count : (base1_2List_new entries.length).count = (entries.length + 1).log2 := by rw [digits]
  have current : (base1_2List_new entries.length).current =
      ((entries.length + 1).log2 + 65535) % 65536 := by rw [digits]
  obtain ⟨built, result, balanced, black, contents⟩ :=
    pennants_chunks entries (base1_2List_new entries.length).count (base1_2List_new entries.length)
      (by omega) (fun positive => by omega) (by rw [whole])
  refine ⟨attachPennants built, ?_, count ▸ balanced, black, ?_⟩
  · rw [whole] at result
    rw [rootFrom12List, result]
    rfl
  · rw [contents, whole, List.take_length]

end WatchAndSee.Guarantees
