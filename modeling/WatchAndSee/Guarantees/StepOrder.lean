import Mathlib.Data.Set.Function
import WatchAndSee.Library.Decimal
import WatchAndSee.Guarantees.ParsedRecipe

/-!
# Numbered steps

`parseRecipe` announces "sort steps by numerical order" and sorts the keys of
'Passos' as strings. For keys made of a common label and the numeral of a
number, this module determines when the two orders give the same recipe
(`steps_in_numerical_order_iff`).
-/

set_option autoImplicit false

namespace WatchAndSee.Guarantees.StepOrder
open WatchAndSee.Library WatchAndSee.Source
open WatchAndSee.Library.Decimal (numeral)
open WatchAndSee.Guarantees.FeedSafety (dish)

/-- Each key of 'Passos' is the label and the numeral of one of the numbers,
and each value is a dictionary with a text. -/
structure NumberedSteps (stp : AnyDictionary) (label : String) (numbers : Finset Nat) : Prop where
  mem_keys_iff : ∀ k, k ∈ stp.keys ↔ ∃ n ∈ numbers, k = label ++ numeral n
  texts : ∀ k value, stp.get? k = some value →
    ∃ e text, value = .dictionary e ∧ e.get? "Texto" = some (.string text)

/-- The step that the record stores under a number. -/
def stepNumbered (stp : AnyDictionary) (label : String) (n : Nat) : Step :=
  ((stp.get? (label ++ numeral n)).bind stepOf).getD Step.new

/-- The steps come out in increasing order of their numbers. -/
def InNumericalOrder (stp : AnyDictionary) (label : String) (numbers : Finset Nat)
    (steps : List Step) : Prop :=
  steps = (ascendingList numbers).map (stepNumbered stp label)

/-- No number exceeds the leading digits, as many as it has, of a larger one. -/
def NumeralsAgree (numbers : Finset Nat) : Prop :=
  ∀ m ∈ numbers, ∀ n ∈ numbers, m < n → m ≤ n / 10 ^ (Decimal.width n - Decimal.width m)

/-- Numbers in the order of their numerals as strings. -/
def numeralOrder (numbers : Finset Nat) : List Nat :=
  (ascendingList numbers).insertionSort (fun m n => numeral m ≤ numeral n)

theorem mem_numeralOrder (numbers : Finset Nat) (n : Nat) :
    n ∈ numeralOrder numbers ↔ n ∈ numbers := by
  rw [numeralOrder, (List.perm_insertionSort _ _).mem_iff, mem_ascendingList]

theorem numeralOrder_pairwise (numbers : Finset Nat) :
    (numeralOrder numbers).Pairwise (fun m n => numeral m < numeral n) := by
  have total : Std.Total (fun m n : Nat => numeral m ≤ numeral n) :=
    ⟨fun m n => le_total (numeral m) (numeral n)⟩
  have trans : IsTrans Nat (fun m n => numeral m ≤ numeral n) :=
    ⟨fun _ _ _ h k => le_trans h k⟩
  have sorted : (numeralOrder numbers).Pairwise (fun m n => numeral m ≤ numeral n) :=
    List.pairwise_insertionSort _ _
  have distinct : (numeralOrder numbers).Nodup :=
    (List.perm_insertionSort _ _).nodup_iff.mpr (nodup_ascendingList numbers)
  refine sorted.imp₂ ?_ distinct
  intro m n le different
  exact lt_of_le_of_ne le (fun same => different (Decimal.numeral_injective same))

/-- The two orders are the same exactly when the numerals agree. -/
theorem numeralOrder_eq_iff (numbers : Finset Nat) :
    numeralOrder numbers = ascendingList numbers ↔ NumeralsAgree numbers := by
  have ascending := ascendingList_pairwise numbers
  constructor
  · intro same m inM n inN less
    have numerals := numeralOrder_pairwise numbers
    rw [same] at numerals
    have forward : (ascendingList numbers).Pairwise (fun a b => a < b → numeral a < numeral b) :=
      numerals.imp (fun lt => fun _ => lt)
    have backward : (ascendingList numbers).Pairwise (fun a b => b < a → numeral b < numeral a) :=
      ascending.imp (fun lt gt => absurd gt (lt_asymm lt))
    have all := List.Pairwise.forall_of_forall_of_flip
      (R := fun a b : Nat => a < b → numeral a < numeral b)
      (fun x _ gt => absurd gt (lt_irrefl x)) forward backward
    exact (Decimal.numeral_lt_iff less).mp
      (all ((mem_ascendingList _ _).mpr inM) ((mem_ascendingList _ _).mpr inN) less)
  · intro agree
    have numerals : (ascendingList numbers).Pairwise (fun m n => numeral m < numeral n) := by
      refine ascending.imp_of_mem ?_
      intro m n inM inN less
      exact (Decimal.numeral_lt_iff less).mpr (agree m ((mem_ascendingList _ _).mp inM) n
        ((mem_ascendingList _ _).mp inN) less)
    refine List.Perm.eq_of_pairwise ?_ (numeralOrder_pairwise numbers) numerals
      (List.perm_insertionSort _ _)
    intro m n _ _ less greater
    exact absurd greater (lt_asymm less)

theorem read_numbered {stp : AnyDictionary} {label : String} {numbers : Finset Nat}
    (numbered : NumberedSteps stp label numbers) {n : Nat} (member : n ∈ numbers) :
    ∃ value, stp.get? (label ++ numeral n) = some value ∧
      stepOf value = some (stepNumbered stp label n) := by
  have inside := (numbered.mem_keys_iff (label ++ numeral n)).mpr ⟨n, member, rfl⟩
  obtain ⟨value, read⟩ := (stp.mem_keys_iff _).mp inside
  obtain ⟨e, text, isStep, found⟩ := numbered.texts _ value read
  have isString := (stringAt_eq_some_iff e "Texto" text).mpr found
  have step : stepOf value = some ⟨text, intAt .phone e "Tempo"⟩ := by
    simp [stepOf, isStep, isString]
  refine ⟨value, read, ?_⟩
  rw [stepNumbered, read, Option.bind_some, step, Option.getD_some]

/-- The parser's string sort visits the numbers in the order of their numerals. -/
theorem sorted_entries {stp : AnyDictionary} {label : String} {numbers : Finset Nat}
    (numbered : NumberedSteps stp label numbers) {l : List (String × AnyValue)}
    (listing : stp.Lists l) :
    (Dictionary.sortByKey l).filterMap (fun e => stepOf e.2) =
      (numeralOrder numbers).map (stepNumbered stp label) := by
  let entries := (numeralOrder numbers).map fun n =>
    (label ++ numeral n, (stp.get? (label ++ numeral n)).getD .null)
  have ascending : entries.Pairwise (fun a b => a.1 < b.1) := by
    refine List.pairwise_map.mpr ((numeralOrder_pairwise numbers).imp ?_)
    intro m n less
    exact (Decimal.append_lt_append_iff label _ _).mpr less
  have listed : stp.Lists entries := by
    constructor
    · exact List.pairwise_map.mpr (ascending.imp (fun less same => absurd less (by simp [same])))
    · intro k value
      simp only [entries, List.mem_map, mem_numeralOrder, Prod.mk.injEq]
      constructor
      · intro given
        obtain ⟨n, member, sameKey, sameValue⟩ := given
        obtain ⟨v, read, _⟩ := read_numbered numbered member
        rw [read, Option.getD_some] at sameValue
        rw [← sameKey, read, sameValue]
      · intro read
        obtain ⟨n, member, same⟩ :=
          (numbered.mem_keys_iff k).mp ((stp.mem_keys_iff k).mpr ⟨value, read⟩)
        exact ⟨n, member, same.symm, by rw [← same, read, Option.getD_some]⟩
  have order : Dictionary.sortByKey l = entries := listing.sortByKey_eq_ascending listed ascending
  rw [order, List.filterMap_map, ← List.filterMap_eq_map]
  refine List.filterMap_congr ?_
  intro n member
  obtain ⟨value, read, step⟩ := read_numbered numbered ((mem_numeralOrder numbers n).mp member)
  simp only [Function.comp_apply, read, Option.getD_some, step]

/-- For every accepted record with numbered steps, the steps come out in
numerical order exactly when, for every position, the number of that rank and
the numeral of that rank in string order name equal steps. For steps that are
pairwise different that is `NumeralsAgree`. -/
theorem steps_in_numerical_order_iff (E : Enumeration String AnyValue)
    (self after : ParseManager) (d ing stp : AnyDictionary) (r : Recipes)
    (success : parseRecipe E self d = .ok (after, r)) (accepted : Accepted d ing stp)
    (label : String) (numbers : Finset Nat) (numbered : NumberedSteps stp label numbers) :
    (InNumericalOrder stp label numbers r.steps ↔
      ∀ m ∈ numbers, ∀ n ∈ numbers,
        rank (fun x => x) numbers m = rank numeral numbers n →
          stepNumbered stp label m = stepNumbered stp label n) ∧
    (Set.InjOn (stepNumbered stp label) numbers →
      (InNumericalOrder stp label numbers r.steps ↔ NumeralsAgree numbers)) := by
  have steps : r.steps = (numeralOrder numbers).map (stepNumbered stp label) := by
    have reads := parseRecipe_accepted E self d after r success ing stp accepted
    exact reads.steps.trans (sorted_entries numbered (E.lists stp))
  have ranks := map_eq_map_iff_rank (fun x : Nat => x) numeral
    (stepNumbered stp label) numbers (ascendingList numbers) (numeralOrder numbers)
    (mem_ascendingList numbers) (mem_numeralOrder numbers)
    (ascendingList_pairwise numbers) (numeralOrder_pairwise numbers)
  have exact : InNumericalOrder stp label numbers r.steps ↔
      ∀ m ∈ numbers, ∀ n ∈ numbers,
        rank (fun x => x) numbers m = rank numeral numbers n →
          stepNumbered stp label m = stepNumbered stp label n := by
    rw [InNumericalOrder, steps, eq_comm, ranks]
  refine ⟨exact, ?_⟩
  intro distinct
  rw [InNumericalOrder, steps, ← numeralOrder_eq_iff]
  constructor
  · intro same
    exact (map_eq_map_iff_of_injOn distinct (fun n => (mem_numeralOrder numbers n).mp)
      (fun n => (mem_ascendingList numbers n).mp)).mp same
  · intro orders
    rw [orders]

/-- Two steps under the given keys. -/
def twoSteps (k j : String) : AnyDictionary :=
  (Dictionary.empty.set k (.dictionary (Dictionary.empty.set "Texto" (.string "Asse")))).set
    j (.dictionary (Dictionary.empty.set "Texto" (.string "Sirva")))

theorem twoSteps_numbered (m n : Nat) :
    NumberedSteps (twoSteps (numeral m) (numeral n)) "" {m, n} where
  mem_keys_iff k := by simp [twoSteps, Dictionary.set, Dictionary.empty, or_comm]
  texts k value read := by
    simp only [twoSteps, Dictionary.get?_set, Dictionary.get?_empty] at read
    split at read
    · cases read
      exact ⟨_, "Sirva", rfl, rfl⟩
    · split at read
      · cases read
        exact ⟨_, "Asse", rfl, rfl⟩
      · cases read

/-- Steps keyed "9" and "10". -/
def nineAndTen : AnyDictionary := twoSteps "9" "10"

theorem nineAndTen_numbered : NumberedSteps nineAndTen "" {9, 10} := twoSteps_numbered 9 10

/-- One ingredient and the ninth and tenth step. -/
def nineAndTenDish : AnyDictionary :=
  dish (Dictionary.empty.set "i1" (.string "Berinjela")) nineAndTen

/-- The steps of `nineAndTenDish` as they are read. -/
def tenthFirst : List Step := [⟨"Sirva", none⟩, ⟨"Asse", none⟩]

theorem nineAndTenDish_read : parseRecipe Enumeration.ascending .new nineAndTenDish =
    .ok (⟨["Berinjela"], tenthFirst⟩,
      ⟨"Ratatouille", ["Berinjela"], "40 min", "4", "http://foto", tenthFirst⟩) := by rfl

theorem nineAndTenDish_accepted : Accepted nineAndTenDish
    (Dictionary.empty.set "i1" (.string "Berinjela")) nineAndTen := ⟨rfl, rfl, by decide⟩

/-- The ninth and tenth step, which are swapped, and the first and tenth, which are not. -/
theorem nine_and_ten_order_iff :
    (InNumericalOrder nineAndTen "" {9, 10} tenthFirst ↔
      ∀ m ∈ ({9, 10} : Finset Nat), ∀ n ∈ ({9, 10} : Finset Nat),
        rank (fun x => x) {9, 10} m = rank numeral {9, 10} n →
          stepNumbered nineAndTen "" m = stepNumbered nineAndTen "" n) ∧
    InNumericalOrder (twoSteps "1" "10") "" {1, 10} [⟨"Asse", none⟩, ⟨"Sirva", none⟩] := by
  have read : parseRecipe Enumeration.ascending .new
      (dish (Dictionary.empty.set "i1" (.string "Berinjela")) (twoSteps "1" "10")) =
    .ok (⟨["Berinjela"], [⟨"Asse", none⟩, ⟨"Sirva", none⟩]⟩,
      ⟨"Ratatouille", ["Berinjela"], "40 min", "4", "http://foto",
        [⟨"Asse", none⟩, ⟨"Sirva", none⟩]⟩) := by rfl
  have accepted : Accepted (dish (Dictionary.empty.set "i1" (.string "Berinjela")) (twoSteps "1" "10"))
      (Dictionary.empty.set "i1" (.string "Berinjela")) (twoSteps "1" "10") := ⟨rfl, rfl, by decide⟩
  constructor
  · exact (steps_in_numerical_order_iff _ _ _ _ _ _ _ nineAndTenDish_read nineAndTenDish_accepted _ _
      nineAndTen_numbered).1
  · refine (steps_in_numerical_order_iff _ _ _ _ _ _ _ read accepted _ _ (twoSteps_numbered 1 10)).1.mpr ?_
    decide

/-- The tenth step of a recipe is read before the ninth. -/
theorem tenth_step_first :
    ¬ ∀ (E : Enumeration String AnyValue) (self after : ParseManager) (d ing stp : AnyDictionary)
      (r : Recipes), parseRecipe E self d = .ok (after, r) → Accepted d ing stp →
      ∀ (label : String) (numbers : Finset Nat), NumberedSteps stp label numbers →
        InNumericalOrder stp label numbers r.steps := by
  intro claim
  have order := claim _ _ _ _ _ _ _ nineAndTenDish_read nineAndTenDish_accepted "" {9, 10}
    nineAndTen_numbered
  have numerical : (ascendingList {9, 10}).map (stepNumbered nineAndTen "") =
      [⟨"Asse", none⟩, ⟨"Sirva", none⟩] := by decide
  rw [InNumericalOrder, numerical] at order
  simp [tenthFirst] at order

end WatchAndSee.Guarantees.StepOrder
