import Mathlib.Data.List.Basic
import WatchAndSee.Guarantees.TreeContents
import WatchAndSee.Source.FImmutableSortedDictionary

/-!
# Contents of the array dictionary

Two parallel arrays of the same length are one array of entries. The loops of
`findKey:` and `findInsertPositionForKey:` split it at the key, and each
operation changes both arrays at that place.
-/

set_option autoImplicit false

namespace WatchAndSee.Guarantees
open Library
open Library.SortedListing
open Source
open Source.FArraySortedDictionary (findKey findInsertPositionForKey inserted replaced)

universe u v w

variable {K : Type u} {V : Type v} {comparator : K → K → Ordering}

def arrayEntries (d : FArraySortedDictionary comparator V) : List (K × V) := d.keys.zip d.values

/-- The arrays of a listing. -/
def ofEntries (comparator : K → K → Ordering) (l : List (K × V)) :
    FArraySortedDictionary comparator V :=
  ⟨keys l, l.map Prod.snd, by simp [keys]⟩

theorem eq_ofEntries (d : FArraySortedDictionary comparator V) :
    d = ofEntries comparator (arrayEntries d) := by
  obtain ⟨ks, vs, same⟩ := d
  have atMost : ks.length ≤ vs.length := Nat.le_of_eq same.symm
  have atLeast : vs.length ≤ ks.length := Nat.le_of_eq same
  simp only [ofEntries, arrayEntries, keys, List.map_fst_zip atMost, List.map_snd_zip atLeast]

@[simp] theorem arrayEntries_ofEntries (l : List (K × V)) :
    arrayEntries (ofEntries comparator l) = l := by
  induction l with
  | nil => rfl
  | cons e rest ih =>
    simp only [arrayEntries, ofEntries, keys_cons, List.map_cons, List.zip_cons_cons] at ih ⊢
    rw [ih]

/-! ## The loops -/

section Loops

variable [Std.TransCmp comparator]

omit [Std.TransCmp comparator] in
/-- A key that `findKey:` finds splits the entries. -/
theorem findKey_eq_some {k : K} {pos : Nat} {l : List (K × V)}
    (found : findKey comparator k (keys l) = some pos) :
    ∃ a e b, l = a ++ e :: b ∧ a.length = pos ∧ comparator k e.1 = .eq ∧
      AllKeys comparator k .gt a := by
  induction l generalizing pos with
  | nil => simp [keys, findKey] at found
  | cons e rest ih =>
    simp only [keys_cons, findKey] at found
    split at found
    · next same =>
      rw [Option.some.injEq] at found
      exact ⟨[], e, rest, rfl, found, same, by simp [AllKeys]⟩
    · cases found
    · next greater =>
      obtain ⟨before, inside, rfl⟩ := Option.map_eq_some_iff.mp found
      obtain ⟨a, d, b, rfl, length, same, above⟩ := ih inside
      exact ⟨e :: a, d, b, rfl, by rw [List.length_cons, length], same,
        AllKeys.cons.mpr ⟨greater, above⟩⟩

/-- A key that it does not find has its place between two entries. -/
theorem findKey_eq_none {k : K} {l : List (K × V)} (sorted : Ascending comparator l)
    (missing : findKey comparator k (keys l) = none) :
    ∃ a b, l = a ++ b ∧ a.length = findInsertPositionForKey comparator k (keys l) ∧
      AllKeys comparator k .gt a ∧ AllKeys comparator k .lt b := by
  induction l with
  | nil => exact ⟨[], [], rfl, rfl, by simp [AllKeys], by simp [AllKeys]⟩
  | cons e rest ih =>
    simp only [keys_cons, findKey] at missing
    split at missing
    · cases missing
    · next less =>
      refine ⟨[], e :: rest, rfl, ?_, by simp [AllKeys],
        AllKeys.cons.mpr ⟨less, AllKeys.of_lt less sorted.head⟩⟩
      have stop : comparator e.1 k ≠ .lt := by
        rw [Std.OrientedCmp.gt_iff_lt.mpr less]
        decide
      rw [keys_cons, findInsertPositionForKey, if_neg stop]
      rfl
    · next greater =>
      obtain ⟨a, b, rfl, length, below, above⟩ :=
        ih sorted.tail (Option.map_eq_none_iff.mp missing)
      refine ⟨e :: a, b, rfl, ?_, AllKeys.cons.mpr ⟨greater, below⟩, above⟩
      rw [keys_cons, findInsertPositionForKey, if_pos (Std.OrientedCmp.gt_iff_lt.mp greater),
        List.length_cons, length]

omit [Std.TransCmp comparator] in
theorem lookup_of_split {k : K} {a b : List (K × V)} {e : K × V}
    (same : comparator k e.1 = .eq) (above : AllKeys comparator k .gt a) :
    lookup comparator k (a ++ e :: b) = some e.2 := by
  rw [lookup_append_right k (above.not_eq (by decide)), lookup, if_pos same]

omit [Std.TransCmp comparator] in
theorem lookup_of_gap {k : K} {a b : List (K × V)} (above : AllKeys comparator k .gt a)
    (below : AllKeys comparator k .lt b) : lookup comparator k (a ++ b) = none := by
  rw [lookup_append_right k (above.not_eq (by decide))]
  have none := lookup_append_left (l := []) k (below.not_eq (by decide))
  simpa [lookup] using none

/-- The start position of the enumerators: the entries before it are below `start`. -/
theorem findInsertPosition_split (start : K) {l : List (K × V)} (sorted : Ascending comparator l) :
    ∃ a b, l = a ++ b ∧ a.length = findInsertPositionForKey comparator start (keys l) ∧
      (∀ e ∈ a, comparator e.1 start = .lt) ∧ (∀ e ∈ b.head?, comparator e.1 start ≠ .lt) ∧
      ∀ e ∈ b.tail, comparator e.1 start = .gt := by
  induction l with
  | nil => exact ⟨[], [], rfl, rfl, by simp, by simp, by simp⟩
  | cons e rest ih =>
    rw [keys_cons, findInsertPositionForKey]
    by_cases less : comparator e.1 start = .lt
    · obtain ⟨a, b, rfl, length, below, head, above⟩ := ih sorted.tail
      refine ⟨e :: a, b, rfl, by rw [if_pos less, List.length_cons, length], ?_, head, above⟩
      exact List.forall_mem_cons.mpr ⟨less, below⟩
    · refine ⟨[], e :: rest, rfl, by rw [if_neg less]; rfl, by simp, by simpa using less, ?_⟩
      intro d member
      have after := Std.OrientedCmp.gt_iff_lt.mpr (sorted.head d member)
      exact Std.TransCmp.gt_of_gt_of_isGE after (Ordering.isGE_iff_ne_lt.mpr less)

end Loops

/-! ## Changes at a position -/

theorem insertIdx_length {A : Type w} (a b : List A) (x : A) :
    (a ++ b).insertIdx a.length x = a ++ x :: b := by
  induction a with
  | nil => rfl
  | cons y rest ih => rw [List.cons_append, List.length_cons, List.insertIdx_succ_cons, ih]; rfl

theorem set_length {A : Type w} (a b : List A) (x y : A) :
    (a ++ y :: b).set a.length x = a ++ x :: b := by
  rw [List.set_append_right _ _ (Nat.le_refl _), Nat.sub_self, List.set_cons_zero]

theorem eraseIdx_length {A : Type w} (a b : List A) (y : A) :
    (a ++ y :: b).eraseIdx a.length = a ++ b := by
  rw [List.eraseIdx_append_of_length_le (Nat.le_refl _), Nat.sub_self, List.eraseIdx_cons_zero]

theorem inserted_ofEntries (a b : List (K × V)) (k : K) (v : V) :
    (ofEntries comparator (a ++ b)).inserted a.length k v =
      ofEntries comparator (a ++ (k, v) :: b) := by
  have keysLength : a.length = (keys a).length := (length_keys a).symm
  have valuesLength : a.length = (a.map Prod.snd).length := by simp
  have insertedKeys : (keys (a ++ b)).insertIdx a.length k = keys (a ++ (k, v) :: b) := by
    rw [keys_append, keysLength, insertIdx_length, keys_append, keys_cons]
  have insertedValues : ((a ++ b).map Prod.snd).insertIdx a.length v =
      (a ++ (k, v) :: b).map Prod.snd := by
    rw [List.map_append, valuesLength, insertIdx_length, List.map_append, List.map_cons]
  simp only [ofEntries, inserted, insertedKeys, insertedValues]

theorem replaced_ofEntries (a b : List (K × V)) (e : K × V) (k : K) (v : V) :
    (ofEntries comparator (a ++ e :: b)).replaced a.length k v =
      ofEntries comparator (a ++ (k, v) :: b) := by
  have keysLength : a.length = (keys a).length := (length_keys a).symm
  have valuesLength : a.length = (a.map Prod.snd).length := by simp
  have newKeys : (keys (a ++ e :: b)).set a.length k = keys (a ++ (k, v) :: b) := by
    rw [keys_append, keys_cons, keysLength, set_length, keys_append, keys_cons]
  have newValues : ((a ++ e :: b).map Prod.snd).set a.length v =
      (a ++ (k, v) :: b).map Prod.snd := by
    rw [List.map_append, List.map_cons, valuesLength, set_length, List.map_append, List.map_cons]
  simp only [ofEntries, replaced, newKeys, newValues]

section Changes

variable [Std.TransCmp comparator]

/-- Below the limit an insertion changes the arrays as it changes the listing. -/
theorem inserted_at_position {k : K} (v : V) {l : List (K × V)} (sorted : Ascending comparator l)
    (missing : findKey comparator k (keys l) = none) :
    (ofEntries comparator l).inserted (findInsertPositionForKey comparator k (keys l)) k v =
      ofEntries comparator (put comparator k v l) := by
  obtain ⟨a, b, rfl, length, above, below⟩ := findKey_eq_none sorted missing
  rw [← length, inserted_ofEntries, put_append_right _ _ _ above]
  cases b with
  | nil => rfl
  | cons e rest => rw [put, below e (by simp)]

omit [Std.TransCmp comparator] in
theorem replaced_at_position {k : K} (v : V) {pos : Nat} {l : List (K × V)}
    (found : findKey comparator k (keys l) = some pos) :
    (ofEntries comparator l).replaced pos k v = ofEntries comparator (put comparator k v l) := by
  obtain ⟨a, e, b, rfl, rfl, same, above⟩ := findKey_eq_some found
  rw [replaced_ofEntries, put_append_right _ _ _ above, put, same]

theorem removeKey_ofEntries (k : K) {l : List (K × V)} (sorted : Ascending comparator l) :
    (ofEntries comparator l).removeKey k = ofEntries comparator (erase comparator k l) := by
  cases place : findKey comparator k (keys l) with
  | none =>
    obtain ⟨a, b, rfl, _, above, below⟩ := findKey_eq_none sorted place
    have absent : ∀ e ∈ a ++ b, comparator k e.1 ≠ .eq :=
      List.forall_mem_append.mpr ⟨above.not_eq (by decide), below.not_eq (by decide)⟩
    have unfound : findKey comparator k (ofEntries comparator (a ++ b)).keys = none := place
    rw [erase_of_absent k absent, FArraySortedDictionary.removeKey]
    split
    · rfl
    · next found => rw [unfound] at found; cases found
  | some pos =>
    obtain ⟨a, e, b, rfl, rfl, same, above⟩ := findKey_eq_some place
    have keysLength : a.length = (keys a).length := (length_keys a).symm
    have valuesLength : a.length = (a.map Prod.snd).length := by simp
    have newKeys : (keys (a ++ e :: b)).eraseIdx a.length = keys (a ++ b) := by
      rw [keys_append, keys_cons, keysLength, eraseIdx_length, keys_append]
    have newValues : ((a ++ e :: b).map Prod.snd).eraseIdx a.length = (a ++ b).map Prod.snd := by
      rw [List.map_append, List.map_cons, valuesLength, eraseIdx_length, List.map_append]
    have found : findKey comparator k (ofEntries comparator (a ++ e :: b)).keys =
        some a.length := place
    rw [erase_append_right k _ (above.not_eq (by decide)), erase, if_pos same, FArraySortedDictionary.removeKey]
    split
    · next missing => rw [found] at missing; cases missing
    · next pos there =>
      rw [found, Option.some.injEq] at there
      subst there
      simp only [ofEntries, newKeys, newValues]

end Changes

end WatchAndSee.Guarantees
