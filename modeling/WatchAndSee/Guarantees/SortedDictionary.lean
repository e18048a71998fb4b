import Mathlib.Data.List.Sort
import WatchAndSee.Guarantees.ArrayContents
import WatchAndSee.Guarantees.TreeBuilder
import WatchAndSee.Guarantees.TreeRemoval

/-!
# Sorted dictionaries over whole runs

A sorted dictionary is the ascending listing of its entries, in two arrays or in
a balanced tree. Every read answers from the listing, every write changes the
listing, and no write raises, whichever representation it meets or leaves.
-/

set_option autoImplicit false

namespace WatchAndSee.Guarantees
open Library
open Library.SortedListing
open Source
open Source.FImmutableSortedDictionary

universe u v w

variable {K : Type u} {V : Type v} {comparator : K → K → Ordering}

def dictionaryEntries : FImmutableSortedDictionary comparator V → List (K × V)
  | .array d => arrayEntries d
  | .tree d => d.root.entries

/-- What every dictionary of a run satisfies. -/
def WellFormed : FImmutableSortedDictionary comparator V → Prop
  | .array d => Ascending comparator (arrayEntries d) ∧
      d.count ≤ sortedDictionaryArrayToRbTreeSizeThreshold
  | .tree d => Ascending comparator d.root.entries ∧ d.root.isRed = false ∧
      ∃ blackDepth, Balanced d.root blackDepth

theorem WellFormed.ascending {d : FImmutableSortedDictionary comparator V} (formed : WellFormed d) :
    Ascending comparator (dictionaryEntries d) := by
  cases d <;> exact formed.1

/-- All reads of a dictionary answer from one listing. Left out is the reverse
enumerator without a start key, on which the representations differ. -/
structure Represents (d : FImmutableSortedDictionary comparator V) (l : List (K × V)) : Prop where
  get : ∀ k, d.get k = lookup comparator k l
  contains : ∀ k, d.contains k = (lookup comparator k l).isSome
  count : d.count = l.length
  isEmpty : d.isEmpty = l.isEmpty
  minKey : d.minKey = (keys l).head?
  maxKey : d.maxKey = (keys l).getLast?
  predecessor : ∀ k, d.getPredecessorKey k =
    (lookup comparator k l).elim (.error .nonexistentKey) fun _ => .ok (predecessor comparator k l)
  enumerate : ∀ {S : Type} (block : K → V → S → Bool × S) (s : S),
    d.enumerateKeysAndObjects false block s = (visit (fun e => block e.1 e.2) l s).2
  enumerateReverse : ∀ {S : Type} (block : K → V → S → Bool × S) (s : S),
    d.enumerateKeysAndObjects true block s = (visit (fun e => block e.1 e.2) l.reverse s).2
  keyEnumerator : Yields KeyEnumerator.nextObject d.keyEnumerator (keys l)
  keyEnumeratorFrom : ∀ start,
    Yields KeyEnumerator.nextObject (d.keyEnumeratorFrom start) (keysFrom comparator start l)
  reverseKeyEnumeratorFrom : ∀ start,
    Yields KeyEnumerator.nextObject (d.reverseKeyEnumeratorFrom start)
      (keysDownFrom comparator start l)

/-! ## Reads of the arrays -/

section ArrayReads

theorem yields_array (e : FArraySortedDictionaryEnumerator K) :
    Yields FArraySortedDictionaryEnumerator.nextObject e
      (if 0 ≤ e.pos ∧ e.pos < e.keys.length then
        if e.reverse then (e.keys.take (e.pos.toNat + 1)).reverse else e.keys.drop e.pos.toNat
      else []) := by
  apply Yields.of_pending fun e : FArraySortedDictionaryEnumerator K =>
    if 0 ≤ e.pos ∧ e.pos < e.keys.length then
      if e.reverse then (e.keys.take (e.pos.toNat + 1)).reverse else e.keys.drop e.pos.toNat
    else []
  · intro e none
    obtain ⟨ks, pos, reverse⟩ := e
    simp only [FArraySortedDictionaryEnumerator.nextObject] at none ⊢
    split at none
    · next inside =>
      have bound : pos.toNat < ks.length := by omega
      rw [List.getElem?_eq_getElem bound] at none
      cases none
    · next outside => rw [if_neg outside]
  · intro e k e' some
    obtain ⟨ks, pos, reverse⟩ := e
    simp only [FArraySortedDictionaryEnumerator.nextObject] at some ⊢
    split at some
    · next inside =>
      have bound : pos.toNat < ks.length := by omega
      rw [List.getElem?_eq_getElem bound, Option.map_some, Option.some.injEq, Prod.mk.injEq] at some
      obtain ⟨rfl, rfl⟩ := some
      rw [if_pos inside]
      cases reverse with
      | false =>
        simp only [Bool.false_eq_true, if_false]
        rw [List.drop_eq_getElem_cons bound]
        congr 1
        split
        · rw [show (pos + 1).toNat = pos.toNat + 1 by omega]
        · rw [List.drop_eq_nil_iff]
          omega
      | true =>
        simp only [if_true]
        rw [List.take_succ_eq_append_getElem bound, List.reverse_append]
        simp only [List.reverse_singleton, List.singleton_append]
        congr 1
        split
        · rw [show (pos - 1).toNat + 1 = pos.toNat by omega]
        · rw [show pos.toNat = 0 by omega, List.take_zero, List.reverse_nil]
    · cases some

theorem yields_array_from (ks : List K) (pos : Nat) :
    Yields FArraySortedDictionaryEnumerator.nextObject ⟨ks, pos, false⟩ (ks.drop pos) := by
  have yields := yields_array (⟨ks, pos, false⟩ : FArraySortedDictionaryEnumerator K)
  simp only [Bool.false_eq_true, if_false, Int.toNat_natCast] at yields
  split at yields
  · exact yields
  · rw [List.drop_eq_nil_of_le (by omega)]
    exact yields

/-- From the position before `pos`, downwards. -/
theorem yields_array_down (ks : List K) (pos : Nat) (inside : pos ≤ ks.length) :
    Yields FArraySortedDictionaryEnumerator.nextObject ⟨ks, (pos : Int) - 1, true⟩
      (ks.take pos).reverse := by
  have yields := yields_array (⟨ks, (pos : Int) - 1, true⟩ : FArraySortedDictionaryEnumerator K)
  simp only [if_true] at yields
  split at yields
  · next bounds =>
    rw [show ((pos : Int) - 1).toNat + 1 = pos by omega] at yields
    exact yields
  · rw [show pos = 0 by omega, List.take_zero, List.reverse_nil]
    rw [show pos = 0 by omega] at yields
    exact yields

variable [Std.TransCmp comparator]

theorem get_ofEntries (k : K) {l : List (K × V)} (sorted : Ascending comparator l) :
    (ofEntries comparator l).get k = lookup comparator k l := by
  change (FArraySortedDictionary.findKey comparator k (keys l)).bind
    (fun pos => (l.map Prod.snd)[pos]?) = lookup comparator k l
  cases place : FArraySortedDictionary.findKey comparator k (keys l) with
  | none =>
    obtain ⟨a, b, rfl, _, above, below⟩ := findKey_eq_none sorted place
    rw [lookup_of_gap above below, Option.bind_none]
  | some pos =>
    obtain ⟨a, e, b, rfl, rfl, same, above⟩ := findKey_eq_some place
    rw [lookup_of_split same above, Option.bind_some, List.getElem?_map, List.getElem?_append_right
      (Nat.le_refl _), Nat.sub_self]
    rfl

theorem contains_ofEntries (k : K) {l : List (K × V)} (sorted : Ascending comparator l) :
    (ofEntries comparator l).contains k = (lookup comparator k l).isSome := by
  change (FArraySortedDictionary.findKey comparator k (keys l)).isSome = _
  cases place : FArraySortedDictionary.findKey comparator k (keys l) with
  | none =>
    obtain ⟨a, b, rfl, _, above, below⟩ := findKey_eq_none sorted place
    rw [lookup_of_gap above below]
    rfl
  | some pos =>
    obtain ⟨a, e, b, rfl, rfl, same, above⟩ := findKey_eq_some place
    rw [lookup_of_split same above]
    rfl

theorem getPredecessorKey_ofEntries (k : K) {l : List (K × V)} (sorted : Ascending comparator l) :
    (ofEntries comparator l).getPredecessorKey k =
      (lookup comparator k l).elim (.error .nonexistentKey)
        fun _ => .ok (predecessor comparator k l) := by
  cases place : FArraySortedDictionary.findKey comparator k (keys l) with
  | none =>
    have missing : FArraySortedDictionary.findKey comparator k (ofEntries comparator l).keys = none :=
      place
    obtain ⟨a, b, rfl, _, above, below⟩ := findKey_eq_none sorted place
    rw [lookup_of_gap above below, FArraySortedDictionary.getPredecessorKey]
    split
    · rfl
    · next found => rw [missing] at found; cases found
    · next found => rw [missing] at found; cases found
  | some pos =>
    have there : FArraySortedDictionary.findKey comparator k (ofEntries comparator l).keys = some pos :=
      place
    obtain ⟨a, e, b, rfl, length, same, above⟩ := findKey_eq_some place
    have beyond : AllKeys comparator k .lt b :=
      AllKeys.of_eq same (ascending_append_cons.mp sorted).2.2.2
    have none : predecessor comparator k (e :: b) = .none :=
      predecessor_of_not_gt (List.forall_mem_cons.mpr ⟨by rw [same]; decide,
        fun d member => by rw [beyond d member]; decide⟩)
    rw [lookup_of_split same above, predecessor_append, none, Option.none_or,
      predecessor_of_gt above, FArraySortedDictionary.getPredecessorKey]
    have keysLength := length_keys a
    split
    · next found => rw [there] at found; cases found
    · next found =>
      rw [there, Option.some.injEq] at found
      rw [List.eq_nil_of_length_eq_zero (length.trans found)]
      rfl
    · next before found =>
      rw [there, Option.some.injEq] at found
      have last : (keys a).length - 1 = before := by omega
      have inside : before < (keys a).length := by omega
      rw [Option.elim_some, List.getLast?_eq_getElem?, last]
      change Except.ok (keys (a ++ e :: b))[before]? = _
      rw [keys_append, List.getElem?_append_left inside]

theorem keyEnumeratorFrom_ofEntries (start : K) {l : List (K × V)}
    (sorted : Ascending comparator l) :
    Yields FArraySortedDictionaryEnumerator.nextObject ((ofEntries comparator l).keyEnumeratorFrom start)
      (keysFrom comparator start l) := by
  have yields : Yields FArraySortedDictionaryEnumerator.nextObject
      ((ofEntries comparator l).keyEnumeratorFrom start)
      ((keys l).drop (FArraySortedDictionary.findInsertPositionForKey comparator start (keys l))) :=
    yields_array_from _ _
  obtain ⟨a, b, rfl, length, below, head, above⟩ := findInsertPosition_split start sorted
  have keysLength : a.length = (keys a).length := (length_keys a).symm
  rw [← length, keys_append, keysLength, List.drop_left] at yields
  have rest : keysFrom comparator start b = keys b := by
    cases b with
    | nil => rfl
    | cons e rest =>
      have first : (comparator e.1 start).isGE :=
        Ordering.isGE_iff_ne_lt.mpr (head e (by simp))
      rw [keysFrom_cons, if_pos first, keys_cons, keysFrom_of_above (l := rest) above]
  rw [keysFrom_append, keysFrom_of_below below, List.nil_append, rest]
  exact yields

theorem reverseKeyEnumeratorFrom_ofEntries (start : K) {l : List (K × V)}
    (sorted : Ascending comparator l) :
    Yields FArraySortedDictionaryEnumerator.nextObject
      ((ofEntries comparator l).reverseKeyEnumeratorFrom start) (keysDownFrom comparator start l) := by
  obtain ⟨a, b, rfl, length, below, head, above⟩ := findInsertPosition_split start sorted
  have keysLength := length_keys a
  have place : (ofEntries comparator (a ++ b)).reverseKeyEnumeratorFrom start =
      ⟨keys (a ++ b), if (keys (a ++ b))[a.length]?.any (fun key => comparator key start = .eq) then
        (a.length : Int) else (a.length : Int) - 1, true⟩ := by
    rw [length]
    rfl
  have atPosition : (keys (a ++ b))[a.length]? = (keys b).head? := by
    rw [keys_append, List.getElem?_append_right (by omega), keysLength, Nat.sub_self,
      List.head?_eq_getElem?]
  have under : (keys (a ++ b)).take a.length = keys a := by
    rw [keys_append, ← keysLength, List.take_left]
  rw [place, atPosition, keysDownFrom_append, keysDownFrom_of_below below]
  cases b with
  | nil =>
    have yields := yields_array_down (keys (a ++ [])) a.length (by simp [keys])
    rw [under] at yields
    exact yields
  | cons e rest =>
    have after : keysDownFrom comparator start rest = [] := keysDownFrom_of_above above
    rw [keysDownFrom_cons, after, keys_cons, List.head?_cons, Option.any_some]
    by_cases exact : comparator e.1 start = .eq
    · have yields := yields_array_down (keys (a ++ e :: rest)) (a.length + 1) (by simp [keys])
      have upTo : (keys (a ++ e :: rest)).take (a.length + 1) = keys a ++ [e.1] := by
        rw [keys_append, keys_cons, List.append_cons, List.take_left' (by simp [keysLength])]
      have position : ((a.length + 1 : Nat) : Int) - 1 = a.length := by omega
      rw [upTo, List.reverse_append, position] at yields
      simp only [exact, decide_true, if_true, Ordering.isLE_eq]
      exact yields
    · have greater : comparator e.1 start = .gt := by
        have notLess := head e (by simp)
        cases order : comparator e.1 start <;> simp_all
      have yields := yields_array_down (keys (a ++ e :: rest)) a.length (by simp [keys])
      rw [under] at yields
      simp only [greater, Ordering.isLE_gt, Bool.false_eq_true, if_false, List.nil_append]
      exact yields

end ArrayReads

/-! ## Reads -/

section Reads

variable [Std.TransCmp comparator]

theorem represents_array {d : FArraySortedDictionary comparator V}
    (sorted : Ascending comparator (arrayEntries d)) :
    Represents (.array d) (arrayEntries d) := by
  have inside {e : FArraySortedDictionaryEnumerator K} {l : List K}
      (yields : Yields FArraySortedDictionaryEnumerator.nextObject e l) :
      Yields (KeyEnumerator.nextObject (V := V)) (.array e) l := 
    yields.through KeyEnumerator.array fun _ => rfl
  generalize same : arrayEntries d = l at sorted ⊢
  obtain rfl : d = ofEntries comparator l := same ▸ eq_ofEntries d
  exact
    { get := fun k => get_ofEntries k sorted
      contains := fun k => contains_ofEntries k sorted
      count := length_keys l
      isEmpty := by cases l <;> rfl
      minKey := rfl
      maxKey := rfl
      predecessor := fun k => getPredecessorKey_ofEntries k sorted
      enumerate := fun block s => by
        change (visit _ (arrayEntries (ofEntries comparator l)) s).2 = _
        rw [arrayEntries_ofEntries]
      enumerateReverse := fun block s => by
        change (visit _ (arrayEntries (ofEntries comparator l)).reverse s).2 = _
        rw [arrayEntries_ofEntries]
      keyEnumerator := inside (yields_array_from (keys l) 0)
      keyEnumeratorFrom := fun start => inside (keyEnumeratorFrom_ofEntries start sorted)
      reverseKeyEnumeratorFrom := fun start =>
        inside (reverseKeyEnumeratorFrom_ofEntries start sorted) }

theorem represents_tree {d : FTreeSortedDictionary comparator V}
    (sorted : Ascending comparator d.root.entries) : Represents (.tree d) d.root.entries := by
  have inside {e : FTreeSortedDictionaryEnumerator K V} {l : List K} (listed : pendingOf e = l) :
      Yields KeyEnumerator.nextObject (.tree e) l := by
    rw [← listed]
    exact (yields_pendingOf e).through KeyEnumerator.tree fun _ => rfl
  obtain ⟨root⟩ := d
  exact
    { get := fun k => getLoop_eq k sorted
      contains := fun k => congrArg Option.isSome (getLoop_eq k sorted)
      count := FLLRBNode.count_eq_length root
      isEmpty := by cases root <;> simp [FLLRBNode.entries, FImmutableSortedDictionary.isEmpty,
        FTreeSortedDictionary.isEmpty, FLLRBNode.isEmpty]
      minKey := minKey_eq root
      maxKey := maxKey_eq root
      predecessor := fun k => by
        have loop := getPredecessorKeyLoop_eq k none sorted
        simp only [Option.or_none] at loop
        exact loop
      enumerate := fun block s => by
        change (root.inorderTraversal block s).2 = _
        rw [inorderTraversal_eq]
      enumerateReverse := fun block s => by
        change (root.reverseTraversal block s).2 = _
        rw [reverseTraversal_eq]
      keyEnumerator := inside ((pending_initLoop comparator [] root).trans (List.append_nil _))
      keyEnumeratorFrom := fun start =>
        inside ((pending_initLoop_from start [] sorted).trans (List.append_nil _))
      reverseKeyEnumeratorFrom := fun start =>
        inside ((pendingReverse_initLoop_from start [] sorted).trans (List.append_nil _)) }

theorem WellFormed.represents {d : FImmutableSortedDictionary comparator V}
    (formed : WellFormed d) : Represents d (dictionaryEntries d) := by
  cases d with
  | array d => exact represents_array formed.1
  | tree d => exact represents_tree formed.1

end Reads

/-! ## Dictionaries from other dictionaries -/

section FromDictionary

variable [Std.TransCmp comparator] [DecidableEq K]

omit [Std.TransCmp comparator] [DecidableEq K] in
theorem neighbours_ascend {sorted : List (K × V)} (ascending : Ascending comparator sorted) :
    ((sorted.zip sorted.tail).all fun pair => comparator pair.1.1 pair.2.1 = .lt) = true := by
  induction sorted with
  | nil => rfl
  | cons e rest ih =>
    cases rest with
    | nil => rfl
    | cons d later =>
      have first : comparator e.1 d.1 = .lt := ascending.head d (by simp)
      have others := ih ascending.tail
      simp only [List.tail_cons, List.zip_cons_cons, List.all_cons, first, decide_true,
        Bool.true_and] at others ⊢
      exact others

omit [DecidableEq K] in
/-- Sorting finds the ascending listing, whatever the order of enumeration. -/
theorem sortedKeyList_eq {enumerated sorted : List (K × V)} (ascending : Ascending comparator sorted)
    (same : enumerated.Perm sorted) :
    FTreeSortedDictionary.sortedKeyList comparator enumerated = .ok sorted := by
  have sorts : (enumerated.mergeSort fun a b => (comparator a.1 b.1).isLE) = sorted :=
    eq_of_sorted_perm (pairwise_isLE_mergeSort enumerated) ascending
      ((List.mergeSort_perm _ _).trans same)
  simp only [FTreeSortedDictionary.sortedKeyList, sorts, neighbours_ascend ascending, if_true]

omit [DecidableEq K] in
theorem ascending_of_neighbours {sorted : List (K × V)}
    (neighbours :
      ((sorted.zip sorted.tail).all fun pair => comparator pair.1.1 pair.2.1 = .lt) = true) :
    Ascending comparator sorted := by
  induction sorted with
  | nil => exact List.Pairwise.nil
  | cons e rest ih =>
    cases rest with
    | nil => exact List.pairwise_singleton _ _
    | cons d later =>
      simp only [List.tail_cons, List.zip_cons_cons, List.all_cons, Bool.and_eq_true,
        decide_eq_true_eq] at neighbours ih
      obtain ⟨first, others⟩ := neighbours
      have ascending := ih others
      exact List.Pairwise.cons
        (List.forall_mem_cons.mpr ⟨first, AllKeys.of_lt first ascending.head⟩) ascending

omit [DecidableEq K] in
/-- What passes the check for equal neighbours ascends. -/
theorem sortedKeyList_success {enumerated sorted : List (K × V)}
    (success : FTreeSortedDictionary.sortedKeyList comparator enumerated = .ok sorted) :
    Ascending comparator sorted ∧ sorted.Perm enumerated := by
  unfold FTreeSortedDictionary.sortedKeyList at success
  dsimp only at success
  split at success
  · next neighbours =>
    rw [Except.ok.injEq] at success
    subst success
    exact ⟨ascending_of_neighbours neighbours, List.mergeSort_perm _ _⟩
  · cases success

omit [DecidableEq K] in
/-- Distinct keys have an ascending listing. -/
theorem exists_ascending [Std.LawfulEqCmp comparator] (enumerated : List (K × V))
    (distinct : (keys enumerated).Nodup) :
    ∃ sorted, Ascending comparator sorted ∧ enumerated.Perm sorted := by
  have same := List.mergeSort_perm enumerated fun a b => (comparator a.1 b.1).isLE
  exact ⟨_, ascending_of_nodup (pairwise_isLE_mergeSort enumerated)
    ((same.map Prod.fst).nodup_iff.mpr distinct), same.symm⟩

theorem exists_ascending_listing [Std.LawfulEqCmp comparator] (dictionary : Dictionary K V) :
    ∃ sorted, Ascending comparator sorted ∧ dictionary.Lists sorted := by
  obtain ⟨enumerated, listing⟩ := dictionary.exists_lists
  obtain ⟨sorted, ascending, same⟩ : ∃ sorted, Ascending comparator sorted ∧ enumerated.Perm sorted :=
    exists_ascending enumerated listing.nodup
  exact ⟨sorted, ascending, listing.of_perm same.symm⟩

/-- The builder on a dictionary: one tree for every order of enumeration. -/
theorem exists_tree_fromDictionary (dictionary : Dictionary K V) {sorted : List (K × V)}
    (ascending : Ascending comparator sorted) (listing : dictionary.Lists sorted)
    (fits : sorted.length + 1 < 2 ^ 32) :
    ∃ d : FTreeSortedDictionary comparator V,
      (∀ E, FTreeSortedDictionary.fromDictionary comparator E dictionary = .ok d) ∧
      d.root.isRed = false ∧ Balanced d.root (Nat.log2 (sorted.length + 1)) ∧
      d.root.entries = sorted := by
  obtain ⟨root, built, balanced, black, contents⟩ := rootFrom12List_balanced sorted fits
  refine ⟨⟨root⟩, fun E => ?_, black, balanced, contents⟩
  have keyList := sortedKeyList_eq ascending ((E.lists dictionary).perm listing)
  rw [FTreeSortedDictionary.fromDictionary, keyList]
  simp only [bind, Except.bind, built]
  rfl

theorem tree_fromDictionary (E : Enumeration K V) (dictionary : Dictionary K V)
    {sorted : List (K × V)} (ascending : Ascending comparator sorted)
    (listing : dictionary.Lists sorted) (fits : sorted.length + 1 < 2 ^ 32) :
    ∃ d, FTreeSortedDictionary.fromDictionary comparator E dictionary = .ok d ∧
      WellFormed (.tree d) ∧ d.root.entries = sorted := by
  obtain ⟨d, built, black, balanced, contents⟩ :=
    exists_tree_fromDictionary dictionary ascending listing fits
  exact ⟨d, built E, ⟨by rw [contents]; exact ascending, black, _, balanced⟩, contents⟩

/-- `fromDictionary:withComparator:` of the class: the ascending listing, in the
representation that its count selects. -/
theorem fromDictionary_wellFormed (E : Enumeration K V) (dictionary : Dictionary K V)
    {sorted : List (K × V)} (ascending : Ascending comparator sorted)
    (listing : dictionary.Lists sorted) (fits : sorted.length + 1 < 2 ^ 32) :
    ∃ d, fromDictionary comparator E dictionary = .ok d ∧ WellFormed d ∧
      dictionaryEntries d = sorted := by
  have keyList := sortedKeyList_eq ascending ((E.lists dictionary).perm listing)
  by_cases small : dictionary.keys.card ≤ sortedDictionaryArrayToRbTreeSizeThreshold
  · refine ⟨.array (ofEntries comparator sorted), ?_, ?_, arrayEntries_ofEntries sorted⟩
    · rw [fromDictionary, if_pos small, FArraySortedDictionary.fromDictionary, keyList]
      rfl
    · refine ⟨by rw [arrayEntries_ofEntries]; exact ascending, ?_⟩
      rw [← listing.length_eq, ← length_keys] at small
      exact small
  · obtain ⟨d, built, formed, contents⟩ := tree_fromDictionary E dictionary ascending listing fits
    refine ⟨.tree d, ?_, formed, contents⟩
    rw [fromDictionary, if_neg small, built]
    rfl

end FromDictionary

/-! ## Writes -/

section Writes

variable [DecidableEq K]

/-- The dictionary that an array dictionary copies itself into. -/
theorem get?_foldl_set [Std.LawfulEqCmp comparator] {l : List (K × V)} (sorted : Ascending comparator l)
    (dict : Dictionary K V) (k : K) :
    (l.foldl (fun (dict : Dictionary K V) e => dict.set e.1 e.2) dict).get? k =
      (lookup comparator k l).or (dict.get? k) := by
  induction l generalizing dict with
  | nil => rfl
  | cons e rest ih =>
    rw [List.foldl_cons, ih sorted.tail, lookup, Dictionary.get?_set]
    by_cases same : k = e.1
    · subst same
      have hit : comparator e.1 e.1 = .eq := Std.ReflCmp.compare_self
      have absent := lookup_append_left (l := []) e.1 (sorted.head.not_eq (by decide))
      rw [List.nil_append] at absent
      rw [if_pos rfl, if_pos hit, absent]
      rfl
    · have miss : comparator k e.1 ≠ .eq := mt Std.LawfulEqCmp.eq_of_compare same
      rw [if_neg same, if_neg miss]

variable [Std.TransCmp comparator] [Std.LawfulEqCmp comparator]

theorem lists_of_lookup {dict : Dictionary K V} {l : List (K × V)} (sorted : Ascending comparator l)
    (reads : ∀ k, dict.get? k = lookup comparator k l) : dict.Lists l where
  nodup := nodup_keys sorted
  mem_iff k v := by rw [mem_iff_lookup sorted, reads]

section ArrayInsertion

variable (E : Enumeration K V) (k : K) (v : V) {l : List (K × V)}

omit [Std.TransCmp comparator] [Std.LawfulEqCmp comparator] in
theorem insertKey_found {pos : Nat}
    (found : FArraySortedDictionary.findKey comparator k (keys l) = some pos) :
    (ofEntries comparator l).insertKey E k v =
      .ok (.array (ofEntries comparator (put comparator k v l))) := by
  have there : FArraySortedDictionary.findKey comparator k (ofEntries comparator l).keys = some pos :=
    found
  rw [← replaced_at_position v found, FArraySortedDictionary.insertKey]
  split
  · next missing => rw [there] at missing; cases missing
  · next pos' same =>
    rw [there, Option.some.injEq] at same
    rw [same]

omit [Std.LawfulEqCmp comparator] in
theorem insertKey_small (sorted : Ascending comparator l)
    (missing : FArraySortedDictionary.findKey comparator k (keys l) = none)
    (small : l.length < sortedDictionaryArrayToRbTreeSizeThreshold) :
    (ofEntries comparator l).insertKey E k v =
      .ok (.array (ofEntries comparator (put comparator k v l))) := by
  have absent : FArraySortedDictionary.findKey comparator k (ofEntries comparator l).keys = none :=
    missing
  have count : (ofEntries comparator l).count = l.length := length_keys l
  rw [← inserted_at_position v sorted missing, FArraySortedDictionary.insertKey]
  split
  · rw [if_neg (by omega)]
    rfl
  · next found => rw [absent] at found; cases found

/-- The insertion that turns the arrays into a tree. -/
theorem insertKey_large (sorted : Ascending comparator l)
    (missing : FArraySortedDictionary.findKey comparator k (keys l) = none)
    (full : l.length = sortedDictionaryArrayToRbTreeSizeThreshold) :
    ∃ d, (ofEntries comparator l).insertKey E k v = .ok (.tree d) ∧ WellFormed (.tree d) ∧
      d.root.entries = put comparator k v l := by
  have absent : FArraySortedDictionary.findKey comparator k (ofEntries comparator l).keys = none :=
    missing
  have count : (ofEntries comparator l).count = l.length := length_keys l
  have copy (j : K) : (((arrayEntries (ofEntries comparator l)).foldl
      (fun (dict : Dictionary K V) e => dict.set e.1 e.2) Dictionary.empty).set k v).get? j =
      lookup comparator j (put comparator k v l) := by
    rw [arrayEntries_ofEntries, Dictionary.get?_set, get?_foldl_set sorted, lookup_put j k v sorted,
      Dictionary.get?_empty, Option.or_none]
    by_cases same : j = k
    · have hit : comparator j k = .eq := by
        rw [same]
        exact Std.ReflCmp.compare_self
      rw [if_pos same, if_pos hit]
    · rw [if_neg same, if_neg (mt Std.LawfulEqCmp.eq_of_compare same)]
  have ascending := ascending_put (k := k) (v := v) sorted
  have longer : (put comparator k v l).length ≤ l.length + 1 := length_put_le k v l
  have limit : sortedDictionaryArrayToRbTreeSizeThreshold = 25 := rfl
  obtain ⟨d, built, formed, contents⟩ :=
    tree_fromDictionary E _ ascending (lists_of_lookup ascending copy) (by omega)
  refine ⟨d, ?_, formed, contents⟩
  unfold arrayEntries at built
  rw [FArraySortedDictionary.insertKey]
  split
  · rw [if_pos (by omega)]
    simp only [bind, Except.bind]
    rw [built]
    rfl
  · next found => rw [absent] at found; cases found

end ArrayInsertion

/-- One insertion: it never raises, and it changes the listing as a sorted
listing changes. -/
theorem insertKey_wellFormed (E : Enumeration K V) {d : FImmutableSortedDictionary comparator V}
    (formed : WellFormed d) (k : K) (v : V) :
    ∃ d', d.insertKey E k v = .ok d' ∧ WellFormed d' ∧
      dictionaryEntries d' = put comparator k v (dictionaryEntries d) := by
  cases d with
  | tree d =>
    obtain ⟨sorted, black, blackDepth, balanced⟩ := formed
    have contents := entries_insertKey k v sorted
    have entries : (d.insertKey k v).root.entries = put comparator k v d.root.entries :=
      (entries_blackened _).trans contents
    refine ⟨.tree (d.insertKey k v), rfl, ⟨?_, blackened_isRed _, ?_⟩, entries⟩
    · rw [entries]
      exact ascending_put sorted
    · exact insertKey_balanced comparator k v balanced
  | array d =>
    obtain ⟨sorted, small⟩ := formed
    change ∃ d', d.insertKey E k v = .ok d' ∧ WellFormed d' ∧
      dictionaryEntries d' = put comparator k v (arrayEntries d)
    have count : d.count = (arrayEntries d).length := (represents_array sorted).count
    rw [count] at small
    rw [eq_ofEntries d, arrayEntries_ofEntries]
    generalize arrayEntries d = l at sorted small
    have ascending := ascending_put (k := k) (v := v) sorted
    have array (result : (ofEntries comparator l).insertKey E k v =
          .ok (.array (ofEntries comparator (put comparator k v l))))
        (few : (put comparator k v l).length ≤ sortedDictionaryArrayToRbTreeSizeThreshold) :
        ∃ d', (ofEntries comparator l).insertKey E k v = .ok d' ∧ WellFormed d' ∧
          dictionaryEntries d' = put comparator k v l := by
      refine ⟨_, result, ⟨by rw [arrayEntries_ofEntries]; exact ascending, ?_⟩,
        arrayEntries_ofEntries _⟩
      exact Nat.le_trans (Nat.le_of_eq (length_keys _)) few
    cases place : FArraySortedDictionary.findKey comparator k (keys l) with
    | some pos =>
      refine array (insertKey_found E k v place) ?_
      obtain ⟨a, e, b, rfl, _, same, above⟩ := findKey_eq_some place
      rw [put_append_right _ _ _ above, put, same]
      simpa using small
    | none =>
      by_cases room : l.length < sortedDictionaryArrayToRbTreeSizeThreshold
      · have longer : (put comparator k v l).length ≤ l.length + 1 := length_put_le k v l
        exact array (insertKey_small E k v sorted place room) (by omega)
      · obtain ⟨d, result, formed, contents⟩ :=
          insertKey_large E k v sorted place (by omega)
        exact ⟨_, result, formed, contents⟩

omit [DecidableEq K] [Std.LawfulEqCmp comparator] in
theorem removeKey_wellFormed {d : FImmutableSortedDictionary comparator V} (formed : WellFormed d)
    (k : K) :
    WellFormed (d.removeKey k) ∧
      dictionaryEntries (d.removeKey k) = erase comparator k (dictionaryEntries d) := by
  cases d with
  | tree d =>
    obtain ⟨sorted, black, blackDepth, balanced⟩ := formed
    have contains := (represents_tree sorted).contains k
    change WellFormed (.tree (d.removeKey k)) ∧
      (d.removeKey k).root.entries = erase comparator k d.root.entries
    cases found : d.contains k with
    | false =>
      have absent : ∀ e ∈ d.root.entries, comparator k e.1 ≠ .eq := by
        intro e member same
        have present := lookup_isSome_iff.mpr ⟨e, member, same⟩
        rw [← contains] at present
        exact absurd (found.symm.trans present) (by decide)
      have unchanged : d.removeKey k = d := by
        rw [FTreeSortedDictionary.removeKey, found]
        rfl
      rw [unchanged, erase_of_absent k absent]
      exact ⟨⟨sorted, black, _, balanced⟩, rfl⟩
    | true =>
      have removed : d.removeKey k = ⟨blackened (d.root.remove comparator k)⟩ := by
        rw [FTreeSortedDictionary.removeKey, found]
        rfl
      obtain ⟨rebalanced, contents⟩ := remove_root (k := k) sorted balanced black
      rw [removed]
      refine ⟨⟨?_, blackened_isRed _, rebalanced⟩, contents⟩
      rw [contents]
      exact ascending_erase sorted
  | array d =>
    obtain ⟨sorted, small⟩ := formed
    have count : d.count = (arrayEntries d).length := (represents_array sorted).count
    change WellFormed (.array (d.removeKey k)) ∧
      arrayEntries (d.removeKey k) = erase comparator k (arrayEntries d)
    rw [count] at small
    have result : d.removeKey k = ofEntries comparator (erase comparator k (arrayEntries d)) := by
      rw [← removeKey_ofEntries k sorted, ← eq_ofEntries]
    rw [result, arrayEntries_ofEntries]
    refine ⟨⟨by rw [arrayEntries_ofEntries]; exact ascending_erase sorted, ?_⟩, rfl⟩
    have shorter : (erase comparator k (arrayEntries d)).length ≤ (arrayEntries d).length :=
      (erase_sublist k (arrayEntries d)).length_le
    exact Nat.le_trans (Nat.le_of_eq (length_keys _)) (Nat.le_trans shorter small)

end Writes

end WatchAndSee.Guarantees
