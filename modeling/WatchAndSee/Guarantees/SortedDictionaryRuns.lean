import WatchAndSee.Guarantees.SortedDictionary

/-!
# Runs of the sorted dictionary

A run builds a dictionary and then inserts and removes keys in any order. No
run raises; the tree passes its own checks after every write; the reads are the
ones of the map that holds the last value of every key; and two runs that leave
the same map are equal dictionaries, even where one of them holds arrays and the
other a tree.
-/

set_option autoImplicit false

namespace WatchAndSee.Guarantees
open Library
open Library.SortedListing
open Source
open Source.FImmutableSortedDictionary

universe u v

variable {K : Type u} {V : Type v} {comparator : K → K → Ordering} [DecidableEq K]

/-- One write of a run. -/
def writeKey (E : Enumeration K V) (d : FImmutableSortedDictionary comparator V) :
    Write K V → Except FSortedDictionaryException (FImmutableSortedDictionary comparator V)
  | .insert k v => d.insertKey E k v
  | .remove k => .ok (d.removeKey k)

/-- Built from `start`, then written to. -/
def runDictionary (comparator : K → K → Ordering) (E : Enumeration K V) (start : Dictionary K V)
    (writes : List (Write K V)) :
    Except FSortedDictionaryException (FImmutableSortedDictionary comparator V) := do
  let d ← fromDictionary comparator E start
  writes.foldlM (writeKey E) d

/-- The map that the run leaves. -/
def runReads (start : Dictionary K V) (writes : List (Write K V)) : K → Option V :=
  writes.foldl Write.onReads start.get?

variable [Std.TransCmp comparator] [Std.LawfulEqCmp comparator]

/-- The step. -/
theorem writeKey_wellFormed (E : Enumeration K V) {d : FImmutableSortedDictionary comparator V}
    (formed : WellFormed d) (write : Write K V) :
    ∃ d', writeKey E d write = .ok d' ∧ WellFormed d' ∧
      dictionaryEntries d' = write.onListing comparator (dictionaryEntries d) := by
  cases write with
  | insert k v => exact insertKey_wellFormed E formed k v
  | remove k =>
    obtain ⟨kept, entries⟩ := removeKey_wellFormed formed k
    exact ⟨_, rfl, kept, entries⟩

theorem foldlM_writeKey (E : Enumeration K V) (writes : List (Write K V))
    {d : FImmutableSortedDictionary comparator V} (formed : WellFormed d) :
    ∃ d', writes.foldlM (writeKey E) d = .ok d' ∧ WellFormed d' ∧
      dictionaryEntries d' = writes.foldl (Write.onListing comparator) (dictionaryEntries d) := by
  induction writes generalizing d with
  | nil => exact ⟨d, rfl, formed, rfl⟩
  | cons write rest ih =>
    obtain ⟨next, step, nextFormed, nextEntries⟩ := writeKey_wellFormed E formed write
    obtain ⟨last, run, lastFormed, lastEntries⟩ := ih nextFormed
    refine ⟨last, ?_, lastFormed, by rw [lastEntries, nextEntries, List.foldl_cons]⟩
    rw [List.foldlM_cons, step]
    exact run

/-- Every run succeeds, and its entries are the ascending listing of its map. -/
theorem runDictionary_wellFormed (comparator : K → K → Ordering) [Std.TransCmp comparator]
    [Std.LawfulEqCmp comparator] (E : Enumeration K V) (start : Dictionary K V)
    (writes : List (Write K V)) (fits : start.keys.card + 1 < 2 ^ 32) :
    ∃ d, runDictionary comparator E start writes = .ok d ∧ WellFormed d ∧
      (fun k => lookup comparator k (dictionaryEntries d)) = runReads start writes := by
  obtain ⟨sorted, ascending, listing⟩ : ∃ sorted, Ascending comparator sorted ∧ start.Lists sorted :=
    exists_ascending_listing start
  obtain ⟨first, built, firstFormed, firstEntries⟩ :=
    fromDictionary_wellFormed E start ascending listing (by rw [listing.length_eq]; exact fits)
  obtain ⟨d, run, formed, entries⟩ := foldlM_writeKey E writes firstFormed
  refine ⟨d, ?_, formed, ?_⟩
  · rw [runDictionary, built]
    exact run
  · have startReads : (fun k => lookup comparator k sorted) = start.get? := by
      funext k
      refine Option.ext fun v => ?_
      rw [← mem_iff_lookup ascending, listing.mem_iff]
    rw [entries, firstEntries, Write.lookup_foldl_onListing writes ascending, startReads]
    rfl

/-- The listing behind a run. -/
theorem runDictionary_represents (comparator : K → K → Ordering) [Std.TransCmp comparator]
    [Std.LawfulEqCmp comparator] (E : Enumeration K V) (start : Dictionary K V)
    (writes : List (Write K V)) (fits : start.keys.card + 1 < 2 ^ 32) :
    ∃ d l, runDictionary comparator E start writes = .ok d ∧ WellFormed d ∧
      Ascending comparator l ∧ Represents d l ∧
      ∀ k v, (k, v) ∈ l ↔ runReads start writes k = some v := by
  obtain ⟨d, run, formed, reads⟩ := runDictionary_wellFormed comparator E start writes fits
  refine ⟨d, dictionaryEntries d, run, formed, formed.ascending, formed.represents, fun k v => ?_⟩
  rw [mem_iff_lookup formed.ascending, ← reads]

/-- One key of the run's map for each of the listed keys. -/
theorem represents_length {start : Dictionary K V} {writes : List (Write K V)} {l : List (K × V)}
    (members : ∀ k v, (k, v) ∈ l ↔ runReads start writes k = some v) (held : List K)
    (distinct : held.Nodup) (reads : ∀ k ∈ held, (runReads start writes k).isSome) :
    held.length ≤ l.length := by
  have inside : held ⊆ keys l := by
    intro k member
    obtain ⟨v, read⟩ := Option.isSome_iff_exists.mp (reads k member)
    exact List.mem_map.mpr ⟨(k, v), (members k v).mpr read, rfl⟩
  calc
    held.length ≤ (keys l).length := (List.subperm_of_subset distinct inside).length_le
    _ = l.length := length_keys l

/-! ## Arrays and trees -/

omit [DecidableEq K] [Std.TransCmp comparator] [Std.LawfulEqCmp comparator] in
theorem tree_of_count {d : FImmutableSortedDictionary comparator V} (formed : WellFormed d)
    (many : 25 < d.count) : ∃ t, d = .tree t := by
  cases d with
  | tree t => exact ⟨t, rfl⟩
  | array a =>
    have few : a.count ≤ 25 := formed.2
    have count : (FImmutableSortedDictionary.array a).count = a.count := rfl
    omega

/-- A run that leaves more than 25 keys has become a tree. -/
theorem run_becomes_tree (E : Enumeration K V) (start : Dictionary K V) (writes : List (Write K V))
    (fits : start.keys.card + 1 < 2 ^ 32) (held : List K) (distinct : held.Nodup)
    (many : 25 < held.length) (reads : ∀ k ∈ held, (runReads start writes k).isSome) :
    ∃ t, runDictionary comparator E start writes = .ok (.tree t) := by
  obtain ⟨d, l, run, formed, _, represents, members⟩ :=
    runDictionary_represents comparator E start writes fits
  have length := represents_length members held distinct reads
  obtain ⟨t, rfl⟩ := tree_of_count formed (by rw [represents.count]; omega)
  exact ⟨t, run⟩

omit [Std.TransCmp comparator] [Std.LawfulEqCmp comparator] in
/-- A tree never goes back. -/
theorem run_stays_tree (E : Enumeration K V) (start : Dictionary K V)
    (writes later : List (Write K V)) {t : FTreeSortedDictionary comparator V}
    (run : runDictionary comparator E start writes = .ok (.tree t)) :
    ∃ t', runDictionary comparator E start (writes ++ later) = .ok (.tree t') := by
  have stays (later : List (Write K V)) (t : FTreeSortedDictionary comparator V) :
      ∃ t', later.foldlM (writeKey E) (.tree t) = .ok (.tree t') := by
    induction later generalizing t with
    | nil => exact ⟨t, rfl⟩
    | cons write rest ih =>
      cases write with
      | insert k v => exact ih (t.insertKey k v)
      | remove k => exact ih (t.removeKey k)
  obtain ⟨t', goes⟩ := stays later t
  refine ⟨t', ?_⟩
  unfold runDictionary at run ⊢
  cases built : fromDictionary comparator E start with
  | error raised => simp [built, bind, Except.bind] at run
  | ok d =>
    simp only [built, bind, Except.bind] at run
    simp only [List.foldlM_append, bind, Except.bind, run, goes]

omit [Std.TransCmp comparator] [Std.LawfulEqCmp comparator] in
/-- Writes that can make no more than 25 keys leave the arrays. -/
theorem foldlM_writeKey_array (E : Enumeration K V) (writes : List (Write K V))
    (a : FArraySortedDictionary comparator V) (few : a.count + writes.length ≤ 25) :
    ∃ a', writes.foldlM (writeKey E) (.array a) = .ok (.array a') := by
  induction writes generalizing a with
  | nil => exact ⟨a, rfl⟩
  | cons write rest ih =>
    rw [List.length_cons] at few
    cases write with
    | insert k v =>
      have step : ∃ a', a.insertKey E k v = .ok (.array a') ∧ a'.count ≤ a.count + 1 := by
        unfold FArraySortedDictionary.insertKey
        have below : ¬ sortedDictionaryArrayToRbTreeSizeThreshold ≤ a.count := by
          change ¬ 25 ≤ a.count
          omega
        cases FArraySortedDictionary.findKey comparator k a.keys with
        | none =>
          refine ⟨_, if_neg below, ?_⟩
          simp only [FArraySortedDictionary.count, FArraySortedDictionary.inserted,
            List.length_insertIdx]
          split <;> omega
        | some pos =>
          refine ⟨_, rfl, ?_⟩
          simp [FArraySortedDictionary.count, FArraySortedDictionary.replaced]
      obtain ⟨next, inserted, count⟩ := step
      obtain ⟨last, run⟩ := ih next (by omega)
      refine ⟨last, ?_⟩
      rw [List.foldlM_cons]
      change (a.insertKey E k v >>= fun d => rest.foldlM (writeKey E) d) = _
      rw [inserted]
      exact run
    | remove k =>
      have count : (a.removeKey k).count ≤ a.count := by
        unfold FArraySortedDictionary.removeKey
        split
        · exact Nat.le_refl _
        · simp only [FArraySortedDictionary.count, List.length_eraseIdx]
          split <;> omega
      exact ih (a.removeKey k) (by omega)

omit [Std.LawfulEqCmp comparator] in
/-- A run that begins empty and is short stays in the arrays. -/
theorem run_stays_array (E : Enumeration K V) (writes : List (Write K V))
    (few : writes.length ≤ 25) :
    ∃ a, runDictionary comparator E Dictionary.empty writes = .ok (.array a) := by
  have order : E.order (Dictionary.empty : Dictionary K V) = [] := by
    rw [← List.length_eq_zero_iff, (E.lists _).length_eq]
    rfl
  have built : fromDictionary comparator E (Dictionary.empty : Dictionary K V) =
      .ok (.array (.new comparator)) := by
    have small : (Dictionary.empty : Dictionary K V).keys.card ≤
        sortedDictionaryArrayToRbTreeSizeThreshold := Nat.zero_le 25
    rw [fromDictionary, if_pos small, FArraySortedDictionary.fromDictionary, order,
      sortedKeyList_eq List.Pairwise.nil List.Perm.nil]
    rfl
  have none : (FArraySortedDictionary.new comparator : FArraySortedDictionary comparator V).count = 0 :=
    rfl
  obtain ⟨a, run⟩ := foldlM_writeKey_array E writes (.new comparator) (by omega)
  refine ⟨a, ?_⟩
  rw [runDictionary, built]
  exact run

/-! ## The tree of a run -/

section Reads

variable (comparator)

/-- The loop of `get:` with the number of keys that it has compared. -/
def getCounting (key : K) (compared : Nat) : FLLRBNode K V → Option V × Nat
  | .empty => (none, compared)
  | .node nodeKey value _ left right =>
    match comparator key nodeKey with
    | .eq => (some value, compared + 1)
    | .lt => getCounting key (compared + 1) left
    | .gt => getCounting key (compared + 1) right

end Reads

/-- The length of the longest way down. -/
def height : FLLRBNode K V → Nat
  | .empty => 0
  | .node _ _ _ left right => max (height left) (height right) + 1

omit [DecidableEq K] [Std.TransCmp comparator] [Std.LawfulEqCmp comparator] in
/-- Counting changes no answer, and the loop goes one way down. -/
theorem getCounting_eq (key : K) (compared : Nat) (n : FLLRBNode K V) :
    ∃ total, getCounting comparator key compared n =
        (FTreeSortedDictionary.getLoop comparator key n, total) ∧ total ≤ compared + height n := by
  induction n generalizing compared with
  | empty => exact ⟨compared, rfl, Nat.le_refl _⟩
  | node nodeKey value color left right ihLeft ihRight =>
    simp only [getCounting, FTreeSortedDictionary.getLoop, height]
    cases comparator key nodeKey with
    | eq => exact ⟨compared + 1, rfl, by omega⟩
    | lt =>
      obtain ⟨total, counted, bound⟩ := ihLeft (compared + 1)
      exact ⟨total, counted, by omega⟩
    | gt =>
      obtain ⟨total, counted, bound⟩ := ihRight (compared + 1)
      exact ⟨total, counted, by omega⟩

omit [DecidableEq K] in
theorem Balanced.height_le {n : FLLRBNode K V} {h : Nat} (balanced : Balanced n h) :
    height n ≤ 2 * h + (if n.isRed then 1 else 0) := by
  induction balanced with
  | empty => exact Nat.le_refl _
  | @black l r h k v _ _ rightBlack ihLeft ihRight =>
    rw [rightBlack] at ihRight
    have below : height l ≤ 2 * h + 1 := by
      refine Nat.le_trans ihLeft ?_
      split <;> omega
    simp only [height, isRed_black, Bool.false_eq_true, if_false] at ihRight ⊢
    omega
  | red _ _ leftBlack rightBlack ihLeft ihRight =>
    rw [leftBlack] at ihLeft
    rw [rightBlack] at ihRight
    simp only [height, isRed_red, Bool.false_eq_true, if_false, if_true] at ihLeft ihRight ⊢
    omega

/-- What the class asks of a tree, and what it gives for it: the root is black,
`check` and `checkMaxDepth` pass, and a read compares at most twice as many keys
as the black depth, which the count bounds. -/
def PassesChecks (comparator : K → K → Ordering) (t : FTreeSortedDictionary comparator V) : Prop :=
  t.root.isRed = false ∧ t.root.checkMaxDepth = .ok true ∧
    ∃ blackDepth, t.root.check = .ok blackDepth ∧ 2 ^ blackDepth ≤ t.count + 1 ∧
      ∀ key, ∃ compared, getCounting comparator key 0 t.root = (t.get key, compared) ∧
        compared ≤ 2 * blackDepth

/-- Thirty keys from the last to the first, one again, and two removals, one of
a key that is not there. -/
def thirtyWrites : List (Write Nat Bool) :=
  (List.range 30).reverse.map (fun k => .insert k true) ++
    [.insert 7 false, .remove 3, .remove 40]

theorem thirtyWrites_tree :
    ∃ t, runDictionary (compare : Nat → Nat → Ordering) Enumeration.ascending Dictionary.empty
      thirtyWrites = .ok (.tree t) :=
  run_becomes_tree Enumeration.ascending Dictionary.empty thirtyWrites (by decide)
    ((List.range 30).erase 3) (by decide) (by decide) (by decide)

/-- The tree that the builder makes of a dictionary whose count does not wrap, for
a comparator that orders its keys: always the same one, with the logarithm of the
count as its black depth. -/
theorem built_tree (start : Dictionary K V) (fits : start.keys.card + 1 < 2 ^ 32) :
    ∃ d : FTreeSortedDictionary comparator V,
      (∀ E, FTreeSortedDictionary.fromDictionary comparator E start = .ok d) ∧
      d.root.check = .ok (Nat.log2 (start.keys.card + 1)) ∧ Ascending comparator d.root.entries ∧
      start.Lists d.root.entries := by
  obtain ⟨sorted, ascending, listing⟩ : ∃ sorted, Ascending comparator sorted ∧ start.Lists sorted :=
    exists_ascending_listing start
  obtain ⟨d, built, _, balanced, contents⟩ :=
    exists_tree_fromDictionary start ascending listing (by rw [listing.length_eq]; exact fits)
  rw [listing.length_eq] at balanced
  refine ⟨d, built, (check_eq_ok_iff _ _).mpr balanced, ?_, ?_⟩
  · rw [contents]
    exact ascending
  · rw [contents]
    exact listing

/-- Ten keys; ten is 122 in the digits 1 and 2. -/
def tenKeys : Dictionary Nat Bool :=
  (List.range 10).foldl (fun dictionary k => dictionary.set k (k % 2 = 0)) Dictionary.empty

theorem tenKeys_card : tenKeys.keys.card = 10 := by decide

theorem built_tree_nat :
    ∃ d : FTreeSortedDictionary (compare : Nat → Nat → Ordering) Bool,
      (∀ E, FTreeSortedDictionary.fromDictionary compare E tenKeys = .ok d) ∧
      d.root.check = .ok 3 ∧ Ascending compare d.root.entries ∧ tenKeys.Lists d.root.entries := by
  have depth : Nat.log2 (tenKeys.keys.card + 1) = 3 := by rw [tenKeys_card]; decide
  rw [← depth]
  exact built_tree tenKeys (by rw [tenKeys_card]; decide)

/-! ## The reads of a run -/

omit [DecidableEq K] in
theorem isEqual_iff [DecidableEq V] {d e : FImmutableSortedDictionary comparator V}
    {l m : List (K × V)} (left : Represents d l) (right : Represents e m)
    (ascendingLeft : Ascending comparator l) (ascendingRight : Ascending comparator m) :
    d.isEqual (fun v w => v = w) e = true ↔ l = m := by
  rw [FImmutableSortedDictionary.isEqual, left.count, right.count, left.enumerate]
  have found (entry : K × V) :
      ((e.get entry.1).any fun w => decide (entry.2 = w)) = true ↔ entry ∈ m := by
    rw [right.get, Option.any_eq_true]
    constructor
    · rintro ⟨w, read, same⟩
      rw [decide_eq_true_eq] at same
      rw [show entry = (entry.1, w) from Prod.ext rfl same]
      exact mem_of_lookup read
    · intro member
      exact ⟨entry.2, (mem_iff_lookup ascendingRight).mp member, by simp⟩
  by_cases lengths : l.length = m.length
  · have stops := visit_all (fun entry : K × V => (e.get entry.1).any fun w => decide (entry.2 = w)) l
    rw [if_neg (by simpa using lengths), stops, List.all_eq_true]
    simp only [found]
    constructor
    · intro inside
      have distinct : l.Nodup := (nodup_keys ascendingLeft).of_map
      have same := (List.subperm_of_subset distinct inside).perm_of_length_le (by omega)
      exact eq_of_sorted_perm (List.Pairwise.imp (fun {a b} less => by rw [less]; rfl) ascendingLeft)
        ascendingRight same
    · rintro rfl entry member
      exact member
  · rw [if_pos (by simpa using lengths)]
    refine iff_of_false (by decide) fun same => lengths (by rw [same])

/-- Thirty keys without the last twenty, and the first ten in another order. -/
def firstTen : List (Write Nat Bool) :=
  (List.range 30).map (fun k => .insert k true) ++ (List.range 20).map fun k => .remove (k + 10)

def firstTenBackwards : List (Write Nat Bool) :=
  (List.range 10).reverse.map fun k => .insert k true

theorem firstTen_reads (k : Nat) :
    runReads Dictionary.empty firstTen k = runReads Dictionary.empty firstTenBackwards k := by
  by_cases small : k < 30
  · exact (by decide : ∀ k < 30, runReads Dictionary.empty firstTen k =
      runReads Dictionary.empty firstTenBackwards k) k small
  · have untouched (writes : List (Write Nat Bool)) (keys : ∀ write ∈ writes, write.key < 30) :
        runReads Dictionary.empty writes k = none :=
      Write.foldl_onReads_of_ne writes _ fun write member same => small (same ▸ keys write member)
    rw [untouched firstTen (by decide), untouched firstTenBackwards (by decide)]

/-- Enumerating backwards without a start key depends on the representation: the
arrays hand out all keys in descending order, a tree hands out none. Above 25
entries it is always a tree. -/
theorem reverse_enumeration_of_run (E : Enumeration K V) (start : Dictionary K V)
    (writes : List (Write K V)) (fits : start.keys.card + 1 < 2 ^ 32) :
    ∃ d l, runDictionary comparator E start writes = .ok d ∧ Ascending comparator l ∧
      (∀ k v, (k, v) ∈ l ↔ runReads start writes k = some v) ∧
      (∀ a, d = .array a →
        Yields KeyEnumerator.nextObject d.reverseKeyEnumerator (keys l).reverse) ∧
      (∀ t, d = .tree t → Yields KeyEnumerator.nextObject d.reverseKeyEnumerator []) ∧
      (25 < l.length → ∃ t, d = .tree t) := by
  obtain ⟨d, l, run, formed, ascending, represents, members⟩ :=
    runDictionary_represents comparator E start writes fits
  refine ⟨d, l, run, ascending, members, ?_, ?_, ?_⟩
  · rintro a rfl
    have listed : Yields (KeyEnumerator.nextObject (V := V)) (.array a.keyEnumerator) a.keys :=
      (yields_array_from a.keys 0).through KeyEnumerator.array fun _ => rfl
    have whole := yields_array_down a.keys a.keys.length (Nat.le_refl _)
    have handed : Yields (KeyEnumerator.nextObject (V := V)) (.array a.reverseKeyEnumerator)
        (a.keys.take a.keys.length).reverse := whole.through KeyEnumerator.array fun _ => rfl
    rw [List.take_length, listed.unique represents.keyEnumerator] at handed
    exact handed
  · rintro t rfl
    have none : pendingOf t.reverseKeyEnumerator = [] := by
      change pendingReverse (FTreeSortedDictionaryEnumerator.initLoop comparator none true [] t.root) = []
      rw [initLoop_reverse]
      rfl
    have yields := yields_pendingOf t.reverseKeyEnumerator
    rw [none] at yields
    exact yields.through KeyEnumerator.tree fun _ => rfl
  · intro many
    exact tree_of_count formed (by rw [represents.count]; exact many)

/-- Two keys in the arrays, and a tree. -/
theorem reverse_enumeration_of_run_nat :
    (∃ a, ∃ l : List (Nat × Bool), runDictionary (compare : Nat → Nat → Ordering)
        Enumeration.ascending Dictionary.empty [.insert 2 true, .insert 1 false] = .ok (.array a) ∧
      2 ≤ l.length ∧
      Yields KeyEnumerator.nextObject
        (FImmutableSortedDictionary.array a).reverseKeyEnumerator (keys l).reverse) ∧
    ∃ t, ∃ l : List (Nat × Bool), runDictionary (compare : Nat → Nat → Ordering)
        Enumeration.ascending Dictionary.empty thirtyWrites = .ok (.tree t) ∧ 25 < l.length ∧
      (∀ k v, (k, v) ∈ l ↔ runReads Dictionary.empty thirtyWrites k = some v) ∧
      Yields KeyEnumerator.nextObject
        (FImmutableSortedDictionary.tree t).reverseKeyEnumerator [] := by
  have enumerates (writes : List (Write Nat Bool)) : ∃ d l, runDictionary
      (compare : Nat → Nat → Ordering) Enumeration.ascending Dictionary.empty writes = .ok d ∧
      Ascending compare l ∧ (∀ k v, (k, v) ∈ l ↔ runReads Dictionary.empty writes k = some v) ∧
      (∀ a, d = .array a →
        Yields KeyEnumerator.nextObject d.reverseKeyEnumerator (keys l).reverse) ∧
      (∀ t, d = .tree t → Yields KeyEnumerator.nextObject d.reverseKeyEnumerator []) ∧
      (25 < l.length → ∃ t, d = .tree t) :=
    reverse_enumeration_of_run Enumeration.ascending Dictionary.empty writes (by decide)
  constructor
  · obtain ⟨a, run⟩ : ∃ a, runDictionary (compare : Nat → Nat → Ordering) Enumeration.ascending
        Dictionary.empty [.insert 2 true, .insert 1 false] = .ok (.array a) :=
      run_stays_array Enumeration.ascending _ (by decide)
    obtain ⟨d, l, same, _, members, array, _, _⟩ := enumerates [.insert 2 true, .insert 1 false]
    obtain rfl := Except.ok.inj (same.symm.trans run)
    exact ⟨a, l, run, represents_length members [1, 2] (by decide) (by decide), array a rfl⟩
  · obtain ⟨d, l, run, _, members, _, tree, many⟩ := enumerates thirtyWrites
    have length := represents_length members ((List.range 30).erase 3) (by decide) (by decide)
    have counted : ((List.range 30).erase 3).length = 29 := by decide
    obtain ⟨t, rfl⟩ := many (by omega)
    exact ⟨t, l, run, by omega, members, tree t rfl⟩

end WatchAndSee.Guarantees
