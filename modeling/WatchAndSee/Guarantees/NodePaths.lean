import WatchAndSee.Guarantees.NodeRoundTrip

/-!
# Where a stored value stands

A value that is stored is found again by its path: a leaf under the keys of the
dictionaries and the numbers of the array elements that lead to it, a priority
beside the value that brings it. A dictionary with a `.value` is that leaf and
has no children, whatever else it holds. Two keys that the key order does not
tell apart address one place, so the keys of the path are taken without such
a twin.
-/

set_option autoImplicit false

namespace WatchAndSee.Guarantees.StoredNodes
open Library
open Library.CodeUnits (unichars)
open Library.Decimal (numeral)
open Source
open Source.FStoredNode Source.FValidation Source.FSnapshotUtilities

/-- What stands under `.value`, or the value itself. -/
def inner : AnyValue → AnyValue
  | .dictionary dict => (dict.get? kPayloadValue).getD (.dictionary dict)
  | value => value

/-- The priority that a value brings, or the one from outside. -/
def rawPriority (outer : AnyValue) : AnyValue → AnyValue
  | .dictionary dict => (dict.get? kPayloadPriority).getD outer
  | _ => outer

def nonNull : AnyValue → Option AnyValue
  | .null => none
  | value => some value

/-- The element of a dictionary or array under a key. -/
def childIn (value : AnyValue) (k : String) : AnyValue :=
  if isMetadata k then .null
  else
    match value with
    | .dictionary dict => (dict.get? k).getD .null
    | .array elements => ((numbered 0 elements).lookup k).getD .null
    | _ => .null

open Classical in
/-- The leaf that a value has at a path. -/
noncomputable def valueIn : AnyValue → FPath → Option AnyValue
  | .null, _ => none
  | value, [] => if StorableLeaf (inner value) then some (inner value) else none
  | value, k :: path => if StorableLeaf (inner value) then none else valueIn (childIn value k) path

open Classical in
/-- The priority that a value has at a path. -/
noncomputable def priorityIn (outer value : AnyValue) : FPath → Option AnyValue
  | [] => nonNull (rawPriority outer value)
  | k :: path => if StorableLeaf (inner value) then none else priorityIn .null (childIn value k) path

/-- No other key is at the same place in the key order. -/
def NoTie (k : String) : Prop := ∀ j, keyComparator k j = .eq → j = k

theorem noTie_iff (k : String) :
    NoTie k ↔ ∀ m, 0 < m → m ≤ 10 → k ≠ zeros (m + 1) ∧ k ≠ negativeZeros m := by
  constructor
  · intro alone m positive short
    have tie : keyComparator (zeros (m + 1)) (negativeZeros m) = .eq :=
      (compareKey_eq_iff _ _).mpr (.inr ⟨m, positive, short, .inl ⟨rfl, rfl⟩⟩)
    have apart : zeros (m + 1) ≠ negativeZeros m := by
      intro same
      have units := congrArg unichars same
      rw [unichars_zeros, unichars_negativeZeros, List.replicate_succ] at units
      exact absurd (List.cons.inj units).1 (by decide)
    constructor
    · rintro rfl
      exact apart (alone _ tie).symm
    · rintro rfl
      exact apart (alone _ (Std.OrientedCmp.eq_comm.mp tie))
  · intro clean j tie
    rcases (compareKey_eq_iff k j).mp tie with same | ⟨m, positive, short, twins⟩
    · exact same.symm
    · rcases twins with ⟨zero, _⟩ | ⟨negative, _⟩
      · exact absurd zero (clean m positive short).1
      · exact absurd negative (clean m positive short).2

/-! ## Elements and children -/

theorem lookup_numbered {i : Nat} {elements : List AnyValue} {k : String} {value : AnyValue}
    (member : (k, value) ∈ numbered i elements) : (numbered i elements).lookup k = some value := by
  induction elements generalizing i with
  | nil => exact absurd member List.not_mem_nil
  | cons element rest ih =>
    rw [numbered] at member ⊢
    rcases List.mem_cons.mp member with same | later
    · obtain ⟨rfl, rfl⟩ := Prod.mk.inj same
      exact List.lookup_cons_self
    · obtain ⟨n, bound, rfl⟩ := key_of_mem_numbered later
      have apart : numeral n ≠ numeral i := by
        intro same
        have := Decimal.numeral_injective same
        omega
      rw [List.lookup_cons, beq_false_of_ne apart]
      exact ih later

section NodeFrom

variable {E : Enumeration String AnyValue} {classDescription : AnyValue → String} {fn : String}

theorem childIn_of_mem {value child : AnyValue} {k : String} (allowed : KeysAllowed E value)
    (member : (k, child) ∈ childEntries E value) : childIn value k = child := by
  have valid := isValidKey_of_childEntries allowed member
  have plain := (isValidKey_iff (.inr (.inr (.inr valid)))).mp valid
  unfold childIn
  rw [plain, if_neg Bool.false_ne_true]
  cases value with
  | dictionary dict =>
    have read := ((E.lists dict).mem_iff k child).mp (List.mem_filter.mp member).1
    dsimp only
    rw [read]
    rfl
  | array elements =>
    dsimp only
    rw [lookup_numbered member]
    rfl
  | _ => exact absurd member List.not_mem_nil

theorem childIn_of_absent {value : AnyValue} {k : String}
    (absent : ∀ child, (k, child) ∉ childEntries E value) : childIn value k = .null := by
  unfold childIn
  cases metadata : isMetadata k with
  | true => rfl
  | false =>
    rw [if_neg Bool.false_ne_true]
    cases value with
    | dictionary dict =>
      dsimp only
      cases read : dict.get? k with
      | none => rfl
      | some child =>
        have listed := ((E.lists dict).mem_iff k child).mpr read
        exact absurd (List.mem_filter.mpr ⟨listed, by simp [metadata]⟩) (absent child)
    | array elements =>
      dsimp only
      cases read : (numbered 0 elements).lookup k with
      | none => rfl
      | some child =>
        obtain ⟨before, after, split, _⟩ := List.lookup_eq_some_iff.mp read
        exact absurd (by rw [childEntries, split]; simp) (absent child)
    | _ => rfl

theorem OwnValue.eq_inner {val value : AnyValue} {isLeaf : Bool} (own : OwnValue val value isLeaf) :
    value = inner val := by
  cases val with
  | dictionary dict =>
    unfold OwnValue at own
    unfold inner
    dsimp only at own ⊢
    cases found : dict.get? kPayloadValue with
    | none =>
      rw [found] at own
      exact own.1
    | some value' =>
      rw [found] at own
      exact own.1
  | _ => exact own.1

theorem OwnValue.whole {val value : AnyValue} {isLeaf : Bool} (own : OwnValue val value isLeaf)
    (branch : ¬ StorableLeaf value) : value = val := by
  cases isLeaf with
  | true => exact absurd own.storable branch
  | false =>
    cases val with
    | dictionary dict =>
      unfold OwnValue at own
      dsimp only at own
      split at own
      · cases own.2.2
      · exact own.1
    | _ => exact own.1

theorem StoresPriority.leafValue_eq {raw : AnyValue} {p : FStoredNode} (stores : StoresPriority raw p) :
    leafValue p = nonNull raw := by
  cases stores with
  | null => rfl
  | value allowed =>
    cases raw with
    | null => exact absurd rfl allowed.2.1
    | _ => rfl

theorem OwnPriority.leafValue_eq {val outer : AnyValue} {p₀ p : FStoredNode}
    (outside : StoresPriority outer p₀) (own : OwnPriority val p₀ p) :
    leafValue p = nonNull (rawPriority outer val) := by
  cases val with
  | dictionary dict =>
    unfold OwnPriority at own
    unfold rawPriority
    dsimp only at own ⊢
    cases found : dict.get? kPayloadPriority with
    | none =>
      rw [found] at own
      rw [show p = p₀ from own]
      exact outside.leafValue_eq
    | some raw =>
      rw [found] at own
      exact StoresPriority.leafValue_eq own
  | _ =>
    rw [show p = p₀ from own]
    exact outside.leafValue_eq

theorem valueIn_null (path : FPath) : valueIn .null path = none := by
  cases path <;> rfl

/-- The branches of a node are what its value has under its keys. -/
theorem branch_spec {levels : Nat} {value : AnyValue} {p n : FStoredNode} {path : List String}
    {named : List (String × FStoredNode)} (allowed : KeysAllowed E value)
    (nodes : keyedNodes path
      (fun value path => internalNodeFrom E classDescription fn levels value .null path)
      (childEntries E value) = .ok named)
    (node : nodeOver p (fullEntries named) = .ok n) {k : String} (alone : NoTie k) :
    leafValue n = none ∧
      (entry n k = emptyNode ∧ childIn value k = .null ∨
        internalNodeFrom E classDescription fn levels (childIn value k) .null (path ++ [k]) =
          .ok (entry n k)) := by
  obtain ⟨entries, ascending, same, value_eq, reads⟩ : ∃ entries,
      SortedListing.Ascending keyComparator entries ∧ entries.Perm (fullEntries named) ∧
        leafValue n = none ∧
        entry n k = (SortedListing.lookup keyComparator k entries).getD emptyNode := by
    rcases (nodeOver_success_iff _ _ _).mp node with ⟨none, rfl⟩ | ⟨_, entries, ascending, same, rfl⟩
    · exact ⟨[], List.Pairwise.nil, by rw [none], rfl, rfl⟩
    · exact ⟨entries, ascending, same, rfl, rfl⟩
  refine ⟨value_eq, ?_⟩
  cases found : SortedListing.lookup keyComparator k entries with
  | some c =>
    rw [found] at reads
    obtain ⟨j, member, tie⟩ := SortedListing.exists_mem_of_lookup found
    rw [alone j tie] at member
    obtain ⟨_, child, inside, made⟩ := entries_made nodes same _ member
    rw [reads, childIn_of_mem allowed inside]
    exact .inr made
  | none =>
    rw [found] at reads
    by_cases present : ∃ child, (k, child) ∈ childEntries E value
    · obtain ⟨child, inside⟩ := present
      obtain ⟨c, listed, made⟩ := keyedNodes_of_mem nodes inside
      have formed := (internalNodeFrom_wellFormed made).1
      have empty : c.isEmpty = true := by
        by_contra full
        have kept : (k, c) ∈ fullEntries named :=
          List.mem_filter.mpr ⟨listed, by simpa using full⟩
        rw [SortedListing.lookup_of_mem ascending (same.symm.subset kept)] at found
        cases found
      rw [formed.eq_empty empty] at made
      rw [reads, childIn_of_mem allowed inside]
      exact .inr made
    · exact .inl ⟨reads, childIn_of_absent fun child member => present ⟨child, member⟩⟩

/-! ## Reads of what was stored -/

theorem valueIn_nil_of_leaf {value : AnyValue} (notNull : value ≠ .null)
    (leaf : StorableLeaf (inner value)) : valueIn value [] = some (inner value) := by
  cases value <;> first | exact absurd rfl notNull | exact if_pos leaf

theorem valueIn_nil_of_branch {value : AnyValue} (branch : ¬ StorableLeaf (inner value)) :
    valueIn value [] = none := by
  cases value <;> first | rfl | exact if_neg branch

theorem valueIn_cons_of_leaf {value : AnyValue} (leaf : StorableLeaf (inner value)) (k : String)
    (path : FPath) : valueIn value (k :: path) = none := by
  cases value <;> first | rfl | exact if_pos leaf

theorem valueIn_cons_of_branch {value : AnyValue} (branch : ¬ StorableLeaf (inner value)) (k : String)
    (path : FPath) : valueIn value (k :: path) = valueIn (childIn value k) path := by
  cases value <;> first | exact absurd trivial branch | exact if_neg branch

/-- What a document and a value have at a path: the same leaf, and the same
priority where anything is stored. -/
structure ReadsAs (d : Document String AnyValue) (outer value : AnyValue) (path : FPath) : Prop where
  values : d.values path = valueIn value path
  marks : d.Holds path → d.marks path = priorityIn outer value path
  bare : ¬ d.Holds path → d.marks path = none

theorem readsAs_empty {value : AnyValue} (outer : AnyValue) {path : FPath}
    (nothing : valueIn value path = none) : ReadsAs (documentOf emptyNode) outer value path where
  values := by
    rw [nothing]
    exact congrArg leafValue (descendant_emptyNode path)
  marks holds := by
    obtain ⟨rest, found⟩ := holds
    rw [show (documentOf emptyNode).values (path ++ rest) = none from
      congrArg leafValue (descendant_emptyNode _)] at found
    cases found
  bare _ := congrArg (fun n : FStoredNode => leafValue n.getPriority) (descendant_emptyNode path)

/-- A path goes down one level at a time. -/
theorem ReadsAs.cons {n : FStoredNode} {outer value : AnyValue} {k : String} {path : FPath}
    (branch : ¬ StorableLeaf (inner value))
    (below : ReadsAs (documentOf (entry n k)) .null (childIn value k) path) :
    ReadsAs (documentOf n) outer value (k :: path) where
  values := by
    rw [valueIn_cons_of_branch branch]
    exact below.values
  marks holds := by
    rw [priorityIn, if_neg branch]
    exact below.marks holds
  bare nothing := below.bare nothing

/-- By induction on the path. -/
theorem internalNodeFrom_reads {levels : Nat} {val outer : AnyValue} {path : List String}
    {n : FStoredNode} (success : internalNodeFrom E classDescription fn levels val outer path = .ok n)
    {q : FPath} (alone : ∀ k ∈ q, NoTie k) : ReadsAs (documentOf n) outer val q := by
  induction q generalizing levels val outer path n with
  | nil =>
    have formed := (internalNodeFrom_wellFormed success).1
    cases levels with
    | zero => cases success
    | succ levels =>
      by_cases null : val = .null
      · rw [null, internalNodeFrom, Except.ok.injEq] at success
        rw [← success, null]
        exact readsAs_empty outer (valueIn_null [])
      · rw [internalNodeFrom_success_iff _ _ _ _ null] at success
        obtain ⟨p₀, p, value, isLeaf, outside, priority, own, leafNode | branch⟩ := success
        · obtain ⟨storable, rfl⟩ := leafNode
          rw [own.eq_inner] at storable ⊢
          refine ⟨(valueIn_nil_of_leaf null storable).symm, fun _ => priority.leafValue_eq outside,
            fun nothing => ?_⟩
          exact absurd ⟨[], rfl⟩ nothing
        · obtain ⟨branches, _, named, _, node⟩ := branch
          have notLeaf : ¬ StorableLeaf (inner val) := by
            rw [← own.eq_inner]
            exact fun storable => not_branches_of_storable storable branches
          rcases (nodeOver_success_iff _ _ _).mp node with ⟨_, rfl⟩ | ⟨_, entries, _, _, rfl⟩
          · exact readsAs_empty outer (valueIn_nil_of_branch notLeaf)
          · refine ⟨(valueIn_nil_of_branch notLeaf).symm, fun _ => priority.leafValue_eq outside,
              fun nothing => ?_⟩
            rw [formed.holds_iff] at nothing
            have empty := formed.eq_empty (by simpa using nothing)
            cases empty
  | cons k q ih =>
    obtain ⟨here, later⟩ := List.forall_mem_cons.mp alone
    cases levels with
    | zero => cases success
    | succ levels =>
      by_cases null : val = .null
      · rw [null, internalNodeFrom, Except.ok.injEq] at success
        rw [← success, null]
        exact readsAs_empty outer (valueIn_null _)
      · rw [internalNodeFrom_success_iff _ _ _ _ null] at success
        obtain ⟨p₀, p, value, isLeaf, _, _, own, leafNode | branch⟩ := success
        · obtain ⟨storable, rfl⟩ := leafNode
          rw [own.eq_inner] at storable
          have nothing := readsAs_empty outer (valueIn_cons_of_leaf storable k q)
          exact ⟨nothing.values, nothing.marks, nothing.bare⟩
        · obtain ⟨branches, allowed, named, nodes, node⟩ := branch
          have notLeaf : ¬ StorableLeaf (inner val) := by
            rw [← own.eq_inner]
            exact fun storable => not_branches_of_storable storable branches
          have whole := own.whole (fun storable => not_branches_of_storable storable branches)
          rw [whole] at allowed nodes
          obtain ⟨_, ⟨none, null⟩ | made⟩ := branch_spec allowed nodes node here
          · refine .cons notLeaf ?_
            rw [none, null]
            exact readsAs_empty _ (valueIn_null q)
          · exact .cons notLeaf (ih made later)

/-- A stored value is read at the paths where it has its leaves and priorities. -/
theorem stored_value_reads {val priority : AnyValue} {n : FStoredNode}
    (success : nodeFrom E classDescription fn val priority = .ok n) {path : FPath}
    (alone : ∀ k ∈ path, NoTie k) : ReadsAs (documentOf n) priority val path :=
  internalNodeFrom_reads success alone

end NodeFrom

theorem stored_value_reads_recipe :
    ReadsAs (documentOf storedRecipe.node) .null (valForExport true storedRecipe.node) ["title"] := by
  refine stored_value_reads storedRecipe_again (fun k member => (noTie_iff k).mpr ?_)
  intro m _ _
  rw [List.mem_singleton.mp member]
  have title : ("title" : String).toList = ['t', 'i', 't', 'l', 'e'] := rfl
  have zero : (zeros (m + 1)).toList = '0' :: List.replicate m '0' := String.toList_ofList
  have negative : (negativeZeros m).toList = '-' :: List.replicate m '0' := String.toList_ofList
  constructor
  · intro same
    rw [← same, title] at zero
    exact absurd (List.cons.inj zero).1 (by decide)
  · intro same
    rw [← same, title] at negative
    exact absurd (List.cons.inj negative).1 (by decide)

end WatchAndSee.Guarantees.StoredNodes
