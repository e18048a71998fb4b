import WatchAndSee.Guarantees.ChildOrder
import WatchAndSee.Library.Documents
import WatchAndSee.Source.FValidation

/-!
# Well-formed nodes and what an update does to them

A stored node keeps its children in ascending key order, none of them empty,
under keys that the validation accepts; an empty node has no priority. Updates
keep this, and they change the node as a write changes a document. Keys are in one
normal form; two keys that `keyComparator` ties address one place.
-/

set_option autoImplicit false

namespace WatchAndSee.Guarantees.StoredNodes
open Library
open Library.SortedListing (Ascending lookup put erase)
open Source
open Source.FStoredNode Source.FValidation

/-- What `validateFrom:isValidLeafValue:withPath:` accepts. -/
def StorableLeaf : AnyValue → Prop
  | .string text => text.utf8ByteSize ≤ kFirebaseMaxLeafSize
  | .dictionary entries => (entries.get? kServerValueSubKey).isSome ∧ entries.keys.card ≤ 1
  | .array _ => False
  | .object _ => False
  | _ => True

/-- A leaf value that is neither null nor a truth value. -/
def PriorityValue (value : AnyValue) : Prop :=
  StorableLeaf value ∧ getJavascriptType value ≠ .null ∧ getJavascriptType value ≠ .boolean

inductive IsPriority : FStoredNode → Prop where
  | none : IsPriority emptyNode
  | value {value : AnyValue} (allowed : PriorityValue value) : IsPriority (.leaf value emptyNode)

inductive WellFormed : FStoredNode → Prop where
  | empty : WellFormed emptyNode
  | leaf {value : AnyValue} {priority : FStoredNode} (storable : StorableLeaf value)
      (isPriority : IsPriority priority) : WellFormed (.leaf value priority)
  | children {priority : FStoredNode} {entries : List (String × FStoredNode)}
      (nonempty : entries ≠ []) (isPriority : IsPriority priority)
      (ascending : Ascending keyComparator entries)
      (validKeys : ∀ e ∈ entries, isValidKey e.1 = true)
      (full : ∀ e ∈ entries, e.2.isEmpty = false) (formed : ∀ e ∈ entries, WellFormed e.2) :
      WellFormed (.children (some priority) entries)

/-- A node as the library stores it. -/
structure StoredNode where
  node : FStoredNode
  formed : WellFormed node

@[simp] theorem isEmpty_emptyNode : emptyNode.isEmpty = true := rfl

@[simp] theorem getPriority_emptyNode : emptyNode.getPriority = emptyNode := rfl

theorem IsPriority.wellFormed {p : FStoredNode} (isPriority : IsPriority p) : WellFormed p := by
  cases isPriority with
  | none => exact .empty
  | value allowed => exact .leaf allowed.1 .none

theorem IsPriority.validates {p : FStoredNode} (isPriority : IsPriority p) :
    validatePriorityNode p = .ok () := by
  cases isPriority with
  | none => rfl
  | @value value allowed =>
    obtain ⟨storable, notNull, notBoolean⟩ := allowed
    cases value with
    | dictionary entries =>
      simp only [validatePriorityNode, validatePriorityType, nsAssert, storable.1]
      rfl
    | null => exact absurd rfl notNull
    | bool => exact absurd rfl notBoolean
    | array => exact absurd rfl notNull
    | object => exact absurd rfl notNull
    | int => rfl
    | double => rfl
    | string => rfl

theorem WellFormed.priority {n : FStoredNode} (formed : WellFormed n) : IsPriority n.getPriority := by
  cases formed with
  | empty => exact .none
  | leaf _ isPriority => exact isPriority
  | children _ isPriority => exact isPriority

/-- There is one empty node. -/
theorem WellFormed.eq_empty {n : FStoredNode} (formed : WellFormed n) (empty : n.isEmpty = true) :
    n = emptyNode := by
  cases formed with
  | empty => rfl
  | leaf => cases empty
  | children nonempty => exact absurd (List.isEmpty_iff.mp empty) nonempty

/-! ## Reads below a node -/

/-- The child under a key, empty where there is none. -/
def entry (n : FStoredNode) (k : String) : FStoredNode :=
  match n with
  | .leaf _ _ => emptyNode
  | .children _ entries => (lookup keyComparator k entries).getD emptyNode

theorem entry_children (priority : Option FStoredNode) (entries : List (String × FStoredNode))
    (k : String) :
    entry (.children priority entries) k = (lookup keyComparator k entries).getD emptyNode := rfl

def descendant : FStoredNode → FPath → FStoredNode
  | n, [] => n
  | n, k :: path => descendant (entry n k) path

def leafValue : FStoredNode → Option AnyValue
  | .leaf value _ => some value
  | .children _ _ => none

/-- The values of the leaves and the priorities of all nodes, by path. -/
def documentOf (n : FStoredNode) : Document String AnyValue where
  values path := leafValue (descendant n path)
  marks path := leafValue (descendant n path).getPriority

theorem child_documentOf (n : FStoredNode) (k : String) :
    (documentOf n).child k = documentOf (entry n k) := rfl

theorem descendant_emptyNode (path : FPath) : descendant emptyNode path = emptyNode := by
  induction path with
  | nil => rfl
  | cons k path ih => exact ih

theorem descendant_append (n : FStoredNode) (p q : FPath) :
    descendant n (p ++ q) = descendant (descendant n p) q := by
  induction p generalizing n with
  | nil => rfl
  | cons k p ih => exact ih (entry n k)

theorem getImmediateChild_eq (n : FStoredNode) {k : String} (name : k ≠ ".priority") :
    n.getImmediateChild k = entry n k := by
  cases n <;> simp [getImmediateChild, entry, name]

/-- `getChild:` along a path that names no priority. -/
theorem getChild_eq (n : FStoredNode) {path : FPath} (plain : ".priority" ∉ path) :
    n.getChild path = descendant n path := by
  induction path generalizing n with
  | nil => cases n <;> rfl
  | cons k path ih =>
    obtain ⟨name, rest⟩ := not_or.mp (mt List.mem_cons.mpr plain)
    have different : k ≠ ".priority" := Ne.symm name
    cases n with
    | leaf value priority =>
      rw [getChild, if_neg different]
      exact (descendant_emptyNode path).symm
    | children priority entries =>
      rw [getChild, getImmediateChild_eq _ different]
      exact ih _ rest

theorem WellFormed.child {n : FStoredNode} (formed : WellFormed n) (k : String) :
    WellFormed (entry n k) := by
  cases formed with
  | empty => exact .empty
  | leaf => exact .empty
  | @children priority entries _ _ _ _ _ formed =>
    rw [entry_children]
    cases found : lookup keyComparator k entries with
    | none => exact .empty
    | some child =>
      obtain ⟨j, member, _⟩ := SortedListing.exists_mem_of_lookup found
      exact formed _ member

theorem entry_congr (n : FStoredNode) {j k : String} (same : keyComparator j k = .eq) :
    entry n j = entry n k := by
  cases n with
  | leaf => rfl
  | children priority entries =>
    rw [entry_children, entry_children, SortedListing.lookup_congr same]

/-- Something stands below a node exactly when it is not empty. -/
theorem WellFormed.holds_iff {n : FStoredNode} (formed : WellFormed n) :
    (documentOf n).Holds [] ↔ n.isEmpty = false := by
  induction formed with
  | empty =>
    refine iff_of_false ?_ (by decide)
    rintro ⟨path, found⟩
    have nothing : (documentOf emptyNode).values path = none :=
      congrArg leafValue (descendant_emptyNode path)
    rw [List.nil_append, nothing] at found
    cases found
  | leaf => exact iff_of_true ⟨[], rfl⟩ rfl
  | @children priority entries nonempty _ ascending _ full _ ih =>
    refine iff_of_true ?_ (by simpa [isEmpty] using nonempty)
    obtain ⟨e, member⟩ := List.exists_mem_of_ne_nil entries nonempty
    have found : entry (.children (some priority) entries) e.1 = e.2 := by
      rw [entry_children, SortedListing.lookup_of_mem ascending member]
      rfl
    rw [Document.holds_nil_iff]
    refine .inr ⟨e.1, ?_⟩
    rw [child_documentOf, found]
    exact (ih e member).mpr (full e member)

/-! ## One child -/

/-- The listings of children that a node may have. -/
structure GoodEntries (entries : List (String × FStoredNode)) : Prop where
  ascending : Ascending keyComparator entries
  validKeys : ∀ e ∈ entries, isValidKey e.1 = true
  full : ∀ e ∈ entries, e.2.isEmpty = false
  formed : ∀ e ∈ entries, WellFormed e.2

theorem GoodEntries.wellFormed {entries : List (String × FStoredNode)} (good : GoodEntries entries)
    (nonempty : entries ≠ []) {p : FStoredNode} (isPriority : IsPriority p) :
    WellFormed (.children (some p) entries) :=
  .children nonempty isPriority good.ascending good.validKeys good.full good.formed

theorem WellFormed.goodEntries {priority : Option FStoredNode}
    {entries : List (String × FStoredNode)} (formed : WellFormed (.children priority entries)) :
    GoodEntries entries := by
  cases formed with
  | empty => exact ⟨List.Pairwise.nil, by simp, by simp, by simp⟩
  | children _ _ ascending validKeys full formed => exact ⟨ascending, validKeys, full, formed⟩

theorem GoodEntries.put {entries : List (String × FStoredNode)} (good : GoodEntries entries)
    {k : String} {c : FStoredNode} (valid : isValidKey k = true) (formed : WellFormed c)
    (notEmpty : c.isEmpty = false) : GoodEntries (put keyComparator k c entries) where
  ascending := SortedListing.ascending_put good.ascending
  validKeys e member := by
    rcases SortedListing.mem_put member with rfl | old
    · exact valid
    · exact good.validKeys e old
  full e member := by
    rcases SortedListing.mem_put member with rfl | old
    · exact notEmpty
    · exact good.full e old
  formed e member := by
    rcases SortedListing.mem_put member with rfl | old
    · exact formed
    · exact good.formed e old

theorem GoodEntries.erase {entries : List (String × FStoredNode)} (good : GoodEntries entries)
    (k : String) : GoodEntries (erase keyComparator k entries) where
  ascending := SortedListing.ascending_erase good.ascending
  validKeys e member := good.validKeys e ((SortedListing.erase_sublist k entries).subset member)
  full e member := good.full e ((SortedListing.erase_sublist k entries).subset member)
  formed e member := good.formed e ((SortedListing.erase_sublist k entries).subset member)

/-- What putting `c` under the key `k` of `n` does. -/
structure Updated (n : FStoredNode) (k : String) (c n' : FStoredNode) : Prop where
  formed : WellFormed n'
  tied : ∀ j, keyComparator k j = .eq → entry n' j = c
  other : ∀ j, keyComparator k j ≠ .eq → entry n' j = entry n j
  value : leafValue n' = if c.isEmpty then leafValue n else none
  priority : n'.getPriority = if n'.isEmpty then emptyNode else n.getPriority

theorem not_priority_of_valid {k : String} (valid : isValidKey k = true) : k ≠ ".priority" := by
  intro same
  rw [same] at valid
  exact absurd valid (by decide)

/-- The node over a listing that may have become empty. -/
theorem nodeOver_spec {p : FStoredNode} (isPriority : IsPriority p)
    {entries : List (String × FStoredNode)} (good : GoodEntries entries) :
    ∃ n', (if entries.isEmpty then .ok emptyNode else initWithPriority (some p) entries) =
        (.ok n' : Except FException FStoredNode) ∧
      WellFormed n' ∧ (∀ j, entry n' j = (lookup keyComparator j entries).getD emptyNode) ∧
      leafValue n' = none ∧ n'.getPriority = if n'.isEmpty then emptyNode else p := by
  cases entries with
  | nil => exact ⟨emptyNode, rfl, .empty, fun _ => rfl, rfl, rfl⟩
  | cons e rest =>
    exact ⟨.children (some p) (e :: rest), rfl, good.wellFormed (List.cons_ne_nil _ _) isPriority,
      fun _ => rfl, rfl, rfl⟩

theorem updateEntries_spec {p : FStoredNode} (isPriority : IsPriority p) {priority : Option FStoredNode}
    {entries : List (String × FStoredNode)} (good : GoodEntries entries)
    (same : (FStoredNode.children priority entries).getPriority = p) {k : String} {c : FStoredNode}
    (valid : isValidKey k = true) (formed : WellFormed c) :
    ∃ n', updateEntries p entries k c = .ok n' ∧ Updated (.children priority entries) k c n' := by
  unfold updateEntries
  dsimp only
  cases removed : c.isEmpty with
  | true =>
    rw [if_pos rfl]
    obtain ⟨n', node, formed', reads, value, priority'⟩ := nodeOver_spec isPriority (good.erase k)
    refine ⟨n', node, formed', fun j tie => ?_, fun j apart => ?_, ?_, by rw [same]; exact priority'⟩
    · rw [reads, SortedListing.lookup_erase j k good.ascending,
        if_pos (Std.OrientedCmp.eq_comm.mp tie)]
      exact (formed.eq_empty removed).symm
    · rw [reads, SortedListing.lookup_erase j k good.ascending,
        if_neg (mt Std.OrientedCmp.eq_comm.mp apart)]
      rfl
    · rw [removed]
      exact value
  | false =>
    rw [if_neg Bool.false_ne_true]
    obtain ⟨n', node, formed', reads, value, priority'⟩ :=
      nodeOver_spec isPriority (good.put valid formed removed)
    refine ⟨n', node, formed', fun j tie => ?_, fun j apart => ?_, ?_, by rw [same]; exact priority'⟩
    · rw [reads, SortedListing.lookup_put j k c good.ascending,
        if_pos (Std.OrientedCmp.eq_comm.mp tie)]
      rfl
    · rw [reads, SortedListing.lookup_put j k c good.ascending,
        if_neg (mt Std.OrientedCmp.eq_comm.mp apart)]
      rfl
    · rw [removed]
      exact value

/-- `updateImmediateChild:withNewChild:` under a valid key. -/
theorem updateImmediateChild_spec {n c : FStoredNode} (formedN : WellFormed n)
    (formedC : WellFormed c) {k : String} (valid : isValidKey k = true) :
    ∃ n', n.updateImmediateChild k c = .ok n' ∧ Updated n k c n' := by
  unfold updateImmediateChild
  rw [if_neg (not_priority_of_valid valid)]
  cases n with
  | children priority entries =>
    exact updateEntries_spec formedN.priority formedN.goodEntries rfl valid formedC
  | leaf value priority =>
    dsimp only
    cases removed : c.isEmpty with
    | true =>
      rw [if_pos rfl]
      refine ⟨_, rfl, formedN, fun j _ => (formedC.eq_empty removed).symm, fun j _ => rfl, ?_, rfl⟩
      rw [removed]
      rfl
    | false =>
      rw [if_neg Bool.false_ne_true]
      have single : GoodEntries [(k, c)] :=
        ⟨List.pairwise_singleton _ _, by simpa using valid, by simpa using removed,
          by simpa using formedC⟩
      refine ⟨.children (some priority) [(k, c)], ?_,
        single.wellFormed (List.cons_ne_nil _ _) formedN.priority, fun j tie => ?_, fun j apart => ?_,
        ?_, rfl⟩
      · unfold updateEntries
        rw [removed]
        rfl
      · rw [entry_children, lookup, if_pos (Std.OrientedCmp.eq_comm.mp tie)]
        rfl
      · rw [entry_children, lookup, if_neg (mt Std.OrientedCmp.eq_comm.mp apart)]
        rfl
      · rw [removed]
        rfl

/-! ## A menu -/

def textNode (text : String) : FStoredNode := .leaf (.string text) emptyNode

theorem textNode_formed {text : String} (short : text.utf8ByteSize ≤ kFirebaseMaxLeafSize) :
    WellFormed (textNode text) := .leaf short .none

/-- A dish that has a priority. -/
def stew : StoredNode where
  node := .leaf (.string "Stew") (.leaf (.int 5) emptyNode)
  formed := .leaf (show ("Stew").utf8ByteSize ≤ kFirebaseMaxLeafSize by decide)
    (.value ⟨trivial, by decide, by decide⟩)

/-- A node with two children. -/
def pairNode (j : String) (a : FStoredNode) (k : String) (b : FStoredNode) : FStoredNode :=
  .children (some emptyNode) [(j, a), (k, b)]

theorem pairNode_formed {j k : String} {a b : FStoredNode} (ascending : keyComparator j k = .lt)
    (valid : isValidKey j = true ∧ isValidKey k = true)
    (full : a.isEmpty = false ∧ b.isEmpty = false) (formed : WellFormed a ∧ WellFormed b) :
    WellFormed (pairNode j a k b) := by
  have both {P : String × FStoredNode → Prop} (first : P (j, a)) (second : P (k, b)) :
      ∀ e ∈ [(j, a), (k, b)], P e := by
    intro e member
    rcases List.mem_pair.mp member with rfl | rfl
    · exact first
    · exact second
  exact .children (List.cons_ne_nil _ _) .none (List.pairwise_pair.mpr ascending)
    (both valid.1 valid.2) (both full.1 full.2) (both formed.1 formed.2)

def menuOf (dish side : String) : FStoredNode :=
  pairNode "dish" (textNode dish) "side" (textNode side)

theorem menuOf_formed {dish side : String} (short : dish.utf8ByteSize ≤ kFirebaseMaxLeafSize ∧
    side.utf8ByteSize ≤ kFirebaseMaxLeafSize) : WellFormed (menuOf dish side) :=
  pairNode_formed (by decide) (by decide) ⟨rfl, rfl⟩
    ⟨textNode_formed short.1, textNode_formed short.2⟩

def newMenu : StoredNode := ⟨menuOf "Soup" "Salad", menuOf_formed (by decide)⟩

/-- What the server holds: another menu, and a drink beside it. -/
def served : StoredNode where
  node := pairNode "drink" (textNode "Water") "menu" (menuOf "Fish" "Rice")
  formed := pairNode_formed (by decide) (by decide) ⟨rfl, rfl⟩
    ⟨textNode_formed (by decide), menuOf_formed (by decide)⟩

end WatchAndSee.Guarantees.StoredNodes
