import WatchAndSee.Guarantees.SortedDictionary
import WatchAndSee.Guarantees.StoredNodes
import WatchAndSee.Source.FSnapshotUtilities

/-!
# Which values become nodes

`nodeFrom:` walks a value that the client hands in. What it accepts is described
here branch by branch, without the order of enumeration and without the texts
that only its errors use.
-/

set_option autoImplicit false

namespace WatchAndSee.Guarantees.StoredNodes
open Library
open Library.SortedListing (Ascending)
open Library.Decimal (numeral)
open Source
open Source.FStoredNode Source.FValidation Source.FSnapshotUtilities

/-! ## Leaves and priorities -/

/-- Values that may have children. -/
def Branches : AnyValue → Prop
  | .dictionary entries => entries.get? kServerValueSubKey = none
  | .array _ => True
  | .object _ => True
  | _ => False

theorem isValidLeafValue_true_iff (fn : String) (value : AnyValue) (path : List String) :
    isValidLeafValue fn value path = .ok true ↔ StorableLeaf value := by
  cases value with
  | string text =>
    simp only [isValidLeafValue, StorableLeaf]
    split
    · next large => exact iff_of_false (by simp) (by omega)
    · next small => exact iff_of_true rfl (by omega)
  | dictionary entries =>
    simp only [isValidLeafValue, StorableLeaf]
    split
    · next server =>
      split
      · next more => exact iff_of_false (by simp) (by omega)
      · next single => exact iff_of_true rfl ⟨server, by omega⟩
    · next plain => exact iff_of_false (by simp) (fun given => plain given.1)
  | _ => simp [isValidLeafValue, StorableLeaf]

theorem isValidLeafValue_false_iff (fn : String) (value : AnyValue) (path : List String) :
    isValidLeafValue fn value path = .ok false ↔ Branches value := by
  cases value with
  | string text =>
    simp only [isValidLeafValue, Branches]
    split <;> simp
  | dictionary entries =>
    simp only [isValidLeafValue, Branches]
    split
    · next server =>
      have present : entries.get? kServerValueSubKey ≠ none := Option.isSome_iff_ne_none.mp server
      split <;> simp [present]
    · next plain => simpa using plain
  | _ => simp [isValidLeafValue, Branches]

theorem not_branches_of_storable {value : AnyValue} (storable : StorableLeaf value) :
    ¬ Branches value := by
  rw [← isValidLeafValue_false_iff "" value [], (isValidLeafValue_true_iff "" value []).mpr storable]
  simp

inductive StoresPriority : AnyValue → FStoredNode → Prop where
  | null : StoresPriority .null emptyNode
  | value {raw : AnyValue} (allowed : PriorityValue raw) : StoresPriority raw (.leaf raw emptyNode)

theorem StoresPriority.isPriority {raw : AnyValue} {p : FStoredNode} (stores : StoresPriority raw p) :
    IsPriority p := by
  cases stores with
  | null => exact .none
  | value allowed => exact .value allowed

theorem initWithValue_eq {p : FStoredNode} (isPriority : IsPriority p) (value : AnyValue) :
    initWithValue value p = .ok (.leaf value p) := by
  rw [initWithValue, isPriority.validates]
  rfl

section NodeFrom

variable (E : Enumeration String AnyValue) (classDescription : AnyValue → String) (fn : String)

theorem priorityFrom_success_iff {raw : AnyValue} (notNull : raw ≠ .null) (p : FStoredNode) :
    priorityFrom classDescription raw = .ok p ↔ StorableLeaf raw ∧ p = .leaf raw emptyNode := by
  have leaf : priorityFrom classDescription raw =
      (isValidLeafValue "nodeFrom:priority:" raw []) >>= fun isLeaf =>
        if isLeaf then initWithValue raw emptyNode
        else .error (cannotStore classDescription "nodeFrom:priority:" raw []) := by
    cases raw <;> first | rfl | exact absurd rfl notNull
  rw [leaf, bind_success_iff, ← isValidLeafValue_true_iff "nodeFrom:priority:" raw []]
  constructor
  · rintro ⟨isLeaf, valid, node⟩
    cases isLeaf with
    | true =>
      rw [if_pos rfl, initWithValue_eq .none, Except.ok.injEq] at node
      exact ⟨valid, node.symm⟩
    | false => cases node
  · rintro ⟨valid, rfl⟩
    exact ⟨true, valid, initWithValue_eq .none raw⟩

theorem isValidPriorityValue_success_iff {raw : AnyValue} (path : List String)
    (storable : StorableLeaf raw) :
    isValidPriorityValue fn raw path = .ok () ↔ getJavascriptType raw ≠ .boolean := by
  cases raw with
  | dictionary entries =>
    have single : ¬ entries.keys.card > 1 := by
      have := storable.2
      omega
    simp [isValidPriorityValue, storable.1, single, getJavascriptType]
  | array => exact absurd storable id
  | _ => simp [isValidPriorityValue, getJavascriptType]

/-- What is stored for a priority. -/
theorem validPriorityFrom_success_iff (raw : AnyValue) (path : List String) (p : FStoredNode) :
    validPriorityFrom classDescription fn raw path = .ok p ↔ StoresPriority raw p := by
  rw [validPriorityFrom, bind_success_iff]
  by_cases null : raw = .null
  · subst null
    constructor
    · rintro ⟨_, _, node⟩
      rw [priorityFrom, Except.ok.injEq] at node
      rw [← node]
      exact .null
    · intro stores
      cases stores with
      | null => exact ⟨(), rfl, rfl⟩
      | value allowed => exact absurd rfl allowed.2.1
  · have type (storable : StorableLeaf raw) : getJavascriptType raw ≠ .null := by
      cases raw <;> first | exact absurd rfl null | exact absurd storable id | simp [getJavascriptType]
    constructor
    · rintro ⟨_, valid, node⟩
      obtain ⟨storable, rfl⟩ := (priorityFrom_success_iff classDescription null p).mp node
      exact .value ⟨storable, type storable,
        (isValidPriorityValue_success_iff fn path storable).mp valid⟩
    · intro stores
      cases stores with
      | null => exact absurd rfl null
      | value allowed =>
        exact ⟨(), (isValidPriorityValue_success_iff fn path allowed.1).mpr allowed.2.2,
          (priorityFrom_success_iff classDescription null _).mpr ⟨allowed.1, rfl⟩⟩

/-- The priority that a value brings itself, or the one from outside. -/
def OwnPriority (val : AnyValue) (outer p : FStoredNode) : Prop :=
  match val with
  | .dictionary dict =>
    match dict.get? kPayloadPriority with
    | some raw => StoresPriority raw p
    | none => p = outer
  | _ => p = outer

/-- The value to store: the one under `.value`, which is a leaf, or the whole. -/
def OwnValue (val value : AnyValue) (isLeaf : Bool) : Prop :=
  match val with
  | .dictionary dict =>
    match dict.get? kPayloadValue with
    | some inner => value = inner ∧ StorableLeaf inner ∧ isLeaf = true
    | none => value = val ∧ isLeaf = false
  | _ => value = val ∧ isLeaf = false

theorem OwnValue.storable {val value : AnyValue} (own : OwnValue val value true) :
    StorableLeaf value := by
  cases val with
  | dictionary dict =>
    unfold OwnValue at own
    dsimp only at own
    split at own
    · rw [own.1]
      exact own.2.1
    · cases own.2
  | _ => cases own.2

theorem OwnValue.unique {val v w : AnyValue} {isLeaf isLeaf' : Bool} (left : OwnValue val v isLeaf)
    (right : OwnValue val w isLeaf') : v = w := by
  cases val with
  | dictionary dict =>
    unfold OwnValue at left right
    dsimp only at left right
    cases found : dict.get? kPayloadValue with
    | none =>
      rw [found] at left right
      exact left.1.trans right.1.symm
    | some inner =>
      rw [found] at left right
      exact left.1.trans right.1.symm
  | _ => exact left.1.trans right.1.symm

theorem dictionaryPriority_success_iff (dict : AnyDictionary) (outer p : FStoredNode)
    (path : List String) :
    dictionaryPriority classDescription fn dict outer path = .ok p ↔
      OwnPriority (.dictionary dict) outer p := by
  unfold dictionaryPriority OwnPriority
  dsimp only
  cases dict.get? kPayloadPriority with
  | some raw => exact validPriorityFrom_success_iff _ _ raw path p
  | none => exact ⟨fun same => (Except.ok.inj same).symm, fun same => congrArg Except.ok same.symm⟩

theorem dictionaryValue_success_iff (dict : AnyDictionary) (path : List String) (value : AnyValue)
    (isLeaf : Bool) :
    dictionaryValue classDescription fn dict path = .ok (value, isLeaf) ↔
      OwnValue (.dictionary dict) value isLeaf := by
  unfold dictionaryValue OwnValue
  dsimp only
  cases dict.get? kPayloadValue with
  | some inner =>
    dsimp only
    rw [bind_success_iff, ← isValidLeafValue_true_iff fn inner path]
    constructor
    · rintro ⟨valid, leaf, node⟩
      cases valid with
      | false => cases node
      | true =>
        simp only [if_true, pure_eq_ok, Except.ok.injEq, Prod.mk.injEq] at node
        exact ⟨node.1.symm, leaf, node.2.symm⟩
    · rintro ⟨rfl, leaf, rfl⟩
      exact ⟨true, leaf, rfl⟩
  | none =>
    rw [Except.ok.injEq, Prod.mk.injEq, eq_comm, eq_comm (a := false)]

theorem payload_success_iff (val value : AnyValue) (outer p : FStoredNode) (path : List String)
    (isLeaf : Bool) :
    payload classDescription fn val outer path = .ok (value, p, isLeaf) ↔
      OwnPriority val outer p ∧ OwnValue val value isLeaf := by
  cases val with
  | dictionary dict =>
    rw [payload, bind_success_iff, ← dictionaryPriority_success_iff classDescription fn dict outer p path,
      ← dictionaryValue_success_iff classDescription fn dict path value isLeaf]
    simp only [bind_success_iff, pure_eq_ok, Except.ok.injEq, Prod.mk.injEq]
    constructor
    · rintro ⟨priority, first, ⟨inner, leaf⟩, second, rfl, rfl, rfl⟩
      exact ⟨first, second⟩
    · rintro ⟨first, second⟩
      exact ⟨p, first, (value, isLeaf), second, rfl, rfl, rfl⟩
  | _ => simp only [payload, OwnPriority, OwnValue, Except.ok.injEq, Prod.mk.injEq]; tauto

/-! ## Children -/

/-- Keys that a dictionary may have. -/
def AllowedKey (key : String) : Prop :=
  key = kPayloadPriority ∨ key = kPayloadValue ∨ key = kServerValueSubKey ∨ isValidKey key = true

instance (key : String) : Decidable (AllowedKey key) := by
  unfold AllowedKey
  infer_instance

theorem validDictionaryKey_success_iff (key : String) (path : List String) :
    validDictionaryKey fn key path = .ok () ↔ AllowedKey key := by
  unfold validDictionaryKey AllowedKey
  split
  · next given =>
    obtain ⟨priority, value, server, invalid⟩ := given
    simp [priority, value, server, invalid]
  · next given =>
    refine iff_of_true rfl ?_
    by_contra none
    simp only [not_or] at none
    exact given ⟨none.1, none.2.1, none.2.2.1, Bool.eq_false_iff.mpr none.2.2.2⟩

def isMetadata (key : String) : Bool := kPayloadMetadataPrefix.toList.isPrefixOf key.toList

/-- Of the allowed keys the valid ones name children. -/
theorem isValidKey_iff {key : String} (allowed : AllowedKey key) :
    isValidKey key = true ↔ isMetadata key = false := by
  constructor
  · intro valid
    unfold isMetadata kPayloadMetadataPrefix
    cases characters : key.toList with
    | nil => rfl
    | cons c rest =>
      have inside : c ∉ kInvalidKeyCharacters := by
        unfold isValidKey at valid
        simp only [characters, List.all_cons, Bool.and_eq_true, decide_eq_true_eq] at valid
        exact valid.2.1
      have notDot : c ≠ '.' := by
        intro dot
        rw [dot] at inside
        exact inside (by decide)
      simp [List.isPrefixOf, Ne.symm notDot]
  · intro plain
    rcases allowed with rfl | rfl | rfl | valid
    · exact absurd plain (by decide)
    · exact absurd plain (by decide)
    · exact absurd plain (by decide)
    · exact valid

/-- The nodes of entries, each under its key. -/
def keyedNodes (path : List String) (f : AnyValue → List String → Except FException FStoredNode)
    (entries : List (String × AnyValue)) : Except FException (List (String × FStoredNode)) :=
  entries.mapM fun e => (f e.2 (path ++ [e.1])).map fun c => (e.1, c)

def fullEntries (named : List (String × FStoredNode)) : List (String × FStoredNode) :=
  named.filter fun e => !e.2.isEmpty

theorem fullEntries_cons (key : String) (c : FStoredNode) (named : List (String × FStoredNode)) :
    fullEntries ((key, c) :: named) = if c.isEmpty then fullEntries named
      else (key, c) :: fullEntries named := by
  unfold fullEntries
  cases empty : c.isEmpty <;> simp [empty]

theorem keyedNodes_cons (path : List String)
    (f : AnyValue → List String → Except FException FStoredNode) (key : String) (value : AnyValue)
    (entries : List (String × AnyValue)) :
    keyedNodes path f ((key, value) :: entries) =
      f value (path ++ [key]) >>= fun c =>
        (keyedNodes path f entries).map fun named => (key, c) :: named := by
  unfold keyedNodes
  rw [mapM_cons]
  cases f value (path ++ [key]) <;> rfl

theorem dictionaryChildren_success_iff (path : List String)
    (f : AnyValue → List String → Except FException FStoredNode)
    (entries : List (String × AnyValue)) (children : List (String × FStoredNode)) :
    dictionaryChildren fn path f entries = .ok children ↔
      (∀ e ∈ entries, AllowedKey e.1) ∧
        ∃ named, keyedNodes path f (entries.filter fun e => !isMetadata e.1) = .ok named ∧
          children = fullEntries named := by
  induction entries generalizing children with
  | nil =>
    simp only [dictionaryChildren, Except.ok.injEq, List.filter_nil, keyedNodes, List.mapM_nil,
      pure_eq_ok]
    constructor
    · rintro rfl
      exact ⟨by simp, [], rfl, rfl⟩
    · rintro ⟨_, named, rfl, rfl⟩
      rfl
  | cons e rest ih =>
    obtain ⟨key, value⟩ := e
    rw [dictionaryChildren, bind_success_iff, List.forall_mem_cons]
    have step : (∃ x, validDictionaryKey fn key path = .ok x ∧
        (if kPayloadMetadataPrefix.toList.isPrefixOf key.toList then
          dictionaryChildren fn path f rest
        else do
          let childNode ← f value (path ++ [key])
          let children ← dictionaryChildren fn path f rest
          return if childNode.isEmpty then children else (key, childNode) :: children) =
            .ok children) ↔
        AllowedKey key ∧
          (if isMetadata key then dictionaryChildren fn path f rest
          else do
            let childNode ← f value (path ++ [key])
            let children ← dictionaryChildren fn path f rest
            return if childNode.isEmpty then children else (key, childNode) :: children) =
              .ok children := by
      rw [← validDictionaryKey_success_iff fn key path]
      exact ⟨fun given => ⟨given.choose_spec.1, given.choose_spec.2⟩, fun given => ⟨(), given⟩⟩
    rw [step, and_assoc]
    refine and_congr_right fun _ => ?_
    cases metadata : isMetadata key with
    | true =>
      rw [if_pos rfl, ih, List.filter_cons_of_neg (by simp [metadata])]
    | false =>
      rw [if_neg Bool.false_ne_true, List.filter_cons_of_pos (by simp [metadata])]
      simp only [bind_success_iff, keyedNodes_cons, map_success_iff, ih, pure_eq_ok,
        Except.ok.injEq]
      constructor
      · rintro ⟨c, node, others, ⟨allowed, named, nodes, rfl⟩, rfl⟩
        exact ⟨allowed, _, ⟨c, node, named, nodes, rfl⟩, (fullEntries_cons _ _ _).symm⟩
      · rintro ⟨allowed, _, ⟨c, node, named, nodes, rfl⟩, rfl⟩
        exact ⟨c, node, _, ⟨allowed, named, nodes, rfl⟩, (fullEntries_cons _ _ _).symm⟩

/-- The elements of an array under their numbers. -/
def numbered (i : Nat) : List AnyValue → List (String × AnyValue)
  | [] => []
  | value :: rest => (numeral i, value) :: numbered (i + 1) rest

theorem arrayChildren_success_iff (path : List String)
    (f : AnyValue → List String → Except FException FStoredNode) (i : Nat)
    (elements : List AnyValue) (children : List (String × FStoredNode)) :
    arrayChildren path f i elements = .ok children ↔
      ∃ named, keyedNodes path f (numbered i elements) = .ok named ∧
        children = fullEntries named := by
  induction elements generalizing i children with
  | nil =>
    simp only [arrayChildren, Except.ok.injEq, numbered, keyedNodes, List.mapM_nil, pure_eq_ok]
    constructor
    · rintro rfl
      exact ⟨[], rfl, rfl⟩
    · rintro ⟨named, rfl, rfl⟩
      rfl
  | cons value rest ih =>
    rw [arrayChildren, numbered]
    simp only [bind_success_iff, keyedNodes_cons, map_success_iff, ih, pure_eq_ok, Except.ok.injEq]
    constructor
    · rintro ⟨c, node, others, ⟨named, nodes, rfl⟩, rfl⟩
      exact ⟨_, ⟨c, node, named, nodes, rfl⟩, (fullEntries_cons _ _ _).symm⟩
    · rintro ⟨_, ⟨c, node, named, nodes, rfl⟩, rfl⟩
      exact ⟨c, node, _, ⟨named, nodes, rfl⟩, (fullEntries_cons _ _ _).symm⟩

theorem nodeOver_success_iff (p : FStoredNode) (children : List (String × FStoredNode))
    (n : FStoredNode) :
    nodeOver p children = .ok n ↔
      children = [] ∧ n = emptyNode ∨
      children ≠ [] ∧ ∃ entries, Ascending keyComparator entries ∧ entries.Perm children ∧
        n = .children (some p) entries := by
  unfold nodeOver
  cases children with
  | nil => simp [eq_comm]
  | cons e rest =>
    have node {entries : List (String × FStoredNode)} (same : entries.Perm (e :: rest)) :
        initWithPriority (some p) entries = .ok (.children (some p) entries) := by
      have nonempty : entries ≠ [] := by
        intro empty
        rw [empty] at same
        exact absurd (List.nil_perm.mp same) (List.cons_ne_nil _ _)
      simp [initWithPriority, nonempty]
    simp only [List.isEmpty_cons, Bool.false_eq_true, if_false, reduceCtorEq, false_and, false_or,
      ne_eq, not_false_eq_true, true_and]
    constructor
    · intro success
      cases sorts : FTreeSortedDictionary.sortedKeyList keyComparator (e :: rest) with
      | error => rw [sorts] at success; cases success
      | ok entries =>
        obtain ⟨ascending, same⟩ := sortedKeyList_success sorts
        rw [sorts] at success
        dsimp only at success
        rw [node same, Except.ok.injEq] at success
        exact ⟨entries, ascending, same, success.symm⟩
    · rintro ⟨entries, ascending, same, rfl⟩
      rw [sortedKeyList_eq ascending same.symm]
      exact node same

/-! ## One level -/

/-- The entries that become children, in the order of enumeration. -/
def childEntries : AnyValue → List (String × AnyValue)
  | .dictionary dict => (E.order dict).filter fun e => !isMetadata e.1
  | .array elements => numbered 0 elements
  | _ => []

/-- Values whose children are stored. -/
def KeysAllowed : AnyValue → Prop
  | .dictionary dict => ∀ e ∈ E.order dict, AllowedKey e.1
  | .array _ => True
  | _ => False

/-- The node of a value with children. -/
def branchNode (levels : Nat) (value : AnyValue) (p : FStoredNode) (path : List String) :
    Except FException FStoredNode :=
  match value with
  | .dictionary dval => do
    let children ← dictionaryChildren fn path
      (fun value path => internalNodeFrom E classDescription fn levels value .null path)
      (E.order dval)
    nodeOver p children
  | .array aval => do
    let children ← arrayChildren path
      (fun value path => internalNodeFrom E classDescription fn levels value .null path) 0 aval
    nodeOver p children
  | _ => .error (cannotStore classDescription fn value path)

theorem internalNodeFrom_eq (levels : Nat) {val : AnyValue} (notNull : val ≠ .null)
    (outer : AnyValue) (path : List String) :
    internalNodeFrom E classDescription fn (levels + 1) val outer path =
      validPriorityFrom classDescription fn outer path >>= fun priority =>
        payload classDescription fn val priority path >>= fun own =>
          isValidLeafValue fn own.1 path >>= fun isLeafValue =>
            if own.2.2 || isLeafValue then initWithValue own.1 own.2.1
            else branchNode E classDescription fn levels own.1 own.2.1 path := by
  cases val <;> first | exact absurd rfl notNull | rfl

theorem branchNode_success_iff (levels : Nat) (value : AnyValue) (p : FStoredNode)
    (path : List String) (n : FStoredNode) :
    branchNode E classDescription fn levels value p path = .ok n ↔
      KeysAllowed E value ∧ ∃ named,
        keyedNodes path
          (fun value path => internalNodeFrom E classDescription fn levels value .null path)
          (childEntries E value) = .ok named ∧
        nodeOver p (fullEntries named) = .ok n := by
  cases value with
  | dictionary dict =>
    rw [branchNode, bind_success_iff]
    simp only [dictionaryChildren_success_iff, KeysAllowed, childEntries]
    constructor
    · rintro ⟨_, ⟨allowed, named, nodes, rfl⟩, node⟩
      exact ⟨allowed, named, nodes, node⟩
    · rintro ⟨allowed, named, nodes, node⟩
      exact ⟨_, ⟨allowed, named, nodes, rfl⟩, node⟩
  | array elements =>
    rw [branchNode, bind_success_iff]
    simp only [arrayChildren_success_iff, KeysAllowed, childEntries, true_and]
    constructor
    · rintro ⟨_, ⟨named, nodes, rfl⟩, node⟩
      exact ⟨named, nodes, node⟩
    · rintro ⟨named, nodes, node⟩
      exact ⟨_, ⟨named, nodes, rfl⟩, node⟩
  | _ => simp [branchNode, KeysAllowed]

/-- What one call of `internalNodeFrom:` accepts and makes. -/
theorem internalNodeFrom_success_iff (levels : Nat) {val : AnyValue} (notNull : val ≠ .null)
    (outer : AnyValue) (path : List String) (n : FStoredNode) :
    internalNodeFrom E classDescription fn (levels + 1) val outer path = .ok n ↔
      ∃ p₀ p value isLeaf, StoresPriority outer p₀ ∧ OwnPriority val p₀ p ∧
        OwnValue val value isLeaf ∧
        (StorableLeaf value ∧ n = .leaf value p ∨
          Branches value ∧ KeysAllowed E value ∧ ∃ named,
            keyedNodes path
              (fun value path => internalNodeFrom E classDescription fn levels value .null path)
              (childEntries E value) = .ok named ∧
            nodeOver p (fullEntries named) = .ok n) := by
  rw [internalNodeFrom_eq E classDescription fn levels notNull]
  simp only [bind_success_iff, validPriorityFrom_success_iff, Prod.exists, payload_success_iff]
  have leaf {val value : AnyValue} {p₀ p : FStoredNode} (outside : IsPriority p₀)
      (own : OwnPriority val p₀ p) : initWithValue value p = .ok (.leaf value p) := by
    refine initWithValue_eq ?_ value
    cases val with
    | dictionary dict =>
      unfold OwnPriority at own
      dsimp only at own
      split at own
      · exact own.isPriority
      · rw [own]
        exact outside
    | _ => exact own ▸ outside
  constructor
  · rintro ⟨p₀, outside, value, p, isLeaf, ⟨priority, own⟩, isLeafValue, valid, node⟩
    refine ⟨p₀, p, value, isLeaf, outside, priority, own, ?_⟩
    cases isLeafValue with
    | true =>
      rw [Bool.or_true, if_pos rfl, leaf outside.isPriority priority, Except.ok.injEq] at node
      exact .inl ⟨(isValidLeafValue_true_iff _ _ _).mp valid, node.symm⟩
    | false =>
      have branches := (isValidLeafValue_false_iff _ _ _).mp valid
      cases isLeaf with
      | true => exact absurd branches (not_branches_of_storable own.storable)
      | false =>
        rw [Bool.or_false, if_neg Bool.false_ne_true, branchNode_success_iff] at node
        exact .inr ⟨branches, node⟩
  · rintro ⟨p₀, p, value, isLeaf, outside, priority, own, leafNode | ⟨branches, node⟩⟩
    · obtain ⟨storable, rfl⟩ := leafNode
      refine ⟨p₀, outside, value, p, isLeaf, ⟨priority, own⟩, true,
        (isValidLeafValue_true_iff _ _ _).mpr storable, ?_⟩
      rw [Bool.or_true, if_pos rfl]
      exact leaf outside.isPriority priority
    · refine ⟨p₀, outside, value, p, isLeaf, ⟨priority, own⟩, false,
        (isValidLeafValue_false_iff _ _ _).mpr branches, ?_⟩
      cases isLeaf with
      | true => exact absurd branches (not_branches_of_storable own.storable)
      | false =>
        rw [Bool.or_false, if_neg Bool.false_ne_true, branchNode_success_iff]
        exact node

end NodeFrom

end WatchAndSee.Guarantees.StoredNodes
