import Mathlib.Data.List.Perm.Basic
import WatchAndSee.Guarantees.NodeValues

/-!
# What is stored, and that its export stores it again

A value that `nodeFrom:` accepts becomes a well-formed node of bounded depth,
the same one for every order of enumeration. Exported with its priorities, a
node is stored as itself again, unless it is too deep or has a null leaf without
a priority, which an export cannot tell from nothing.
-/

set_option autoImplicit false

namespace WatchAndSee.Guarantees.StoredNodes
open Library
open Library.Decimal (numeral)
open Source
open Source.FStoredNode Source.FValidation Source.FSnapshotUtilities

/-! ## Depth -/

mutual

/-- The number of levels below a node. -/
def depth : FStoredNode → Nat
  | .leaf _ _ => 0
  | .children _ entries => if entries.isEmpty then 0 else deepest entries + 1

def deepest : List (String × FStoredNode) → Nat
  | [] => 0
  | (_, c) :: rest => max (depth c) (deepest rest)

end

theorem deepest_le_iff (entries : List (String × FStoredNode)) (d : Nat) :
    deepest entries ≤ d ↔ ∀ e ∈ entries, depth e.2 ≤ d := by
  induction entries with
  | nil => simp [deepest]
  | cons e rest ih =>
    obtain ⟨key, c⟩ := e
    rw [deepest, Nat.max_le, ih, List.forall_mem_cons]

theorem depth_children_le_iff {priority : Option FStoredNode} {entries : List (String × FStoredNode)}
    (nonempty : entries ≠ []) (d : Nat) :
    depth (.children priority entries) ≤ d ↔ ∃ d', d = d' + 1 ∧ ∀ e ∈ entries, depth e.2 ≤ d' := by
  have full : entries.isEmpty = false := by simpa using nonempty
  rw [depth, full, if_neg Bool.false_ne_true]
  constructor
  · intro bound
    obtain ⟨d', rfl⟩ := Nat.exists_eq_add_of_lt bound
    refine ⟨deepest entries + d', rfl, (deepest_le_iff entries _).mp ?_⟩
    omega
  · rintro ⟨d', rfl, bound⟩
    have := (deepest_le_iff entries d').mpr bound
    omega

/-! ## Nodes under keys -/

section KeyedNodes

variable {path path' : List String} {f g : AnyValue → List String → Except FException FStoredNode}

theorem keyedNodes_mem {entries : List (String × AnyValue)} {named : List (String × FStoredNode)}
    (success : keyedNodes path f entries = .ok named) {e : String × FStoredNode} (member : e ∈ named) :
    ∃ value, (e.1, value) ∈ entries ∧ f value (path ++ [e.1]) = .ok e.2 := by
  obtain ⟨entry, inside, node⟩ := mapM_success_mem success member
  obtain ⟨c, made, rfl⟩ := map_success_iff.mp node
  exact ⟨entry.2, inside, made⟩

theorem keyedNodes_of_mem {entries : List (String × AnyValue)} {named : List (String × FStoredNode)}
    (success : keyedNodes path f entries = .ok named) {e : String × AnyValue} (member : e ∈ entries) :
    ∃ c, (e.1, c) ∈ named ∧ f e.2 (path ++ [e.1]) = .ok c := by
  have each := (mapM_success_iff _ entries named).mp success
  clear success
  induction each with
  | nil => exact absurd member List.not_mem_nil
  | cons here _ ih =>
    rcases List.mem_cons.mp member with rfl | later
    · obtain ⟨c, made, rfl⟩ := map_success_iff.mp here
      exact ⟨c, List.mem_cons_self, made⟩
    · obtain ⟨c, inside, made⟩ := ih later
      exact ⟨c, List.mem_cons_of_mem _ inside, made⟩

/-- The children of a node come from entries and are not empty. -/
theorem entries_made {values : List (String × AnyValue)} {named entries : List (String × FStoredNode)}
    (success : keyedNodes path f values = .ok named) (same : entries.Perm (fullEntries named)) :
    ∀ e ∈ entries, e.2.isEmpty = false ∧
      ∃ value, (e.1, value) ∈ values ∧ f value (path ++ [e.1]) = .ok e.2 := by
  intro e member
  obtain ⟨inside, full⟩ := List.mem_filter.mp (same.subset member)
  exact ⟨by simpa using full, keyedNodes_mem success inside⟩

/-- The nodes do not depend on the order of the entries. -/
theorem keyedNodes_perm {entries entries' : List (String × AnyValue)}
    {named : List (String × FStoredNode)} (same : entries'.Perm entries)
    (success : keyedNodes path f entries = .ok named)
    (step : ∀ e ∈ entries, ∀ c, f e.2 (path ++ [e.1]) = .ok c → g e.2 (path' ++ [e.1]) = .ok c) :
    ∃ named', keyedNodes path' g entries' = .ok named' ∧ named'.Perm named := by
  have each := (mapM_success_iff _ entries named).mp success
  obtain ⟨named', each', reordered⟩ := List.perm_comp_forall₂ same each
  refine ⟨named', (mapM_success_iff _ entries' named').mpr ?_, reordered⟩
  have inside : ∀ e ∈ entries', e ∈ entries := fun e member => same.subset member
  clear success each same reordered
  induction each' with
  | nil => exact .nil
  | @cons e d entries' named' here _ ih =>
    obtain ⟨c, made, rfl⟩ := map_success_iff.mp here
    rw [List.forall_mem_cons] at inside
    exact .cons (map_success_iff.mpr ⟨c, step e inside.1 c made, rfl⟩) (ih inside.2)

end KeyedNodes

theorem nodeOver_perm {p n : FStoredNode} {children children' : List (String × FStoredNode)}
    (same : children'.Perm children) (success : nodeOver p children = .ok n) :
    nodeOver p children' = .ok n := by
  rw [nodeOver_success_iff] at success ⊢
  rcases success with ⟨rfl, rfl⟩ | ⟨nonempty, entries, ascending, perm, rfl⟩
  · exact .inl ⟨same.eq_nil, rfl⟩
  · refine .inr ⟨?_, entries, ascending, perm.trans same.symm, rfl⟩
    rintro rfl
    exact nonempty same.symm.eq_nil

/-! ## What is accepted -/

theorem isValidKey_numeral (n : Nat) : isValidKey (numeral n) = true := by
  have nonempty : numeral n ≠ "" := by
    intro empty
    have digits := ((Decimal.eq_numeral_iff (numeral n)).mp ⟨n, rfl⟩).1
    rw [empty] at digits
    exact digits rfl
  have clean : ∀ c ∈ (numeral n).toList, c ∉ kInvalidKeyCharacters := by
    intro c member bad
    rw [Decimal.toList_numeral] at member
    have digit := Decimal.isDigit_of_mem_digits member
    unfold kInvalidKeyCharacters at bad
    simp only [List.mem_cons, List.not_mem_nil, or_false] at bad
    rcases bad with rfl | rfl | rfl | rfl | rfl | rfl <;> exact absurd digit (by decide)
  unfold isValidKey
  simpa [nonempty] using clean

theorem key_of_mem_numbered {i : Nat} {elements : List AnyValue} {e : String × AnyValue}
    (member : e ∈ numbered i elements) : ∃ n, i ≤ n ∧ e.1 = numeral n := by
  induction elements generalizing i with
  | nil => exact absurd member List.not_mem_nil
  | cons value rest ih =>
    rcases List.mem_cons.mp member with rfl | later
    · exact ⟨i, Nat.le_refl i, rfl⟩
    · obtain ⟨n, bound, key⟩ := ih later
      exact ⟨n, by omega, key⟩

section NodeFrom

variable {E F : Enumeration String AnyValue} {classDescription otherDescription : AnyValue → String}
  {fn other : String}

theorem isValidKey_of_childEntries {value : AnyValue} (allowed : KeysAllowed E value)
    {e : String × AnyValue} (member : e ∈ childEntries E value) : isValidKey e.1 = true := by
  cases value with
  | dictionary dict =>
    obtain ⟨inside, plain⟩ := List.mem_filter.mp member
    exact (isValidKey_iff (allowed e inside)).mpr (by simpa using plain)
  | array elements =>
    obtain ⟨n, _, key⟩ := key_of_mem_numbered member
    rw [key]
    exact isValidKey_numeral n
  | _ => exact absurd allowed id

theorem ownPriority_isPriority {val : AnyValue} {outer p : FStoredNode} (outside : IsPriority outer)
    (own : OwnPriority val outer p) : IsPriority p := by
  cases val with
  | dictionary dict =>
    unfold OwnPriority at own
    dsimp only at own
    split at own
    · exact own.isPriority
    · rw [own]
      exact outside
  | _ => exact own ▸ outside

/-- By induction on the levels that are left. -/
theorem internalNodeFrom_wellFormed {levels : Nat} {val outer : AnyValue} {path : List String}
    {n : FStoredNode} (success : internalNodeFrom E classDescription fn levels val outer path = .ok n) :
    WellFormed n ∧ ∃ below, levels = below + 1 ∧ depth n ≤ below := by
  induction levels generalizing val outer path n with
  | zero => cases success
  | succ levels ih =>
    by_cases null : val = .null
    · rw [null, internalNodeFrom, Except.ok.injEq] at success
      rw [← success]
      exact ⟨.empty, levels, rfl, Nat.zero_le _⟩
    · rw [internalNodeFrom_success_iff _ _ _ _ null] at success
      obtain ⟨p₀, p, value, isLeaf, outside, priority, _, leaf | branch⟩ := success
      · obtain ⟨storable, rfl⟩ := leaf
        exact ⟨.leaf storable (ownPriority_isPriority outside.isPriority priority), levels, rfl,
          Nat.zero_le _⟩
      · obtain ⟨_, allowed, named, nodes, node⟩ := branch
        rw [nodeOver_success_iff] at node
        rcases node with ⟨_, rfl⟩ | ⟨_, entries, ascending, perm, rfl⟩
        · exact ⟨.empty, levels, rfl, Nat.zero_le _⟩
        · have made := entries_made nodes perm
          have nonempty : entries ≠ [] := by
            rintro rfl
            exact ‹fullEntries named ≠ []› perm.symm.eq_nil
          have below : ∀ e ∈ entries, WellFormed e.2 ∧ ∃ d, levels = d + 1 ∧ depth e.2 ≤ d := by
            intro e member
            obtain ⟨_, _, _, node⟩ := made e member
            exact ih node
          refine ⟨.children nonempty (ownPriority_isPriority outside.isPriority priority) ascending
            (fun e member => ?_) (fun e member => (made e member).1)
            (fun e member => (below e member).1), levels, rfl, ?_⟩
          · obtain ⟨_, _, inside, _⟩ := made e member
            exact isValidKey_of_childEntries allowed inside
          · obtain ⟨first, member⟩ := List.exists_mem_of_ne_nil entries nonempty
            obtain ⟨_, d, rfl, _⟩ := below first member
            refine (depth_children_le_iff nonempty _).mpr ⟨d, rfl, fun e member => ?_⟩
            obtain ⟨_, d', same, bound⟩ := below e member
            omega

theorem keysAllowed_congr {value : AnyValue} (allowed : KeysAllowed E value) : KeysAllowed F value := by
  cases value with
  | dictionary dict =>
    intro e member
    exact allowed e (((F.lists dict).perm (E.lists dict)).subset member)
  | array => trivial
  | _ => exact absurd allowed id

theorem childEntries_perm (value : AnyValue) :
    (childEntries F value).Perm (childEntries E value) := by
  cases value with
  | dictionary dict => exact ((F.lists dict).perm (E.lists dict)).filter _
  | _ => exact List.Perm.refl _

/-- The node depends on the values alone. -/
theorem internalNodeFrom_congr {levels : Nat} {val outer : AnyValue} {path path' : List String}
    {n : FStoredNode} (success : internalNodeFrom E classDescription fn levels val outer path = .ok n) :
    internalNodeFrom F otherDescription other levels val outer path' = .ok n := by
  induction levels generalizing val outer path path' n with
  | zero => cases success
  | succ levels ih =>
    by_cases null : val = .null
    · rw [null, internalNodeFrom] at success ⊢
      exact success
    · rw [internalNodeFrom_success_iff _ _ _ _ null] at success ⊢
      obtain ⟨p₀, p, value, isLeaf, outside, priority, own, leaf | branch⟩ := success
      · exact ⟨p₀, p, value, isLeaf, outside, priority, own, .inl leaf⟩
      · obtain ⟨branches, allowed, named, nodes, node⟩ := branch
        have step : ∀ e ∈ childEntries E value, ∀ c,
            internalNodeFrom E classDescription fn levels e.2 .null (path ++ [e.1]) = .ok c →
              internalNodeFrom F otherDescription other levels e.2 .null (path' ++ [e.1]) = .ok c :=
          fun e _ c made => ih made
        obtain ⟨named', nodes', same⟩ := keyedNodes_perm
          (g := fun value path => internalNodeFrom F otherDescription other levels value .null path)
          (childEntries_perm value) nodes step
        exact ⟨p₀, p, value, isLeaf, outside, priority, own, .inr ⟨branches,
          keysAllowed_congr allowed, named', nodes', nodeOver_perm (same.filter _) node⟩⟩

/-- A value that is accepted becomes a well-formed node of at most the maximal
depth, whatever the order of enumeration. -/
theorem accepted_value {val priority : AnyValue} {n : FStoredNode}
    (success : nodeFrom E classDescription fn val priority = .ok n) :
    WellFormed n ∧ depth n ≤ kFirebaseMaxObjectDepth ∧
      ∀ (F : Enumeration String AnyValue) (otherDescription : AnyValue → String) (other : String),
        nodeFrom F otherDescription other val priority = .ok n := by
  obtain ⟨formed, below, levels, bound⟩ := internalNodeFrom_wellFormed success
  refine ⟨formed, ?_, fun F otherDescription other => internalNodeFrom_congr success⟩
  rw [Nat.succ.inj levels]
  exact bound

end NodeFrom

/-! ## Exports -/

theorem entriesForExport_eq (exp : Bool) (entries : List (String × FStoredNode)) :
    entriesForExport exp entries = entries.map fun e => (e.1, valForExport exp e.2) := by
  induction entries with
  | nil => rfl
  | cons e rest ih =>
    obtain ⟨key, c⟩ := e
    rw [entriesForExport, ih, List.map_cons]

/-- The dictionary of the exported children. -/
def exportedChildren (entries : List (String × FStoredNode)) : AnyDictionary :=
  (entriesForExport true entries).foldl (fun (obj : AnyDictionary) e => obj.set e.1 e.2)
    Dictionary.empty

/-- The export of a node with children. -/
def exported (p : FStoredNode) (entries : List (String × FStoredNode)) : AnyDictionary :=
  match priorityVal (some p) with
  | some priority => (exportedChildren entries).set kPayloadPriority priority
  | none => exportedChildren entries

theorem valForExport_entries (p : FStoredNode) {entries : List (String × FStoredNode)}
    (nonempty : entries ≠ []) :
    valForExport true (.children (some p) entries) = .dictionary (exported p entries) := by
  have full : (entriesForExport true entries).isEmpty = false := by
    simpa [entriesForExport_eq] using nonempty
  rw [FStoredNode.valForExport, exportEntries, full]
  simp only [Bool.false_eq_true, if_false, Bool.not_true, false_and, if_true]
  unfold exported
  cases priorityVal (some p) <;> rfl

theorem lists_exportedChildren {entries : List (String × FStoredNode)} (good : GoodEntries entries) :
    (exportedChildren entries).Lists (entries.map fun e => (e.1, valForExport true e.2)) := by
  have distinct : ((entries.map fun e => (e.1, valForExport true e.2)).map Prod.fst).Nodup := by
    rw [List.map_map]
    exact SortedListing.nodup_keys good.ascending
  rw [exportedChildren, entriesForExport_eq]
  exact Dictionary.lists_foldl_set distinct

theorem get?_exported_of_ne (p : FStoredNode) (entries : List (String × FStoredNode)) {k : String}
    (name : k ≠ kPayloadPriority) :
    (exported p entries).get? k = (exportedChildren entries).get? k := by
  unfold exported
  split
  · exact Dictionary.get?_set_of_ne _ _ name
  · rfl

/-- The names with a dot have no child. -/
theorem get?_exportedChildren_metadata {entries : List (String × FStoredNode)}
    (good : GoodEntries entries) {k : String} (metadata : isMetadata k = true) :
    (exportedChildren entries).get? k = none := by
  cases read : (exportedChildren entries).get? k with
  | none => rfl
  | some value =>
    have listed := ((lists_exportedChildren good).mem_iff k value).mpr read
    obtain ⟨e, member, same⟩ := List.mem_map.mp listed
    have key : e.1 = k := congrArg Prod.fst same
    have valid := good.validKeys e member
    rw [key] at valid
    rw [(isValidKey_iff (.inr (.inr (.inr valid)))).mp valid] at metadata
    cases metadata

theorem ownPriority_exported {p : FStoredNode} (isPriority : IsPriority p)
    {entries : List (String × FStoredNode)} (good : GoodEntries entries) :
    OwnPriority (.dictionary (exported p entries)) emptyNode p := by
  unfold OwnPriority
  dsimp only
  cases isPriority with
  | none =>
    have absent : (exported emptyNode entries).get? kPayloadPriority = none :=
      get?_exportedChildren_metadata good (by decide)
    rw [absent]
  | @value raw allowed =>
    have present : (exported (.leaf raw emptyNode) entries).get? kPayloadPriority = some raw :=
      Dictionary.get?_set_self _ _ _
    rw [present]
    exact .value allowed

theorem ownValue_exported (p : FStoredNode) {entries : List (String × FStoredNode)}
    (good : GoodEntries entries) :
    OwnValue (.dictionary (exported p entries)) (.dictionary (exported p entries)) false := by
  have absent : (exported p entries).get? kPayloadValue = none := by
    rw [get?_exported_of_ne p entries (by decide)]
    exact get?_exportedChildren_metadata good (by decide)
  unfold OwnValue
  dsimp only
  rw [absent]
  exact ⟨rfl, rfl⟩

theorem branches_exported (p : FStoredNode) {entries : List (String × FStoredNode)}
    (good : GoodEntries entries) : Branches (.dictionary (exported p entries)) := by
  have absent := get?_exportedChildren_metadata good (k := kServerValueSubKey) (by decide)
  rw [← get?_exported_of_ne p entries (by decide)] at absent
  exact absent

section ExportedEntries

variable {E : Enumeration String AnyValue} {p : FStoredNode} {entries : List (String × FStoredNode)}

theorem keysAllowed_exported (good : GoodEntries entries) :
    KeysAllowed E (.dictionary (exported p entries)) := by
  intro e member
  by_cases name : e.1 = kPayloadPriority
  · exact .inl name
  · have read := ((E.lists _).mem_iff e.1 e.2).mp member
    rw [get?_exported_of_ne p entries name] at read
    obtain ⟨d, inside, same⟩ := List.mem_map.mp
      (((lists_exportedChildren good).mem_iff e.1 e.2).mpr read)
    have valid := good.validKeys d inside
    rw [show d.1 = e.1 from congrArg Prod.fst same] at valid
    exact .inr (.inr (.inr valid))

/-- Reading the export finds the children again. -/
theorem childEntries_exported (good : GoodEntries entries) :
    (childEntries E (.dictionary (exported p entries))).Perm
      (entries.map fun e => (e.1, valForExport true e.2)) := by
  have listing := lists_exportedChildren good
  have plain : ∀ k value, (k, value) ∈ entries.map (fun e => (e.1, valForExport true e.2)) →
      isMetadata k = false := by
    intro k value member
    obtain ⟨e, inside, same⟩ := List.mem_map.mp member
    have valid := good.validKeys e inside
    rw [show e.1 = k from congrArg Prod.fst same] at valid
    exact (isValidKey_iff (.inr (.inr (.inr valid)))).mp valid
  refine (List.perm_ext_iff_of_nodup ((E.lists _).nodup.of_map.filter _) listing.nodup.of_map).mpr ?_
  rintro ⟨k, value⟩
  refine Iff.trans List.mem_filter ?_
  rw [(E.lists _).mem_iff]
  constructor
  · rintro ⟨read, notMetadata⟩
    have name : k ≠ kPayloadPriority := by
      rintro rfl
      exact absurd (show (!isMetadata kPayloadPriority) = true from notMetadata) (by decide)
    rw [get?_exported_of_ne p entries name] at read
    exact (listing.mem_iff k value).mpr read
  · intro member
    have notMetadata := plain k value member
    have name : k ≠ kPayloadPriority := by
      rintro rfl
      exact absurd notMetadata (by decide)
    rw [get?_exported_of_ne p entries name]
    exact ⟨(listing.mem_iff k value).mp member, by simp [notMetadata]⟩

end ExportedEntries

/-! ## The round trip -/

/-- No leaf is null without a priority. -/
def NullsMarked (n : FStoredNode) : Prop := ∀ path, descendant n path ≠ .leaf .null emptyNode

theorem NullsMarked.child {n : FStoredNode} (marked : NullsMarked n) (k : String) :
    NullsMarked (entry n k) := fun path => marked (k :: path)

theorem nullsMarked_empty : NullsMarked emptyNode := by
  intro path
  rw [descendant_emptyNode]
  simp [emptyNode]

theorem entry_of_mem {p : Option FStoredNode} {entries : List (String × FStoredNode)}
    (good : GoodEntries entries) {e : String × FStoredNode} (member : e ∈ entries) :
    entry (.children p entries) e.1 = e.2 := by
  rw [entry_children, SortedListing.lookup_of_mem good.ascending member]
  rfl

theorem nullsMarked_of_entries {p : Option FStoredNode} {entries : List (String × FStoredNode)}
    (each : ∀ e ∈ entries, NullsMarked e.2) : NullsMarked (.children p entries) := by
  intro path
  cases path with
  | nil => simp [descendant]
  | cons k path =>
    rw [descendant, entry_children]
    cases found : SortedListing.lookup keyComparator k entries with
    | none => exact nullsMarked_empty path
    | some c =>
      obtain ⟨j, member, _⟩ := SortedListing.exists_mem_of_lookup found
      exact each _ member path

section RoundTrip

variable (E : Enumeration String AnyValue) (classDescription : AnyValue → String) (fn : String)

/-- A leaf without a priority is exported as its value. -/
theorem own_of_storable {value : AnyValue} (storable : StorableLeaf value) :
    OwnPriority value emptyNode emptyNode ∧ OwnValue value value false := by
  cases value with
  | dictionary dict =>
    obtain ⟨server, single⟩ := storable
    have absent {k : String} (other : k ≠ kServerValueSubKey) : dict.get? k = none := by
      rw [Dictionary.get?_eq_none_iff]
      intro member
      obtain ⟨v, read⟩ := Option.isSome_iff_exists.mp server
      have inside := (dict.mem_keys_iff _).mpr ⟨v, read⟩
      exact other (Finset.card_le_one.mp single k member _ inside)
    unfold OwnPriority OwnValue
    dsimp only
    rw [absent (by decide), absent (by decide)]
    exact ⟨rfl, rfl, rfl⟩
  | _ => exact ⟨rfl, rfl, rfl⟩

theorem leaf_round_trip (levels : Nat) {value : AnyValue} {p : FStoredNode}
    (storable : StorableLeaf value) (isPriority : IsPriority p)
    (marked : FStoredNode.leaf value p ≠ .leaf .null emptyNode) (path : List String) :
    internalNodeFrom E classDescription fn (levels + 1) (valForExport true (.leaf value p)) .null path =
      .ok (.leaf value p) := by
  cases isPriority with
  | none =>
    have notNull : value ≠ .null := by
      rintro rfl
      exact marked rfl
    have own := own_of_storable storable
    rw [show FStoredNode.valForExport true (.leaf value emptyNode) = value by
      simp [FStoredNode.valForExport], internalNodeFrom_success_iff _ _ _ _ notNull]
    exact ⟨emptyNode, emptyNode, value, false, .null, own.1, own.2, .inl ⟨storable, rfl⟩⟩
  | @value raw allowed =>
    have export_eq : FStoredNode.valForExport true (.leaf value (.leaf raw emptyNode)) =
        .dictionary ((Dictionary.empty.set kPayloadValue value).set kPayloadPriority raw) := by
      simp [FStoredNode.valForExport, isEmpty]
    rw [export_eq, internalNodeFrom_success_iff _ _ _ _ (by simp)]
    refine ⟨emptyNode, .leaf raw emptyNode, value, true, .null, ?_, ?_, .inl ⟨storable, rfl⟩⟩
    · unfold OwnPriority
      dsimp only
      rw [Dictionary.get?_set_self]
      exact .value allowed
    · unfold OwnValue
      dsimp only
      rw [Dictionary.get?_set_of_ne _ _ (by decide), Dictionary.get?_set_self]
      exact ⟨rfl, storable, rfl⟩

/-- The children of a node are made again, in whatever order. -/
theorem keyedNodes_exported {f : AnyValue → List String → Except FException FStoredNode}
    {path : List String} {p : FStoredNode} {entries : List (String × FStoredNode)}
    (good : GoodEntries entries)
    (each : ∀ e ∈ entries, ∀ path, f (valForExport true e.2) path = .ok e.2) :
    ∃ named, keyedNodes path f (childEntries E (.dictionary (exported p entries))) = .ok named ∧
      named.Perm entries := by
  have inOrder : keyedNodes path f (entries.map fun e => (e.1, valForExport true e.2)) =
      .ok entries := by
    refine (mapM_success_iff _ _ _).mpr (List.forall₂_map_left_iff.mpr (List.forall₂_same.mpr ?_))
    intro e member
    exact map_success_iff.mpr ⟨e.2, each e member _, rfl⟩
  exact keyedNodes_perm (childEntries_exported good) inOrder (fun _ _ _ made => made)

theorem internalNodeFrom_export {levels : Nat} {n : FStoredNode} (formed : WellFormed n)
    (marked : NullsMarked n) (bound : depth n ≤ levels) (path : List String) :
    internalNodeFrom E classDescription fn (levels + 1) (valForExport true n) .null path = .ok n := by
  induction formed generalizing levels path with
  | empty => rfl
  | leaf storable isPriority =>
    exact leaf_round_trip E classDescription fn levels storable isPriority (marked []) path
  | @children p entries nonempty isPriority ascending validKeys full formed ih =>
    have good : GoodEntries entries := ⟨ascending, validKeys, full, formed⟩
    obtain ⟨below, rfl, bounds⟩ := (depth_children_le_iff nonempty levels).mp bound
    have each : ∀ e ∈ entries, ∀ path,
        internalNodeFrom E classDescription fn (below + 1) (valForExport true e.2) .null path =
          .ok e.2 := by
      intro e member path
      have markedChild := marked.child e.1
      rw [entry_of_mem good member] at markedChild
      exact ih e member markedChild (bounds e member) path
    obtain ⟨named, nodes, same⟩ : ∃ named,
        keyedNodes path
          (fun value path => internalNodeFrom E classDescription fn (below + 1) value .null path)
          (childEntries E (.dictionary (exported p entries))) = .ok named ∧ named.Perm entries :=
      keyedNodes_exported E good each
    have allFull : fullEntries named = named := by
      refine List.filter_eq_self.mpr (fun e member => ?_)
      rw [full e (same.subset member)]
      rfl
    rw [valForExport_entries p nonempty, internalNodeFrom_success_iff _ _ _ _ (by simp)]
    refine ⟨emptyNode, p, _, false, .null, ownPriority_exported isPriority good,
      ownValue_exported p good, .inr ⟨branches_exported p good, keysAllowed_exported good, named, nodes, ?_⟩⟩
    rw [allFull, nodeOver_success_iff]
    refine .inr ⟨?_, entries, ascending, same.symm, rfl⟩
    rintro rfl
    exact nonempty same.symm.eq_nil

/-- What an export stores back has no null leaf without a priority. -/
theorem nullsMarked_of_export {levels : Nat} {n : FStoredNode} (formed : WellFormed n)
    {path : List String}
    (stored : internalNodeFrom E classDescription fn levels (valForExport true n) .null path = .ok n) :
    NullsMarked n := by
  induction formed generalizing levels path with
  | empty => exact nullsMarked_empty
  | @leaf value p storable isPriority =>
    intro path' same
    cases path' with
    | cons k rest =>
      rw [descendant, show entry (.leaf value p) k = emptyNode from rfl, descendant_emptyNode] at same
      simp [emptyNode] at same
    | nil =>
      rw [descendant] at same
      rw [same] at stored
      cases levels with
      | zero => cases stored
      | succ levels => exact absurd (Except.ok.inj stored) (by simp [emptyNode])
  | @children p entries nonempty isPriority ascending validKeys full formed ih =>
    have good : GoodEntries entries := ⟨ascending, validKeys, full, formed⟩
    cases levels with
    | zero => cases stored
    | succ levels =>
      rw [valForExport_entries p nonempty, internalNodeFrom_success_iff _ _ _ _ (by simp)] at stored
      obtain ⟨_, p', value, isLeaf, _, _, own, leafNode | branch⟩ := stored
      · cases leafNode.2
      · obtain ⟨_, _, named, nodes, node⟩ := branch
        rw [own.unique (ownValue_exported p good)] at nodes
        rw [nodeOver_success_iff] at node
        rcases node with ⟨_, empty⟩ | ⟨_, entries', _, same, node⟩
        · cases empty
        · obtain ⟨_, rfl⟩ := FStoredNode.children.inj node
          refine nullsMarked_of_entries (fun e member => ?_)
          obtain ⟨_, value, inside, made⟩ := entries_made nodes same e member
          obtain ⟨d, listed, equal⟩ := List.mem_map.mp ((childEntries_exported good).subset inside)
          obtain ⟨key, rfl⟩ := Prod.mk.inj equal
          have tie : keyComparator d.1 e.1 = .eq := by
            rw [key]
            exact Std.ReflCmp.compare_self
          rw [ascending.eq_of_tie listed member tie] at made
          exact ih e member made

/-- A stored node is stored again by its export exactly when it is not too deep
and has no null leaf without a priority. -/
theorem export_stored_again (n : StoredNode) :
    nodeFrom E classDescription fn (valForExport true n.node) .null = .ok n.node ↔
      depth n.node ≤ kFirebaseMaxObjectDepth ∧ NullsMarked n.node := by
  constructor
  · intro stored
    obtain ⟨_, below, levels, bound⟩ := internalNodeFrom_wellFormed stored
    rw [← Nat.succ.inj levels] at bound
    exact ⟨bound, nullsMarked_of_export E classDescription fn n.formed stored⟩
  · rintro ⟨bound, marked⟩
    exact internalNodeFrom_export E classDescription fn n.formed marked bound []

end RoundTrip

/-- A recipe with a title and a priority. -/
def storedRecipe : StoredNode where
  node := .children (some (.leaf (.int 2) emptyNode)) [("title", .leaf (.string "Soup") emptyNode)]
  formed := .children (List.cons_ne_nil _ _) (.value ⟨trivial, by decide, by decide⟩)
    (List.pairwise_singleton _ _) (by decide) (by decide)
    (fun e member => by
      rw [List.mem_singleton.mp member]
      exact .leaf (show ("Soup").utf8ByteSize ≤ kFirebaseMaxLeafSize by decide) .none)

theorem storedRecipe_again : nodeFrom Enumeration.ascending (fun _ => "") "setValue:"
    (valForExport true storedRecipe.node) .null = .ok storedRecipe.node := by
  refine internalNodeFrom_export _ _ _ storedRecipe.formed ?_ (by decide) []
  refine nullsMarked_of_entries (fun e member path same => ?_)
  rw [List.mem_singleton.mp member] at same
  cases path with
  | nil => cases same
  | cons k path =>
    rw [descendant, show entry (.leaf (.string "Soup") emptyNode) k = emptyNode from rfl,
      descendant_emptyNode] at same
    cases same

theorem accepted_value_recipe :
    WellFormed storedRecipe.node ∧ depth storedRecipe.node ≤ kFirebaseMaxObjectDepth ∧
      ∀ (F : Enumeration String AnyValue) (otherDescription : AnyValue → String) (other : String),
        nodeFrom F otherDescription other (valForExport true storedRecipe.node) .null =
          .ok storedRecipe.node :=
  accepted_value storedRecipe_again

end WatchAndSee.Guarantees.StoredNodes
