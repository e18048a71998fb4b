import WatchAndSee.Guarantees.CompoundWrites
import WatchAndSee.Guarantees.NodeRoundTrip
import WatchAndSee.Source.FUpdateValues

/-!
# What an update writes

The paths of an update are sorted and each is compared with its neighbour only.
That is enough: between a path and one below it there are only paths below the
first. So an update is accepted when its keys and values are and no two of its
paths meet, and then it writes just what it names, in whatever order its keys are
enumerated. As in all compound writes the keys are in one normal form.
-/

set_option autoImplicit false

namespace WatchAndSee.Guarantees.StoredNodes
open Library
open Library.Overlay (Apart)
open Source
open Source.FStoredNode hiding children
open Source.FValidation Source.FSnapshotUtilities
open ImmutableTrees

/-! ## Sorted paths -/

theorem compare_eq_compareLex (p q : FPath) :
    FPath.compare p q = List.compareLex keyComparator p q := by
  induction p generalizing q with
  | nil => cases q <;> rfl
  | cons k p ih =>
    cases q with
    | nil => rfl
    | cons j q =>
      rw [FPath.compare, List.compareLex_cons_cons, ih]
      cases keyComparator k j <;> rfl

/-- No other name ties with a piece of the path. -/
def AlonePath (p : FPath) : Prop := ∀ k ∈ p, NoTie k

theorem AlonePath.eq_of_compare {p q : FPath} (alone : AlonePath p)
    (same : FPath.compare p q = .eq) : p = q := by
  induction p generalizing q with
  | nil =>
    cases q with
    | nil => rfl
    | cons => cases same
  | cons k p ih =>
    cases q with
    | nil => cases same
    | cons j q =>
      obtain ⟨first, others⟩ := List.forall_mem_cons.mp alone
      rw [FPath.compare] at same
      cases tie : keyComparator k j with
      | lt => simp [tie] at same
      | gt => simp [tie] at same
      | eq =>
        simp only [tie] at same
        rw [first j tie, ih others same]

theorem compare_of_prefix {p q : FPath} (leads : p <+: q) : (FPath.compare p q).isLE = true := by
  induction p generalizing q with
  | nil => cases q <;> rfl
  | cons k p ih =>
    obtain ⟨rest, rfl⟩ := leads
    have same : keyComparator k k = .eq := Std.ReflCmp.compare_self
    rw [List.cons_append, FPath.compare, same]
    exact ih (List.prefix_append p rest)

/-- Between a path and one below it there are only paths below the first. -/
theorem prefix_between {p x q : FPath} (alone : AlonePath p) (leads : p <+: q)
    (left : (FPath.compare p x).isLE = true) (right : (FPath.compare x q).isLE = true) : p <+: x := by
  induction p generalizing x q with
  | nil => exact List.nil_prefix
  | cons k p ih =>
    obtain ⟨first, others⟩ := List.forall_mem_cons.mp alone
    obtain ⟨rest, rfl⟩ := leads
    cases x with
    | nil => cases left
    | cons j x =>
      rw [List.cons_append] at right
      rw [FPath.compare] at left right
      cases order : keyComparator k j with
      | lt =>
        have back : keyComparator j k = .gt := Std.OrientedCmp.gt_iff_lt.mpr order
        simp [back] at right
      | gt => simp [order] at left
      | eq =>
        obtain rfl := first j order
        rw [order] at left right
        exact List.cons_prefix_cons.mpr ⟨rfl, ih others (List.prefix_append p rest) left right⟩

theorem checkUpdatePaths_after (fn : String) (prev : FPath) (paths : List FPath) :
    checkUpdatePaths fn (some prev) paths = .ok () ↔
      (prev :: paths).IsChain fun p q => ¬ p <+: q := by
  induction paths generalizing prev with
  | nil => simp [checkUpdatePaths]
  | cons path rest ih =>
    rw [checkUpdatePaths, List.isChain_cons_cons, ← ih, ← FPath.contains_iff]
    cases FPath.contains prev path <;> simp

theorem checkUpdatePaths_ok_iff (fn : String) (paths : List FPath) :
    checkUpdatePaths fn none paths = .ok () ↔ paths.IsChain fun p q => ¬ p <+: q := by
  cases paths with
  | nil => simp [checkUpdatePaths]
  | cons path rest =>
    rw [checkUpdatePaths]
    exact checkUpdatePaths_after fn path rest

/-- Neighbours that do not contain each other suffice. -/
theorem apart_of_neighbours {paths : List FPath} (alone : ∀ p ∈ paths, AlonePath p)
    (sorted : paths.Pairwise fun p q => (FPath.compare p q).isLE = true) :
    (paths.IsChain fun p q => ¬ p <+: q) ↔ paths.Pairwise Apart := by
  constructor
  · intro neighbours
    induction paths with
    | nil => exact .nil
    | cons p rest ih =>
      obtain ⟨aloneP, aloneRest⟩ := List.forall_mem_cons.mp alone
      obtain ⟨before, sortedRest⟩ := List.pairwise_cons.mp sorted
      cases rest with
      | nil => exact List.pairwise_singleton _ _
      | cons x rest =>
        obtain ⟨next, chain⟩ := List.isChain_cons_cons.mp neighbours
        refine List.pairwise_cons.mpr ⟨?_, ih aloneRest sortedRest chain⟩
        have notBelow : ∀ q ∈ x :: rest, ¬ p <+: q := by
          intro q member leads
          rcases List.mem_cons.mp member with rfl | later
          · exact next leads
          · have after := (List.pairwise_cons.mp sortedRest).1 q later
            exact next (prefix_between aloneP leads (before x List.mem_cons_self) after)
        intro q member
        refine ⟨notBelow q member, fun leads => ?_⟩
        have up := compare_of_prefix leads
        have down := before q member
        rw [compare_eq_compareLex] at up down
        have tie : FPath.compare p q = .eq := by
          rw [compare_eq_compareLex]
          exact Std.OrientedCmp.isLE_antisymm down up
        exact notBelow q member (aloneP.eq_of_compare tie ▸ List.prefix_refl _)
  · intro apart
    exact (apart.imp fun both => both.1).isChain

theorem pairwise_sorted_paths (paths : List FPath) :
    (paths.mergeSort fun p q => (FPath.compare p q).isLE).Pairwise fun p q =>
      (FPath.compare p q).isLE = true := by
  simp only [compare_eq_compareLex]
  refine List.pairwise_mergeSort (fun _ _ _ => Std.TransCmp.isLE_trans) (fun p q => ?_) paths
  rw [show List.compareLex keyComparator q p = (List.compareLex keyComparator p q).swap from
    Std.OrientedCmp.eq_swap]
  cases List.compareLex keyComparator p q <;> rfl

/-! ## One key and its value -/

/-- The pieces of an accepted key are valid, but for a priority at its end. -/
theorem validUpdateComponents_success {fn : String} {value : AnyValue} {length keyNum : Nat}
    {path : FPath} (counted : keyNum + path.length = length)
    (success : validUpdateComponents fn value length keyNum path = .ok ()) :
    (∀ k ∈ path, isValidKey k = true) ∨ ∃ stem, path = stem ++ [".priority"] ∧
      (∀ k ∈ stem, isValidKey k = true) ∧ isValidPriorityValue fn value [] = .ok () := by
  induction path generalizing keyNum with
  | nil => exact .inl (by simp)
  | cons key rest ih =>
    rw [List.length_cons] at counted
    rw [validUpdateComponents] at success
    split at success
    · next last =>
      obtain ⟨_, valid, _⟩ := bind_success_iff.mp success
      have ends : rest = [] := List.length_eq_zero_iff.mp (by omega)
      subst ends
      exact .inr ⟨[], by rw [last.1]; rfl, by simp, valid⟩
    · split at success
      · next valid =>
        rcases ih (by omega) success with all | ⟨stem, rfl, all, priority⟩
        · exact .inl (List.forall_mem_cons.mpr ⟨valid, all⟩)
        · exact .inr ⟨key :: stem, rfl, List.forall_mem_cons.mpr ⟨valid, all⟩, priority⟩
      · cases success

section Updates

variable {E : Enumeration String AnyValue} {classDescription : AnyValue → String} {fn : String}

/-- A value that passes as a priority becomes one. -/
theorem nodeFrom_priority {value : AnyValue} {n : FStoredNode}
    (valid : isValidPriorityValue fn value [] = .ok ())
    (success : nodeFrom E classDescription fn value .null = .ok n) : IsPriority n := by
  by_cases null : value = .null
  · subst null
    rw [nodeFrom, internalNodeFrom, Except.ok.injEq] at success
    rw [← success]
    exact .none
  · have accepted := success
    rw [nodeFrom, internalNodeFrom_success_iff _ _ _ _ null] at accepted
    obtain ⟨_, _, v, _, _, _, own, result⟩ := accepted
    have storable : StorableLeaf value := by
      cases value with
      | dictionary dval =>
        simp only [isValidPriorityValue] at valid
        split at valid
        · next server =>
          split at valid
          · cases valid
          · exact ⟨server, by omega⟩
        · cases valid
      | array elements => cases valid
      | object identity =>
        obtain ⟨rfl, _⟩ := own
        rcases result with leaf | branch
        · exact leaf.1
        · exact absurd branch.2.1 id
      | string text =>
        obtain ⟨rfl, _⟩ := own
        exact result.elim (fun leaf => leaf.1) fun branch => absurd branch.1 id
      | _ => trivial
    have kind := (isValidPriorityValue_success_iff fn [] storable).mp valid
    have present : getJavascriptType value ≠ .null := by
      cases value <;> first | exact absurd rfl null | exact absurd storable id | simp [getJavascriptType]
    obtain ⟨ownPriority, ownValue⟩ := own_of_storable storable
    have leaf : nodeFrom E classDescription fn value .null = .ok (.leaf value emptyNode) := by
      rw [nodeFrom, internalNodeFrom_success_iff _ _ _ _ null]
      exact ⟨emptyNode, emptyNode, value, false, .null, ownPriority, ownValue, .inl ⟨storable, rfl⟩⟩
    rw [leaf, Except.ok.injEq] at success
    rw [← success]
    exact .value ⟨storable, present, kind⟩

variable (E classDescription fn)

def Accepts (e : String × AnyValue) : Prop :=
  validUpdateDictionaryKey fn e.1 e.2 = .ok () ∧ ∃ n, nodeFrom E classDescription fn e.2 .null = .ok n

/-- The write of an entry. -/
def updateEntry (e : String × AnyValue) : FPath × FStoredNode :=
  (FPath.pathWithString e.1, (nodeFrom E classDescription fn e.2 .null).toOption.getD emptyNode)

variable {E classDescription fn}

theorem nodeFrom_entry {e : String × AnyValue} (accepts : Accepts E classDescription fn e) :
    nodeFrom E classDescription fn e.2 .null = .ok (updateEntry E classDescription fn e).2 := by
  obtain ⟨_, n, node⟩ := accepts
  unfold updateEntry
  rw [node]
  rfl

theorem writable_entry {e : String × AnyValue} (accepts : Accepts E classDescription fn e)
    (alone : AlonePath (FPath.pathWithString e.1)) :
    Writable (updateEntry E classDescription fn e).1 (updateEntry E classDescription fn e).2 := by
  have node := nodeFrom_entry accepts
  generalize (updateEntry E classDescription fn e).2 = n at node
  change Writable (FPath.pathWithString e.1) n
  have valid := accepts.1
  rw [validUpdateDictionaryKey] at valid
  rcases validUpdateComponents_success (by omega) valid with keys | ⟨stem, path, keys, priority⟩
  · exact .value (fun k member => ⟨keys k member, alone k member⟩) (internalNodeFrom_wellFormed node).1
  · rw [path] at alone ⊢
    exact .priority (fun k member => ⟨keys k member, alone k (List.mem_append_left _ member)⟩)
      (nodeFrom_priority priority node)

theorem addUpdates_success_iff {es : List (String × AnyValue)} {before paths : List FPath}
    {w₀ w : FCompoundWrite} :
    addUpdates E classDescription fn es before w₀ = .ok (paths, w) ↔
      (∀ e ∈ es, Accepts E classDescription fn e) ∧
        paths = before ++ (es.map (updateEntry E classDescription fn)).map Prod.fst ∧
        (es.map (updateEntry E classDescription fn)).foldlM
          (fun (w : FCompoundWrite) e => w.addWrite e.2 e.1) w₀ = .ok w := by
  induction es generalizing before w₀ with
  | nil => simp [addUpdates, pure_eq_ok, eq_comm]
  | cons e es ih =>
    obtain ⟨keyId, value⟩ := e
    rw [List.forall_mem_cons, List.map_cons, List.map_cons, List.foldlM_cons, addUpdates]
    simp only [bind_success_iff, ih]
    constructor
    · rintro ⟨_, valid, node, made, w₁, added, accepted, rfl, run⟩
      have accepts : Accepts E classDescription fn (keyId, value) := ⟨valid, node, made⟩
      have same := nodeFrom_entry accepts
      rw [made, Except.ok.injEq] at same
      refine ⟨⟨accepts, accepted⟩, ?_, w₁, ?_, run⟩
      · rw [List.append_assoc]
        rfl
      · rw [← same]
        exact added
    · rintro ⟨⟨accepts, accepted⟩, rfl, w₁, added, run⟩
      refine ⟨(), accepts.1, _, nodeFrom_entry accepts, w₁, added, accepted, ?_, run⟩
      rw [List.append_assoc]
      rfl

/-- An update is accepted when its entries are and no two of its paths meet. -/
theorem compoundWriteFromDictionary_success_iff {values : AnyDictionary}
    (alone : ∀ e ∈ E.order values, AlonePath (FPath.pathWithString e.1)) (w : FCompoundWrite) :
    compoundWriteFromDictionary E classDescription fn values = .ok w ↔
      (∀ e ∈ E.order values, Accepts E classDescription fn e) ∧
        ((E.order values).Pairwise fun e f =>
          Apart (FPath.pathWithString e.1) (FPath.pathWithString f.1)) ∧
        ((E.order values).map (updateEntry E classDescription fn)).foldlM
          (fun (w : FCompoundWrite) e => w.addWrite e.2 e.1) .emptyWrite = .ok w := by
  have paths : ((E.order values).map (updateEntry E classDescription fn)).map Prod.fst =
      (E.order values).map fun e => FPath.pathWithString e.1 := List.map_map
  generalize listed : ((E.order values).map fun e => FPath.pathWithString e.1) = pathList at paths
  have same := List.mergeSort_perm pathList fun p q => (FPath.compare p q).isLE
  have aloneSorted : ∀ p ∈ pathList.mergeSort fun p q => (FPath.compare p q).isLE, AlonePath p := by
    intro p member
    rw [same.mem_iff, ← listed] at member
    obtain ⟨e, inside, rfl⟩ := List.mem_map.mp member
    exact alone e inside
  have check : checkUpdatePaths fn none
      (pathList.mergeSort fun p q => (FPath.compare p q).isLE) = .ok () ↔
        (E.order values).Pairwise fun e f =>
          Apart (FPath.pathWithString e.1) (FPath.pathWithString f.1) := by
    rw [checkUpdatePaths_ok_iff, apart_of_neighbours aloneSorted (pairwise_sorted_paths pathList),
      same.pairwise_iff fun both => both.symm, ← listed, List.pairwise_map]
  unfold compoundWriteFromDictionary
  rw [← check]
  simp only [bind_success_iff, Prod.exists, addUpdates_success_iff, List.nil_append, paths,
    pure_eq_ok, Except.ok.injEq]
  constructor
  · rintro ⟨_, _, ⟨accepted, rfl, run⟩, _, checked, rfl⟩
    exact ⟨accepted, checked, run⟩
  · rintro ⟨accepted, checked, run⟩
    exact ⟨pathList, w, ⟨accepted, rfl, run⟩, (), checked, rfl⟩

theorem apart_entries_iff (E : Enumeration String AnyValue) (values : AnyDictionary) :
    ((E.order values).Pairwise fun e f =>
        Apart (FPath.pathWithString e.1) (FPath.pathWithString f.1)) ↔
      ∀ key key', key ≠ key' → (values.get? key).isSome → (values.get? key').isSome →
        Apart (FPath.pathWithString key) (FPath.pathWithString key') := by
  have listing := E.lists values
  constructor
  · intro pairwise key key' different first second
    obtain ⟨value, here⟩ := Option.isSome_iff_exists.mp first
    obtain ⟨value', there⟩ := Option.isSome_iff_exists.mp second
    have symm : Std.Symm fun e f : String × AnyValue =>
        Apart (FPath.pathWithString e.1) (FPath.pathWithString f.1) := ⟨fun _ _ both => both.symm⟩
    have inE : (key, value) ∈ E.order values := (listing.mem_iff key value).mpr here
    have inF : (key', value') ∈ E.order values := (listing.mem_iff key' value').mpr there
    have entries : (key, value) ≠ (key', value') := fun same => different (congrArg Prod.fst same)
    have apart := pairwise.forall inE inF entries
    exact apart
  · intro apart
    refine List.Nodup.pairwise_of_forall_ne listing.nodup.of_map fun e inE f inF different => ?_
    have here := (listing.mem_iff e.1 e.2).mp inE
    have there := (listing.mem_iff f.1 f.2).mp inF
    refine apart e.1 f.1 (fun same => different (Prod.ext same ?_)) (by simp [here]) (by simp [there])
    rw [same, there] at here
    exact (Option.some.inj here).symm

/-- What an accepted update writes. -/
theorem update_written {values : AnyDictionary}
    (alone : ∀ e ∈ E.order values, AlonePath (FPath.pathWithString e.1))
    (accepted : ∀ e ∈ E.order values, Accepts E classDescription fn e)
    (pairwise : (E.order values).Pairwise fun e f =>
      Apart (FPath.pathWithString e.1) (FPath.pathWithString f.1)) :
    ∃ w, compoundWriteFromDictionary E classDescription fn values = .ok w ∧ GoodWrite w ∧
      ∀ path n, overlay w path = some n ↔ ∃ key value, values.get? key = some value ∧
        path = FPath.pathWithString key ∧ nodeFrom E classDescription fn value .null = .ok n := by
  have writable : ∀ x ∈ (E.order values).map (updateEntry E classDescription fn),
      Writable x.1 x.2 := by
    intro x member
    obtain ⟨e, inside, rfl⟩ := List.mem_map.mp member
    exact writable_entry (accepted e inside) (alone e inside)
  obtain ⟨w, run, good, meaning⟩ := addWrites_spec goodWrite_emptyWrite writable
  refine ⟨w, (compoundWriteFromDictionary_success_iff alone w).mpr ⟨accepted, pairwise, run⟩, good,
    fun path n => ?_⟩
  have apart : ((E.order values).map (updateEntry E classDescription fn)).Pairwise
      fun x y => Apart x.1 y.1 := List.pairwise_map.mpr pairwise
  rw [meaning, overlay_emptyWrite, Overlay.writeAll_of_apart apart (fun r found => by cases found),
    or_iff_right (by simp [Overlay.empty]), List.mem_map]
  constructor
  · rintro ⟨e, inside, same⟩
    obtain ⟨rfl, rfl⟩ := Prod.mk.inj same
    exact ⟨e.1, e.2, ((E.lists values).mem_iff e.1 e.2).mp inside, rfl,
      nodeFrom_entry (accepted e inside)⟩
  · rintro ⟨key, value, here, rfl, node⟩
    have inside := ((E.lists values).mem_iff key value).mpr here
    refine ⟨(key, value), inside, Prod.ext rfl ?_⟩
    have made := nodeFrom_entry (accepted _ inside)
    rw [node, Except.ok.injEq] at made
    exact made.symm

end Updates

/-- An update whose keys have no twins is accepted exactly when every key and value
is and no path lies above another. Then its compound write has just the nodes of
its values at their paths, every write that `Writable` allows, whatever the order
in which the keys are enumerated. -/
theorem update_accepted (E : Enumeration String AnyValue) (classDescription : AnyValue → String)
    (fn : String) (values : AnyDictionary)
    (alone : ∀ key value, values.get? key = some value → AlonePath (FPath.pathWithString key)) :
    ((∃ w, compoundWriteFromDictionary E classDescription fn values = .ok w) ↔
      (∀ key value, values.get? key = some value → validUpdateDictionaryKey fn key value = .ok () ∧
        ∃ n, nodeFrom E classDescription fn value .null = .ok n) ∧
      ∀ key key', key ≠ key' → (values.get? key).isSome → (values.get? key').isSome →
        Apart (FPath.pathWithString key) (FPath.pathWithString key')) ∧
    ∀ w, compoundWriteFromDictionary E classDescription fn values = .ok w →
      GoodWrite w ∧
      (∀ path n, w.writeTree.valueAtPath path = some n ↔ ∃ key value, values.get? key = some value ∧
        path = FPath.pathWithString key ∧ nodeFrom E classDescription fn value .null = .ok n) ∧
      ∀ F : Enumeration String AnyValue,
        compoundWriteFromDictionary F classDescription fn values = .ok w := by
  have aloneIn (F : Enumeration String AnyValue) :
      ∀ e ∈ F.order values, AlonePath (FPath.pathWithString e.1) :=
    fun e member => alone e.1 e.2 (((F.lists values).mem_iff e.1 e.2).mp member)
  constructor
  · rw [← apart_entries_iff E values]
    constructor
    · rintro ⟨w, success⟩
      obtain ⟨accepted, pairwise, _⟩ :=
        (compoundWriteFromDictionary_success_iff (aloneIn E) w).mp success
      refine ⟨fun key value here => ?_, pairwise⟩
      exact accepted (key, value) (((E.lists values).mem_iff key value).mpr here)
    · rintro ⟨accepted, pairwise⟩
      have entries : ∀ e ∈ E.order values, Accepts E classDescription fn e :=
        fun e member => accepted e.1 e.2 (((E.lists values).mem_iff e.1 e.2).mp member)
      obtain ⟨w, success, _⟩ := update_written (aloneIn E) entries pairwise
      exact ⟨w, success⟩
  · intro w success
    obtain ⟨accepted, pairwise, _⟩ :=
      (compoundWriteFromDictionary_success_iff (aloneIn E) w).mp success
    obtain ⟨w', again, good, written⟩ := update_written (aloneIn E) accepted pairwise
    obtain rfl : w = w' := Except.ok.inj (success.symm.trans again)
    refine ⟨good, written, fun F => ?_⟩
    have acceptedF : ∀ e ∈ F.order values, Accepts F classDescription fn e := by
      intro e member
      have here := ((F.lists values).mem_iff e.1 e.2).mp member
      obtain ⟨valid, n, node⟩ := accepted e (((E.lists values).mem_iff e.1 e.2).mpr here)
      exact ⟨valid, n, internalNodeFrom_congr node⟩
    have pairwiseF := (apart_entries_iff F values).mpr ((apart_entries_iff E values).mp pairwise)
    obtain ⟨v, successF, goodV, writtenV⟩ := update_written (aloneIn F) acceptedF pairwiseF
    have same : overlay v = overlay w := by
      funext path
      refine Option.ext fun n => ?_
      rw [writtenV, written]
      constructor
      · rintro ⟨key, value, here, rfl, node⟩
        exact ⟨key, value, here, rfl, internalNodeFrom_congr node⟩
      · rintro ⟨key, value, here, rfl, node⟩
        exact ⟨key, value, here, rfl, internalNodeFrom_congr node⟩
    rw [successF, goodV.ext good same]

/-- The entries of an update of two dishes of a menu and of a drink. -/
def menuEntries : List (String × AnyValue) :=
  [("menu/side", .string "Salad"), ("drink", .string "Juice"), ("menu/dish", .string "Soup")]

def menuUpdate : AnyDictionary := menuEntries.foldl (fun d e => d.set e.1 e.2) .empty

theorem dish_update_written : ∃ w,
    compoundWriteFromDictionary Enumeration.ascending (fun _ => "") "updateChildValues:" menuUpdate =
        .ok w ∧ w.writeTree.valueAtPath ["menu", "dish"] = some (textNode "Soup") ∧
      w.writeTree.valueAtPath ["menu", "side"] = some (textNode "Salad") ∧
      w.writeTree.valueAtPath ["drink"] = some (textNode "Juice") := by
  have listing : menuUpdate.Lists menuEntries := Dictionary.lists_foldl_set (by decide)
  have entry {key : String} {value : AnyValue} (here : menuUpdate.get? key = some value) :
      (key, value) ∈ menuEntries := (listing.mem_iff key value).mpr here
  have every {P : String × AnyValue → Prop} (side : P ("menu/side", .string "Salad"))
      (drink : P ("drink", .string "Juice")) (dish : P ("menu/dish", .string "Soup")) :
      ∀ e ∈ menuEntries, P e :=
    List.forall_mem_cons.mpr ⟨side, List.forall_mem_cons.mpr ⟨drink, List.forall_mem_singleton.mpr dish⟩⟩
  have plain : ∀ e ∈ menuEntries, PlainPath (FPath.pathWithString e.1) :=
    every (plain_path (by decide)) (plain_path (by decide)) (plain_path (by decide))
  have accepts : ∀ e ∈ menuEntries, validUpdateDictionaryKey "updateChildValues:" e.1 e.2 = .ok () ∧
      ∃ n, nodeFrom Enumeration.ascending (fun _ => "") "updateChildValues:" e.2 .null = .ok n :=
    every ⟨rfl, _, rfl⟩ ⟨rfl, _, rfl⟩ ⟨rfl, _, rfl⟩
  have apart : ∀ e ∈ menuEntries, ∀ f ∈ menuEntries, e.1 ≠ f.1 →
      Apart (FPath.pathWithString e.1) (FPath.pathWithString f.1) := by
    unfold Apart
    decide
  obtain ⟨accepted, written⟩ :=
    update_accepted Enumeration.ascending (fun _ => "") "updateChildValues:" menuUpdate
      (fun key value here k member => (plain _ (entry here) k member).2)
  obtain ⟨w, success⟩ := accepted.mpr
    ⟨fun key value here => accepts _ (entry here), fun key key' different first second => by
      obtain ⟨value, here⟩ := Option.isSome_iff_exists.mp first
      obtain ⟨value', there⟩ := Option.isSome_iff_exists.mp second
      exact apart (key, value) (entry here) (key', value') (entry there) different⟩
  obtain ⟨_, values, _⟩ := written w success
  have reads {path : FPath} {n : FStoredNode} (e : String × AnyValue) (member : e ∈ menuEntries)
      (here : path = FPath.pathWithString e.1)
      (node : nodeFrom Enumeration.ascending (fun _ => "") "updateChildValues:" e.2 .null = .ok n) :
      w.writeTree.valueAtPath path = some n :=
    (values path n).mpr ⟨e.1, e.2, (listing.mem_iff _ _).mp member, here, node⟩
  refine ⟨w, success, ?_, ?_, ?_⟩
  · exact reads ("menu/dish", .string "Soup") (by simp [menuEntries]) (by decide) rfl
  · exact reads ("menu/side", .string "Salad") (by simp [menuEntries]) (by decide) rfl
  · exact reads ("drink", .string "Juice") (by simp [menuEntries]) (by decide) rfl

end WatchAndSee.Guarantees.StoredNodes
