import WatchAndSee.Guarantees.ImmutableTrees
import WatchAndSee.Guarantees.NodePaths
import WatchAndSee.Guarantees.StoredValues
import WatchAndSee.Source.FCompoundWrite

/-!
# A compound write is an overlay of the nodes that it is applied to

The writes of a compound write stand at paths none of which is below another. A
further write goes into a written node above it, or replaces the writes below it.
What a compound write calls complete is what the nodes hold after the writes one
after the other, whatever they held before. Keys are in one normal form, where
`stringComparator`, which keeps the writes apart, only ties equal ones.
-/

set_option autoImplicit false

namespace WatchAndSee.Guarantees.StoredNodes
open Library
open Library.Overlay (Apart PrefixFree Above writeAll)
open Source
open Source.FStoredNode Source.FValidation
open ImmutableTrees

/-- A key that the validation accepts and that no other key ties with. -/
def PlainKey (k : String) : Prop := isValidKey k = true ∧ NoTie k

def PlainPath (path : FPath) : Prop := ∀ k ∈ path, PlainKey k

theorem PlainPath.value {path : FPath} (plain : PlainPath path) : ValuePath path :=
  fun k member => (plain k member).1

theorem plainPath_nil : PlainPath [] := fun _ member => by cases member

theorem PlainPath.cons {k : String} {path : FPath} :
    PlainPath (k :: path) ↔ PlainKey k ∧ PlainPath path := List.forall_mem_cons

theorem PlainPath.append {p q : FPath} : PlainPath (p ++ q) ↔ PlainPath p ∧ PlainPath q :=
  List.forall_mem_append

theorem PlainKey.not_priority {k : String} (plain : PlainKey k) : k ≠ ".priority" :=
  not_priority_of_valid plain.1

theorem PlainPath.no_priority {path : FPath} (plain : PlainPath path) : ".priority" ∉ path :=
  fun member => (plain _ member).not_priority rfl

theorem PlainKey.piece {k : String} (plain : PlainKey k) : FPath.IsPiece k := by
  have valid := plain.1
  simp only [isValidKey, Bool.and_eq_true, List.all_eq_true] at valid
  refine ⟨by simpa using valid.1, fun slash => ?_⟩
  have allowed := valid.2 _ slash
  simp [kInvalidKeyCharacters] at allowed

theorem piece_priority : FPath.IsPiece ".priority" := by
  constructor <;> decide

theorem PlainKey.apart {j k : String} (plain : PlainKey k) (different : j ≠ k) :
    keyComparator k j ≠ .eq := fun tie => different (plain.2 j tie)

theorem noTie_of_letter {k : String} {c : Char} {rest : List Char} (text : k.toList = c :: rest)
    (notZero : c ≠ '0') (notMinus : c ≠ '-') : NoTie k := by
  refine (noTie_iff k).mpr fun m _ _ => ?_
  have zero : (zeros (m + 1)).toList = '0' :: List.replicate m '0' := String.toList_ofList
  have negative : (negativeZeros m).toList = '-' :: List.replicate m '0' := String.toList_ofList
  constructor
  · intro same
    rw [← same, text] at zero
    exact notZero (List.cons.inj zero).1
  · intro same
    rw [← same, text] at negative
    exact notMinus (List.cons.inj negative).1

/-- Valid keys that begin like no numeral with a twin. -/
theorem plain_path {path : FPath} (plain : (path.all fun k => isValidKey k &&
    k.toList.head?.any fun c => c ≠ '0' && c ≠ '-') = true) : PlainPath path := by
  intro k member
  obtain ⟨valid, letter⟩ := Bool.and_eq_true_iff.mp (List.all_eq_true.mp plain k member)
  cases text : k.toList with
  | nil => simp [text] at letter
  | cons c rest =>
    have apart : c ≠ '0' ∧ c ≠ '-' := by simpa [text] using letter
    exact ⟨valid, noTie_of_letter text apart.1 apart.2⟩

/-- What a client may write: a node at a path, or a priority. -/
inductive Writable : FPath → FStoredNode → Prop where
  | value {path : FPath} {node : FStoredNode} (plain : PlainPath path) (formed : WellFormed node) :
      Writable path node
  | priority {path : FPath} {node : FStoredNode} (plain : PlainPath path)
      (isPriority : IsPriority node) : Writable (path ++ [".priority"]) node

theorem Writable.formed {p : FPath} {c : FStoredNode} (writable : Writable p c) : WellFormed c := by
  cases writable with
  | value _ formed => exact formed
  | priority _ isPriority => exact isPriority.wellFormed

theorem Writable.pieces {p : FPath} {c : FStoredNode} (writable : Writable p c) :
    ∀ k ∈ p, FPath.IsPiece k := by
  cases writable with
  | value plain => exact fun k member => (plain k member).piece
  | priority plain =>
    intro k member
    rcases List.mem_append.mp member with inside | last
    · exact (plain k inside).piece
    · rw [List.mem_singleton.mp last]
      exact piece_priority

theorem Writable.below {p q : FPath} {c : FStoredNode} (plain : PlainPath p)
    (writable : Writable q c) : Writable (p ++ q) c := by
  cases writable with
  | value plain' formed => exact .value (PlainPath.append.mpr ⟨plain, plain'⟩) formed
  | priority plain' isPriority =>
    rw [← List.append_assoc]
    exact .priority (PlainPath.append.mpr ⟨plain, plain'⟩) isPriority

/-- A priority is the last of a path. -/
theorem Writable.of_append {p q : FPath} {c : FStoredNode} (writable : Writable (p ++ q) c)
    (nonempty : q ≠ []) : PlainPath p ∧ Writable q c := by
  generalize path : p ++ q = whole at writable
  cases writable with
  | value plain formed =>
    subst path
    obtain ⟨left, right⟩ := PlainPath.append.mp plain
    exact ⟨left, .value right formed⟩
  | @priority stem _ plain isPriority =>
    obtain ⟨front, last, rfl⟩ := (List.eq_nil_or_concat q).resolve_left nonempty
    rw [List.concat_eq_append] at *
    rw [← List.append_assoc] at path
    obtain ⟨stemEq, lastEq⟩ := List.append_inj' path rfl
    obtain rfl := List.singleton_inj.mp lastEq
    rw [← stemEq] at plain
    obtain ⟨left, right⟩ := PlainPath.append.mp plain
    exact ⟨left, .priority right isPriority⟩

/-! ## What an update does to the children -/

/-- The node after `updateChild:withNewChild:`. -/
def updated (n : FStoredNode) (p : FPath) (c : FStoredNode) : FStoredNode :=
  (n.updateChild p c).toOption.getD n

theorem updated_of_ok {n c n' : FStoredNode} {p : FPath} (ok : n.updateChild p c = .ok n') :
    updated n p c = n' := by
  unfold updated
  rw [ok]
  rfl

theorem updateChild_ok {n c : FStoredNode} {p : FPath} (formed : WellFormed n)
    (writable : Writable p c) :
    n.updateChild p c = .ok (updated n p c) ∧ WellFormed (updated n p c) := by
  have success : ∃ n', n.updateChild p c = .ok n' ∧ WellFormed n' := by
    cases writable with
    | value plain formedC =>
      obtain ⟨n', ok, formed', _⟩ := updateChild_value formed formedC plain.value
      exact ⟨n', ok, formed'⟩
    | priority plain isPriority =>
      obtain ⟨n', ok, formed', _⟩ := updateChild_priority formed isPriority plain.value
      exact ⟨n', ok, formed'⟩
  obtain ⟨n', ok, formed'⟩ := success
  rw [updated_of_ok ok]
  exact ⟨ok, formed'⟩

theorem updateChild_nil (n c : FStoredNode) : n.updateChild [] c = .ok c := by cases n <;> rfl

@[simp] theorem updated_nil (n c : FStoredNode) : updated n [] c = c :=
  updated_of_ok (updateChild_nil n c)

/-- Below a plain key an update is one of the child, put back. -/
theorem updateChild_through {n c : FStoredNode} (formed : WellFormed n) {k : String}
    (plain : PlainKey k) {p : FPath} (writable : Writable p c) :
    n.updateChild (k :: p) c = n.updateImmediateChild k (updated (entry n k) p c) := by
  have step : n.updateChild (k :: p) c =
      (do
        let c' ← (entry n k).updateChild p c
        n.updateImmediateChild k c') := by
    cases writable with
    | value plain' formedC =>
      have here := updateChild_cons (n := n) formedC plain.1 plain'.value (.inl rfl)
      rwa [List.append_nil] at here
    | priority plain' isPriority =>
      exact updateChild_cons isPriority.wellFormed plain.1 plain'.value (.inr rfl)
  rw [step, (updateChild_ok (formed.child k) writable).1]
  rfl

theorem updated_cons {n c : FStoredNode} (formed : WellFormed n) {k : String} (plain : PlainKey k)
    {p : FPath} (writable : Writable p c) :
    Updated n k (updated (entry n k) p c) (updated n (k :: p) c) := by
  have formedC := (updateChild_ok (formed.child k) writable).2
  obtain ⟨n', here, result⟩ := updateImmediateChild_spec formed formedC plain.1
  rw [updated_of_ok ((updateChild_through formed plain writable).trans here)]
  exact result

/-- The children of a node do not depend on its priority. -/
theorem entry_updated_priority {n c : FStoredNode} (formed : WellFormed n) (isPriority : IsPriority c)
    (k : String) : entry (updated n [".priority"] c) k = entry n k := by
  cases formed with
  | empty => rfl
  | @leaf value priority storable =>
    have node : (leaf value priority).updateChild [".priority"] c = .ok (.leaf value c) := by
      have renamed : initWithValue value c = .ok (.leaf value c) := by
        rw [initWithValue, isPriority.validates]
        rfl
      simp only [updateChild, ne_eq, not_true_eq_false, decide_false, Bool.and_false]
      exact renamed
    rw [updated_of_ok node]
    rfl
  | @children priority entries nonempty =>
    have node : (children (some priority) entries).updateChild [".priority"] c =
        .ok (.children (some c) entries) := by
      rw [updateChild, updateChild_nil]
      simp [nsAssert, updateImmediateChild, updatePriority, initWithPriority, nonempty, bind,
        Except.bind]
    rw [updated_of_ok node]
    rfl

theorem entry_updated_same {n c : FStoredNode} (formed : WellFormed n) {k : String}
    (plain : PlainKey k) {p : FPath} (writable : Writable p c) :
    entry (updated n (k :: p) c) k = updated (entry n k) p c :=
  (updated_cons formed plain writable).tied k Std.ReflCmp.compare_self

theorem entry_updated_other {n c : FStoredNode} (formed : WellFormed n) {j k : String}
    {p : FPath} (writable : Writable (k :: p) c) (different : j ≠ k) :
    entry (updated n (k :: p) c) j = entry n j := by
  by_cases short : p = []
  · subst short
    generalize path : [k] = whole at writable
    cases writable with
    | value plain formedC =>
      subst path
      have key : PlainKey k := plain k List.mem_cons_self
      exact (updated_cons formed key (.value plainPath_nil formedC)).other j
        (key.apart different)
    | @priority stem _ _ isPriority =>
      cases stem with
      | nil => exact entry_updated_priority formed isPriority j
      | cons k' stem =>
        have length := congrArg List.length path
        simp at length
  · obtain ⟨plain, below⟩ := Writable.of_append (p := [k]) writable short
    have key : PlainKey k := plain k List.mem_cons_self
    exact (updated_cons formed key below).other j (key.apart different)

theorem WellFormed.descendant {n : FStoredNode} (formed : WellFormed n) (path : FPath) :
    WellFormed (descendant n path) := by
  induction path generalizing n with
  | nil => exact formed
  | cons k path ih => exact ih (formed.child k)

/-- An update below `q` updates what stands at `q`. -/
theorem descendant_updated_below {n c : FStoredNode} (formed : WellFormed n) {q r : FPath}
    (plain : PlainPath q) (writable : Writable r c) :
    descendant (updated n (q ++ r) c) q = updated (descendant n q) r c := by
  induction q generalizing n with
  | nil => rfl
  | cons k q ih =>
    obtain ⟨key, others⟩ := PlainPath.cons.mp plain
    rw [List.cons_append, descendant, entry_updated_same formed key (writable.below others)]
    exact ih (formed.child k) others

theorem descendant_updated_apart {n c : FStoredNode} (formed : WellFormed n) {p q : FPath}
    (writable : Writable p c) (apart : Apart p q) : descendant (updated n p c) q = descendant n q := by
  induction q generalizing n p with
  | nil => exact absurd List.nil_prefix apart.2
  | cons j q ih =>
    cases p with
    | nil => exact absurd List.nil_prefix apart.1
    | cons k p =>
      rw [descendant, descendant]
      by_cases same : j = k
      · subst same
        have apart' : Apart p q := by
          constructor
          · exact fun leads => apart.1 (List.cons_prefix_cons.mpr ⟨rfl, leads⟩)
          · exact fun leads => apart.2 (List.cons_prefix_cons.mpr ⟨rfl, leads⟩)
        have longer : p ≠ [] := by
          rintro rfl
          exact apart'.1 List.nil_prefix
        obtain ⟨plain, below⟩ := Writable.of_append (p := [j]) writable longer
        rw [entry_updated_same formed (plain j List.mem_cons_self) below]
        exact ih (formed.child j) below apart'
      · rw [entry_updated_other formed writable same]

/-! ## Compound writes as overlays -/

/-- The written nodes by path. -/
def overlay (w : FCompoundWrite) : Overlay String FStoredNode := w.writeTree.valueAtPath

structure GoodWrite (w : FCompoundWrite) : Prop where
  canonical : Canonical w.writeTree
  prefixFree : PrefixFree (overlay w)
  writable : ∀ p c, overlay w p = some c → Writable p c

theorem overlay_emptyWrite : overlay .emptyWrite = Overlay.empty := funext valueAtPath_empty

theorem goodWrite_emptyWrite : GoodWrite .emptyWrite where
  canonical := canonical_empty
  prefixFree := by
    rw [overlay_emptyWrite]
    exact Overlay.prefixFree_empty
  writable p c found := by
    rw [overlay_emptyWrite] at found
    cases found

/-- The overlay determines the compound write. -/
theorem GoodWrite.ext {w v : FCompoundWrite} (left : GoodWrite w) (right : GoodWrite v)
    (same : overlay w = overlay v) : w = v := by
  obtain ⟨t⟩ := w
  obtain ⟨s⟩ := v
  have tree : t = s := left.canonical.ext right.canonical (congrFun same)
  rw [tree]

theorem GoodWrite.findRootMost {w : FCompoundWrite} (good : GoodWrite w) {r s : FPath}
    (pieces : ∀ k ∈ r ++ s, FPath.IsPiece k) {v : FStoredNode} (found : overlay w r = some v) :
    w.writeTree.findRootMostValueAndPath (r ++ s) = some (r, v) := by
  refine (findRootMost_eq_some_iff _ pieces r v).mpr ⟨List.prefix_append r s, found,
    fun q leads different => ?_⟩
  by_contra something
  exact different (good.prefixFree q r (Option.isSome_iff_ne_none.mpr something)
    (by simp [found]) leads)

/-- A value stands on the way to a path, or none does. -/
theorem covered_or (o : Overlay String FStoredNode) (p : FPath) :
    (∃ r s v, p = r ++ s ∧ o r = some v) ∨ ∀ r, r <+: p → o r = none := by
  by_cases free : ∀ r, r <+: p → o r = none
  · exact .inr free
  · push Not at free
    obtain ⟨r, ⟨s, rfl⟩, something⟩ := free
    obtain ⟨v, found⟩ := Option.ne_none_iff_exists'.mp something
    exact .inl ⟨r, s, v, rfl, found⟩

/-- The node written at a path above is updated by the rest of the path. -/
theorem Writable.update {r s : FPath} {v c : FStoredNode} (outer : Writable r v)
    (inner : Writable (r ++ s) c) :
    v.updateChild s c = .ok (updated v s c) ∧ Writable r (updated v s c) := by
  by_cases whole : s = []
  · subst whole
    rw [List.append_nil] at inner
    rw [updated_nil]
    exact ⟨updateChild_nil v c, inner⟩
  · obtain ⟨plain, below⟩ := inner.of_append whole
    obtain ⟨ok, formed⟩ := updateChild_ok outer.formed below
    exact ⟨ok, .value plain formed⟩

/-- `addWrite:atPath:` writes into the overlay. -/
theorem addWrite_spec {w : FCompoundWrite} (good : GoodWrite w) {p : FPath} {c : FStoredNode}
    (writable : Writable p c) :
    ∃ w', w.addWrite c p = .ok w' ∧ GoodWrite w' ∧ overlay w' = (overlay w).add updated p c := by
  have finish {w' : FCompoundWrite} (canonical : Canonical w'.writeTree)
      (meaning : overlay w' = (overlay w).add updated p c)
      (kept : ∀ q v, overlay w' q = some v → Writable q v) : GoodWrite w' := by
    refine ⟨canonical, ?_, kept⟩
    rw [meaning]
    exact good.prefixFree.add p c
  by_cases root : p = []
  · subst root
    have meaning : overlay ⟨.initWithValue c⟩ = (overlay w).add updated [] c := by
      funext q
      unfold overlay
      rw [valueAtPath_initWithValue]
      have clear : ¬ (overlay w).Above [] := by
        rintro ⟨r, leads, different, _⟩
        exact different (List.prefix_nil.mp leads)
      by_cases same : q = []
      · rw [if_pos same, same]
        exact (Overlay.add_self _ c clear).symm
      · rw [if_neg same]
        exact (Overlay.add_under _ c List.nil_prefix same).symm
    refine ⟨⟨.initWithValue c⟩, rfl, finish (canonical_leaf _) meaning (fun q v found => ?_), meaning⟩
    unfold overlay at found
    rw [valueAtPath_initWithValue] at found
    split at found
    · next same =>
      rw [same, ← Option.some.inj found]
      exact writable
    · cases found
  · unfold FCompoundWrite.addWrite
    rw [if_neg root]
    rcases covered_or (overlay w) p with ⟨r, s, v, rfl, found⟩ | free
    · obtain ⟨ok, kept⟩ := (good.writable r v found).update writable
      have pieces : ∀ k ∈ r, FPath.IsPiece k :=
        fun k member => writable.pieces k (List.mem_append_left s member)
      have reads := valueAtPath_setValue (updated v s c) good.canonical r
      have meaning : overlay ⟨w.writeTree.setValue (updated v s c) r⟩ =
          (overlay w).add updated (r ++ s) c := by
        rw [Overlay.add_of_some good.prefixFree c found (fun short => by rw [short, updated_nil])]
        funext q
        exact (reads q).trans (by by_cases same : q = r <;> simp [same, overlay])
      refine ⟨⟨w.writeTree.setValue (updated v s c) r⟩, ?_,
        finish (canonical_setValue _ good.canonical pieces) meaning (fun q u written => ?_), meaning⟩
      · rw [good.findRootMost writable.pieces found]
        dsimp only
        rw [FPath.relativePathFrom_append, show (Except.ok s : Except FException FPath) = pure s from rfl,
          pure_bind, ok]
        rfl
      · unfold overlay at written
        rw [reads q] at written
        split at written
        · next same =>
          rw [same, ← Option.some.inj written]
          exact kept
        · exact good.writable q u written
    · have nothing := (findRootMost_eq_none_iff w.writeTree writable.pieces).mpr free
      have reads := valueAtPath_setTree (.initWithValue c) good.canonical p
      have meaning : overlay ⟨w.writeTree.setTree (.initWithValue c) p⟩ =
          (overlay w).add updated p c := by
        rw [Overlay.add_of_free c free]
        funext q
        refine (reads q).trans ?_
        rw [valueAtPath_initWithValue]
        by_cases under : p <+: q
        · obtain ⟨s, rfl⟩ := under
          simp
        · simp [under, overlay]
      refine ⟨⟨w.writeTree.setTree (.initWithValue c) p⟩, ?_,
        finish (canonical_setTree (canonical_leaf _) good.canonical writable.pieces) meaning
          (fun q v written => ?_), meaning⟩
      · rw [nothing]
      · rw [meaning, Overlay.add_of_free c free] at written
        dsimp only at written
        split at written
        · split at written
          · next same =>
            rw [same, ← Option.some.inj written]
            exact writable
          · cases written
        · exact good.writable q v written

theorem addWrites_spec {w : FCompoundWrite} (good : GoodWrite w)
    {ws : List (FPath × FStoredNode)} (writable : ∀ e ∈ ws, Writable e.1 e.2) :
    ∃ w', ws.foldlM (fun (w : FCompoundWrite) e => w.addWrite e.2 e.1) w = .ok w' ∧
      GoodWrite w' ∧ overlay w' = (overlay w).writeAll updated ws := by
  induction ws generalizing w with
  | nil => exact ⟨w, rfl, good, rfl⟩
  | cons e ws ih =>
    obtain ⟨first, others⟩ := List.forall_mem_cons.mp writable
    obtain ⟨v, added, goodV, meaning⟩ := addWrite_spec good first
    obtain ⟨w', run, goodW', meaning'⟩ := ih goodV others
    refine ⟨w', ?_, goodW', ?_⟩
    · rw [List.foldlM_cons, added]
      exact run
    · rw [meaning', meaning]
      rfl

/-- The writes of a compound write that is put at `p`. -/
def placed (p : FPath) (m : FCompoundWrite) : List (FPath × FStoredNode) :=
  m.writeTree.forEach.map fun e => (p ++ e.1, e.2)

theorem GoodWrite.writable_forEach {m : FCompoundWrite} (good : GoodWrite m) {e : FPath × FStoredNode}
    (member : e ∈ m.writeTree.forEach) : Writable e.1 e.2 :=
  good.writable _ _ (((lists_forEach good.canonical).mem_iff e.1 e.2).mp member)

theorem GoodWrite.writable_placed {m : FCompoundWrite} (good : GoodWrite m) {p : FPath}
    (plain : PlainPath p) : ∀ e ∈ placed p m, Writable e.1 e.2 := by
  intro e member
  obtain ⟨inner, inside, rfl⟩ := List.mem_map.mp member
  exact (good.writable_forEach inside).below plain

theorem addCompoundWrite_spec {w m : FCompoundWrite} (good : GoodWrite w) (goodM : GoodWrite m)
    {p : FPath} (plain : PlainPath p) :
    ∃ w', w.addCompoundWrite m p = .ok w' ∧ GoodWrite w' ∧
      overlay w' = (overlay w).writeAll updated (placed p m) := by
  obtain ⟨w', run, goodW', meaning⟩ := addWrites_spec good (goodM.writable_placed plain)
  refine ⟨w', ?_, goodW', meaning⟩
  rw [← run, placed, List.foldlM_map]
  rfl

theorem removeWriteAtPath_spec {w : FCompoundWrite} (good : GoodWrite w) {p : FPath}
    (pieces : ∀ k ∈ p, FPath.IsPiece k) :
    GoodWrite (w.removeWriteAtPath p) ∧ overlay (w.removeWriteAtPath p) = (overlay w).cut [p] := by
  have meaning : overlay (w.removeWriteAtPath p) = (overlay w).cut [p] := by
    funext q
    unfold FCompoundWrite.removeWriteAtPath Overlay.cut
    by_cases root : p = []
    · subst root
      rw [if_pos rfl, overlay_emptyWrite]
      simp [Overlay.empty]
    · rw [if_neg root]
      refine (valueAtPath_setTree .empty good.canonical p q).trans ?_
      rw [valueAtPath_empty]
      by_cases under : p <+: q <;> simp [under, overlay]
  refine ⟨⟨?_, ?_, ?_⟩, meaning⟩
  · unfold FCompoundWrite.removeWriteAtPath
    split
    · exact canonical_empty
    · exact canonical_setTree canonical_empty good.canonical pieces
  · rw [meaning]
    exact good.prefixFree.cut [p]
  · intro q c found
    rw [meaning, Overlay.cut] at found
    split at found
    · cases found
    · exact good.writable q c found

/-! ## Complete nodes -/

/-- What is written at `p` or above decides whether `p` is complete. -/
theorem completeNodeAtPath_spec {w : FCompoundWrite} (good : GoodWrite w) {p : FPath}
    (pieces : ∀ k ∈ p, FPath.IsPiece k) :
    (∃ r s v, p = r ++ s ∧ overlay w r = some v ∧
        w.completeNodeAtPath p = .ok (some (v.getChild s))) ∨
      (∀ r, r <+: p → overlay w r = none) ∧ w.completeNodeAtPath p = .ok none := by
  unfold FCompoundWrite.completeNodeAtPath
  rcases covered_or (overlay w) p with ⟨r, s, v, rfl, found⟩ | free
  · refine .inl ⟨r, s, v, rfl, found, ?_⟩
    rw [good.findRootMost pieces found]
    dsimp only
    rw [FPath.relativePathFrom_append]
    rfl
  · refine .inr ⟨free, ?_⟩
    rw [(findRootMost_eq_none_iff w.writeTree pieces).mpr free]

/-- What is written stands there. -/
def Shown (o : Overlay String FStoredNode) (n : FStoredNode) : Prop :=
  ∀ q v, o q = some v → PlainPath q → descendant n q = v

theorem shown_empty (n : FStoredNode) : Shown Overlay.empty n := by
  intro q v found
  cases found

theorem Shown.add {o : Overlay String FStoredNode} {n c : FStoredNode} (shown : Shown o n)
    (formed : WellFormed n) {p : FPath} (writable : Writable p c) :
    Shown (o.add updated p c) (updated n p c) := by
  intro q v found plain
  by_cases under : p <+: q
  · by_cases same : q = p
    · by_cases above : o.Above p
      · rw [Overlay.add_under_above o c under above] at found
        cases found
      · subst same
        rw [Overlay.add_self o c above] at found
        rw [← Option.some.inj found]
        have here : Writable [] c := .value plainPath_nil writable.formed
        have written := descendant_updated_below formed plain here
        rwa [List.append_nil, updated_nil] at written
    · rw [Overlay.add_under o c under same] at found
      cases found
  · by_cases leads : q <+: p
    · rw [Overlay.add_off o c under leads] at found
      obtain ⟨v', old, new⟩ := Option.map_eq_some_iff.mp found
      obtain ⟨s, rfl⟩ := leads
      have nonempty : s ≠ [] := by
        rintro rfl
        exact under (by simp)
      rw [List.drop_left] at new
      rw [descendant_updated_below formed plain (writable.of_append nonempty).2,
        shown q v' old plain, new]
    · rw [Overlay.add_apart o c ⟨under, leads⟩] at found
      rw [descendant_updated_apart formed writable ⟨under, leads⟩]
      exact shown q v found plain

/-- The node after the updates, one after the other. -/
def performed (n : FStoredNode) (ws : List (FPath × FStoredNode)) : FStoredNode :=
  ws.foldl (fun n e => updated n e.1 e.2) n

theorem updateAll_ok {n : FStoredNode} (formed : WellFormed n) {ws : List (FPath × FStoredNode)}
    (writable : ∀ e ∈ ws, Writable e.1 e.2) :
    ws.foldlM (fun n e => n.updateChild e.1 e.2) n = .ok (performed n ws) ∧
      WellFormed (performed n ws) := by
  induction ws generalizing n with
  | nil => exact ⟨rfl, formed⟩
  | cons e ws ih =>
    obtain ⟨first, others⟩ := List.forall_mem_cons.mp writable
    obtain ⟨ok, formed'⟩ := updateChild_ok formed first
    rw [List.foldlM_cons, ok]
    exact ih formed' others

theorem Shown.performed {o : Overlay String FStoredNode} {n : FStoredNode} (shown : Shown o n)
    (formed : WellFormed n) {ws : List (FPath × FStoredNode)}
    (writable : ∀ e ∈ ws, Writable e.1 e.2) :
    Shown (o.writeAll updated ws) (performed n ws) := by
  induction ws generalizing o n with
  | nil => exact shown
  | cons e ws ih =>
    obtain ⟨first, others⟩ := List.forall_mem_cons.mp writable
    exact ih (shown.add formed first) (updateChild_ok formed first).2 others

/-- A write of a client. -/
structure ClientWrite where
  path : FPath
  node : FStoredNode
  writable : Writable path node

def ClientWrite.entry (w : ClientWrite) : FPath × FStoredNode := (w.path, w.node)

theorem writable_entries (ws : List ClientWrite) : ∀ e ∈ ws.map ClientWrite.entry, Writable e.1 e.2 := by
  intro e member
  obtain ⟨w, _, rfl⟩ := List.mem_map.mp member
  exact w.writable

/-- No run of `addWrite:atPath:` raises, and the compound write that it makes
knows exactly the places that some write reached from above: there it has the
node that the same updates leave in any stored node. -/
theorem complete_nodes_stand (ws : List ClientWrite) (start : StoredNode) :
    ∃ w n, ws.foldlM (fun (w : FCompoundWrite) e => w.addWrite e.node e.path) .emptyWrite = .ok w ∧
      ws.foldlM (fun n e => n.updateChild e.path e.node) start.node = .ok n ∧
      ∀ q, PlainPath q →
        (∃ e ∈ ws, e.path <+: q) ∧ w.completeNodeAtPath q = .ok (some (n.getChild q)) ∨
        (∀ e ∈ ws, ¬ e.path <+: q) ∧ w.completeNodeAtPath q = .ok none := by
  have writable := writable_entries ws
  obtain ⟨w, run, good, meaning⟩ := addWrites_spec goodWrite_emptyWrite writable
  obtain ⟨updates, formed⟩ := updateAll_ok start.formed writable
  rw [overlay_emptyWrite] at meaning
  have shown := (shown_empty start.node).performed start.formed writable
  rw [← meaning] at shown
  rw [List.foldlM_map] at run updates
  have covers (q : FPath) : (overlay w).Covers q ↔ ∃ e ∈ ws, e.path <+: q := by
    rw [meaning, Overlay.covers_writeAll, or_iff_right (by simp [Overlay.Covers, Overlay.empty])]
    simp [ClientWrite.entry]
  refine ⟨w, _, run, updates, fun q plain => ?_⟩
  rcases completeNodeAtPath_spec good (fun k member => (plain k member).piece) with
    ⟨r, s, v, rfl, found, complete⟩ | ⟨free, complete⟩
  · obtain ⟨plainR, plainS⟩ := PlainPath.append.mp plain
    refine .inl ⟨(covers _).mp ⟨r, List.prefix_append r s, by simp [found]⟩, ?_⟩
    rw [complete, getChild_eq _ plain.no_priority, descendant_append, shown r v found plainR,
      getChild_eq _ plainS.no_priority]
  · refine .inr ⟨fun e member leads => ?_, complete⟩
    obtain ⟨r, leads, found⟩ := (covers q).mpr ⟨e, member, leads⟩
    rw [free r leads] at found
    cases found

/-- Writes of a client in a menu: the menu, below it a dish, its priority, a
removal beside it, and a name in a place that the server has a leaf above. -/
def menuWrites : List ClientWrite :=
  [⟨["menu"], newMenu.node, .value (plain_path (by decide)) newMenu.formed⟩,
    ⟨["menu", "dish"], stew.node, .value (plain_path (by decide)) stew.formed⟩,
    ⟨["menu"] ++ [".priority"], .leaf (.int 2) emptyNode,
      .priority (plain_path (by decide)) (.value ⟨trivial, by decide, by decide⟩)⟩,
    ⟨["drink", "name"], stew.node, .value (plain_path (by decide)) stew.formed⟩,
    ⟨["menu", "side"], emptyNode, .value (plain_path (by decide)) .empty⟩]

/-- The menu, the name and the place of the salad are complete, the drink is not. -/
theorem menu_writes_stand : ∃ w n,
    menuWrites.foldlM (fun (w : FCompoundWrite) e => w.addWrite e.node e.path) .emptyWrite = .ok w ∧
      menuWrites.foldlM (fun n e => n.updateChild e.path e.node) served.node = .ok n ∧
      w.completeNodeAtPath ["menu"] = .ok (some (n.getChild ["menu"])) ∧
      w.completeNodeAtPath ["drink", "name"] = .ok (some (n.getChild ["drink", "name"])) ∧
      w.completeNodeAtPath ["menu", "side"] = .ok (some emptyNode) ∧
      w.completeNodeAtPath ["drink"] = .ok none := by
  obtain ⟨w, n, writes, updates, complete⟩ := complete_nodes_stand menuWrites served
  have node : menuWrites.foldlM (fun n e => n.updateChild e.path e.node) served.node =
      .ok (pairNode "drink" (.children (some emptyNode) [("name", stew.node)]) "menu"
        (.children (some (.leaf (.int 2) emptyNode)) [("dish", stew.node)])) := rfl
  have side : n.getChild ["menu", "side"] = emptyNode := by
    rw [Except.ok.inj (updates.symm.trans node)]
    rfl
  have written (q : FPath) (plain : PlainPath q) (covered : ∃ e ∈ menuWrites, e.path <+: q) :
      w.completeNodeAtPath q = .ok (some (n.getChild q)) := by
    rcases complete q plain with ⟨_, stands⟩ | ⟨free, _⟩
    · exact stands
    · obtain ⟨e, member, leads⟩ := covered
      exact absurd leads (free e member)
  have menu {q : FPath} (leads : ["menu"] <+: q) : ∃ e ∈ menuWrites, e.path <+: q :=
    ⟨_, List.mem_cons_self, leads⟩
  have name : ∃ e ∈ menuWrites, e.path <+: ["drink", "name"] :=
    List.exists_mem_cons_of_exists (List.exists_mem_cons_of_exists (List.exists_mem_cons_of_exists
      (List.exists_mem_cons_of _ (List.prefix_refl _))))
  refine ⟨w, n, writes, updates, written _ (plain_path (by decide)) (menu (by decide)),
    written _ (plain_path (by decide)) name, ?_, ?_⟩
  · rw [written _ (plain_path (by decide)) (menu (by decide)), side]
  · have free : ¬ ∃ e ∈ menuWrites, e.path <+: ["drink"] := by
      simp [menuWrites]
    rcases complete ["drink"] (plain_path (by decide)) with ⟨covered, _⟩ | ⟨_, none⟩
    · exact absurd covered free
    · exact none

end WatchAndSee.Guarantees.StoredNodes
