import WatchAndSee.Guarantees.StoredNodes

/-!
# Every run of updates writes one document

`updateChild:withNewChild:` goes down a path, replaces what it finds and builds
the nodes above again. Seen through the values and priorities that `getChild:`
reads, this is one write of a document: all that lies below the path is
replaced, a leaf above the path gives way to a child, nodes that become empty
lose their priority, and nothing else changes.
-/

set_option autoImplicit false

namespace WatchAndSee.Guarantees.StoredNodes
open Library Source
open Source.FStoredNode Source.FValidation

def ValuePath (path : FPath) : Prop := ∀ k ∈ path, isValidKey k = true

theorem ValuePath.cons {k : String} {path : FPath} :
    ValuePath (k :: path) ↔ isValidKey k = true ∧ ValuePath path := List.forall_mem_cons

/-- The end of a path below its keys. -/
def PathTail (tail : FPath) : Prop := tail = [] ∨ tail = [".priority"]

theorem nsAssert_tail {k : String} {rest : FPath} (valid : isValidKey k = true) (desc : String) :
    nsAssert (k ≠ ".priority" || rest.length + 1 = 1) desc = .ok () := by
  have name := not_priority_of_valid valid
  simp [nsAssert, name]

theorem updateChild_children (priority : Option FStoredNode)
    (entries : List (String × FStoredNode)) {k : String} (valid : isValidKey k = true) (rest : FPath)
    (new : FStoredNode) :
    updateChild (.children priority entries) (k :: rest) new =
      (do
        let c ← updateChild (entry (.children priority entries) k) rest new
        updateImmediateChild (.children priority entries) k c) := by
  rw [updateChild, nsAssert_tail valid, getImmediateChild_eq _ (not_priority_of_valid valid)]
  rfl

/-- Removing something where nothing is. -/
theorem updateChild_nothing {path tail : FPath} (valid : ValuePath path) (short : PathTail tail) :
    updateChild emptyNode (path ++ tail) emptyNode = .ok emptyNode := by
  induction path with
  | nil => rcases short with rfl | rfl <;> rfl
  | cons k path ih =>
    obtain ⟨key, others⟩ := ValuePath.cons.mp valid
    have below : entry (.children none []) k = emptyNode := rfl
    unfold emptyNode at ih ⊢
    rw [List.cons_append, updateChild_children none [] key, below]
    unfold emptyNode
    rw [ih others]
    simp [bind, Except.bind, updateImmediateChild, not_priority_of_valid key, updateEntries, isEmpty,
      SortedListing.erase, emptyNode]

/-- The branch for leaves does what the branch for children does. -/
theorem updateChild_cons {n new : FStoredNode} (formed : WellFormed new) {k : String}
    {path tail : FPath} (key : isValidKey k = true) (valid : ValuePath path) (short : PathTail tail) :
    n.updateChild (k :: (path ++ tail)) new =
      (do
        let c ← (entry n k).updateChild (path ++ tail) new
        n.updateImmediateChild k c) := by
  cases n with
  | children priority entries => exact updateChild_children priority entries key _ _
  | leaf value priority =>
    have name := not_priority_of_valid key
    cases removed : new.isEmpty with
    | true =>
      rw [formed.eq_empty removed]
      have below : entry (.leaf value priority) k = emptyNode := rfl
      rw [below, updateChild_nothing valid short]
      simp [updateChild, name, bind, Except.bind, updateImmediateChild]
    | false =>
      rw [updateChild, removed, Bool.false_and, nsAssert_tail key]
      rfl

/-! ## One update -/

theorem leafValue_of_child {n : FStoredNode} {k : String} (full : (entry n k).isEmpty = false) :
    leafValue n = none := by
  cases n with
  | children => rfl
  | leaf => cases full

/-- A node whose child was written. -/
theorem Updated.write {n n' c new : FStoredNode} {k : String} {path : FPath}
    (updated : Updated n k c n') (formedC : WellFormed c) (formedN : WellFormed n)
    (child : documentOf c = (documentOf (entry n k)).write keyComparator path (documentOf new)) :
    documentOf n' = (documentOf n).write keyComparator (k :: path) (documentOf new) := by
  have children (j : String) : (documentOf n').child j =
      ((documentOf n).write keyComparator (k :: path) (documentOf new)).child j := by
    rw [child_documentOf]
    by_cases tie : keyComparator k j = .eq
    · rw [Document.child_write_of_eq _ tie, updated.tied j tie, child, child_documentOf,
        entry_congr n tie]
    · rw [Document.child_write_of_ne _ tie, updated.other j tie, child_documentOf]
  have value : (documentOf n').values [] =
      ((documentOf n).write keyComparator (k :: path) (documentOf new)).values [] := by
    change leafValue n' = _
    rw [updated.value]
    by_cases holds : (documentOf new).Holds []
    · have full : ((documentOf (entry n k)).write keyComparator path (documentOf new)).Holds [] :=
        Document.holds_write _ path holds
      rw [← child, formedC.holds_iff] at full
      rw [Document.write_values_root _ _ _ _ holds, full]
      rfl
    · rw [Document.write_values_root_of_not _ _ _ _ holds]
      cases empty : c.isEmpty with
      | true => rfl
      | false =>
        have below : (entry n k).isEmpty = false := by
          rw [← (formedN.child k).holds_iff]
          by_contra nothing
          have still :
              ¬ ((documentOf (entry n k)).write keyComparator path (documentOf new)).Holds [] :=
            Document.not_holds_write path nothing holds
          rw [← child, formedC.holds_iff] at still
          exact still empty
        exact (leafValue_of_child below).symm
  refine Document.ext_child value ?_ children
  have same := Document.holds_congr value children
  rw [updated.formed.holds_iff] at same
  change leafValue n'.getPriority = _
  rw [updated.priority]
  cases empty : n'.isEmpty with
  | true =>
    rw [Document.write_marks_root_of_not _ _ _ _ (by rw [← same, empty]; decide)]
    rfl
  | false =>
    rw [Document.write_marks_root _ _ _ _ (same.mp empty)]
    rfl

/-- A node below which a priority was set. -/
theorem Updated.mark {n n' c : FStoredNode} {k : String} {path : FPath} {new : Option AnyValue}
    (updated : Updated n k c n') (formedC : WellFormed c) (formedN : WellFormed n)
    (child : documentOf c = (documentOf (entry n k)).mark keyComparator path new) :
    documentOf n' = (documentOf n).mark keyComparator (k :: path) new := by
  have children (j : String) : (documentOf n').child j =
      ((documentOf n).mark keyComparator (k :: path) new).child j := by
    rw [child_documentOf]
    by_cases tie : keyComparator k j = .eq
    · rw [Document.child_mark_of_eq _ tie, updated.tied j tie, child, child_documentOf,
        entry_congr n tie]
    · rw [Document.child_mark_of_ne _ tie, updated.other j tie, child_documentOf]
  have value : leafValue n' = leafValue n := by
    rw [updated.value]
    cases empty : c.isEmpty with
    | true => rfl
    | false =>
      have full := formedC.holds_iff.mpr empty
      rw [child, Document.holds_mark, (formedN.child k).holds_iff] at full
      exact (leafValue_of_child full).symm
  have same : (documentOf n').Holds [] ↔ (documentOf n).Holds [] :=
    Document.holds_congr (e := (documentOf n).mark keyComparator (k :: path) new) value children
  rw [updated.formed.holds_iff, formedN.holds_iff] at same
  refine Document.ext_child value ?_ children
  change leafValue n'.getPriority = leafValue n.getPriority
  rw [updated.priority]
  cases empty : n'.isEmpty with
  | false => rfl
  | true =>
    have nothing : n.isEmpty = true := by
      by_contra full
      rw [same.mpr (Bool.eq_false_iff.mpr full)] at empty
      cases empty
    rw [formedN.eq_empty nothing]
    rfl

/-- A write at a path of keys. -/
theorem updateChild_value {n new : FStoredNode} (formedN : WellFormed n) (formed : WellFormed new)
    {path : FPath} (valid : ValuePath path) :
    ∃ n', n.updateChild path new = .ok n' ∧ WellFormed n' ∧
      documentOf n' = (documentOf n).write keyComparator path (documentOf new) := by
  induction path generalizing n with
  | nil => exact ⟨new, by cases n <;> rfl, formed, (Document.write_nil _ _).symm⟩
  | cons k path ih =>
    obtain ⟨key, others⟩ := ValuePath.cons.mp valid
    obtain ⟨c, below, formedC, child⟩ := ih (formedN.child k) others
    obtain ⟨n', here, updated⟩ := updateImmediateChild_spec formedN formedC key
    refine ⟨n', ?_, updated.formed, updated.write formedC formedN child⟩
    have step := updateChild_cons (n := n) formed key others (.inl rfl)
    rw [List.append_nil, below] at step
    rw [step]
    exact here

/-- `updatePriority:` by a priority. -/
theorem updatePriority_spec {n new : FStoredNode} (formedN : WellFormed n) (isPriority : IsPriority new) :
    ∃ n', n.updatePriority new = .ok n' ∧ WellFormed n' ∧
      documentOf n' = (documentOf n).mark keyComparator [] (leafValue new) := by
  have marks {n' : FStoredNode} (formed : WellFormed n') (value : leafValue n' = leafValue n)
      (children : ∀ k, entry n' k = entry n k)
      (priority : n'.getPriority = if n'.isEmpty then emptyNode else new) :
      documentOf n' = (documentOf n).mark keyComparator [] (leafValue new) := by
    have below (k : String) : (documentOf n').child k = (documentOf n).child k :=
      congrArg documentOf (children k)
    have same := Document.holds_congr (d := documentOf n') (e := documentOf n) value below
    refine Document.ext_child value ?_ (fun k => ?_)
    · rw [Document.mark_nil_root _ _ n'.isEmpty (same.symm.trans formed.holds_iff)]
      change leafValue n'.getPriority = _
      rw [priority]
      cases n'.isEmpty <;> rfl
    · rw [Document.child_mark_nil, below]
  cases formedN with
  | empty => exact ⟨emptyNode, rfl, .empty, marks .empty rfl (fun _ => rfl) rfl⟩
  | @leaf value priority storable _ =>
    refine ⟨.leaf value new, ?_, .leaf storable isPriority,
      marks (.leaf storable isPriority) rfl (fun _ => rfl) rfl⟩
    rw [updatePriority, initWithValue, isPriority.validates]
    rfl
  | @children priority entries nonempty _ ascending validKeys full formed =>
    have node : WellFormed (.children (some new) entries) :=
      .children nonempty isPriority ascending validKeys full formed
    have notEmpty : entries.isEmpty = false := by simpa using nonempty
    refine ⟨.children (some new) entries, ?_, node, marks node rfl (fun _ => rfl) ?_⟩
    · simp [updatePriority, initWithPriority, nonempty]
    · rw [show isEmpty (.children (some new) entries) = false from notEmpty]
      rfl

/-- A write of a priority. -/
theorem updateChild_priority {n new : FStoredNode} (formedN : WellFormed n)
    (isPriority : IsPriority new) {path : FPath} (valid : ValuePath path) :
    ∃ n', n.updateChild (path ++ [".priority"]) new = .ok n' ∧ WellFormed n' ∧
      documentOf n' = (documentOf n).mark keyComparator path (leafValue new) := by
  induction path generalizing n with
  | nil =>
    obtain ⟨n', updated, rest⟩ := updatePriority_spec formedN isPriority
    refine ⟨n', ?_, rest⟩
    rw [List.nil_append, ← updated]
    cases n with
    | leaf value priority =>
      rw [updateChild, show (new.isEmpty && decide (".priority" ≠ ".priority")) = false by simp]
      cases new <;> rfl
    | children priority entries =>
      rw [updateChild]
      cases entry : getImmediateChild (.children priority entries) ".priority" <;> rfl
  | cons k path ih =>
    obtain ⟨key, others⟩ := ValuePath.cons.mp valid
    obtain ⟨c, below, formedC, child⟩ := ih (formedN.child k) others
    obtain ⟨n', here, updated⟩ := updateImmediateChild_spec formedN formedC key
    refine ⟨n', ?_, updated.formed, updated.mark formedC formedN child⟩
    rw [List.cons_append, updateChild_cons isPriority.wellFormed key others (.inr rfl), below]
    exact here

/-! ## Runs -/

/-- An update that a client may ask for. -/
inductive NodeWrite where
  | value (path : FPath) (newChild : StoredNode) (valid : ValuePath path)
  | priority (path : FPath) (newPriority : FStoredNode) (valid : ValuePath path)
      (isPriority : IsPriority newPriority)

namespace NodeWrite

def path : NodeWrite → FPath
  | value path _ _ => path
  | priority path _ _ _ => path ++ [".priority"]

def newChild : NodeWrite → FStoredNode
  | value _ newChild _ => newChild.node
  | priority _ newPriority _ _ => newPriority

/-- What the update means. -/
noncomputable def onDocument (d : Document String AnyValue) : NodeWrite → Document String AnyValue
  | value path newChild _ => d.write keyComparator path (documentOf newChild.node)
  | priority path newPriority _ _ => d.mark keyComparator path (leafValue newPriority)

theorem updates (w : NodeWrite) (n : StoredNode) :
    ∃ n' : StoredNode, n.node.updateChild w.path w.newChild = .ok n'.node ∧
      documentOf n'.node = w.onDocument (documentOf n.node) := by
  cases w with
  | value path newChild valid =>
    obtain ⟨n', updated, formed, document⟩ := updateChild_value n.formed newChild.formed valid
    exact ⟨⟨n', formed⟩, updated, document⟩
  | priority path newPriority valid isPriority =>
    obtain ⟨n', updated, formed, document⟩ := updateChild_priority n.formed isPriority valid
    exact ⟨⟨n', formed⟩, updated, document⟩

end NodeWrite

/-- No run of updates raises, and `getChild:` reads from the node that it leaves
the values and priorities of the document that the run wrote, in which keys that
tie address one place. -/
theorem updates_write_document (start : StoredNode) (writes : List NodeWrite) :
    ∃ final : StoredNode,
      writes.foldlM (fun n w => n.updateChild w.path w.newChild) start.node = .ok final.node ∧
      documentOf final.node = writes.foldl NodeWrite.onDocument (documentOf start.node) ∧
      ∀ path, ".priority" ∉ path →
        leafValue (final.node.getChild path) =
          (writes.foldl NodeWrite.onDocument (documentOf start.node)).values path ∧
        leafValue (final.node.getChild path).getPriority =
          (writes.foldl NodeWrite.onDocument (documentOf start.node)).marks path := by
  have reads (n : FStoredNode) {path : FPath} (plain : ".priority" ∉ path) :
      leafValue (n.getChild path) = (documentOf n).values path ∧
        leafValue (n.getChild path).getPriority = (documentOf n).marks path := by
    rw [getChild_eq n plain]
    exact ⟨rfl, rfl⟩
  induction writes generalizing start with
  | nil => exact ⟨start, rfl, rfl, fun _ plain => reads _ plain⟩
  | cons w writes ih =>
    obtain ⟨next, updated, document⟩ := w.updates start
    obtain ⟨final, run, meaning, answers⟩ := ih next
    rw [document] at meaning answers
    refine ⟨final, ?_, meaning, answers⟩
    rw [List.foldlM_cons, updated]
    exact run

theorem value_path {path : FPath} (valid : (path.all isValidKey) = true) : ValuePath path :=
  List.all_eq_true.mp valid

/-- A menu, another dish in it with a priority, a write below a leaf, and a removal. -/
def menuUpdates : List NodeWrite :=
  [.value ["menu"] newMenu (value_path (by decide)),
    .value ["menu", "dish"] stew (value_path (by decide)),
    .priority ["menu"] (.leaf (.int 2) emptyNode) (value_path (by decide))
      (.value ⟨trivial, by decide, by decide⟩),
    .value ["drink", "name"] stew (value_path (by decide)),
    .value ["menu", "side"] ⟨emptyNode, .empty⟩ (value_path (by decide))]

/-- The dish, the name and the priority stand, the salad and the leaf above the name are gone. -/
theorem menu_updated : ∃ final : StoredNode,
    menuUpdates.foldlM (fun n w => n.updateChild w.path w.newChild) served.node = .ok final.node ∧
      documentOf final.node = menuUpdates.foldl NodeWrite.onDocument (documentOf served.node) ∧
      leafValue (final.node.getChild ["menu", "dish"]) = some (.string "Stew") ∧
      leafValue (final.node.getChild ["menu"]).getPriority = some (.int 2) ∧
      leafValue (final.node.getChild ["menu", "side"]) = none ∧
      leafValue (final.node.getChild ["drink"]) = none ∧
      leafValue (final.node.getChild ["drink", "name"]) = some (.string "Stew") := by
  obtain ⟨final, run, document, _⟩ := updates_write_document served menuUpdates
  have reached : menuUpdates.foldlM (fun n w => n.updateChild w.path w.newChild) served.node =
      .ok (pairNode "drink" (.children (some emptyNode) [("name", stew.node)]) "menu"
        (.children (some (.leaf (.int 2) emptyNode)) [("dish", stew.node)])) := rfl
  have node := Except.ok.inj (run.symm.trans reached)
  refine ⟨final, run, document, ?_⟩
  rw [node]
  exact ⟨rfl, rfl, rfl, rfl, rfl⟩

end WatchAndSee.Guarantees.StoredNodes
