import WatchAndSee.Guarantees.CompoundWrites

/-!
# Applying a compound write

A compound write is applied child by child, a priority last. What it leaves at a
path depends only on what stands there and on the writes at that path, so a view
of a place can be computed from the writes below it alone.
-/

set_option autoImplicit false

namespace WatchAndSee.Guarantees.StoredNodes
open Library
open Library.SortedListing (Ascending lookup put erase)
open Source
open Source.FStoredNode hiding children
open Source.FCompoundWrite (applySubtreeWrite applyChildren applyPriority)
open ImmutableTrees

/-- The priority that the block over the children remembers. -/
def lastPriority (children : List (String × FImmutableTree FStoredNode))
    (priorityWrite : Option FStoredNode) : Option FStoredNode :=
  children.foldl (fun p e => if e.1 = ".priority" then e.2.value else p) priorityWrite

def underPath (p : FPath) (ws : List (FPath × FStoredNode)) : List (FPath × FStoredNode) :=
  ws.map fun e => (p ++ e.1, e.2)

mutual

/-- The updates of `applySubtreeWrite:`, in their order. -/
def orderedWrites : FImmutableTree FStoredNode → List (FPath × FStoredNode)
  | .node (some value) _ => [([], value)]
  | .node none children =>
    childWrites children ++ (lastPriority children none).toList.map fun c => ([".priority"], c)

def childWrites : List (String × FImmutableTree FStoredNode) → List (FPath × FStoredNode)
  | [] => []
  | (k, t) :: rest =>
    (if k = ".priority" then [] else underPath [k] (orderedWrites t)) ++ childWrites rest

end

theorem underPath_append (p : FPath) (ws vs : List (FPath × FStoredNode)) :
    underPath p (ws ++ vs) = underPath p ws ++ underPath p vs := List.map_append

theorem underPath_underPath (p q : FPath) (ws : List (FPath × FStoredNode)) :
    underPath p (underPath q ws) = underPath (p ++ q) ws := by
  simp [underPath, Function.comp_def]

theorem performed_append (n : FStoredNode) (ws vs : List (FPath × FStoredNode)) :
    performed n (ws ++ vs) = performed (performed n ws) vs := List.foldl_append

/-! ## An update that changes nothing -/

/-- Putting a child back. -/
theorem updateImmediateChild_entry {n : FStoredNode} (formed : WellFormed n) {k : String}
    (plain : PlainKey k) : n.updateImmediateChild k (entry n k) = .ok n := by
  have name := plain.not_priority
  cases formed with
  | empty => simp [updateImmediateChild, name, entry, emptyNode, lookup, updateEntries, isEmpty, erase]
  | leaf => simp [updateImmediateChild, name, entry, isEmpty, emptyNode]
  | @children priority entries nonempty isPriority ascending validKeys full formed =>
    have again : initWithPriority (some priority) entries = .ok (.children (some priority) entries) := by
      simp [initWithPriority, nonempty]
    rw [updateImmediateChild, if_neg name, entry_children]
    unfold updateEntries
    cases found : lookup keyComparator k entries with
    | none =>
      have absent : ∀ e ∈ entries, keyComparator k e.1 ≠ .eq := by
        intro e member tie
        have hit : (lookup keyComparator k entries).isSome :=
          SortedListing.lookup_isSome_iff.mpr ⟨e, member, tie⟩
        rw [found] at hit
        cases hit
      rw [Option.getD_none, isEmpty_emptyNode, if_pos rfl, SortedListing.erase_of_absent k absent]
      simpa [nonempty, getPriority] using again
    | some c =>
      obtain ⟨j, member, tie⟩ := SortedListing.exists_mem_of_lookup found
      obtain rfl := plain.2 j tie
      have notEmpty : c.isEmpty = false := full _ member
      rw [Option.getD_some, notEmpty, if_neg Bool.false_ne_true,
        SortedListing.put_of_mem ascending member]
      simpa [nonempty, getPriority] using again

/-- An empty node takes no priority. -/
theorem updated_priority_of_empty {n c : FStoredNode} (formed : WellFormed n) (isPriority : IsPriority c)
    {p : FPath} (plain : PlainPath p) (nothing : (descendant n p).isEmpty = true) :
    updated n (p ++ [".priority"]) c = n := by
  induction p generalizing n with
  | nil =>
    rw [formed.eq_empty nothing]
    rfl
  | cons k p ih =>
    obtain ⟨key, others⟩ := PlainPath.cons.mp plain
    have below := ih (formed.child k) others nothing
    have step := updateChild_through formed key (.priority others isPriority)
    rw [below, updateImmediateChild_entry formed key] at step
    exact updated_of_ok step

theorem Writable.isPriority {p : FPath} {c : FStoredNode} (writable : Writable (p ++ [".priority"]) c) :
    IsPriority c := by
  generalize path : p ++ [".priority"] = whole at writable
  cases writable with
  | value plain =>
    subst path
    exact absurd (List.mem_append_right p (List.mem_singleton.mpr rfl)) plain.no_priority
  | priority _ isPriority => exact isPriority

/-! ## The updates of an application -/

/-- The writes of a tree that stands at `p`. -/
def WritableAt (p : FPath) (t : FImmutableTree FStoredNode) : Prop :=
  ∀ r c, t.valueAtPath r = some c → Writable (p ++ r) c

theorem WritableAt.child {p : FPath} {value : Option FStoredNode}
    {children : List (String × FImmutableTree FStoredNode)}
    (writable : WritableAt p (.node value children)) (ascending : Ascending stringComparator children)
    {e : String × FImmutableTree FStoredNode} (member : e ∈ children) :
    WritableAt (p ++ [e.1]) e.2 := by
  intro r c found
  rw [List.append_assoc]
  refine writable (e.1 :: r) c ?_
  rw [valueAtPath_cons, sub, FImmutableTree.child, FImmutableTree.children,
    SortedListing.lookup_of_mem ascending member]
  exact found

/-- The key of a child is plain or names the priority of the tree. -/
theorem WritableAt.key {p : FPath} {e : String × FImmutableTree FStoredNode}
    (writable : WritableAt (p ++ [e.1]) e.2) (canonical : Canonical e.2) (full : e.2.isEmpty = false) :
    e.1 = ".priority" ∧ e.2.value.isSome ∨ PlainKey e.1 := by
  obtain ⟨q, found⟩ := canonical.exists_value full
  obtain ⟨c, value⟩ := Option.isSome_iff_exists.mp found
  have here := writable q c value
  by_cases short : q = []
  · subst short
    rw [List.append_nil] at here
    generalize path : p ++ [e.1] = whole at here
    cases here with
    | value plain =>
      subst path
      exact .inr (plain _ (List.mem_append_right p (List.mem_singleton.mpr rfl)))
    | priority =>
      exact .inl ⟨List.singleton_inj.mp (List.append_inj' path rfl).2, found⟩
  · exact .inr ((here.of_append short).1 _ (List.mem_append_right p (List.mem_singleton.mpr rfl)))

theorem lastPriority_eq {children : List (String × FImmutableTree FStoredNode)}
    {before : Option FStoredNode} {c : FStoredNode} (last : lastPriority children before = some c) :
    before = some c ∨ ∃ e ∈ children, e.1 = ".priority" ∧ e.2.value = some c := by
  induction children generalizing before with
  | nil => exact .inl last
  | cons e rest ih =>
    rcases ih last with first | ⟨f, member, found⟩
    · dsimp only at first
      split at first
      · next name => exact .inr ⟨e, List.mem_cons_self, name, first⟩
      · exact .inl first
    · exact .inr ⟨f, List.mem_cons_of_mem _ member, found⟩

/-- An application is a run of updates. -/
theorem applySubtreeWrite_spec {t : FImmutableTree FStoredNode} (canonical : Canonical t) {p : FPath}
    (plain : PlainPath p) (writable : WritableAt p t) {n : FStoredNode} (formed : WellFormed n) :
    applySubtreeWrite t p n = .ok (performed n (underPath p (orderedWrites t))) ∧
      WellFormed (performed n (underPath p (orderedWrites t))) := by
  induction canonical generalizing p n with
  | @node value children ascending pieces full below ih =>
    cases value with
    | some c =>
      have here := writable [] c rfl
      rw [List.append_nil] at here
      rw [applySubtreeWrite, orderedWrites]
      simpa [underPath, performed] using updateChild_ok formed here
    | none =>
      have loop (cs : List (String × FImmutableTree FStoredNode)) (inside : cs ⊆ children)
          (before : Option FStoredNode) {n : FStoredNode} (formed : WellFormed n) :
          applyChildren cs p before n =
              .ok (lastPriority cs before, performed n (underPath p (childWrites cs))) ∧
            WellFormed (performed n (underPath p (childWrites cs))) := by
        induction cs generalizing before n with
        | nil => exact ⟨rfl, formed⟩
        | cons e rest ihRest =>
          obtain ⟨member, others⟩ := List.cons_subset.mp inside
          have writableE := writable.child ascending member
          rcases writableE.key (below e member) (full e member) with ⟨name, found⟩ | key
          · rw [applyChildren, if_pos name, found, childWrites, if_pos name, List.nil_append,
              show lastPriority (e :: rest) before = lastPriority rest e.2.value by
                simp [lastPriority, name]]
            exact ihRest others e.2.value formed
          · have plainE : PlainPath (p ++ [e.1]) :=
              PlainPath.append.mpr ⟨plain, fun k inE => by rwa [List.mem_singleton.mp inE]⟩
            obtain ⟨applied, formed'⟩ := ih e member plainE writableE formed
            rw [applyChildren, if_neg key.not_priority, childFromString_piece p key.piece, applied,
              childWrites, if_neg key.not_priority, underPath_append, underPath_underPath,
              performed_append,
              show lastPriority (e :: rest) before = lastPriority rest before by
                simp [lastPriority, key.not_priority]]
            exact ihRest others before formed'
      obtain ⟨looped, formed'⟩ := loop children (List.Subset.refl _) none formed
      rw [applySubtreeWrite, looped, orderedWrites, underPath_append, performed_append]
      cases last : lastPriority children none with
      | none => exact ⟨rfl, formed'⟩
      | some c =>
        obtain ⟨e, member, name, value⟩ := (lastPriority_eq last).resolve_left (by simp)
        have writableC : Writable (p ++ [".priority"]) c := by
          have here := writable.child ascending member [] c value
          rwa [List.append_nil, name] at here
        have isPriority := writableC.isPriority
        obtain ⟨ok, formed''⟩ := updateChild_ok formed' writableC
        have whole : performed (performed n (underPath p (childWrites children)))
            (underPath p ((some c).toList.map fun c => ([".priority"], c))) =
              updated (performed n (underPath p (childWrites children))) (p ++ [".priority"]) c := rfl
        rw [whole]
        refine ⟨?_, formed''⟩
        change applyPriority p (some c) _ = _
        unfold applyPriority
        dsimp only
        rw [childFromString_piece p piece_priority, getChild_eq _ plain.no_priority]
        cases nothing : (descendant (performed n (underPath p (childWrites children))) p).isEmpty with
        | true => rw [updated_priority_of_empty formed' isPriority plain nothing]; rfl
        | false => exact ok

theorem mem_childWrites (children : List (String × FImmutableTree FStoredNode)) (q : FPath)
    (c : FStoredNode) : (q, c) ∈ childWrites children ↔
      ∃ e ∈ children, e.1 ≠ ".priority" ∧ ∃ r, q = e.1 :: r ∧ (r, c) ∈ orderedWrites e.2 := by
  induction children with
  | nil => simp [childWrites]
  | cons e rest ih =>
    rw [childWrites, List.mem_append, ih, List.exists_mem_cons_iff]
    by_cases name : e.1 = ".priority"
    · simp [name]
    · have here : (q, c) ∈ underPath [e.1] (orderedWrites e.2) ↔
          ∃ r, q = e.1 :: r ∧ (r, c) ∈ orderedWrites e.2 := by
        unfold underPath
        rw [List.mem_map]
        constructor
        · rintro ⟨w, inside, same⟩
          obtain ⟨rfl, rfl⟩ := Prod.mk.inj same
          exact ⟨w.1, rfl, inside⟩
        · rintro ⟨r, rfl, inside⟩
          exact ⟨(r, c), inside, rfl⟩
      simp only [name, if_false, here, ne_eq, not_false_eq_true, true_and]

/-- The updates are values of the tree. -/
theorem valueAtPath_of_mem_orderedWrites {t : FImmutableTree FStoredNode} (canonical : Canonical t)
    {q : FPath} {c : FStoredNode} (member : (q, c) ∈ orderedWrites t) :
    t.valueAtPath q = some c := by
  induction canonical generalizing q c with
  | @node value children ascending _ _ _ ih =>
    cases value with
    | some v =>
      rw [orderedWrites, List.mem_singleton] at member
      obtain ⟨rfl, rfl⟩ := Prod.mk.inj member
      rfl
    | none =>
      have child {e : String × FImmutableTree FStoredNode} (inside : e ∈ children) (r : FPath) :
          (FImmutableTree.node none children).valueAtPath (e.1 :: r) = e.2.valueAtPath r := by
        rw [valueAtPath_cons, sub, FImmutableTree.child, FImmutableTree.children,
          SortedListing.lookup_of_mem ascending inside]
        rfl
      rw [orderedWrites, List.mem_append] at member
      rcases member with below | last
      · obtain ⟨e, inside, _, r, rfl, written⟩ := (mem_childWrites children q c).mp below
        rw [child inside]
        exact ih e inside written
      · obtain ⟨c', remembered, same⟩ := List.mem_map.mp last
        obtain ⟨rfl, rfl⟩ := Prod.mk.inj same
        rw [Option.mem_toList] at remembered
        obtain ⟨e, inside, name, found⟩ := (lastPriority_eq remembered).resolve_left (by simp)
        rw [← name, child inside]
        exact found

theorem GoodWrite.writable_ordered {w : FCompoundWrite} (good : GoodWrite w) :
    ∀ e ∈ orderedWrites w.writeTree, Writable e.1 e.2 := fun e member =>
  good.writable e.1 e.2 (valueAtPath_of_mem_orderedWrites good.canonical member)

/-- The node with all writes applied. -/
def applied (w : FCompoundWrite) (n : FStoredNode) : FStoredNode :=
  performed n (orderedWrites w.writeTree)

theorem applyToNode_spec {w : FCompoundWrite} (good : GoodWrite w) {n : FStoredNode}
    (formed : WellFormed n) : w.applyToNode n = .ok (applied w n) ∧ WellFormed (applied w n) := by
  have spec := applySubtreeWrite_spec good.canonical (p := []) plainPath_nil
    good.writable formed
  have whole : underPath [] (orderedWrites w.writeTree) = orderedWrites w.writeTree := by
    simp [underPath]
  rwa [whole] at spec

/-! ## One place of the result -/

theorem GoodWrite.sub {w : FCompoundWrite} (good : GoodWrite w) (k : String) :
    GoodWrite ⟨ImmutableTrees.sub w.writeTree k⟩ where
  canonical := good.canonical.descend k
  prefixFree p q atP atQ leads := by
    unfold overlay at atP atQ
    rw [← valueAtPath_cons] at atP atQ
    have same := good.prefixFree (k :: p) (k :: q) atP atQ (List.cons_prefix_cons.mpr ⟨rfl, leads⟩)
    exact (List.cons.inj same).2
  writable p c found := by
    unfold overlay at found
    rw [← valueAtPath_cons] at found
    have here := good.writable (k :: p) c found
    by_cases short : p = []
    · subst short
      exact .value plainPath_nil here.formed
    · exact (Writable.of_append (p := [k]) here short).2

theorem GoodWrite.subtree {w : FCompoundWrite} (good : GoodWrite w) (p : FPath) :
    GoodWrite ⟨w.writeTree.subtreeAtPath p⟩ := by
  induction p generalizing w with
  | nil => exact good
  | cons k p ih =>
    rw [subtreeAtPath_cons]
    exact ih (good.sub k)

/-- Writes below one key are writes of the child. -/
theorem entry_performed_under {n : FStoredNode} (formed : WellFormed n) {k : String}
    (plain : PlainKey k) {ws : List (FPath × FStoredNode)} (writable : ∀ e ∈ ws, Writable e.1 e.2) :
    entry (performed n (underPath [k] ws)) k = performed (entry n k) ws ∧
      ∀ j, j ≠ k → entry (performed n (underPath [k] ws)) j = entry n j := by
  induction ws generalizing n with
  | nil => exact ⟨rfl, fun _ _ => rfl⟩
  | cons e ws ih =>
    obtain ⟨first, others⟩ := List.forall_mem_cons.mp writable
    have here : Writable (k :: e.1) e.2 :=
      first.below (p := [k]) (fun j member => by rwa [List.mem_singleton.mp member])
    obtain ⟨same, other⟩ := ih (updateChild_ok formed here).2 others
    refine ⟨same.trans ?_, fun j different => (other j different).trans ?_⟩
    · exact congrArg (performed · ws) (entry_updated_same formed plain first)
    · exact entry_updated_other formed here different

theorem writable_underPath {k : String} (plain : PlainKey k) {ws : List (FPath × FStoredNode)}
    (writable : ∀ e ∈ ws, Writable e.1 e.2) : ∀ e ∈ underPath [k] ws, Writable e.1 e.2 := by
  intro e member
  obtain ⟨w, inside, rfl⟩ := List.mem_map.mp member
  exact (writable w inside).below (fun j here => by rwa [List.mem_singleton.mp here])

/-- The child of the result is the result for the child. -/
theorem entry_applied {w : FCompoundWrite} (good : GoodWrite w) (open' : w.writeTree.value = none)
    {n : FStoredNode} (formed : WellFormed n) {k : String} (plain : PlainKey k) :
    entry (applied w n) k = applied ⟨sub w.writeTree k⟩ (entry n k) := by
  obtain ⟨⟨value, children⟩⟩ := w
  obtain rfl : value = none := open'
  have writable := good.writable_ordered
  have ordered := good.canonical
  cases ordered with
  | node ascending _ full below =>
    have key {e : String × FImmutableTree FStoredNode} (member : e ∈ children) :
        e.1 = ".priority" ∨ PlainKey e.1 ∧ GoodWrite ⟨e.2⟩ := by
      have here : WritableAt [] (.node none children) := good.writable
      rcases (here.child ascending member).key (below e member) (full e member) with ⟨name, _⟩ | plainE
      · exact .inl name
      · refine .inr ⟨plainE, ?_⟩
        have goodE := good.sub e.1
        rwa [sub, FImmutableTree.child, FImmutableTree.children,
          SortedListing.lookup_of_mem ascending member] at goodE
    have loop (cs : List (String × FImmutableTree FStoredNode)) (inside : cs ⊆ children)
        (sorted : Ascending stringComparator cs) {n : FStoredNode} (formed : WellFormed n) :
        entry (performed n (childWrites cs)) k =
          applied ⟨(lookup stringComparator k cs).getD .empty⟩ (entry n k) ∧
        WellFormed (performed n (childWrites cs)) := by
      induction cs generalizing n with
      | nil => exact ⟨rfl, formed⟩
      | cons e rest ih =>
        obtain ⟨member, others⟩ := List.cons_subset.mp inside
        have later {n : FStoredNode} (formed : WellFormed n) := ih others sorted.tail formed
        have tie : stringComparator k e.1 = .eq ↔ k = e.1 := Std.LawfulEqCmp.compare_eq_iff_eq
        rw [childWrites]
        rcases key member with name | ⟨plainE, goodE⟩
        · have different : k ≠ e.1 := fun same => plain.not_priority (same.trans name)
          rw [if_pos name, List.nil_append, lookup, if_neg (mt tie.mp different)]
          exact later formed
        · have writableE := goodE.writable_ordered
          obtain ⟨same, other⟩ := entry_performed_under formed plainE writableE
          have formed' := (updateAll_ok formed (writable_underPath plainE writableE)).2
          rw [if_neg plainE.not_priority, performed_append]
          refine ⟨(later formed').1.trans ?_, (later formed').2⟩
          by_cases here : k = e.1
          · subst here
            have absent : lookup stringComparator e.1 rest = none := by
              cases found : lookup stringComparator e.1 rest with
              | none => rfl
              | some c =>
                have less := sorted.head _ (SortedListing.mem_of_lookup found)
                rw [tie.mpr rfl] at less
                cases less
            rw [absent, lookup, if_pos (tie.mpr rfl), same]
            rfl
          · rw [other k here, lookup, if_neg (mt tie.mp here)]
    obtain ⟨looped, formed'⟩ := loop children (List.Subset.refl _) ascending formed
    unfold applied at looped ⊢
    rw [orderedWrites, performed_append]
    refine Eq.trans ?_ looped
    cases last : lastPriority children none with
    | none => rfl
    | some c =>
      have member : ([".priority"], c) ∈ orderedWrites (.node none children) := by
        rw [orderedWrites, last]
        exact List.mem_append_right _ List.mem_cons_self
      have isPriority : IsPriority c := Writable.isPriority (p := []) (writable _ member)
      exact entry_updated_priority formed' isPriority k

/-- Where nothing is written above a place, the result there comes from the writes below it. -/
theorem descendant_applied {w : FCompoundWrite} (good : GoodWrite w) {n : FStoredNode}
    (formed : WellFormed n) {q : FPath} (plain : PlainPath q) (free : ¬ (overlay w).Above q) :
    descendant (applied w n) q = applied ⟨w.writeTree.subtreeAtPath q⟩ (descendant n q) := by
  induction q generalizing w n with
  | nil => rfl
  | cons k q ih =>
    obtain ⟨key, others⟩ := PlainPath.cons.mp plain
    have root : w.writeTree.value = none := by
      by_contra something
      exact free ⟨[], List.nil_prefix, (List.cons_ne_nil k q).symm,
        Option.isSome_iff_ne_none.mpr something⟩
    rw [descendant, entry_applied good root formed key, descendant, subtreeAtPath_cons]
    refine ih (good.sub k) (formed.child k) others ?_
    rintro ⟨r, leads, different, found⟩
    refine free ⟨k :: r, List.cons_prefix_cons.mpr ⟨rfl, leads⟩,
      fun same => different (List.cons.inj same).2, ?_⟩
    unfold overlay at found ⊢
    rwa [valueAtPath_cons]

theorem shown_applied {w : FCompoundWrite} (good : GoodWrite w) {n : FStoredNode}
    (formed : WellFormed n) : Shown (overlay w) (applied w n) := by
  intro q c found plain
  have free : ¬ (overlay w).Above q := by
    rintro ⟨r, leads, different, there⟩
    exact different (good.prefixFree r q there (by simp [found]) leads)
  rw [descendant_applied good formed plain free]
  have value : (w.writeTree.subtreeAtPath q).value = some c := by
    rw [← valueAtPath_nil, valueAtPath_subtreeAtPath, List.append_nil]
    exact found
  generalize w.writeTree.subtreeAtPath q = t at value
  obtain ⟨v, children⟩ := t
  obtain rfl : v = some c := value
  simp [applied, orderedWrites, performed]

end WatchAndSee.Guarantees.StoredNodes
