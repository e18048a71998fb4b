import WatchAndSee.Guarantees.BatchedWrites

/-!
# Listings of children are sorted dictionaries

Nodes and trees keep their children in sorted dictionaries; the model keeps the
listings. A run of new children leaves in a node what the same run leaves in a
dictionary, array or tree: the keys of a node are then the ones that its
comparator tells apart (no negative zero), and the ones of a tree all of them. Of
two keys that tie, an array, as the listing, takes the later name, a tree of the
dictionary keeps the earlier one.
-/

set_option autoImplicit false

namespace WatchAndSee.Guarantees
open Library
open Library.SortedListing
open Source
open Source.FImmutableSortedDictionary

universe u v w

section Runs

variable {J : Type w} {K : Type u} {V : Type v} [DecidableEq K] (comparator : K → K → Ordering)
  [Std.TransCmp comparator] [Std.LawfulEqCmp comparator]
  {comparator' : J → J → Ordering} {f : K → J}

/-- A run leaves, under other names that compare alike, what the same puts and
erasures leave in the listing of its start, and every read is a lookup there. -/
theorem run_is_listing (same : ∀ a b, comparator' (f a) (f b) = comparator a b)
    (E : Enumeration K V) (start : Dictionary K V) (fits : start.keys.card + 1 < 2 ^ 32)
    (writes : List (Write K V)) :
    ∃ l d, start.Lists l ∧ Ascending comparator l ∧
      runDictionary comparator E start writes = .ok d ∧
      renamed f (dictionaryEntries d) =
        (writes.map (Write.renamed f)).foldl (Write.onListing comparator') (renamed f l) ∧
      ∀ k, d.get k = lookup comparator' (f k) (renamed f (dictionaryEntries d)) := by
  obtain ⟨l, ascending, listing⟩ : ∃ l, Ascending comparator l ∧ start.Lists l :=
    exists_ascending_listing start
  obtain ⟨first, built, formed, entries⟩ :=
    fromDictionary_wellFormed E start ascending listing (by rw [listing.length_eq]; exact fits)
  obtain ⟨d, run, formed', left⟩ := foldlM_writeKey E writes formed
  refine ⟨l, d, listing, ascending, ?_, ?_, fun k => ?_⟩
  · rw [runDictionary, built]
    exact run
  · rw [left, entries, ← foldl_renamed same]
  · rw [lookup_renamed same]
    exact formed'.represents.get k

/-- What a new child does to a dictionary of children. -/
def childWrite (isEmpty : V → Bool) (e : K × V) : Write K V :=
  if isEmpty e.2 then .remove e.1 else .insert e.1 e.2

omit [DecidableEq K] in
theorem childWrite_onListing (cmp : K → K → Ordering) (isEmpty : V → Bool) (e : K × V)
    (l : List (K × V)) :
    (childWrite isEmpty e).onListing cmp l =
      if isEmpty e.2 then erase cmp e.1 l else put cmp e.1 e.2 l := by
  unfold childWrite
  split <;> rfl

omit [DecidableEq K] in
theorem childWrite_renamed (isEmpty : V → Bool) (f : K → J) (e : K × V) :
    Write.renamed f (childWrite isEmpty e) = childWrite isEmpty (f e.1, e.2) := by
  unfold childWrite
  split <;> rfl

end Runs

/-! ## Children of nodes -/

section Nodes
open FStoredNode (emptyNode)
open StoredNodes (childrenOf)

/-- `updateImmediateChild:withNewChild:` puts into the listing or erases there. -/
theorem updateImmediateChild_listing (priority : Option FStoredNode)
    (entries : List (String × FStoredNode)) (e : String × FStoredNode) (key : e.1 ≠ ".priority") :
    ∃ priority', (FStoredNode.children priority entries).updateImmediateChild e.1 e.2 =
      .ok (.children priority' ((childWrite FStoredNode.isEmpty e).onListing keyComparator entries)) := by
  rw [FStoredNode.updateImmediateChild, if_neg key]
  unfold FStoredNode.updateEntries
  simp only
  rw [← childWrite_onListing keyComparator FStoredNode.isEmpty e entries]
  cases empty : ((childWrite FStoredNode.isEmpty e).onListing keyComparator entries).isEmpty with
  | true =>
    rw [List.isEmpty_iff.mp empty]
    exact ⟨none, rfl⟩
  | false => simp [FStoredNode.initWithPriority, empty]

theorem updates_listing (writes : List (ChildKey × FStoredNode))
    (keys : ∀ e ∈ writes, e.1.string ≠ ".priority") (priority : Option FStoredNode)
    (entries : List (String × FStoredNode)) :
    ∃ priority', writes.foldlM (fun (n : FStoredNode) e => n.updateImmediateChild e.1.string e.2)
        (.children priority entries) =
      .ok (.children priority' (((writes.map (childWrite FStoredNode.isEmpty)).map
        (Write.renamed ChildKey.string)).foldl (Write.onListing keyComparator) entries)) := by
  induction writes generalizing entries priority with
  | nil => exact ⟨priority, rfl⟩
  | cons e rest ih =>
    obtain ⟨key, others⟩ := List.forall_mem_cons.mp keys
    obtain ⟨between, step⟩ := updateImmediateChild_listing priority entries (e.1.string, e.2) key
    obtain ⟨last, run⟩ := ih others between
      ((childWrite FStoredNode.isEmpty (e.1.string, e.2)).onListing keyComparator entries)
    refine ⟨last, ?_⟩
    rw [List.foldlM_cons, step, List.map_cons, List.map_cons, List.foldl_cons, childWrite_renamed]
    exact run

/-- The children that a run of new children leaves in a node are the entries of the
dictionary that takes the same run, and reads of the node are reads of it. -/
theorem node_children_are_dictionary (E : Enumeration ChildKey FStoredNode)
    (start : Dictionary ChildKey FStoredNode) (fits : start.keys.card + 1 < 2 ^ 32)
    (priority : Option FStoredNode) (writes : List (ChildKey × FStoredNode))
    (keys : ∀ e ∈ writes, e.1.string ≠ ".priority") :
    ∃ l d n, start.Lists l ∧ Ascending childComparator l ∧
      runDictionary childComparator E start (writes.map (childWrite FStoredNode.isEmpty)) = .ok d ∧
      writes.foldlM (fun (n : FStoredNode) e => n.updateImmediateChild e.1.string e.2)
        (.children priority (renamed ChildKey.string l)) = .ok n ∧
      childrenOf n = renamed ChildKey.string (dictionaryEntries d) ∧
      ∀ k : ChildKey, k.string ≠ ".priority" →
        n.getImmediateChild k.string = (d.get k).getD emptyNode := by
  have comparators (a b : ChildKey) : keyComparator a.string b.string = childComparator a b := rfl
  obtain ⟨l, d, listing, ascending, run, entries, reads⟩ :=
    run_is_listing childComparator comparators E start fits (writes.map (childWrite FStoredNode.isEmpty))
  obtain ⟨priority', updates⟩ := updates_listing writes keys priority (renamed ChildKey.string l)
  rw [← entries] at updates
  refine ⟨l, d, _, listing, ascending, run, updates, rfl, fun k key => ?_⟩
  rw [FStoredNode.getImmediateChild, if_neg key, reads]

end Nodes

/-! ## Children of trees -/

section Trees

variable {α : Type}

theorem setTree_listing (writes : List (String × FImmutableTree α)) (t : FImmutableTree α) :
    (writes.foldl (fun t e => t.setTree e.2 [e.1]) t).children =
      (writes.map (childWrite FImmutableTree.isEmpty)).foldl (Write.onListing stringComparator)
        t.children := by
  induction writes generalizing t with
  | nil => rfl
  | cons e rest ih =>
    rw [List.foldl_cons, ih, List.map_cons, List.foldl_cons, childWrite_onListing]
    rfl

/-- The same of the subtrees that a run of `setTree:atPath:` leaves in a tree. -/
theorem tree_children_are_dictionary (E : Enumeration String (FImmutableTree α))
    (start : Dictionary String (FImmutableTree α)) (fits : start.keys.card + 1 < 2 ^ 32)
    (value : Option α) (writes : List (String × FImmutableTree α)) :
    ∃ l d t, start.Lists l ∧ Ascending stringComparator l ∧
      runDictionary stringComparator E start (writes.map (childWrite FImmutableTree.isEmpty)) = .ok d ∧
      writes.foldl (fun (t : FImmutableTree α) e => t.setTree e.2 [e.1]) (.node value l) = t ∧
      t.children = dictionaryEntries d ∧ ∀ k, t.child k = d.get k := by
  have itself (l : List (String × FImmutableTree α)) : renamed id l = l := List.map_id l
  have write (e : Write String (FImmutableTree α)) : Write.renamed id e = e := by cases e <;> rfl
  obtain ⟨l, d, listing, ascending, run, entries, reads⟩ := run_is_listing stringComparator (f := id)
    (fun _ _ => rfl) E start fits (writes.map (childWrite FImmutableTree.isEmpty))
  rw [itself, itself, List.map_congr_left fun e _ => write e, List.map_id'] at entries
  have children := setTree_listing writes (.node value l)
  refine ⟨l, d, _, listing, ascending, run, rfl, children.trans entries.symm, fun k => ?_⟩
  rw [reads, itself, entries, FImmutableTree.child, children]
  rfl

end Trees

end WatchAndSee.Guarantees
