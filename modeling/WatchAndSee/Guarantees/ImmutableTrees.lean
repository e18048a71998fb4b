import WatchAndSee.Library.OverlayStores
import WatchAndSee.Source.FImmutableTree

/-!
# Immutable trees are finite maps from paths

A tree in canonical form keeps its children in key order and no empty child. Such
a tree is determined by the values at its paths; every operation is described by
the values that it leaves, and keeps the form.
-/

set_option autoImplicit false

namespace WatchAndSee.Guarantees.ImmutableTrees
open Library
open Library.SortedListing (Ascending lookup put erase)
open Source
open Source.FImmutableTree

instance : Std.TransCmp stringComparator where
  eq_swap {a b} := by
    unfold stringComparator literalCompare
    exact Std.OrientedCmp.eq_swap
  isLE_trans {a b c} := by
    unfold stringComparator literalCompare
    exact Std.TransCmp.isLE_trans

instance : Std.LawfulEqCmp stringComparator where
  compare_self {a} := by
    unfold stringComparator literalCompare
    exact Std.ReflCmp.compare_self
  eq_of_compare {a b} same := by
    unfold stringComparator literalCompare at same
    exact CodeUnits.unichars_injective (Std.LawfulEqCmp.eq_of_compare same)

variable {α : Type}

inductive Canonical : FImmutableTree α → Prop where
  | node {value : Option α} {children : List (String × FImmutableTree α)}
      (ascending : Ascending stringComparator children)
      (pieces : ∀ e ∈ children, FPath.IsPiece e.1)
      (full : ∀ e ∈ children, e.2.isEmpty = false) (below : ∀ e ∈ children, Canonical e.2) :
      Canonical (.node value children)

theorem canonical_leaf (value : Option α) : Canonical (.node value []) :=
  .node List.Pairwise.nil (by simp) (by simp) (by simp)

theorem canonical_empty : Canonical (empty : FImmutableTree α) := canonical_leaf none

theorem Canonical.ascending {t : FImmutableTree α} (canonical : Canonical t) :
    Ascending stringComparator t.children := by
  cases canonical with
  | node ascending => exact ascending

theorem eq_empty {t : FImmutableTree α} (nothing : t.isEmpty = true) : t = empty := by
  obtain ⟨value, children⟩ := t
  simpa [isEmpty, FImmutableTree.value, FImmutableTree.children, empty] using nothing

/-- The child under a key, empty where there is none. -/
def sub (t : FImmutableTree α) (k : String) : FImmutableTree α := (t.child k).getD empty

theorem Canonical.descend {t : FImmutableTree α} (canonical : Canonical t) (k : String) :
    Canonical (sub t k) := by
  cases canonical with
  | @node value children _ _ _ below =>
    unfold sub child
    cases found : lookup stringComparator k children with
    | none =>
      simp only [FImmutableTree.children, found]
      exact canonical_empty
    | some c =>
      simp only [FImmutableTree.children, found]
      exact below _ (SortedListing.mem_of_lookup found)

@[simp] theorem valueAtPath_nil (t : FImmutableTree α) : t.valueAtPath [] = t.value := rfl

@[simp] theorem valueAtPath_empty (q : FPath) : (empty : FImmutableTree α).valueAtPath q = none := by
  cases q <;> rfl

theorem valueAtPath_cons (t : FImmutableTree α) (k : String) (q : FPath) :
    t.valueAtPath (k :: q) = (sub t k).valueAtPath q := by
  rw [valueAtPath, sub]
  cases t.child k with
  | none => exact (valueAtPath_empty q).symm
  | some c => rfl

theorem valueAtPath_initWithValue (v : α) (q : FPath) :
    (initWithValue v).valueAtPath q = if q = [] then some v else none := by
  cases q with
  | nil => rfl
  | cons k q => rw [valueAtPath_cons, if_neg (List.cons_ne_nil k q)]; exact valueAtPath_empty q

/-! ## What a canonical tree holds determines it -/

theorem Canonical.exists_value {t : FImmutableTree α} (canonical : Canonical t)
    (full : t.isEmpty = false) : ∃ q, (t.valueAtPath q).isSome := by
  induction canonical with
  | @node value children ascending _ fullBelow _ ih =>
    cases value with
    | some v => exact ⟨[], rfl⟩
    | none =>
      cases children with
      | nil => cases full
      | cons e rest =>
        obtain ⟨q, found⟩ := ih e List.mem_cons_self (fullBelow e List.mem_cons_self)
        have here : lookup stringComparator e.1 (e :: rest) = some e.2 :=
          SortedListing.lookup_of_mem ascending List.mem_cons_self
        refine ⟨e.1 :: q, ?_⟩
        rw [valueAtPath_cons, sub, child, FImmutableTree.children, here]
        exact found

theorem Canonical.ext {t s : FImmutableTree α} (left : Canonical t) (right : Canonical s)
    (same : ∀ q, t.valueAtPath q = s.valueAtPath q) : t = s := by
  induction left generalizing s with
  | @node value children ascending _ full below ih =>
    cases right with
    | @node value' children' ascending' _ full' below' =>
      have values : value = value' := same []
      have subs (k : String) (q : FPath) :
          (sub (.node value children) k).valueAtPath q =
            (sub (.node value' children') k).valueAtPath q := by
        rw [← valueAtPath_cons, ← valueAtPath_cons, same]
      have entries : children = children' := by
        refine SortedListing.ext_lookup ascending ascending' (fun k => ?_)
        cases here : lookup stringComparator k children with
        | none =>
          cases there : lookup stringComparator k children' with
          | none => rfl
          | some c =>
            have member := SortedListing.mem_of_lookup there
            obtain ⟨q, found⟩ := (below' _ member).exists_value (full' _ member)
            have at' := subs k q
            simp only [sub, child, FImmutableTree.children, here, there, Option.getD_none,
              Option.getD_some, valueAtPath_empty] at at'
            rw [← at'] at found
            cases found
        | some c =>
          have member := SortedListing.mem_of_lookup here
          cases there : lookup stringComparator k children' with
          | none =>
            obtain ⟨q, found⟩ := (below _ member).exists_value (full _ member)
            have at' := subs k q
            simp only [sub, child, FImmutableTree.children, here, there, Option.getD_none,
              Option.getD_some, valueAtPath_empty] at at'
            rw [at'] at found
            cases found
          | some c' =>
            have children_eq : c = c' := by
              refine ih _ member (below' _ (SortedListing.mem_of_lookup there)) (fun q => ?_)
              have at' := subs k q
              simpa only [sub, child, FImmutableTree.children, here, there, Option.getD_some] using at'
            rw [children_eq]
      rw [values, entries]

/-! ## One child replaced -/

/-- A node with `c` under the key `k`, without an empty child. -/
def withChild (t : FImmutableTree α) (k : String) (c : FImmutableTree α) : FImmutableTree α :=
  .node t.value (if c.isEmpty then erase stringComparator k t.children
    else put stringComparator k c t.children)

theorem setTree_cons (t s : FImmutableTree α) (k : String) (p : FPath) :
    setTree t s (k :: p) = withChild t k (setTree (sub t k) s p) := rfl

theorem sub_withChild {t : FImmutableTree α} (canonical : Canonical t) (k : String)
    (c : FImmutableTree α) (j : String) :
    sub (withChild t k c) j = if j = k then c else sub t j := by
  have tie : stringComparator j k = .eq ↔ j = k := Std.LawfulEqCmp.compare_eq_iff_eq
  unfold sub child withChild
  cases nothing : c.isEmpty with
  | true =>
    rw [if_pos rfl, FImmutableTree.children, SortedListing.lookup_erase j k canonical.ascending]
    simp only [tie]
    split
    · exact (eq_empty nothing).symm
    · rfl
  | false =>
    rw [if_neg Bool.false_ne_true, FImmutableTree.children,
      SortedListing.lookup_put j k c canonical.ascending]
    simp only [tie]
    split <;> rfl

theorem canonical_withChild {t c : FImmutableTree α} (canonical : Canonical t) {k : String}
    (piece : FPath.IsPiece k) (below : Canonical c) : Canonical (withChild t k c) := by
  cases canonical with
  | @node value children ascending pieces full belows =>
    unfold withChild
    cases nothing : c.isEmpty with
    | true =>
      rw [if_pos rfl]
      have kept : SortedListing.erase stringComparator k children ⊆ children :=
        (SortedListing.erase_sublist k children).subset
      exact .node (SortedListing.ascending_erase ascending) (fun e member => pieces e (kept member))
        (fun e member => full e (kept member)) (fun e member => belows e (kept member))
    | false =>
      rw [if_neg Bool.false_ne_true]
      refine .node (SortedListing.ascending_put ascending) (fun e member => ?_) (fun e member => ?_)
        (fun e member => ?_) <;>
        rcases SortedListing.mem_put member with rfl | old
      · exact piece
      · exact pieces e old
      · exact nothing
      · exact full e old
      · exact below
      · exact belows e old

/-! ## The operations, by the values that they leave -/

theorem valueAtPath_setTree (s : FImmutableTree α) {t : FImmutableTree α} (canonical : Canonical t)
    (p q : FPath) : (setTree t s p).valueAtPath q =
      if p <+: q then s.valueAtPath (q.drop p.length) else t.valueAtPath q := by
  induction p generalizing t q with
  | nil => simp [setTree]
  | cons k p ih =>
    rw [setTree_cons]
    cases q with
    | nil => rw [if_neg (by simp)]; rfl
    | cons j q =>
      rw [valueAtPath_cons, sub_withChild canonical, valueAtPath_cons t]
      by_cases same : j = k
      · subst same
        rw [if_pos rfl, ih (canonical.descend j)]
        simp only [List.cons_prefix_cons, true_and, List.length_cons, List.drop_succ_cons]
      · rw [if_neg same, if_neg (fun both => same (List.cons_prefix_cons.mp both).1.symm)]

theorem canonical_setTree {s t : FImmutableTree α} (new : Canonical s) (canonical : Canonical t)
    {p : FPath} (pieces : ∀ k ∈ p, FPath.IsPiece k) : Canonical (setTree t s p) := by
  induction p generalizing t with
  | nil => exact new
  | cons k p ih =>
    obtain ⟨piece, others⟩ := List.forall_mem_cons.mp pieces
    rw [setTree_cons]
    exact canonical_withChild canonical piece (ih (canonical.descend k) others)

theorem setValue_full (v : α) (t : FImmutableTree α) (p : FPath) :
    (setValue v t p).isEmpty = false := by
  induction p generalizing t with
  | nil => rfl
  | cons k p =>
    have nonempty : put stringComparator k (setValue v ((t.child k).getD empty) p) t.children ≠ [] := by
      cases t.children with
      | nil => exact List.cons_ne_nil _ _
      | cons e rest =>
        unfold put
        split <;> exact List.cons_ne_nil _ _
    simpa [setValue, isEmpty, FImmutableTree.children] using fun _ => nonempty

theorem setValue_cons (v : α) (t : FImmutableTree α) (k : String) (p : FPath) :
    setValue v t (k :: p) = withChild t k (setValue v (sub t k) p) := by
  unfold withChild
  rw [setValue_full]
  rfl

theorem valueAtPath_setValue (v : α) {t : FImmutableTree α} (canonical : Canonical t) (p q : FPath) :
    (setValue v t p).valueAtPath q = if q = p then some v else t.valueAtPath q := by
  induction p generalizing t q with
  | nil =>
    cases q with
    | nil => rfl
    | cons j q =>
      rw [if_neg (List.cons_ne_nil j q), valueAtPath_cons, valueAtPath_cons]
      rfl
  | cons k p ih =>
    rw [setValue_cons]
    cases q with
    | nil => rw [if_neg (List.cons_ne_nil k p).symm]; rfl
    | cons j q =>
      rw [valueAtPath_cons, sub_withChild canonical, valueAtPath_cons t]
      by_cases same : j = k
      · subst same
        rw [if_pos rfl, ih (canonical.descend j)]
        simp only [List.cons.injEq, true_and]
      · rw [if_neg same, if_neg (fun both => same (List.cons.inj both).1)]

theorem canonical_setValue (v : α) {t : FImmutableTree α} (canonical : Canonical t) {p : FPath}
    (pieces : ∀ k ∈ p, FPath.IsPiece k) : Canonical (setValue v t p) := by
  induction p generalizing t with
  | nil =>
    cases canonical with
    | node ascending piecesBelow full below => exact .node ascending piecesBelow full below
  | cons k p ih =>
    obtain ⟨piece, others⟩ := List.forall_mem_cons.mp pieces
    rw [setValue_cons]
    exact canonical_withChild canonical piece (ih (canonical.descend k) others)

theorem valueAtPath_subtreeAtPath (t : FImmutableTree α) (p q : FPath) :
    (t.subtreeAtPath p).valueAtPath q = t.valueAtPath (p ++ q) := by
  induction p generalizing t with
  | nil => rfl
  | cons k p ih =>
    rw [subtreeAtPath, List.cons_append, valueAtPath]
    cases t.child k with
    | none => exact valueAtPath_empty q
    | some c => exact ih c

theorem subtreeAtPath_cons (t : FImmutableTree α) (k : String) (p : FPath) :
    t.subtreeAtPath (k :: p) = (sub t k).subtreeAtPath p := by
  rw [subtreeAtPath, sub]
  cases t.child k with
  | none => cases p <;> rfl
  | some c => rfl

/-! ## Searches and traversals -/

theorem pathWithString_piece {k : String} (piece : FPath.IsPiece k) : FPath.pathWithString k = [k] := by
  have pieces : ∀ j ∈ [k], FPath.IsPiece j := by simpa using piece
  have read := FPath.pathWithString_wireFormat pieces
  simpa [FPath.wireFormat] using read

theorem childFromString_piece (p : FPath) {k : String} (piece : FPath.IsPiece k) :
    p.childFromString k = p ++ [k] := congrArg (p ++ ·) (pathWithString_piece piece)

theorem findRootMost_cons (t : FImmutableTree α) {k : String} (piece : FPath.IsPiece k) (p : FPath) :
    t.findRootMostValueAndPath (k :: p) =
      match t.value with
      | some v => some ([], v)
      | none => ((sub t k).findRootMostValueAndPath p).map fun found => (k :: found.1, found.2) := by
  unfold findRootMostValueAndPath sub
  rw [findRootMostMatchingPath]
  cases t.value with
  | some v => rfl
  | none =>
    dsimp only [Option.filter]
    cases t.child k with
    | none => cases p <;> rfl
    | some c =>
      dsimp only [Option.getD_some]
      rw [pathWithString_piece piece]
      cases findRootMostMatchingPath (fun _ => true) c p <;> rfl

theorem findRootMost_nil (t : FImmutableTree α) :
    t.findRootMostValueAndPath [] = t.value.map fun v => ([], v) := by
  unfold findRootMostValueAndPath findRootMostMatchingPath
  cases t.value <;> rfl

/-- The value nearest to the root on the way to `p`. -/
theorem findRootMost_eq_some_iff (t : FImmutableTree α) {p : FPath}
    (pieces : ∀ k ∈ p, FPath.IsPiece k) (r : FPath) (v : α) :
    t.findRootMostValueAndPath p = some (r, v) ↔
      r <+: p ∧ t.valueAtPath r = some v ∧ ∀ q, q <+: r → q ≠ r → t.valueAtPath q = none := by
  induction p generalizing t r with
  | nil =>
    rw [findRootMost_nil, List.prefix_nil]
    constructor
    · intro found
      obtain ⟨w, value, same⟩ := Option.map_eq_some_iff.mp found
      obtain ⟨rfl, rfl⟩ := Prod.mk.inj same
      exact ⟨rfl, value, fun q leads different => absurd (List.prefix_nil.mp leads) different⟩
    · rintro ⟨rfl, value, _⟩
      rw [valueAtPath_nil] at value
      rw [value]
      rfl
  | cons k p ih =>
    obtain ⟨piece, others⟩ := List.forall_mem_cons.mp pieces
    rw [findRootMost_cons t piece]
    cases here : t.value with
    | some w =>
      constructor
      · intro found
        obtain ⟨rfl, rfl⟩ := Prod.mk.inj (Option.some.inj found)
        exact ⟨List.nil_prefix, here, fun q leads different =>
          absurd (List.prefix_nil.mp leads) different⟩
      · rintro ⟨_, value, first⟩
        cases r with
        | nil =>
          rw [valueAtPath_nil, here] at value
          rw [Option.some.inj value]
        | cons j r =>
          have nothing := first [] List.nil_prefix (List.cons_ne_nil j r).symm
          rw [valueAtPath_nil, here] at nothing
          cases nothing
    | none =>
      constructor
      · intro found
        obtain ⟨⟨r', w⟩, below, same⟩ := Option.map_eq_some_iff.mp found
        obtain ⟨rfl, rfl⟩ := Prod.mk.inj same
        obtain ⟨leads, value, first⟩ := (ih (sub t k) others r').mp below
        refine ⟨List.cons_prefix_cons.mpr ⟨rfl, leads⟩, (valueAtPath_cons t k r').trans value,
          fun q leads different => ?_⟩
        cases q with
        | nil => exact here
        | cons j q =>
          obtain ⟨rfl, leads'⟩ := List.cons_prefix_cons.mp leads
          rw [valueAtPath_cons]
          exact first q leads' (fun same => different (by rw [same]))
      · rintro ⟨leads, value, first⟩
        cases r with
        | nil =>
          rw [valueAtPath_nil, here] at value
          cases value
        | cons j r =>
          obtain ⟨rfl, leads'⟩ := List.cons_prefix_cons.mp leads
          rw [valueAtPath_cons] at value
          refine Option.map_eq_some_iff.mpr ⟨(r, v), (ih (sub t j) others r).mpr ⟨leads', value,
            fun q leads different => ?_⟩, rfl⟩
          rw [← valueAtPath_cons]
          exact first (j :: q) (List.cons_prefix_cons.mpr ⟨rfl, leads⟩)
            (fun same => different (List.cons.inj same).2)

theorem findRootMost_eq_none_iff (t : FImmutableTree α) {p : FPath}
    (pieces : ∀ k ∈ p, FPath.IsPiece k) :
    t.findRootMostValueAndPath p = none ↔ ∀ r, r <+: p → t.valueAtPath r = none := by
  induction p generalizing t with
  | nil => simp [findRootMost_nil]
  | cons k p ih =>
    obtain ⟨piece, others⟩ := List.forall_mem_cons.mp pieces
    rw [findRootMost_cons t piece]
    cases here : t.value with
    | some w =>
      refine iff_of_false (by simp) (fun all => ?_)
      have nothing := all [] List.nil_prefix
      rw [valueAtPath_nil, here] at nothing
      cases nothing
    | none =>
      rw [Option.map_eq_none_iff, ih (sub t k) others]
      constructor
      · intro all r leads
        cases r with
        | nil => exact here
        | cons j r =>
          obtain ⟨rfl, leads'⟩ := List.cons_prefix_cons.mp leads
          rw [valueAtPath_cons]
          exact all r leads'
      · intro all r leads
        rw [← valueAtPath_cons]
        exact all (k :: r) (List.cons_prefix_cons.mpr ⟨rfl, leads⟩)

theorem forEachPathSoFar_node (value : Option α) (children : List (String × FImmutableTree α))
    (p : FPath) : forEachPathSoFar (.node value children) p =
      forEachChildren children p ++ (value.map fun v => (p, v)).toList := by
  cases value <;> rfl

theorem mem_forEachPathSoFar {t : FImmutableTree α} (canonical : Canonical t) (p q : FPath) (v : α) :
    (q, v) ∈ t.forEachPathSoFar p ↔ ∃ r, q = p ++ r ∧ t.valueAtPath r = some v := by
  induction canonical generalizing p with
  | @node value children ascending pieces full below ih =>
    have inChildren : (q, v) ∈ forEachChildren children p ↔
        ∃ e ∈ children, ∃ r, q = p ++ e.1 :: r ∧ e.2.valueAtPath r = some v := by
      clear ascending full below
      induction children with
      | nil => simp [forEachChildren]
      | cons e rest ihRest =>
        obtain ⟨piece, others⟩ := List.forall_mem_cons.mp pieces
        obtain ⟨first, later⟩ := List.forall_mem_cons.mp ih
        rw [forEachChildren, List.mem_append, first, childFromString_piece p piece,
          ihRest others later, List.exists_mem_cons_iff]
        simp only [List.append_assoc, List.singleton_append]
    have atRoot : (q, v) ∈ (value.map fun v => (p, v)).toList ↔ q = p ∧ value = some v := by
      cases value with
      | none => simp
      | some w => simp [eq_comm]
    rw [forEachPathSoFar_node, List.mem_append, inChildren, atRoot]
    constructor
    · rintro (⟨e, member, r, path, value⟩ | ⟨rfl, rfl⟩)
      · refine ⟨e.1 :: r, path, ?_⟩
        rw [valueAtPath_cons, sub, child, FImmutableTree.children,
          SortedListing.lookup_of_mem ascending member]
        exact value
      · exact ⟨[], (List.append_nil q).symm, rfl⟩
    · rintro ⟨r, rfl, value⟩
      cases r with
      | nil => exact .inr ⟨List.append_nil p, value⟩
      | cons k r =>
        rw [valueAtPath_cons, sub, child, FImmutableTree.children] at value
        cases found : lookup stringComparator k children with
        | none =>
          rw [found, Option.getD_none, valueAtPath_empty] at value
          cases value
        | some c =>
          rw [found] at value
          exact .inl ⟨(k, c), SortedListing.mem_of_lookup found, r, rfl, value⟩

theorem nodup_forEachPathSoFar {t : FImmutableTree α} (canonical : Canonical t) (p : FPath) :
    (t.forEachPathSoFar p).Nodup := by
  induction canonical generalizing p with
  | @node value children ascending pieces full below ih =>
    have inChildren : (forEachChildren children p).Nodup ∧
        ∀ w ∈ forEachChildren children p, ∃ e ∈ children, (p ++ [e.1]) <+: w.1 := by
      induction children with
      | nil => simp [forEachChildren]
      | cons e rest ihRest =>
        obtain ⟨piece, pieces'⟩ := List.forall_mem_cons.mp pieces
        obtain ⟨canonical, below'⟩ := List.forall_mem_cons.mp below
        obtain ⟨first, later⟩ := List.forall_mem_cons.mp ih
        obtain ⟨nodup, places⟩ := ihRest (SortedListing.Ascending.tail ascending) pieces'
          (List.forall_mem_cons.mp full).2 below' later
        have here (w : FPath × α) (member : w ∈ e.2.forEachPathSoFar (p ++ [e.1])) :
            (p ++ [e.1]) <+: w.1 := by
          obtain ⟨r, path, _⟩ := (mem_forEachPathSoFar canonical _ w.1 w.2).mp member
          exact ⟨r, path.symm⟩
        rw [forEachChildren, childFromString_piece p piece]
        refine ⟨List.nodup_append.mpr ⟨first _, nodup, fun w left x right same => ?_⟩,
          fun w member => ?_⟩
        · subst same
          obtain ⟨f, inside, leads⟩ := places w right
          have equal := List.prefix_of_prefix_length_le (here w left) leads (by simp)
          have keys : e.1 = f.1 := by
            have := equal.eq_of_length (by simp)
            simpa using this
          have less : stringComparator e.1 f.1 = .lt :=
            SortedListing.Ascending.head ascending f inside
          have tie : stringComparator f.1 f.1 = .eq := Std.ReflCmp.compare_self
          rw [keys, tie] at less
          cases less
        · rcases List.mem_append.mp member with left | right
          · exact ⟨e, List.mem_cons_self, here w left⟩
          · obtain ⟨f, inside, leads⟩ := places w right
            exact ⟨f, List.mem_cons_of_mem _ inside, leads⟩
    cases value with
    | none =>
      rw [forEachPathSoFar_node, Option.map_none, Option.toList_none, List.append_nil]
      exact inChildren.1
    | some v =>
      rw [forEachPathSoFar_node]
      refine List.nodup_append.mpr ⟨inChildren.1, List.nodup_singleton _, fun w left x right same => ?_⟩
      obtain ⟨e, _, leads⟩ := inChildren.2 w left
      rw [same, List.mem_singleton.mp right] at leads
      have longer := leads.length_le
      simp only [List.length_append, List.length_singleton] at longer
      omega

/-- `forEach:` goes through the values of the tree, each once. -/
theorem lists_forEach {t : FImmutableTree α} (canonical : Canonical t) :
    Overlay.Lists t.valueAtPath t.forEach where
  nodup := nodup_forEachPathSoFar canonical []
  mem_iff q v := by
    unfold forEach
    rw [mem_forEachPathSoFar canonical]
    simp only [List.nil_append, exists_eq_left']

end WatchAndSee.Guarantees.ImmutableTrees
