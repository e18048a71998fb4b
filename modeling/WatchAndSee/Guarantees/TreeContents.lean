import WatchAndSee.Library.Enumerators
import WatchAndSee.Library.SortedListing
import WatchAndSee.Source.FTreeSortedDictionary

/-!
# Contents of the tree

The tree as the ascending listing of its entries. Reads, insertion and the
traversals do not depend on its balance; removal and the builder are treated
with the shape.
-/

set_option autoImplicit false

namespace WatchAndSee.Guarantees
open Library
open Library.SortedListing
open Source
open Source.FTreeSortedDictionary

universe u v w

variable {K : Type u} {V : Type v}

/-! ## Traversals -/

theorem inorderTraversal_eq {S : Type w} (action : K → V → S → Bool × S) (n : FLLRBNode K V)
    (s : S) : n.inorderTraversal action s = visit (fun e => action e.1 e.2) n.entries s := by
  induction n generalizing s with
  | empty => rfl
  | node key value color l r ihLeft ihRight =>
    simp only [FLLRBNode.inorderTraversal, FLLRBNode.entries, visit_append, visit, ihLeft, ihRight]

theorem reverseTraversal_eq {S : Type w} (action : K → V → S → Bool × S) (n : FLLRBNode K V)
    (s : S) :
    n.reverseTraversal action s = visit (fun e => action e.1 e.2) n.entries.reverse s := by
  induction n generalizing s with
  | empty => rfl
  | node key value color l r ihLeft ihRight =>
    simp only [FLLRBNode.reverseTraversal, FLLRBNode.entries, List.reverse_append,
      List.reverse_cons, List.append_assoc, List.singleton_append, visit_append, visit, ihLeft,
      ihRight]

theorem minKey_eq (n : FLLRBNode K V) : n.minKey = (keys n.entries).head? := by
  induction n with
  | empty => rfl
  | node key value color l r ihLeft _ =>
    unfold FLLRBNode.minKey at ihLeft ⊢
    simp only [FLLRBNode.min]
    split
    · next isEmpty =>
      rw [(FLLRBNode.eq_empty_iff l).mp isEmpty]
      rfl
    · next notEmpty =>
      rw [ihLeft, FLLRBNode.entries, keys_append, List.head?_append]
      cases l with
      | empty => exact absurd rfl notEmpty
      | node => simp [FLLRBNode.entries]

theorem last_key_isSome {n : FLLRBNode K V} (notEmpty : n.isEmpty = false) :
    (keys n.entries).getLast?.isSome := by
  cases n with
  | empty => cases notEmpty
  | node => simp [FLLRBNode.entries]

theorem maxKey_eq (n : FLLRBNode K V) : n.maxKey = (keys n.entries).getLast? := by
  induction n with
  | empty => rfl
  | node key value color l r _ ihRight =>
    simp only [FLLRBNode.maxKey]
    split
    · next isEmpty =>
      rw [(FLLRBNode.eq_empty_iff r).mp isEmpty]
      simp [FLLRBNode.entries, keys]
    · next notEmpty =>
      have some := last_key_isSome (by simpa using notEmpty)
      rw [ihRight, FLLRBNode.entries, List.append_cons, keys_append, List.getLast?_append,
        Option.or_of_isSome some]

/-! ## Reads and insertion -/

section Order

variable {comparator : K → K → Ordering} [Std.TransCmp comparator]

theorem getLoop_eq (k : K) {n : FLLRBNode K V} (sorted : Ascending comparator n.entries) :
    getLoop comparator k n = lookup comparator k n.entries := by
  induction n with
  | empty => rfl
  | node key value color l r ihLeft ihRight =>
    obtain ⟨left, right, below, above⟩ := ascending_append_cons.mp sorted
    simp only [getLoop, FLLRBNode.entries]
    cases order : comparator k key with
    | lt =>
      have beyond : AllKeys comparator k .lt ((key, value) :: r.entries) :=
        AllKeys.cons.mpr ⟨order, AllKeys.of_lt order above⟩
      rw [lookup_append_left k (beyond.not_eq (by decide)), ihLeft left]
    | eq =>
      have under : AllKeys comparator k .gt l.entries := AllKeys.of_eq order below
      rw [lookup_append_right k (under.not_eq (by decide)), lookup, if_pos order]
    | gt =>
      have under : AllKeys comparator k .gt l.entries := AllKeys.of_gt order below
      rw [lookup_append_right k (under.not_eq (by decide)), lookup, if_neg (by simp [order]),
        ihRight right]

/-- With the last key passed on the way down as the fallback. -/
theorem getPredecessorKeyLoop_eq (k : K) (rightParent : Option K) {n : FLLRBNode K V}
    (sorted : Ascending comparator n.entries) :
    getPredecessorKeyLoop comparator k rightParent n =
      (lookup comparator k n.entries).elim (.error .nonexistentKey)
        fun _ => .ok ((predecessor comparator k n.entries).or rightParent) := by
  induction n generalizing rightParent with
  | empty => rfl
  | node key value color l r ihLeft ihRight =>
    obtain ⟨left, right, below, above⟩ := ascending_append_cons.mp sorted
    simp only [getPredecessorKeyLoop, FLLRBNode.entries]
    cases order : comparator k key with
    | lt =>
      have beyond : AllKeys comparator k .lt ((key, value) :: r.entries) :=
        AllKeys.cons.mpr ⟨order, AllKeys.of_lt order above⟩
      have none : predecessor comparator k ((key, value) :: r.entries) = .none :=
        predecessor_of_not_gt fun e member => by rw [beyond e member]; decide
      rw [lookup_append_left k (beyond.not_eq (by decide)), predecessor_append, none,
        Option.none_or]
      exact ihLeft rightParent left
    | eq =>
      have under : AllKeys comparator k .gt l.entries := AllKeys.of_eq order below
      have beyond : AllKeys comparator k .lt r.entries := AllKeys.of_eq order above
      have none : predecessor comparator k ((key, value) :: r.entries) = .none :=
        predecessor_of_not_gt (List.forall_mem_cons.mpr ⟨by simp [order],
          fun e member => by rw [beyond e member]; decide⟩)
      rw [lookup_append_right k (under.not_eq (by decide)), lookup, if_pos order,
        predecessor_append, none, Option.none_or, predecessor_of_gt under, maxKey_eq]
      cases notEmpty : l.isEmpty with
      | true =>
        rw [(FLLRBNode.eq_empty_iff l).mp notEmpty]
        rfl
      | false =>
        rw [Option.or_of_isSome (last_key_isSome notEmpty)]
        rfl
    | gt =>
      have under : AllKeys comparator k .gt l.entries := AllKeys.of_gt order below
      have last : predecessor comparator k (l.entries ++ [(key, value)]) = some key := by
        rw [predecessor_of_gt (AllKeys.append.mpr ⟨under, AllKeys.cons.mpr ⟨order, by simp [AllKeys]⟩⟩)]
        simp [keys]
      have other : comparator k (key, value).1 ≠ .eq := by simp [order]
      rw [lookup_append_right k (under.not_eq (by decide)), lookup, if_neg other,
        ihRight (some key) right, List.append_cons, predecessor_append, last, Option.or_assoc]
      rfl

variable [Std.LawfulEqCmp comparator]

theorem entries_insertKey (k : K) (v : V) {n : FLLRBNode K V}
    (sorted : Ascending comparator n.entries) :
    (n.insertKey comparator k v).entries = put comparator k v n.entries := by
  induction n with
  | empty => rfl
  | node key value color l r ihLeft ihRight =>
    obtain ⟨left, right, below, above⟩ := ascending_append_cons.mp sorted
    simp only [FLLRBNode.insertKey, FLLRBNode.entries_fixUp]
    cases order : comparator k key with
    | lt =>
      simp only [FLLRBNode.copyWith, Option.getD, FLLRBNode.entries]
      rw [ihLeft left, put_append_left _ _ _ _ _ order]
    | eq =>
      have under : AllKeys comparator k .gt l.entries := AllKeys.of_eq order below
      simp only [FLLRBNode.copyWith, Option.getD, FLLRBNode.entries]
      rw [put_append_right _ _ _ under, put, order, Std.LawfulEqCmp.eq_of_compare order]
    | gt =>
      have under : AllKeys comparator k .gt l.entries := AllKeys.of_gt order below
      simp only [FLLRBNode.copyWith, Option.getD, FLLRBNode.entries]
      rw [ihRight right, put_append_right _ _ _ under, put, order]

end Order

/-! ## Enumerators -/

open FTreeSortedDictionaryEnumerator

/-- The keys still to come, ascending. A node stands for itself and its right
subtree. -/
def pending : List (FLLRBNode K V) → List K
  | [] => []
  | .empty :: _ => []
  | .node key _ _ _ right :: rest => key :: (keys right.entries ++ pending rest)

/-- Descending, a node stands for itself and its left subtree. -/
def pendingReverse : List (FLLRBNode K V) → List K
  | [] => []
  | .empty :: _ => []
  | .node key _ _ left _ :: rest => key :: ((keys left.entries).reverse ++ pendingReverse rest)

def pendingOf (e : FTreeSortedDictionaryEnumerator K V) : List K :=
  if e.isReverse then pendingReverse e.stack else pending e.stack

theorem pending_pushLeft (stack : List (FLLRBNode K V)) (n : FLLRBNode K V) :
    pending (pushLeft stack n) = keys n.entries ++ pending stack := by
  induction n generalizing stack with
  | empty => rfl
  | node key value color l r ihLeft _ =>
    simp [pushLeft, ihLeft, pending, FLLRBNode.entries]

theorem pendingReverse_pushRight (stack : List (FLLRBNode K V)) (n : FLLRBNode K V) :
    pendingReverse (pushRight stack n) = (keys n.entries).reverse ++ pendingReverse stack := by
  induction n generalizing stack with
  | empty => rfl
  | node key value color l r _ ihRight =>
    simp [pushRight, ihRight, pendingReverse, FLLRBNode.entries]

/-- The calls of `nextObject` hand out what the stack stands for. -/
theorem yields_pendingOf (e : FTreeSortedDictionaryEnumerator K V) :
    Yields nextObject e (pendingOf e) := by
  apply Yields.of_pending
  · intro e none
    obtain ⟨stack, reverse⟩ := e
    cases stack with
    | nil => cases reverse <;> rfl
    | cons n rest =>
      cases n with
      | empty => cases reverse <;> rfl
      | node => simp [nextObject, FLLRBNode.key] at none
  · intro e k e' some
    obtain ⟨stack, reverse⟩ := e
    cases stack with
    | nil => simp [nextObject] at some
    | cons n rest =>
      cases n with
      | empty => simp [nextObject, FLLRBNode.key] at some
      | node key value color l r =>
        simp only [nextObject, FLLRBNode.key, Option.map_some, Option.some.injEq,
          Prod.mk.injEq] at some
        obtain ⟨rfl, rfl⟩ := some
        cases reverse with
        | false => simp [pendingOf, pending, FLLRBNode.right, pending_pushLeft]
        | true => simp [pendingOf, pendingReverse, FLLRBNode.left, pendingReverse_pushRight]

section Start

variable (comparator : K → K → Ordering)

/-- Without a start key the ascending enumerator starts at the first key. -/
theorem pending_initLoop (stack : List (FLLRBNode K V)) (n : FLLRBNode K V) :
    pending (initLoop comparator none false stack n) = keys n.entries ++ pending stack := by
  induction n generalizing stack with
  | empty => rfl
  | node key value color l r ihLeft _ =>
    simp [initLoop, startComparison, ihLeft, pending, FLLRBNode.entries]

/-- The comparison `1` is flipped as well, so without a start key nothing is
pushed in reverse. -/
theorem initLoop_reverse (stack : List (FLLRBNode K V)) (n : FLLRBNode K V) :
    initLoop comparator none true stack n = stack := by
  induction n generalizing stack with
  | empty => rfl
  | node key value color l r ihLeft _ => simp [initLoop, startComparison, ihLeft]

variable {comparator} [Std.TransCmp comparator]

theorem pending_initLoop_from (start : K) (stack : List (FLLRBNode K V)) {n : FLLRBNode K V}
    (sorted : Ascending comparator n.entries) :
    pending (initLoop comparator (some start) false stack n) =
      keysFrom comparator start n.entries ++ pending stack := by
  induction n generalizing stack with
  | empty => rfl
  | node key value color l r ihLeft ihRight =>
    obtain ⟨left, right, below, above⟩ := ascending_append_cons.mp sorted
    have lower : ∀ e ∈ l.entries, comparator e.1 key = .lt :=
      fun e member => Std.OrientedCmp.gt_iff_lt.mp (below e member)
    have upper : ∀ e ∈ r.entries, comparator e.1 key = .gt :=
      fun e member => Std.OrientedCmp.gt_iff_lt.mpr (above e member)
    simp only [initLoop, startComparison, Bool.false_eq_true, if_false, FLLRBNode.entries,
      keysFrom_append, keysFrom_cons]
    cases order : comparator key start with
    | lt =>
      have none : keysFrom comparator start l.entries = [] :=
        keysFrom_of_below fun e member => Std.TransCmp.lt_trans (lower e member) order
      simp [none, ihRight stack right]
    | eq =>
      have none : keysFrom comparator start l.entries = [] :=
        keysFrom_of_below fun e member => Std.TransCmp.lt_of_lt_of_eq (lower e member) order
      have all : keysFrom comparator start r.entries = keys r.entries :=
        keysFrom_of_above fun e member => Std.TransCmp.gt_of_gt_of_eq (upper e member) order
      simp [none, all, pending]
    | gt =>
      have all : keysFrom comparator start r.entries = keys r.entries :=
        keysFrom_of_above fun e member => Std.TransCmp.gt_trans (upper e member) order
      simp [all, ihLeft _ left, pending]

theorem pendingReverse_initLoop_from (start : K) (stack : List (FLLRBNode K V))
    {n : FLLRBNode K V} (sorted : Ascending comparator n.entries) :
    pendingReverse (initLoop comparator (some start) true stack n) =
      keysDownFrom comparator start n.entries ++ pendingReverse stack := by
  induction n generalizing stack with
  | empty => rfl
  | node key value color l r ihLeft ihRight =>
    obtain ⟨left, right, below, above⟩ := ascending_append_cons.mp sorted
    have lower : ∀ e ∈ l.entries, comparator e.1 key = .lt :=
      fun e member => Std.OrientedCmp.gt_iff_lt.mp (below e member)
    have upper : ∀ e ∈ r.entries, comparator e.1 key = .gt :=
      fun e member => Std.OrientedCmp.gt_iff_lt.mpr (above e member)
    simp only [initLoop, startComparison, if_true, FLLRBNode.entries, keysDownFrom_append,
      keysDownFrom_cons]
    cases order : comparator key start with
    | lt =>
      have all : keysDownFrom comparator start l.entries = (keys l.entries).reverse :=
        keysDownFrom_of_below fun e member => Std.TransCmp.lt_trans (lower e member) order
      simp [all, ihRight _ right, pendingReverse]
    | eq =>
      have all : keysDownFrom comparator start l.entries = (keys l.entries).reverse :=
        keysDownFrom_of_below fun e member => Std.TransCmp.lt_of_lt_of_eq (lower e member) order
      have none : keysDownFrom comparator start r.entries = [] :=
        keysDownFrom_of_above fun e member => Std.TransCmp.gt_of_gt_of_eq (upper e member) order
      simp [all, none, pendingReverse]
    | gt =>
      have none : keysDownFrom comparator start r.entries = [] :=
        keysDownFrom_of_above fun e member => Std.TransCmp.gt_trans (upper e member) order
      simp [none, ihLeft stack left]

end Start

end WatchAndSee.Guarantees
