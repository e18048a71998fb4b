import Mathlib.Algebra.Ring.Nat
import Mathlib.Data.Nat.Basic
import Mathlib.Tactic.Common

/-!
# FImmutableSortedDictionary/FLLRBValueNode.m and FLLRBEmptyNode.m

The left-leaning red-black tree under the children of a large database node.
The attributes of the empty node are `nil`; a message to `nil` answers as the
empty node answers the same message, so the subtrees of the empty node are
written as empty nodes. Removal rebalances on the way down, hence it recurses
into a tree that is smaller than the receiver but not a subtree of it.
-/

set_option autoImplicit false

namespace WatchAndSee.Source

universe u v w

/-- `RED` is `@true`, `BLACK` is `@false`. -/
inductive FLLRBColor where
  | red | black
  deriving DecidableEq, Repr

def FLLRBColor.flipped : FLLRBColor → FLLRBColor
  | .red => .black
  | .black => .red

@[simp] theorem flipped_flipped (color : FLLRBColor) : color.flipped.flipped = color := by
  cases color <;> rfl

inductive FLLRBNode (K : Type u) (V : Type v) where
  | empty
  | node (key : K) (value : V) (color : FLLRBColor) (left right : FLLRBNode K V)
  deriving DecidableEq, Repr

/-- What `check` throws. -/
inductive CheckException where
  | redNodeHasARedChild | rightChildIsRed | blackDepth
  deriving DecidableEq, Repr

namespace FLLRBNode

variable {K : Type u} {V : Type v}

def key : FLLRBNode K V → Option K
  | empty => none
  | node key _ _ _ _ => some key

def value : FLLRBNode K V → Option V
  | empty => none
  | node _ value _ _ _ => some value

/-- `nil` has no color and counts as black. -/
def color : FLLRBNode K V → FLLRBColor
  | empty => .black
  | node _ _ color _ _ => color

def left : FLLRBNode K V → FLLRBNode K V
  | empty => empty
  | node _ _ _ left _ => left

def right : FLLRBNode K V → FLLRBNode K V
  | empty => empty
  | node _ _ _ _ right => right

def isRed (n : FLLRBNode K V) : Bool := n.color = .red

def isEmpty : FLLRBNode K V → Bool
  | empty => true
  | node .. => false

def count : FLLRBNode K V → Nat
  | empty => 0
  | node _ _ _ left right => left.count + 1 + right.count

/-- `nil` keeps the attribute of the receiver. -/
def copyWith (aKey : Option K) (aValue : Option V) (aColor : Option FLLRBColor)
    (aLeft aRight : Option (FLLRBNode K V)) : FLLRBNode K V → FLLRBNode K V
  | empty => empty
  | node key value color left right =>
    node (aKey.getD key) (aValue.getD value) (aColor.getD color) (aLeft.getD left)
      (aRight.getD right)

/-- `action` reads and writes the variables `s` that its block captures. -/
def inorderTraversal {S : Type w} (action : K → V → S → Bool × S) :
    FLLRBNode K V → S → Bool × S
  | empty, s => (false, s)
  | node key value _ left right, s =>
    let before := inorderTraversal action left s
    if before.1 then before
    else
      let here := action key value before.2
      if here.1 then here else inorderTraversal action right here.2

def reverseTraversal {S : Type w} (action : K → V → S → Bool × S) :
    FLLRBNode K V → S → Bool × S
  | empty, s => (false, s)
  | node key value _ left right, s =>
    let before := reverseTraversal action right s
    if before.1 then before
    else
      let here := action key value before.2
      if here.1 then here else reverseTraversal action left here.2

def min : FLLRBNode K V → FLLRBNode K V
  | empty => empty
  | node key value color left right =>
    if left.isEmpty then node key value color left right else left.min

def minKey (n : FLLRBNode K V) : Option K := n.min.key

def maxKey : FLLRBNode K V → Option K
  | empty => none
  | node key _ _ _ right => if right.isEmpty then some key else right.maxKey

def rotateLeft (n : FLLRBNode K V) : FLLRBNode K V :=
  let nl := n.copyWith none none (some .red) none (some n.right.left)
  n.right.copyWith none none (some n.color) (some nl) none

def rotateRight (n : FLLRBNode K V) : FLLRBNode K V :=
  let nr := n.copyWith none none (some .red) (some n.left.right) none
  n.left.copyWith none none (some n.color) none (some nr)

def colorFlip (n : FLLRBNode K V) : FLLRBNode K V :=
  let nleft := n.left.copyWith none none (some n.left.color.flipped) none none
  let nright := n.right.copyWith none none (some n.right.color.flipped) none none
  n.copyWith none none (some n.color.flipped) (some nleft) (some nright)

def fixUp (n : FLLRBNode K V) : FLLRBNode K V :=
  let n := if n.right.isRed && !n.left.isRed then n.rotateLeft else n
  let n := if n.left.isRed && n.left.left.isRed then n.rotateRight else n
  if n.left.isRed && n.right.isRed then n.colorFlip else n

def insertKey (comparator : K → K → Ordering) (aKey : K) (aValue : V) :
    FLLRBNode K V → FLLRBNode K V
  | empty => node aKey aValue .red empty empty
  | node key value color left right =>
    let n := node key value color left right
    let n :=
      match comparator aKey key with
      | .lt => n.copyWith none none none (some (left.insertKey comparator aKey aValue)) none
      | .eq => n.copyWith none (some aValue) none none none
      | .gt => n.copyWith none none none none (some (right.insertKey comparator aKey aValue))
    n.fixUp

def moveRedLeft (n : FLLRBNode K V) : FLLRBNode K V :=
  let n := n.colorFlip
  if n.right.left.isRed then
    let n := n.copyWith none none none none (some n.right.rotateRight)
    n.rotateLeft.colorFlip
  else n

def moveRedRight (n : FLLRBNode K V) : FLLRBNode K V :=
  let n := n.colorFlip
  if n.left.left.isRed then n.rotateRight.colorFlip else n

/-! ## The entries of a tree -/

/-- In the order of the traversal. -/
def entries : FLLRBNode K V → List (K × V)
  | empty => []
  | node key value _ left right => left.entries ++ (key, value) :: right.entries

theorem count_eq_length (n : FLLRBNode K V) : n.count = n.entries.length := by
  induction n with
  | empty => rfl
  | node key value color left right ihLeft ihRight =>
    simp only [count, entries, List.length_append, List.length_cons, ihLeft, ihRight]
    omega

theorem eq_empty_iff (n : FLLRBNode K V) : n.isEmpty = true ↔ n = empty := by
  cases n <;> simp [isEmpty]

@[simp] theorem isRed_empty : (empty : FLLRBNode K V).isRed = false := rfl

theorem count_left_lt {n : FLLRBNode K V} (nonempty : n.isEmpty = false) :
    n.left.count < n.count := by
  cases n with
  | empty => simp [isEmpty] at nonempty
  | node => simp only [left, count]; omega

theorem count_right_lt {n : FLLRBNode K V} (nonempty : n.isEmpty = false) :
    n.right.count < n.count := by
  cases n with
  | empty => simp [isEmpty] at nonempty
  | node => simp only [right, count]; omega

/-- Colors do not show in the entries. -/
theorem entries_recolor (color : Option FLLRBColor) (n : FLLRBNode K V) :
    (n.copyWith none none color none none).entries = n.entries := by
  cases n <;> rfl

theorem entries_rotateLeft {n : FLLRBNode K V} (red : n.right.isRed = true) :
    n.rotateLeft.entries = n.entries := by
  cases n with
  | empty => simp [right] at red
  | node key value color l r =>
    cases r with
    | empty => simp [right] at red
    | node => simp [rotateLeft, copyWith, left, right, entries]

theorem entries_rotateRight {n : FLLRBNode K V} (red : n.left.isRed = true) :
    n.rotateRight.entries = n.entries := by
  cases n with
  | empty => simp [left] at red
  | node key value color l r =>
    cases l with
    | empty => simp [left] at red
    | node => simp [rotateRight, copyWith, left, right, entries]

@[simp] theorem entries_colorFlip (n : FLLRBNode K V) : n.colorFlip.entries = n.entries := by
  cases n with
  | empty => rfl
  | node key value color l r => cases l <;> cases r <;> rfl

theorem entries_ite {condition : Bool} {moved n : FLLRBNode K V}
    (same : condition = true → moved.entries = n.entries) :
    (if condition then moved else n).entries = n.entries := by
  split
  · next holds => exact same holds
  · rfl

@[simp] theorem entries_fixUp (n : FLLRBNode K V) : n.fixUp.entries = n.entries := by
  unfold fixUp
  refine (entries_ite fun _ => entries_colorFlip _).trans ?_
  refine (entries_ite fun red => entries_rotateRight ?_).trans ?_
  · exact (Bool.and_eq_true_iff.mp red).1
  · exact entries_ite fun red => entries_rotateLeft (Bool.and_eq_true_iff.mp red).1

@[simp] theorem entries_moveRedLeft (n : FLLRBNode K V) : n.moveRedLeft.entries = n.entries := by
  rw [← entries_colorFlip n]
  unfold moveRedLeft
  generalize n.colorFlip = m
  simp only
  split
  · next red =>
    cases m with
    | empty => simp [right, left] at red
    | node key value color l r =>
      cases r with
      | empty => simp [right, left] at red
      | node key' value' color' l' r' =>
        cases l' with
        | empty => simp [right, left] at red
        | node => simp [rotateLeft, rotateRight, copyWith, left, right, entries]
  · rfl

@[simp] theorem entries_moveRedRight (n : FLLRBNode K V) : n.moveRedRight.entries = n.entries := by
  rw [← entries_colorFlip n]
  unfold moveRedRight
  generalize n.colorFlip = m
  simp only
  split
  · next red =>
    rw [entries_colorFlip]
    cases m with
    | empty => simp [left] at red
    | node key value color l r =>
      cases l with
      | empty => simp [left] at red
      | node => simp [rotateRight, copyWith, left, right, entries]
  · rfl

theorem isEmpty_eq_of_entries {n m : FLLRBNode K V} (same : n.entries = m.entries) :
    n.isEmpty = m.isEmpty := by
  cases n <;> cases m <;> simp [entries, isEmpty] at same ⊢

theorem count_eq_of_entries {n m : FLLRBNode K V} (same : n.entries = m.entries) :
    n.count = m.count := by
  rw [count_eq_length, count_eq_length, same]

/-! ## Removal -/

/-- The left subtree after a move that keeps the entries. -/
theorem count_left_lt_of_entries {n m : FLLRBNode K V} (same : m.entries = n.entries)
    (nonempty : n.isEmpty = false) : m.left.count < n.count := by
  rw [← count_eq_of_entries same]
  exact count_left_lt (by rw [isEmpty_eq_of_entries same, nonempty])

theorem count_right_lt_of_entries {n m : FLLRBNode K V} (same : m.entries = n.entries)
    (nonempty : n.isEmpty = false) : m.right.count < n.count := by
  rw [← count_eq_of_entries same]
  exact count_right_lt (by rw [isEmpty_eq_of_entries same, nonempty])

/-- The move before `removeMin` goes left. -/
def removeMinMove (n : FLLRBNode K V) : FLLRBNode K V :=
  if !n.left.isRed && !n.left.left.isRed then n.moveRedLeft else n

/-- The move before `remove:` goes left. -/
def removeLeftMove (n : FLLRBNode K V) : FLLRBNode K V :=
  if !n.left.isEmpty && !n.left.isRed && !n.left.left.isRed then n.moveRedLeft else n

/-- The moves before `remove:` compares the second time. -/
def removeRightMove (n : FLLRBNode K V) : FLLRBNode K V :=
  let n := if n.left.isRed then n.rotateRight else n
  if !n.right.isEmpty && !n.right.isRed && !n.right.left.isRed then n.moveRedRight else n

@[simp] theorem entries_removeMinMove (n : FLLRBNode K V) :
    n.removeMinMove.entries = n.entries := entries_ite fun _ => entries_moveRedLeft n

@[simp] theorem entries_removeLeftMove (n : FLLRBNode K V) :
    n.removeLeftMove.entries = n.entries := entries_ite fun _ => entries_moveRedLeft n

@[simp] theorem entries_removeRightMove (n : FLLRBNode K V) :
    n.removeRightMove.entries = n.entries := by
  unfold removeRightMove
  refine (entries_ite fun _ => entries_moveRedRight _).trans ?_
  exact entries_ite fun red => entries_rotateRight red

def removeMin (n : FLLRBNode K V) : FLLRBNode K V :=
  if n.left.isEmpty then empty
  else
    let m := n.removeMinMove
    (m.copyWith none none none (some m.left.removeMin) none).fixUp
termination_by n.count
decreasing_by
  next notEmpty =>
  refine count_left_lt_of_entries (entries_removeMinMove n) ?_
  cases n with
  | empty => exact absurd rfl notEmpty
  | node => rfl

theorem count_removeMin_le (n : FLLRBNode K V) : n.removeMin.count ≤ n.count := by
  induction n using removeMin.induct with
  | case1 n isEmpty =>
    rw [removeMin, if_pos isEmpty]
    exact Nat.zero_le _
  | case2 n notEmpty m ih =>
    rw [removeMin, if_neg notEmpty]
    have whole : m.count = n.count := count_eq_of_entries (entries_removeMinMove n)
    change (fixUp (m.copyWith none none none (some m.left.removeMin) none)).count ≤ n.count
    rw [count_eq_of_entries (entries_fixUp _), ← whole]
    cases split : m with
    | empty => exact Nat.le_refl _
    | node =>
      rw [split] at ih
      simp only [copyWith, Option.getD, count, left] at ih ⊢
      omega

/-- `n` with the smallest entry of its right subtree in place of its own. -/
def replacedBySmallest (n : FLLRBNode K V) : FLLRBNode K V :=
  let smallest := n.right.min
  n.copyWith smallest.key smallest.value none none (some n.right.removeMin)

theorem count_right_replacedBySmallest_le (n : FLLRBNode K V) :
    n.replacedBySmallest.right.count ≤ n.right.count := by
  cases n with
  | empty => exact Nat.le_refl _
  | node key value color l r => exact count_removeMin_le r

theorem isEmpty_of_key {n : FLLRBNode K V} {key : K} (found : n.key = some key) :
    n.isEmpty = false := by
  cases n with
  | empty => simp [FLLRBNode.key] at found
  | node => rfl

def remove (comparator : K → K → Ordering) (aKey : K) (n : FLLRBNode K V) : FLLRBNode K V :=
  match _found : n.key with
  | none => empty
  | some key =>
    if comparator aKey key = .lt then
      let m := n.removeLeftMove
      (m.copyWith none none none (some (m.left.remove comparator aKey)) none).fixUp
    else
      let m := n.removeRightMove
      if m.key.map (comparator aKey) = some .eq then
        if m.right.isEmpty then empty
        else
          let m := m.replacedBySmallest
          (m.copyWith none none none none (some (m.right.remove comparator aKey))).fixUp
      else (m.copyWith none none none none (some (m.right.remove comparator aKey))).fixUp
termination_by n.count
decreasing_by
  · exact count_left_lt_of_entries (entries_removeLeftMove n) (isEmpty_of_key _found)
  · have smaller := count_right_lt_of_entries (entries_removeRightMove n) (isEmpty_of_key _found)
    exact Nat.lt_of_le_of_lt (count_right_replacedBySmallest_le n.removeRightMove) smaller
  · exact count_right_lt_of_entries (entries_removeRightMove n) (isEmpty_of_key _found)

/-- `remove:` on the empty node. -/
@[simp] theorem remove_empty (comparator : K → K → Ordering) (aKey : K) :
    (empty : FLLRBNode K V).remove comparator aKey = empty := by
  rw [remove]
  rfl

section Branches

variable {comparator : K → K → Ordering} {aKey key : K} {n : FLLRBNode K V}

/-- `remove:` below the key of the receiver. -/
theorem remove_of_lt (found : n.key = some key) (less : comparator aKey key = .lt) :
    n.remove comparator aKey =
      (n.removeLeftMove.copyWith none none none
        (some (n.removeLeftMove.left.remove comparator aKey)) none).fixUp := by
  rw [remove]
  split
  · next none => rw [found] at none; cases none
  · next other same =>
    rw [found, Option.some.injEq] at same
    subst same
    rw [if_pos less]

/-- The second comparison misses. -/
theorem remove_of_miss (found : n.key = some key) (notLess : comparator aKey key ≠ .lt)
    (miss : n.removeRightMove.key.map (comparator aKey) ≠ some .eq) :
    n.remove comparator aKey =
      (n.removeRightMove.copyWith none none none none
        (some (n.removeRightMove.right.remove comparator aKey))).fixUp := by
  rw [remove]
  split
  · next none => rw [found] at none; cases none
  · next other same =>
    rw [found, Option.some.injEq] at same
    subst same
    rw [if_neg notLess]
    exact if_neg miss

theorem remove_of_hit (found : n.key = some key) (notLess : comparator aKey key ≠ .lt)
    (hit : n.removeRightMove.key.map (comparator aKey) = some .eq) :
    n.remove comparator aKey =
      if n.removeRightMove.right.isEmpty then empty
      else
        (n.removeRightMove.replacedBySmallest.copyWith none none none none
          (some (n.removeRightMove.replacedBySmallest.right.remove comparator aKey))).fixUp := by
  rw [remove]
  split
  · next none => rw [found] at none; cases none
  · next other same =>
    rw [found, Option.some.injEq] at same
    subst same
    rw [if_neg notLess]
    exact if_pos hit

end Branches

def check : FLLRBNode K V → Except CheckException Nat
  | empty => .ok 0
  | node _ _ color left right =>
    if color = .red ∧ left.isRed then .error .redNodeHasARedChild
    else if right.isRed then .error .rightChildIsRed
    else do
      let blackDepth ← left.check
      let rightDepth ← right.check
      if blackDepth = rightDepth then .ok (blackDepth + if color = .red then 0 else 1)
      else .error .blackDepth

def checkMaxDepth (n : FLLRBNode K V) : Except CheckException Bool := do
  let blackDepth ← n.check
  return decide (2 ^ blackDepth ≤ n.count + 1)

end FLLRBNode

end WatchAndSee.Source
