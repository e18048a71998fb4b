import WatchAndSee.Library.SortedListing
import WatchAndSee.Source.FLLRBValueNode

/-!
# Balance of the tree

The shape that `check` tests, as a predicate with the black depth as its index:
a red node has black children, a right child is black, and every path down
passes as many black nodes. `fixUp` receives nodes that miss it by one rotation
or one color flip; insertion hands a red node with a red left child to the
parent, which repairs it.
-/

set_option autoImplicit false

namespace WatchAndSee.Guarantees
open Source
open Source.FLLRBNode

universe u v

variable {K : Type u} {V : Type v}

inductive Balanced : FLLRBNode K V → Nat → Prop where
  | empty : Balanced .empty 0
  | black {l r : FLLRBNode K V} {h : Nat} {k : K} {v : V} (left : Balanced l h)
      (right : Balanced r h) (rightBlack : r.isRed = false) : Balanced (.node k v .black l r) (h + 1)
  | red {l r : FLLRBNode K V} {h : Nat} {k : K} {v : V} (left : Balanced l h)
      (right : Balanced r h) (leftBlack : l.isRed = false) (rightBlack : r.isRed = false) :
      Balanced (.node k v .red l r) h

/-- A red node whose left child is red: what an insertion below a red node may
leave, and nothing else in the tree is out of shape. -/
inductive RedPair : FLLRBNode K V → Nat → Prop where
  | pair {l r : FLLRBNode K V} {h : Nat} {k : K} {v : V} (left : Balanced l h)
      (right : Balanced r h) (leftRed : l.isRed = true) (rightBlack : r.isRed = false) :
      RedPair (.node k v .red l r) h

/-- What the root becomes after `copyWith … BLACK`. -/
def blackened (n : FLLRBNode K V) : FLLRBNode K V :=
  n.copyWith none none (some .black) none none

@[simp] theorem isRed_red (k : K) (v : V) (l r : FLLRBNode K V) :
    (FLLRBNode.node k v .red l r).isRed = true := rfl

@[simp] theorem isRed_black (k : K) (v : V) (l r : FLLRBNode K V) :
    (FLLRBNode.node k v .black l r).isRed = false := rfl

@[simp] theorem left_node (k : K) (v : V) (c : FLLRBColor) (l r : FLLRBNode K V) :
    (FLLRBNode.node k v c l r).left = l := rfl

@[simp] theorem right_node (k : K) (v : V) (c : FLLRBColor) (l r : FLLRBNode K V) :
    (FLLRBNode.node k v c l r).right = r := rfl

theorem Balanced.of_red {n : FLLRBNode K V} {h : Nat} (balanced : Balanced n h)
    (red : n.isRed = true) :
    ∃ k v l r, n = .node k v .red l r ∧ Balanced l h ∧ Balanced r h ∧
      l.isRed = false ∧ r.isRed = false := by
  cases balanced with
  | empty => simp at red
  | black => simp at red
  | red left right leftBlack rightBlack =>
    exact ⟨_, _, _, _, rfl, left, right, leftBlack, rightBlack⟩

theorem Balanced.of_black {n : FLLRBNode K V} {h : Nat} (balanced : Balanced n (h + 1))
    (black : n.isRed = false) :
    ∃ k v l r, n = .node k v .black l r ∧ Balanced l h ∧ Balanced r h ∧ r.isRed = false := by
  cases balanced with
  | black left right rightBlack => exact ⟨_, _, _, _, rfl, left, right, rightBlack⟩
  | red => simp at black

theorem Balanced.of_zero {n : FLLRBNode K V} (balanced : Balanced n 0)
    (black : n.isRed = false) : n = .empty := by
  cases balanced with
  | empty => rfl
  | red => simp at black

/-! ## The check -/

theorem check_node (k : K) (v : V) (c : FLLRBColor) (l r : FLLRBNode K V) (h : Nat) :
    (FLLRBNode.node k v c l r).check = .ok h ↔
      ¬ (c = .red ∧ l.isRed = true) ∧ r.isRed = false ∧
        ∃ d, l.check = .ok d ∧ r.check = .ok d ∧ d + (if c = .red then 0 else 1) = h := by
  rw [check]
  by_cases redRed : c = .red ∧ l.isRed = true
  · simp [redRed]
  · cases rightRed : r.isRed with
    | true => simp [redRed]
    | false =>
      cases leftDepth : l.check with
      | error e => simp [redRed, bind, Except.bind]
      | ok d =>
        cases rightDepth : r.check with
        | error e => simp [redRed, bind, Except.bind]
        | ok d' =>
          by_cases same : d = d'
          · subst same
            simp [redRed, bind, Except.bind]
          · have other : d' ≠ d := fun equal => same equal.symm
            simp [redRed, same, other, bind, Except.bind]

/-- `check` returns the black depth exactly on the balanced trees. -/
theorem check_eq_ok_iff (n : FLLRBNode K V) (h : Nat) : n.check = .ok h ↔ Balanced n h := by
  induction n generalizing h with
  | empty =>
    constructor
    · intro checked
      simp only [check, Except.ok.injEq] at checked
      subst checked
      exact .empty
    · intro balanced
      cases balanced
      rfl
  | node k v c l r ihLeft ihRight =>
    rw [check_node]
    constructor
    · rintro ⟨pair, rightBlack, d, left, right, rfl⟩
      have leftBalanced := (ihLeft d).mp left
      have rightBalanced := (ihRight d).mp right
      cases c with
      | red => exact .red leftBalanced rightBalanced (by simpa using pair) rightBlack
      | black => exact .black leftBalanced rightBalanced rightBlack
    · intro balanced
      cases balanced with
      | black left right rightBlack =>
        exact ⟨by simp, rightBlack, _, (ihLeft _).mpr left, (ihRight _).mpr right, rfl⟩
      | red left right leftBlack rightBlack =>
        exact ⟨by simp [leftBlack], rightBlack, _, (ihLeft _).mpr left, (ihRight _).mpr right, rfl⟩

/-- A black depth of `h` takes `2 ^ h - 1` nodes. -/
theorem Balanced.two_pow_le {n : FLLRBNode K V} {h : Nat} (balanced : Balanced n h) :
    2 ^ h ≤ n.count + 1 := by
  induction balanced with
  | empty => exact Nat.le_refl _
  | black _ _ _ ihLeft ihRight =>
    simp only [count, Nat.pow_succ]
    omega
  | red _ _ _ _ ihLeft ihRight =>
    simp only [count]
    omega

/-- No tree that passes `check` fails `checkMaxDepth`. -/
theorem Balanced.checkMaxDepth {n : FLLRBNode K V} {h : Nat} (balanced : Balanced n h) :
    n.checkMaxDepth = .ok true := by
  rw [FLLRBNode.checkMaxDepth, (check_eq_ok_iff n h).mpr balanced]
  have deep := balanced.two_pow_le
  simp [deep, bind, Except.bind, pure, Except.pure]

/-! ## What `fixUp` repairs -/

section FixUp

variable {k lk rk : K} {v lv rv : V} {c : FLLRBColor} {l r ll lr rl rr : FLLRBNode K V} {h : Nat}

theorem fixUp_unchanged (rightBlack : r.isRed = false)
    (noPair : l.isRed = false ∨ l.left.isRed = false) :
    (FLLRBNode.node k v c l r).fixUp = .node k v c l r := by
  rcases noPair with black | black <;> simp [fixUp, rightBlack, black]

theorem fixUp_rotates (leftBlack : l.isRed = false) (rightBlack : rr.isRed = false) :
    (FLLRBNode.node k v c l (.node rk rv .red rl rr)).fixUp =
      .node rk rv c (.node k v .red l rl) rr := by
  simp [fixUp, rotateLeft, copyWith, leftBlack, rightBlack, FLLRBNode.color]

theorem fixUp_flips (leftBlack : ll.isRed = false) :
    (FLLRBNode.node k v c (.node lk lv .red ll lr) (.node rk rv .red rl rr)).fixUp =
      .node k v c.flipped (.node lk lv .black ll lr) (.node rk rv .black rl rr) := by
  simp [fixUp, colorFlip, copyWith, leftBlack, FLLRBNode.color, FLLRBColor.flipped]

theorem fixUp_lifts {ak : K} {av : V} {al ar : FLLRBNode K V} (rightBlack : r.isRed = false) :
    (FLLRBNode.node k v c (.node lk lv .red (.node ak av .red al ar) lr) r).fixUp =
      .node lk lv c.flipped (.node ak av .black al ar) (.node k v .black lr r) := by
  simp [fixUp, rotateRight, colorFlip, copyWith, rightBlack, FLLRBNode.color, FLLRBColor.flipped]

theorem Balanced.left_left_black (balanced : Balanced l h) :
    l.isRed = false ∨ l.left.isRed = false := by
  cases balanced with
  | empty => exact .inl rfl
  | black => exact .inl rfl
  | red _ _ leftBlack _ => exact .inr leftBlack

/-- A black node over balanced subtrees of any color. -/
theorem fixUp_black (left : Balanced l h) (right : Balanced r h) :
    Balanced (FLLRBNode.node k v .black l r).fixUp (h + 1) ∧
      (l.isRed = false ∨ r.isRed = false → (FLLRBNode.node k v .black l r).fixUp.isRed = false) := by
  cases rightRed : r.isRed with
  | false =>
    rw [fixUp_unchanged rightRed left.left_left_black]
    exact ⟨.black left right rightRed, fun _ => rfl⟩
  | true =>
    obtain ⟨rk, rv, rl, rr, rfl, rightLeft, rightRight, rlBlack, rrBlack⟩ := right.of_red rightRed
    cases leftRed : l.isRed with
    | false =>
      rw [fixUp_rotates leftRed rrBlack]
      exact ⟨.black (.red left rightLeft leftRed rlBlack) rightRight rrBlack, fun _ => rfl⟩
    | true =>
      obtain ⟨lk, lv, ll, lr, rfl, leftLeft, leftRight, llBlack, lrBlack⟩ := left.of_red leftRed
      rw [fixUp_flips llBlack]
      exact ⟨.red (.black leftLeft leftRight lrBlack) (.black rightLeft rightRight rrBlack) rfl rfl,
        by simp⟩

/-- A black node over a red pair. -/
theorem fixUp_black_pair (left : RedPair l h) (right : Balanced r h) (rightBlack : r.isRed = false) :
    Balanced (FLLRBNode.node k v .black l r).fixUp (h + 1) := by
  cases left with
  | pair inner outer innerRed outerBlack =>
    obtain ⟨ak, av, al, ar, rfl, innerLeft, innerRight, _, arBlack⟩ := inner.of_red innerRed
    rw [fixUp_lifts rightBlack]
    exact .red (.black innerLeft innerRight arBlack) (.black outer right rightBlack) rfl rfl

/-- A red node that was balanced before one of its subtrees changed. -/
theorem fixUp_red (left : Balanced l h) (right : Balanced r h)
    (single : l.isRed = false ∨ r.isRed = false) :
    Balanced (FLLRBNode.node k v .red l r).fixUp h ∨
      RedPair (FLLRBNode.node k v .red l r).fixUp h := by
  cases rightRed : r.isRed with
  | false =>
    rw [fixUp_unchanged rightRed left.left_left_black]
    cases leftRed : l.isRed with
    | false => exact .inl (.red left right leftRed rightRed)
    | true => exact .inr (.pair left right leftRed rightRed)
  | true =>
    have leftBlack : l.isRed = false := by simpa [rightRed] using single
    obtain ⟨rk, rv, rl, rr, rfl, rightLeft, rightRight, rlBlack, rrBlack⟩ := right.of_red rightRed
    rw [fixUp_rotates leftBlack rrBlack]
    exact .inr (.pair (.red left rightLeft leftBlack rlBlack) rightRight rfl rrBlack)

theorem Balanced.fixUp_eq {n : FLLRBNode K V} (balanced : Balanced n h) : n.fixUp = n := by
  cases balanced with
  | empty => rfl
  | black left _ rightBlack => exact fixUp_unchanged rightBlack left.left_left_black
  | red _ _ leftBlack rightBlack => exact fixUp_unchanged rightBlack (.inl leftBlack)

theorem Balanced.fixUp {n : FLLRBNode K V} (balanced : Balanced n h) : Balanced n.fixUp h := by
  rw [balanced.fixUp_eq]
  exact balanced

end FixUp

theorem Balanced.blackened {n : FLLRBNode K V} {h : Nat} (balanced : Balanced n h) :
    ∃ d, Balanced (blackened n) d := by
  cases balanced with
  | empty => exact ⟨0, .empty⟩
  | black left right rightBlack => exact ⟨_, .black left right rightBlack⟩
  | red left right _ rightBlack => exact ⟨_, .black left right rightBlack⟩

theorem RedPair.blackened {n : FLLRBNode K V} {h : Nat} (pair : RedPair n h) :
    Balanced (blackened n) (h + 1) := by
  cases pair with
  | pair left right _ rightBlack => exact .black left right rightBlack

/-- A red root over at least one red child, once repaired and blackened. -/
theorem fixUp_red_root {k : K} {v : V} {l r : FLLRBNode K V} {h : Nat} (left : Balanced l h)
    (right : Balanced r h) (oneRed : l.isRed = true ∨ r.isRed = true) :
    ∃ d, Balanced (Guarantees.blackened (FLLRBNode.node k v .red l r).fixUp) d := by
  cases leftRed : l.isRed with
  | false =>
    rcases fixUp_red (k := k) (v := v) left right (.inl leftRed) with balanced | pair
    · exact balanced.blackened
    · exact ⟨_, pair.blackened⟩
  | true =>
    cases rightRed : r.isRed with
    | false =>
      rcases fixUp_red (k := k) (v := v) left right (.inr rightRed) with balanced | pair
      · exact balanced.blackened
      · exact ⟨_, pair.blackened⟩
    | true =>
      obtain ⟨lk, lv, ll, lr, rfl, leftLeft, leftRight, llBlack, lrBlack⟩ := left.of_red leftRed
      obtain ⟨rk, rv, rl, rr, rfl, rightLeft, rightRight, _, rrBlack⟩ := right.of_red rightRed
      rw [fixUp_flips llBlack]
      exact ⟨_, .black (.black leftLeft leftRight lrBlack) (.black rightLeft rightRight rrBlack) rfl⟩

theorem blackened_isRed (n : FLLRBNode K V) : (blackened n).isRed = false := by
  cases n <;> rfl

@[simp] theorem entries_blackened (n : FLLRBNode K V) : (blackened n).entries = n.entries :=
  entries_recolor _ n

/-! ## Insertion -/

section Insertion

variable (comparator : K → K → Ordering) (k : K) (v : V)

/-- One call: only a red node may come back as a red pair. -/
theorem insertKey_shape {n : FLLRBNode K V} {h : Nat} (balanced : Balanced n h) :
    Balanced (n.insertKey comparator k v) h ∨
      (n.isRed = true ∧ RedPair (n.insertKey comparator k v) h) := by
  induction balanced with
  | empty => exact .inl (.red .empty .empty rfl rfl)
  | black left right rightBlack ihLeft ihRight =>
    left
    simp only [insertKey]
    split
    · rcases ihLeft with inside | ⟨_, pair⟩
      · exact (fixUp_black inside right).1
      · exact fixUp_black_pair pair right rightBlack
    · exact (fixUp_black left right).1
    · rcases ihRight with inside | ⟨red, _⟩
      · exact (fixUp_black left inside).1
      · rw [rightBlack] at red
        cases red
  | red left right leftBlack rightBlack ihLeft ihRight =>
    have shape : ∀ {n : FLLRBNode K V} {h : Nat}, Balanced n h ∨ RedPair n h →
        Balanced n h ∨ (true = true ∧ RedPair n h) := fun either => either.imp_right (⟨rfl, ·⟩)
    simp only [insertKey]
    apply shape
    split
    · rcases ihLeft with inside | ⟨red, _⟩
      · exact fixUp_red inside right (.inr rightBlack)
      · rw [leftBlack] at red
        cases red
    · exact fixUp_red left right (.inl leftBlack)
    · rcases ihRight with inside | ⟨red, _⟩
      · exact fixUp_red left inside (.inl leftBlack)
      · rw [rightBlack] at red
        cases red

/-- The root after an insertion. -/
theorem insertKey_balanced {n : FLLRBNode K V} {h : Nat} (balanced : Balanced n h) :
    ∃ d, Balanced (blackened (n.insertKey comparator k v)) d := by
  rcases insertKey_shape comparator k v balanced with inside | ⟨_, pair⟩
  · exact inside.blackened
  · exact ⟨_, pair.blackened⟩

end Insertion

end WatchAndSee.Guarantees
