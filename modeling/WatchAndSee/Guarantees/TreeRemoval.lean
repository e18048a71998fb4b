import WatchAndSee.Guarantees.TreeBalance

/-!
# Removal from the tree

On the way down `remove:` and `removeMin` never enter a subtree that has no red
node on top: the receiver is red, or its left child is, or a color flip has just
left it with a red right child. From each of these the result keeps its black
depth and a black receiver stays black, so `fixUp` has at most one side to
repair. The root may start without a red node, and the search for the replaced
key below its successor may too; both are treated on their own.
-/

set_option autoImplicit false

namespace WatchAndSee.Guarantees
open Source
open Source.FLLRBNode
open Library.SortedListing

universe u v

variable {K : Type u} {V : Type v}

/-! ## The moves -/

section Moves

variable {k lk rk bk : K} {v lv rv bv : V} {c : FLLRBColor} {l r ll lr rl rr a b : FLLRBNode K V}

theorem moveRedLeft_flips (black : rl.isRed = false) :
    (node k v c (node lk lv .black ll lr) (node rk rv .black rl rr)).moveRedLeft =
      node k v c.flipped (node lk lv .red ll lr) (node rk rv .red rl rr) := by
  simp [moveRedLeft, colorFlip, copyWith, black, FLLRBNode.color, FLLRBColor.flipped]

/-- The left child takes a key from the right child. -/
theorem moveRedLeft_borrows :
    (node k v c (node lk lv .black ll lr)
        (node rk rv .black (node bk bv .red a b) rr)).moveRedLeft =
      node bk bv c (node k v .black (node lk lv .red ll lr) a) (node rk rv .black b rr) := by
  cases c <;>
    simp [moveRedLeft, colorFlip, rotateRight, rotateLeft, copyWith, FLLRBNode.color,
      FLLRBColor.flipped]

theorem moveRedRight_flips (black : ll.isRed = false) :
    (node k v c (node lk lv .black ll lr) (node rk rv .black rl rr)).moveRedRight =
      node k v c.flipped (node lk lv .red ll lr) (node rk rv .red rl rr) := by
  simp [moveRedRight, colorFlip, copyWith, black, FLLRBNode.color, FLLRBColor.flipped]

/-- The right child takes a key from the left child and is left with a red right child. -/
theorem moveRedRight_borrows :
    (node k v c (node lk lv .black (node bk bv .red a b) lr)
        (node rk rv .black rl rr)).moveRedRight =
      node lk lv c (node bk bv .black a b) (node k v .black lr (node rk rv .red rl rr)) := by
  cases c <;>
    simp [moveRedRight, colorFlip, rotateRight, copyWith, FLLRBNode.color, FLLRBColor.flipped]

theorem rotateRight_red :
    (node k v c (node lk lv .red ll lr) r).rotateRight =
      node lk lv c ll (node k v .red lr r) := by
  simp [rotateRight, copyWith, FLLRBNode.color]

end Moves

/-- A balanced tree with a red node on top: the receivers of `removeMin`. -/
inductive RedTop : FLLRBNode K V → Nat → Prop where
  | red {l r : FLLRBNode K V} {h : Nat} {k : K} {v : V} (left : Balanced l h)
      (right : Balanced r h) (leftBlack : l.isRed = false) (rightBlack : r.isRed = false) :
      RedTop (node k v .red l r) h
  | leftRed {l r : FLLRBNode K V} {h : Nat} {k : K} {v : V} (left : Balanced l h)
      (right : Balanced r h) (leftRed : l.isRed = true) (rightBlack : r.isRed = false) :
      RedTop (node k v .black l r) (h + 1)

theorem RedTop.of_red {n : FLLRBNode K V} {h : Nat} (balanced : Balanced n h)
    (red : n.isRed = true) : RedTop n h := by
  obtain ⟨k, v, l, r, rfl, left, right, leftBlack, rightBlack⟩ := balanced.of_red red
  exact .red left right leftBlack rightBlack

theorem RedTop.of_left {n : FLLRBNode K V} {h : Nat} (balanced : Balanced n h)
    (black : n.isRed = false) (leftRed : n.left.isRed = true) : RedTop n h := by
  cases balanced with
  | empty => simp [FLLRBNode.left] at leftRed
  | black left right rightBlack => exact .leftRed left right leftRed rightBlack
  | red => simp at black

theorem RedTop.balanced {n : FLLRBNode K V} {h : Nat} (top : RedTop n h) : Balanced n h := by
  cases top with
  | red left right leftBlack rightBlack => exact .red left right leftBlack rightBlack
  | leftRed left right _ rightBlack => exact .black left right rightBlack

/-- The receiver of `moveRedLeft` with children of black depth `h + 1`: either
the colors flipped, or the left child holds the old entry and one red node more. -/
inductive LeftMoved (k : K) (v : V) (c : FLLRBColor) (h : Nat) : FLLRBNode K V → Prop where
  | flipped {l r : FLLRBNode K V} (left : Balanced l h) (right : Balanced r h)
      (leftRed : l.isRed = true) (rightRed : r.isRed = true) :
      LeftMoved k v c h (node k v c.flipped l r)
  | borrowed {l r : FLLRBNode K V} {mk : K} {mv : V} (left : RedTop l (h + 1))
      (right : Balanced r (h + 1)) (leftBlack : l.isRed = false) (rightBlack : r.isRed = false)
      (holds : (k, v) ∈ l.entries) : LeftMoved k v c h (node mk mv c l r)

/-- Either the colors flipped, or the right child holds the old entry and leans
to the right. -/
inductive RightMoved (k : K) (v : V) (c : FLLRBColor) (h : Nat) : FLLRBNode K V → Prop where
  | flipped {l r : FLLRBNode K V} (left : Balanced l h) (right : Balanced r h)
      (leftRed : l.isRed = true) (rightRed : r.isRed = true) :
      RightMoved k v c h (node k v c.flipped l r)
  | borrowed {l rl rr : FLLRBNode K V} {mk : K} {mv : V} (left : Balanced l (h + 1))
      (middle : Balanced rl h) (right : Balanced rr h) (leftBlack : l.isRed = false)
      (middleBlack : rl.isRed = false) (rightRed : rr.isRed = true) :
      RightMoved k v c h (node mk mv c l (node k v .black rl rr))

section Moved

variable {k : K} {v : V} {l r : FLLRBNode K V} {h : Nat}

theorem moveRedLeft_moved (c : FLLRBColor) (left : Balanced l (h + 1))
    (right : Balanced r (h + 1)) (leftBlack : l.isRed = false) (rightBlack : r.isRed = false)
    (innerBlack : l.left.isRed = false) : LeftMoved k v c h (node k v c l r).moveRedLeft := by
  obtain ⟨lk, lv, ll, lr, rfl, leftLeft, leftRight, lrBlack⟩ := left.of_black leftBlack
  obtain ⟨rk, rv, rl, rr, rfl, rightLeft, rightRight, rrBlack⟩ := right.of_black rightBlack
  cases rlRed : rl.isRed with
  | false =>
    rw [moveRedLeft_flips rlRed]
    exact .flipped (.red leftLeft leftRight innerBlack lrBlack)
      (.red rightLeft rightRight rlRed rrBlack) rfl rfl
  | true =>
    obtain ⟨bk, bv, a, b, rfl, aBalanced, bBalanced, aBlack, _⟩ := rightLeft.of_red rlRed
    rw [moveRedLeft_borrows]
    exact .borrowed (.leftRed (.red leftLeft leftRight innerBlack lrBlack) aBalanced rfl aBlack)
      (.black bBalanced rightRight rrBlack) rfl rfl (by simp [entries])

theorem moveRedRight_moved (c : FLLRBColor) (left : Balanced l (h + 1))
    (right : Balanced r (h + 1)) (leftBlack : l.isRed = false) (rightBlack : r.isRed = false)
    (innerBlack : r.left.isRed = false) : RightMoved k v c h (node k v c l r).moveRedRight := by
  obtain ⟨lk, lv, ll, lr, rfl, leftLeft, leftRight, lrBlack⟩ := left.of_black leftBlack
  obtain ⟨rk, rv, rl, rr, rfl, rightLeft, rightRight, rrBlack⟩ := right.of_black rightBlack
  have rightChild : Balanced (node rk rv .red rl rr) h :=
    .red rightLeft rightRight innerBlack rrBlack
  cases llRed : ll.isRed with
  | false =>
    rw [moveRedRight_flips llRed]
    exact .flipped (.red leftLeft leftRight llRed lrBlack) rightChild rfl rfl
  | true =>
    obtain ⟨bk, bv, a, b, rfl, aBalanced, bBalanced, _, bBlack⟩ := leftLeft.of_red llRed
    rw [moveRedRight_borrows]
    exact .borrowed (.black aBalanced bBalanced bBlack) leftRight rightChild rfl lrBlack rfl

end Moved

theorem isEmpty_of_red {n : FLLRBNode K V} (red : n.isRed = true) : n.isEmpty = false := by
  cases n with
  | empty => simp at red
  | node => rfl

theorem RedTop.isEmpty {n : FLLRBNode K V} {h : Nat} (top : RedTop n h) : n.isEmpty = false := by
  cases top <;> rfl

theorem entries_ne_nil {n : FLLRBNode K V} (notEmpty : n.isEmpty = false) : n.entries ≠ [] := by
  cases n with
  | empty => simp [isEmpty] at notEmpty
  | node => simp [entries]

/-! ## The smallest entry -/

theorem min_entry (n : FLLRBNode K V) :
    n.min.key = n.entries.head?.map Prod.fst ∧ n.min.value = n.entries.head?.map Prod.snd := by
  induction n with
  | empty => exact ⟨rfl, rfl⟩
  | node k v c l r ihLeft _ =>
    simp only [FLLRBNode.min]
    split
    · next isEmpty =>
      rw [(eq_empty_iff l).mp isEmpty]
      exact ⟨rfl, rfl⟩
    · next notEmpty =>
      have some : (entries l).head?.isSome := by
        rw [List.isSome_head?]
        simpa using entries_ne_nil (by simpa using notEmpty)
      obtain ⟨e, first⟩ := Option.isSome_iff_exists.mp some
      rw [ihLeft.1, ihLeft.2]
      simp [entries, List.head?_append, first]

/-- What one call of `removeMin` gives back. -/
structure MinRemoved (n result : FLLRBNode K V) (h : Nat) : Prop where
  balanced : Balanced result h
  staysBlack : n.isRed = false → result.isRed = false
  entries : result.entries = n.entries.tail

section RemoveMin

variable {n l l' r : FLLRBNode K V} {k : K} {v : V} {c : FLLRBColor}

theorem removeMin_of_move (notEmpty : n.left.isEmpty = false)
    (moved : n.removeMinMove = node k v c l r) : n.removeMin = (node k v c l.removeMin r).fixUp := by
  rw [removeMin, notEmpty, moved]
  rfl

/-- The left subtree of the moved receiver lost its first entry. -/
theorem entries_removeMin_step (moved : n.removeMinMove = node k v c l r)
    (notEmpty : l.isEmpty = false) (tail : l'.entries = l.entries.tail) :
    (node k v c l' r).fixUp.entries = n.entries.tail := by
  rw [entries_fixUp, ← entries_removeMinMove n, moved, FLLRBNode.entries, tail, FLLRBNode.entries,
    List.tail_append_of_ne_nil (entries_ne_nil notEmpty)]

end RemoveMin

theorem removeMin_spec {n : FLLRBNode K V} {h : Nat} (top : RedTop n h) :
    MinRemoved n n.removeMin h := by
  induction size : n.count using Nat.strong_induction_on generalizing n h with
  | _ size' ih =>
  subst size
  cases notEmpty : n.left.isEmpty with
  | true =>
    rw [removeMin, if_pos notEmpty]
    cases top with
    | red left right leftBlack rightBlack =>
      obtain rfl := (eq_empty_iff _).mp notEmpty
      cases left
      obtain rfl := right.of_zero rightBlack
      exact ⟨.empty, fun _ => rfl, rfl⟩
    | leftRed left right leftRed rightBlack =>
      obtain rfl := (eq_empty_iff _).mp notEmpty
      simp at leftRed
  | false =>
    have smaller {k v c l r d} (moved : n.removeMinMove = node k v c l r) (below : RedTop l d) :
        MinRemoved l l.removeMin d := by
      have nonempty : n.isEmpty = false := by cases top <;> rfl
      have less := count_left_lt_of_entries (entries_removeMinMove n) nonempty
      rw [moved] at less
      exact ih l.count less below rfl
    clear ih
    cases top with
    | @leftRed l r h k v left right leftRed rightBlack =>
      have moved : (node k v .black l r).removeMinMove = node k v .black l r := by
        simp [removeMinMove, leftRed]
      have done := smaller moved (.of_red left leftRed)
      have fixed := fixUp_black (k := k) (v := v) done.balanced right
      rw [removeMin_of_move notEmpty moved]
      exact ⟨fixed.1, fun _ => fixed.2 (.inr rightBlack),
        entries_removeMin_step moved notEmpty done.entries⟩
    | @red l r h k v left right leftBlack rightBlack =>
      cases h with
      | zero =>
        obtain rfl := left.of_zero leftBlack
        cases notEmpty
      | succ h =>
        have present : l.isEmpty = false := notEmpty
        cases llRed : l.left.isRed with
        | true =>
          have moved : (node k v .red l r).removeMinMove = node k v .red l r := by
            simp [removeMinMove, llRed]
          have done := smaller moved (.of_left left leftBlack llRed)
          have whole := Balanced.red (k := k) (v := v) done.balanced right
            (done.staysBlack leftBlack) rightBlack
          rw [removeMin_of_move notEmpty moved]
          exact ⟨whole.fixUp, by simp, entries_removeMin_step moved present done.entries⟩
        | false =>
          have move : (node k v .red l r).removeMinMove = (node k v .red l r).moveRedLeft := by
            simp [removeMinMove, llRed, leftBlack]
          have shape := moveRedLeft_moved (k := k) (v := v) .red left right leftBlack rightBlack llRed
          generalize (node k v .red l r).moveRedLeft = m at move shape
          cases shape with
          | @flipped L R leftMoved rightMoved leftRed rightRed =>
            have done := smaller move (.of_red leftMoved leftRed)
            have fixed := fixUp_black (k := k) (v := v) done.balanced rightMoved
            rw [removeMin_of_move notEmpty move]
            exact ⟨fixed.1, by simp,
              entries_removeMin_step move (isEmpty_of_red leftRed) done.entries⟩
          | @borrowed L R mk mv leftMoved rightMoved movedBlack rightMovedBlack holds =>
            have done := smaller move leftMoved
            have whole := Balanced.red (k := mk) (v := mv) done.balanced rightMoved
              (done.staysBlack movedBlack) rightMovedBlack
            rw [removeMin_of_move notEmpty move]
            exact ⟨whole.fixUp, by simp, entries_removeMin_step move leftMoved.isEmpty done.entries⟩

/-! ## Removing a key -/

section RemoveKey

variable {comparator : K → K → Ordering} {k : K}

theorem remove_left {n l r : FLLRBNode K V} {key mk : K} {mv : V} {mc : FLLRBColor}
    (found : n.key = some key) (less : comparator k key = .lt)
    (moved : n.removeLeftMove = node mk mv mc l r) :
    n.remove comparator k = (node mk mv mc (l.remove comparator k) r).fixUp := by
  rw [remove_of_lt found less, moved]
  rfl

theorem remove_right {n l r : FLLRBNode K V} {key mk : K} {mv : V} {mc : FLLRBColor}
    (found : n.key = some key) (notLess : comparator k key ≠ .lt)
    (moved : n.removeRightMove = node mk mv mc l r) (miss : comparator k mk ≠ .eq) :
    n.remove comparator k = (node mk mv mc l (r.remove comparator k)).fixUp := by
  rw [remove_of_miss found notLess (by rw [moved]; simpa [FLLRBNode.key] using miss), moved]
  rfl

/-- A search that never meets its key changes no entry. -/
theorem entries_remove_absent {n : FLLRBNode K V}
    (absent : ∀ e ∈ n.entries, comparator k e.1 ≠ .eq) :
    (n.remove comparator k).entries = n.entries := by
  induction size : n.count using Nat.strong_induction_on generalizing n with
  | _ size' ih =>
  subst size
  cases n with
  | empty => simp
  | node key value color l r =>
    by_cases less : comparator k key = .lt
    · have keeps := entries_removeLeftMove (node key value color l r)
      have smaller := count_left_lt_of_entries keeps rfl
      cases moved : (node key value color l r).removeLeftMove with
      | empty => simp [moved, entries] at keeps
      | node mk mv mc ml mr =>
        rw [moved] at keeps smaller
        rw [← keeps] at absent
        have inside := ih ml.count smaller (fun e member => absent e (by simp [entries, member])) rfl
        rw [remove_left rfl less moved, entries_fixUp, ← keeps, FLLRBNode.entries, inside,
          FLLRBNode.entries]
    · have keeps := entries_removeRightMove (node key value color l r)
      have smaller := count_right_lt_of_entries keeps rfl
      cases moved : (node key value color l r).removeRightMove with
      | empty => simp [moved, entries] at keeps
      | node mk mv mc ml mr =>
        rw [moved] at keeps smaller
        rw [← keeps] at absent
        have inside := ih mr.count smaller (fun e member => absent e (by simp [entries, member])) rfl
        have miss := absent (mk, mv) (by simp [entries])
        rw [remove_right rfl less moved miss, entries_fixUp, ← keeps, FLLRBNode.entries, inside,
          FLLRBNode.entries]

/-- The parts of a balanced node, and that others of the same colors fit. -/
theorem Balanced.node_cases {key : K} {v : V} {c : FLLRBColor} {l r : FLLRBNode K V} {h : Nat}
    (balanced : Balanced (node key v c l r) h) :
    ∃ d, Balanced l d ∧ Balanced r d ∧ r.isRed = false ∧
      ∀ (key' : K) (v' : V) (l' r' : FLLRBNode K V), Balanced l' d → Balanced r' d →
        l'.isRed = l.isRed → r'.isRed = false → Balanced (node key' v' c l' r') h := by
  cases balanced with
  | black left right rightBlack =>
    exact ⟨_, left, right, rightBlack, fun _ _ _ _ left' right' _ black => .black left' right' black⟩
  | red left right leftBlack rightBlack =>
    refine ⟨_, left, right, rightBlack, fun _ _ _ _ left' right' same black => ?_⟩
    exact .red left' right' (same.trans leftBlack) black

/-- Below all keys the search passes down the left side and undoes each move on
the way back, whatever the color of the receiver. -/
theorem remove_below {n : FLLRBNode K V} {h : Nat} (balanced : Balanced n h)
    (below : AllKeys comparator k .lt n.entries) :
    Balanced (n.remove comparator k) h ∧ (n.remove comparator k).isRed = n.isRed := by
  induction size : n.count using Nat.strong_induction_on generalizing n h with
  | _ size' ih =>
  subst size
  cases n with
  | empty => simpa using balanced
  | node key v c l r =>
    have less : comparator k key = .lt := below (key, v) (by simp [entries])
    obtain ⟨d, left, right, rightBlack, rebuild⟩ := balanced.node_cases
    have keeps := entries_removeLeftMove (node key v c l r)
    have smaller := count_left_lt_of_entries keeps rfl
    rw [← keeps] at below
    by_cases still : l.isEmpty = true ∨ l.isRed = true ∨ l.left.isRed = true
    · have stay : (node key v c l r).removeLeftMove = node key v c l r := by
        rcases still with holds | holds | holds <;> simp [removeLeftMove, holds]
      rw [stay] at below smaller
      obtain ⟨inside, color⟩ :=
        ih l.count smaller left (fun e member => below e (by simp [entries, member])) rfl
      have whole := rebuild key v _ r inside right color rightBlack
      rw [remove_left rfl less stay, whole.fixUp_eq]
      exact ⟨whole, rfl⟩
    · simp only [not_or, Bool.not_eq_true] at still
      obtain ⟨notEmpty, leftBlack, innerBlack⟩ := still
      have move : (node key v c l r).removeLeftMove = (node key v c l r).moveRedLeft := by
        simp [removeLeftMove, notEmpty, leftBlack, innerBlack]
      cases d with
      | zero =>
        obtain rfl := left.of_zero leftBlack
        cases notEmpty
      | succ d =>
        have shape := moveRedLeft_moved (k := key) (v := v) c left right leftBlack rightBlack
          innerBlack
        rw [← move] at shape
        generalize moved : (node key v c l r).removeLeftMove = m at below smaller shape
        cases shape with
        | @flipped L R leftMoved rightMoved leftRed rightRed =>
          obtain ⟨inside, color⟩ := ih L.count smaller leftMoved
            (fun e member => below e (by simp [entries, member])) rfl
          obtain ⟨lk, lv, ll, lr, made, leftLeft, leftRight, llBlack, lrBlack⟩ :=
            inside.of_red (color.trans leftRed)
          obtain ⟨rk, rv, rl, rr, rfl, rightLeft, rightRight, _, rrBlack⟩ :=
            rightMoved.of_red rightRed
          rw [remove_left rfl less moved, made, fixUp_flips llBlack, flipped_flipped]
          exact ⟨rebuild key v _ _ (.black leftLeft leftRight lrBlack)
            (.black rightLeft rightRight rrBlack) leftBlack.symm rfl, rfl⟩
        | @borrowed L R mk mv leftMoved rightMoved movedBlack rightMovedBlack holds =>
          obtain ⟨inside, color⟩ := ih L.count smaller leftMoved.balanced
            (fun e member => below e (by simp [entries, member])) rfl
          have whole := rebuild mk mv _ R inside rightMoved (by rw [color, movedBlack, leftBlack])
            rightMovedBlack
          rw [remove_left rfl less moved, whole.fixUp_eq]
          exact ⟨whole, rfl⟩

theorem remove_smallest {n l r : FLLRBNode K V} {key mk : K} {mv : V} {mc : FLLRBColor}
    (found : n.key = some key) (notLess : comparator k key ≠ .lt)
    (moved : n.removeRightMove = node mk mv mc l r) (hit : comparator k mk = .eq)
    (present : r.isEmpty = false) :
    ∃ e, r.entries = e :: r.entries.tail ∧
      n.remove comparator k = (node e.1 e.2 mc l (r.removeMin.remove comparator k)).fixUp := by
  obtain ⟨e, rest, whole⟩ := List.exists_cons_of_ne_nil (entries_ne_nil present)
  have smallest := min_entry r
  refine ⟨e, by rw [whole]; rfl, ?_⟩
  rw [remove_of_hit found notLess (by rw [moved]; simpa [FLLRBNode.key] using hit), moved]
  simp [replacedBySmallest, copyWith, present, smallest.1, smallest.2, whole]

theorem remove_last {n l r : FLLRBNode K V} {key mk : K} {mv : V} {mc : FLLRBColor}
    (found : n.key = some key) (notLess : comparator k key ≠ .lt)
    (moved : n.removeRightMove = node mk mv mc l r) (hit : comparator k mk = .eq)
    (isEmpty : r.isEmpty = true) : n.remove comparator k = .empty := by
  rw [remove_of_hit found notLess (by rw [moved]; simpa [FLLRBNode.key] using hit), moved]
  simp [isEmpty]

/-- The receivers of `remove:` below the root: a red node on top, or a red right
child under a key that is not above `k`. -/
inductive Ready (comparator : K → K → Ordering) (k : K) : FLLRBNode K V → Nat → Prop where
  | top {n : FLLRBNode K V} {h : Nat} (top : RedTop n h) : Ready comparator k n h
  | rightRed {l r : FLLRBNode K V} {h : Nat} {key : K} {v : V} (left : Balanced l h)
      (right : Balanced r h) (leftBlack : l.isRed = false) (rightRed : r.isRed = true)
      (notLess : comparator k key ≠ .lt) : Ready comparator k (node key v .black l r) (h + 1)

/-- What one call of `remove:` gives back. -/
structure KeyRemoved (comparator : K → K → Ordering) (k : K) (n result : FLLRBNode K V)
    (h : Nat) : Prop where
  balanced : Balanced result h
  staysBlack : n.isRed = false → result.isRed = false
  entries : result.entries = erase comparator k n.entries

variable [Std.TransCmp comparator]

/-- The result of the left descent, before the repair. -/
theorem entries_left {n l l' r : FLLRBNode K V} {mk : K} {mv : V} {mc : FLLRBColor}
    (sorted : Ascending comparator n.entries) (whole : (node mk mv mc l r).entries = n.entries)
    (less : comparator k mk = .lt) (erased : l'.entries = erase comparator k l.entries) :
    (node mk mv mc l' r).entries = erase comparator k n.entries := by
  rw [← whole] at sorted ⊢
  have above := (ascending_append_cons.mp sorted).2.2.2
  have beyond : AllKeys comparator k .lt ((mk, mv) :: r.entries) :=
    AllKeys.cons.mpr ⟨less, AllKeys.of_lt less above⟩
  rw [FLLRBNode.entries, FLLRBNode.entries, erased,
    erase_append_left k _ (beyond.not_eq (by decide))]

/-- The right descent, whether or not the key of the moved receiver is the one
to remove. -/
theorem descend_right {n l r : FLLRBNode K V} {key mk : K} {mv : V} {mc : FLLRBColor} {d : Nat}
    (sorted : Ascending comparator n.entries) (found : n.key = some key)
    (notLess : comparator k key ≠ .lt) (moved : n.removeRightMove = node mk mv mc l r)
    (notLessMoved : comparator k mk ≠ .lt) (present : r.isEmpty = false)
    (topIfHit : comparator k mk = .eq → RedTop r d)
    (done : KeyRemoved comparator k r (r.remove comparator k) d) :
    ∃ k' v' r', n.remove comparator k = (node k' v' mc l r').fixUp ∧ Balanced r' d ∧
      (r.isRed = false → r'.isRed = false) ∧
      (node k' v' mc l r').entries = erase comparator k n.entries := by
  have whole := entries_removeRightMove n
  rw [moved] at whole
  rw [← whole] at sorted ⊢
  obtain ⟨_, _, below, above⟩ := ascending_append_cons.mp sorted
  by_cases hit : comparator k mk = .eq
  · obtain ⟨e, first, result⟩ := remove_smallest found notLess moved hit present
    have taken := removeMin_spec (topIfHit hit)
    have under : AllKeys comparator k .lt r.removeMin.entries := by
      rw [taken.entries]
      exact fun d member => AllKeys.of_eq hit above d (List.mem_of_mem_tail member)
    have again := remove_below taken.balanced under
    refine ⟨e.1, e.2, _, result, again.1, fun black => again.2.trans (taken.staysBlack black), ?_⟩
    have beside : AllKeys comparator k .gt l.entries := AllKeys.of_eq hit below
    rw [FLLRBNode.entries, FLLRBNode.entries, entries_remove_absent (under.not_eq (by decide)),
      taken.entries, erase_append_right k _ (beside.not_eq (by decide)), erase, if_pos hit, first]
    rfl
  · have greater : comparator k mk = .gt := by
      cases order : comparator k mk <;> simp_all
    have beside : AllKeys comparator k .gt l.entries := AllKeys.of_gt greater below
    refine ⟨mk, mv, _, remove_right found notLess moved hit, done.balanced, done.staysBlack, ?_⟩
    rw [FLLRBNode.entries, FLLRBNode.entries, done.entries,
      erase_append_right k _ (beside.not_eq (by decide)), erase, if_neg hit]

/-- A receiver of color `c` with two black children of black depth `d`, after
the descent: both are still black, or the colors flipped and one is still red. -/
inductive Descended (c : FLLRBColor) : FLLRBNode K V → Nat → Prop where
  | settled {k : K} {v : V} {l r : FLLRBNode K V} {d : Nat} (left : Balanced l d)
      (right : Balanced r d) (leftBlack : l.isRed = false) (rightBlack : r.isRed = false) :
      Descended c (node k v c l r) d
  | flipped {k : K} {v : V} {l r : FLLRBNode K V} {d : Nat} (left : Balanced l d)
      (right : Balanced r d) (oneRed : l.isRed = true ∨ r.isRed = true) :
      Descended c (node k v c.flipped l r) (d + 1)

/-- Removal from all smaller receivers, the induction hypothesis of the descent. -/
def SmallerRemoved (comparator : K → K → Ordering) (k : K) (n : FLLRBNode K V) : Prop :=
  ∀ {m : FLLRBNode K V} {d : Nat}, m.count < n.count → Ascending comparator m.entries →
    Ready comparator k m d → KeyRemoved comparator k m (m.remove comparator k) d

omit [Std.TransCmp comparator] in
theorem SmallerRemoved.left {n l r : FLLRBNode K V} {mk : K} {mv : V} {mc : FLLRBColor} {d : Nat}
    (smaller : SmallerRemoved comparator k n) (sorted : Ascending comparator n.entries)
    (nonempty : n.isEmpty = false) (whole : (node mk mv mc l r).entries = n.entries)
    (ready : Ready comparator k l d) : KeyRemoved comparator k l (l.remove comparator k) d := by
  rw [← whole] at sorted
  exact smaller (count_left_lt_of_entries whole nonempty)
    (List.Pairwise.sublist (List.sublist_append_left _ _) sorted) ready

omit [Std.TransCmp comparator] in
theorem SmallerRemoved.right {n l r : FLLRBNode K V} {mk : K} {mv : V} {mc : FLLRBColor} {d : Nat}
    (smaller : SmallerRemoved comparator k n) (sorted : Ascending comparator n.entries)
    (nonempty : n.isEmpty = false) (whole : (node mk mv mc l r).entries = n.entries)
    (ready : Ready comparator k r d) : KeyRemoved comparator k r (r.remove comparator k) d := by
  rw [← whole] at sorted
  refine smaller (count_right_lt_of_entries whole nonempty) (List.Pairwise.sublist ?_ sorted) ready
  exact (List.sublist_cons_self _ _).trans (List.sublist_append_right _ _)

theorem descend_left_black {key : K} {v : V} {c : FLLRBColor} {l r : FLLRBNode K V} {d : Nat}
    (smaller : SmallerRemoved comparator k (node key v c l r))
    (sorted : Ascending comparator (node key v c l r).entries) (left : Balanced l d)
    (right : Balanced r d) (leftBlack : l.isRed = false) (rightBlack : r.isRed = false)
    (less : comparator k key = .lt) :
    ∃ m, (node key v c l r).remove comparator k = m.fixUp ∧ Descended c m d ∧
      m.entries = erase comparator k (node key v c l r).entries := by
  have whole := entries_removeLeftMove (node key v c l r)
  cases notEmpty : l.isEmpty with
  | true =>
    obtain rfl := (eq_empty_iff l).mp notEmpty
    have moved : (node key v c .empty r).removeLeftMove = node key v c .empty r := by
      simp [removeLeftMove, isEmpty]
    refine ⟨_, remove_left rfl less moved, ?_, entries_left sorted rfl less (by simp [entries, erase])⟩
    rw [remove_empty]
    exact .settled left right rfl rightBlack
  | false =>
    cases innerRed : l.left.isRed with
    | true =>
      have moved : (node key v c l r).removeLeftMove = node key v c l r := by
        simp [removeLeftMove, innerRed]
      have done := smaller.left sorted rfl rfl (.top (.of_left left leftBlack innerRed))
      exact ⟨_, remove_left rfl less moved,
        .settled done.balanced right (done.staysBlack leftBlack) rightBlack,
        entries_left sorted rfl less done.entries⟩
    | false =>
      have move : (node key v c l r).removeLeftMove = (node key v c l r).moveRedLeft := by
        simp [removeLeftMove, notEmpty, leftBlack, innerRed]
      cases d with
      | zero =>
        obtain rfl := left.of_zero leftBlack
        cases notEmpty
      | succ d =>
        have shape := moveRedLeft_moved (k := key) (v := v) c left right leftBlack rightBlack
          innerRed
        rw [← move] at shape
        generalize moved : (node key v c l r).removeLeftMove = m at whole shape
        cases shape with
        | flipped leftMoved rightMoved leftRed rightRed =>
          have done := smaller.left sorted rfl whole (.top (.of_red leftMoved leftRed))
          exact ⟨_, remove_left rfl less moved, .flipped done.balanced rightMoved (.inr rightRed),
            entries_left sorted whole less done.entries⟩
        | @borrowed L R mk mv leftMoved rightMoved movedBlack rightMovedBlack holds =>
          have done := smaller.left sorted rfl whole (.top leftMoved)
          have beyond : comparator k mk = .lt := by
            have order := sorted
            rw [← whole] at order
            have under := (ascending_append_cons.mp order).2.2.1 _ holds
            exact Std.TransCmp.lt_trans less (Std.OrientedCmp.gt_iff_lt.mp under)
          exact ⟨_, remove_left rfl less moved,
            .settled done.balanced rightMoved (done.staysBlack movedBlack) rightMovedBlack,
            entries_left sorted whole beyond done.entries⟩

theorem descend_right_black {key : K} {v : V} {c : FLLRBColor} {l r : FLLRBNode K V} {d : Nat}
    (smaller : SmallerRemoved comparator k (node key v c l r))
    (sorted : Ascending comparator (node key v c l r).entries) (left : Balanced l d)
    (right : Balanced r d) (leftBlack : l.isRed = false) (rightBlack : r.isRed = false)
    (notLess : comparator k key ≠ .lt) :
    (∃ m, (node key v c l r).remove comparator k = m.fixUp ∧ Descended c m d ∧
      m.entries = erase comparator k (node key v c l r).entries) ∨
    ((node key v c l r).remove comparator k = .empty ∧ d = 0 ∧
      erase comparator k (node key v c l r).entries = []) := by
  have whole := entries_removeRightMove (node key v c l r)
  cases notEmpty : r.isEmpty with
  | true =>
    obtain rfl := (eq_empty_iff r).mp notEmpty
    cases right
    obtain rfl := left.of_zero leftBlack
    have moved : (node key v c .empty .empty).removeRightMove = node key v c .empty .empty := by
      simp [removeRightMove, isEmpty]
    by_cases hit : comparator k key = .eq
    · exact .inr ⟨remove_last rfl notLess moved hit rfl, rfl, by simp [entries, erase, hit]⟩
    · refine .inl ⟨_, remove_right rfl notLess moved hit, ?_, by simp [entries, erase, hit]⟩
      rw [remove_empty]
      exact .settled .empty .empty rfl rfl
  | false =>
    left
    cases innerRed : r.left.isRed with
    | true =>
      have moved : (node key v c l r).removeRightMove = node key v c l r := by
        simp [removeRightMove, leftBlack, innerRed]
      have top : RedTop r d := .of_left right rightBlack innerRed
      obtain ⟨k', v', r', result, inside, black, erased⟩ :=
        descend_right sorted rfl notLess moved notLess notEmpty (fun _ => top)
          (smaller.right sorted rfl rfl (.top top))
      exact ⟨_, result, .settled left inside leftBlack (black rightBlack), erased⟩
    | false =>
      have move : (node key v c l r).removeRightMove = (node key v c l r).moveRedRight := by
        simp [removeRightMove, notEmpty, leftBlack, rightBlack, innerRed]
      cases d with
      | zero =>
        obtain rfl := right.of_zero rightBlack
        cases notEmpty
      | succ d =>
        have shape := moveRedRight_moved (k := key) (v := v) c left right leftBlack rightBlack
          innerRed
        rw [← move] at shape
        generalize moved : (node key v c l r).removeRightMove = m at whole shape
        cases shape with
        | flipped leftMoved rightMoved leftRed rightRed =>
          have top : RedTop _ d := .of_red rightMoved rightRed
          obtain ⟨k', v', r', result, inside, _, erased⟩ :=
            descend_right sorted rfl notLess moved notLess (isEmpty_of_red rightRed) (fun _ => top)
              (smaller.right sorted rfl whole (.top top))
          exact ⟨_, result, .flipped leftMoved inside (.inl leftRed), erased⟩
        | @borrowed L rl rr mk mv leftMoved middle rightMoved movedBlack middleBlack rightRed =>
          have under : comparator k mk = .gt := by
            have order := sorted
            rw [← whole] at order
            have below := (ascending_append_cons.mp order).2.2.2 (key, v) (by simp [entries])
            have above := Std.OrientedCmp.gt_iff_lt.mpr below
            exact Std.TransCmp.gt_of_isGE_of_gt (Ordering.isGE_iff_ne_lt.mpr notLess) above
          obtain ⟨k', v', r', result, inside, black, erased⟩ :=
            descend_right sorted rfl notLess moved (by simp [under]) rfl (by simp [under])
              (smaller.right sorted rfl whole
                (.rightRed middle rightMoved middleBlack rightRed notLess))
          exact ⟨_, result, .settled leftMoved inside movedBlack (black rfl), erased⟩

/-- A receiver whose right child is red once the move is done. -/
theorem descend_right_red {key mk : K} {v mv : V} {l r L R : FLLRBNode K V} {d : Nat}
    (smaller : SmallerRemoved comparator k (node key v .black l r))
    (sorted : Ascending comparator (node key v .black l r).entries)
    (moved : (node key v .black l r).removeRightMove = node mk mv .black L R)
    (left : Balanced L d) (right : Balanced R d) (leftBlack : L.isRed = false)
    (rightRed : R.isRed = true) (notLess : comparator k key ≠ .lt)
    (notLessMoved : comparator k mk ≠ .lt) :
    KeyRemoved comparator k (node key v .black l r)
      ((node key v .black l r).remove comparator k) (d + 1) := by
  have whole := entries_removeRightMove (node key v .black l r)
  rw [moved] at whole
  have top : RedTop R d := .of_red right rightRed
  obtain ⟨k', v', r', result, inside, _, erased⟩ :=
    descend_right sorted rfl notLess moved notLessMoved (isEmpty_of_red rightRed) (fun _ => top)
      (smaller.right sorted rfl whole (.top top))
  have fixed := fixUp_black (k := k') (v := v') left inside
  rw [result]
  exact ⟨fixed.1, fun _ => fixed.2 (.inl leftBlack), by rw [entries_fixUp, erased]⟩

omit [Std.TransCmp comparator] in
/-- Below a red receiver one repair restores the black depth. -/
theorem Descended.fixUp_red {m : FLLRBNode K V} {d : Nat} (descended : Descended .red m d) :
    Balanced m.fixUp d := by
  cases descended with
  | settled left right leftBlack rightBlack =>
    exact (Balanced.red left right leftBlack rightBlack).fixUp
  | flipped left right _ => exact (fixUp_black left right).1

theorem remove_red {key : K} {v : V} {l r : FLLRBNode K V} {h : Nat}
    (smaller : SmallerRemoved comparator k (node key v .red l r))
    (sorted : Ascending comparator (node key v .red l r).entries) (left : Balanced l h)
    (right : Balanced r h) (leftBlack : l.isRed = false) (rightBlack : r.isRed = false) :
    KeyRemoved comparator k (node key v .red l r) ((node key v .red l r).remove comparator k) h := by
  by_cases less : comparator k key = .lt
  · obtain ⟨m, result, descended, erased⟩ :=
      descend_left_black smaller sorted left right leftBlack rightBlack less
    rw [result]
    exact ⟨descended.fixUp_red, by simp, by rw [entries_fixUp, erased]⟩
  · rcases descend_right_black smaller sorted left right leftBlack rightBlack less with
      ⟨m, result, descended, erased⟩ | ⟨result, zero, erased⟩
    · rw [result]
      exact ⟨descended.fixUp_red, by simp, by rw [entries_fixUp, erased]⟩
    · rw [result, zero]
      exact ⟨.empty, fun _ => rfl, by rw [erased]; rfl⟩

theorem remove_leftRed {key : K} {v : V} {l r : FLLRBNode K V} {h : Nat}
    (smaller : SmallerRemoved comparator k (node key v .black l r))
    (sorted : Ascending comparator (node key v .black l r).entries) (left : Balanced l h)
    (right : Balanced r h) (leftRed : l.isRed = true) (rightBlack : r.isRed = false) :
    KeyRemoved comparator k (node key v .black l r) ((node key v .black l r).remove comparator k)
      (h + 1) := by
  by_cases less : comparator k key = .lt
  · have moved : (node key v .black l r).removeLeftMove = node key v .black l r := by
      simp [removeLeftMove, leftRed]
    have done := smaller.left sorted rfl rfl (.top (.of_red left leftRed))
    have fixed := fixUp_black (k := key) (v := v) done.balanced right
    rw [remove_left rfl less moved]
    exact ⟨fixed.1, fun _ => fixed.2 (.inr rightBlack),
      by rw [entries_fixUp, entries_left sorted rfl less done.entries]⟩
  · obtain ⟨lk, lv, ll, lr, rfl, leftLeft, leftRight, llBlack, lrBlack⟩ := left.of_red leftRed
    have moved : (node key v .black (node lk lv .red ll lr) r).removeRightMove =
        node lk lv .black ll (node key v .red lr r) := by
      simp [removeRightMove, rotateRight_red]
    have under : comparator k lk = .gt := by
      have below := (ascending_append_cons.mp sorted).2.2.1 (lk, lv) (by simp [entries])
      exact Std.TransCmp.gt_of_isGE_of_gt (Ordering.isGE_iff_ne_lt.mpr less) below
    exact descend_right_red smaller sorted moved leftLeft (.red leftRight right lrBlack rightBlack)
      llBlack rfl less (by simp [under])

theorem remove_ready {n : FLLRBNode K V} {h : Nat} (sorted : Ascending comparator n.entries)
    (ready : Ready comparator k n h) : KeyRemoved comparator k n (n.remove comparator k) h := by
  induction size : n.count using Nat.strong_induction_on generalizing n h with
  | _ size' ih =>
  subst size
  have smaller : SmallerRemoved comparator k n := fun less order ready => ih _ less order ready rfl
  cases ready with
  | top top =>
    cases top with
    | red left right leftBlack rightBlack =>
      exact remove_red smaller sorted left right leftBlack rightBlack
    | leftRed left right leftRed rightBlack =>
      exact remove_leftRed smaller sorted left right leftRed rightBlack
  | @rightRed l r d key v left right leftBlack rightRed notLess =>
    have moved : (node key v .black l r).removeRightMove = node key v .black l r := by
      simp [removeRightMove, leftBlack, rightRed]
    exact descend_right_red smaller sorted moved left right leftBlack rightRed notLess notLess

/-- The root, blackened: the black depth may drop by one. -/
theorem remove_root {n : FLLRBNode K V} {h : Nat} (sorted : Ascending comparator n.entries)
    (balanced : Balanced n h) (black : n.isRed = false) :
    (∃ d, Balanced (blackened (n.remove comparator k)) d) ∧
      (blackened (n.remove comparator k)).entries = erase comparator k n.entries := by
  rw [entries_blackened]
  have smaller : SmallerRemoved comparator k n := fun _ order ready => remove_ready order ready
  cases balanced with
  | empty =>
    rw [remove_empty]
    exact ⟨⟨0, .empty⟩, rfl⟩
  | red => simp at black
  | @black l r h key v left right rightBlack =>
    cases leftRed : l.isRed with
    | true =>
      have done : KeyRemoved comparator k (node key v .black l r) _ (h + 1) :=
        remove_ready sorted (.top (.leftRed left right leftRed rightBlack))
      exact ⟨done.balanced.blackened, done.entries⟩
    | false =>
      have repaired {m : FLLRBNode K V} {d : Nat} (descended : Descended .black m d) :
          ∃ e, Balanced (blackened m.fixUp) e := by
        cases descended with
        | settled left right _ rightBlack =>
          exact (Balanced.black left right rightBlack).fixUp.blackened
        | flipped left right oneRed => exact fixUp_red_root left right oneRed
      by_cases less : comparator k key = .lt
      · obtain ⟨m, result, descended, erased⟩ :=
          descend_left_black smaller sorted left right leftRed rightBlack less
        rw [result]
        exact ⟨repaired descended, by rw [entries_fixUp, erased]⟩
      · rcases descend_right_black smaller sorted left right leftRed rightBlack less with
          ⟨m, result, descended, erased⟩ | ⟨result, rfl, erased⟩
        · rw [result]
          exact ⟨repaired descended, by rw [entries_fixUp, erased]⟩
        · rw [result]
          exact ⟨⟨0, .empty⟩, by rw [erased]; rfl⟩

end RemoveKey

end WatchAndSee.Guarantees
