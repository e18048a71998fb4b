import Mathlib.Data.List.Forall2
import Mathlib.Control.Basic

/-!
# Loops whose body may trap

`List.foldlM` in `Except` is a loop that stops at the first trap. The rules
here separate what a body computes from the accumulator it pushes into, so
that a loop's outcome can be read off the outcomes of its iterations.
-/

set_option autoImplicit false

namespace WatchAndSee.Library

universe u

variable {ε α : Type u} {β σ : Type u}

@[simp] theorem pure_eq_ok (value : α) : (pure value : Except ε α) = .ok value := rfl

theorem bind_success_iff {step : Except ε α} {next : α → Except ε β} {value : β} :
    (step >>= next) = .ok value ↔ ∃ x, step = .ok x ∧ next x = .ok value := by
  cases step with
  | error e => simp [bind, Except.bind]
  | ok x => simp [bind, Except.bind]

theorem map_success_iff {step : Except ε α} {f : α → β} {value : β} :
    step.map f = .ok value ↔ ∃ x, step = .ok x ∧ f x = value := by
  cases step <;> simp [Except.map]

theorem map_bind (step : Except ε α) (next : α → Except ε β) (f : β → σ) :
    (step >>= next).map f = step >>= fun x => (next x).map f := by
  cases step <;> rfl

theorem map_map (outcome : Except ε α) (f : α → β) (g : β → σ) :
    (outcome.map f).map g = outcome.map fun x => g (f x) := by
  cases outcome <;> rfl

/-- An outcome without the value: did the run end without a trap? -/
def Succeeds (outcome : Except ε α) : Prop := ∃ value, outcome = .ok value

@[simp] theorem succeeds_ok (value : α) : Succeeds (.ok value : Except ε α) := ⟨value, rfl⟩

@[simp] theorem not_succeeds_error (e : ε) : ¬ Succeeds (.error e : Except ε α) := by
  intro given
  obtain ⟨value, h⟩ := given
  cases h

@[simp] theorem succeeds_map {outcome : Except ε α} {f : α → β} :
    Succeeds (outcome.map f) ↔ Succeeds outcome := by
  cases outcome <;> simp [Except.map]

theorem succeeds_bind_iff {step : Except ε α} {next : α → Except ε β} :
    Succeeds (step >>= next) ↔ ∃ x, step = .ok x ∧ Succeeds (next x) := by
  cases step with
  | error e => simp [bind, Except.bind]
  | ok x => simp [bind, Except.bind]

theorem mapM_cons (f : α → Except ε β) (x : α) (xs : List α) :
    (x :: xs).mapM f = f x >>= fun y => (xs.mapM f).map (y :: ·) := by
  rw [List.mapM_cons]
  cases f x with
  | error e => rfl
  | ok y => cases xs.mapM f <;> rfl

/-- The results of a traversal, one for each item and in order. -/
theorem mapM_success_iff (f : α → Except ε β) (xs : List α) (ys : List β) :
    xs.mapM f = .ok ys ↔ List.Forall₂ (fun x y => f x = .ok y) xs ys := by
  induction xs generalizing ys with
  | nil => simp [eq_comm]
  | cons x xs ih =>
    simp only [mapM_cons, bind_success_iff, map_success_iff, ih]
    constructor
    · rintro ⟨y, head, rest, tail, rfl⟩
      exact .cons head tail
    · rintro (_ | ⟨head, tail⟩)
      exact ⟨_, head, _, tail, rfl⟩

/-- Each result comes from an element. -/
theorem mapM_success_mem {f : α → Except ε β} {xs : List α} {ys : List β}
    (success : xs.mapM f = .ok ys) {y : β} (member : y ∈ ys) : ∃ x ∈ xs, f x = .ok y := by
  have each := (mapM_success_iff f xs ys).mp success
  clear success
  induction each with
  | nil => exact absurd member List.not_mem_nil
  | @cons x z xs zs here _ ih =>
    rcases List.mem_cons.mp member with rfl | later
    · exact ⟨x, List.mem_cons_self, here⟩
    · obtain ⟨x', inside, result⟩ := ih later
      exact ⟨x', List.mem_cons_of_mem _ inside, result⟩

theorem mapM_succeeds_iff (f : α → Except ε β) (xs : List α) :
    Succeeds (xs.mapM f) ↔ ∀ x ∈ xs, Succeeds (f x) := by
  induction xs with
  | nil => simp
  | cons x xs ih =>
    simp only [mapM_cons, succeeds_bind_iff, succeeds_map, ih, List.forall_mem_cons]
    constructor
    · intro given
      obtain ⟨y, head, tail⟩ := given
      exact ⟨⟨y, head⟩, tail⟩
    · intro given
      obtain ⟨⟨y, head⟩, tail⟩ := given
      exact ⟨y, head, tail⟩

/-- Bodies that agree on the items of a list give the same traversal, traps included. -/
theorem mapM_congr {f g : α → Except ε β} {xs : List α} (same : ∀ x ∈ xs, f x = g x) :
    xs.mapM f = xs.mapM g := by
  induction xs with
  | nil => rfl
  | cons x xs ih =>
    rw [List.forall_mem_cons] at same
    rw [mapM_cons, mapM_cons, same.1, ih same.2]

/-- Where every iteration succeeds with a known value, so does the traversal. -/
theorem mapM_of_forall (f : α → Except ε β) (g : α → β) (xs : List α)
    (each : ∀ x ∈ xs, f x = .ok (g x)) : xs.mapM f = .ok (xs.map g) := by
  refine (mapM_success_iff f xs _).mpr ?_
  rw [List.forall₂_map_right_iff]
  exact List.forall₂_same.mpr each

/-- A loop that pushes one computed value in each iteration is a traversal
followed by the pushes. -/
theorem foldlM_push (f : α → Except ε β) (push : σ → β → σ) (xs : List α) (s : σ) :
    xs.foldlM (fun s x => (f x).map (push s)) s =
      (xs.mapM f).map (fun ys => ys.foldl push s) := by
  induction xs generalizing s with
  | nil => rfl
  | cons x xs ih =>
    rw [List.foldlM_cons, mapM_cons]
    cases f x with
    | error e => rfl
    | ok y =>
      change xs.foldlM (fun s x => (f x).map (push s)) (push s y) = _
      rw [ih]
      cases xs.mapM f <;> rfl

end WatchAndSee.Library
