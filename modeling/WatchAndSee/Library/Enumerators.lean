import Mathlib.Data.List.Basic
import Mathlib.Data.Nat.Init

/-!
# Enumerators and visiting blocks

An enumerator hands out one object for each call and ends with the first call
that has none. A visiting block is called for one object after the other and
can stop the enumeration; it keeps its variables in a state.
-/

set_option autoImplicit false

namespace WatchAndSee.Library

universe u v w

variable {A : Type u} {S : Type v}

/-- The objects that repeated calls of `next` hand out. -/
inductive Yields (next : S → Option (A × S)) : S → List A → Prop where
  | done {s : S} (none : next s = none) : Yields next s []
  | more {s s' : S} {a : A} {rest : List A} (some : next s = some (a, s'))
      (later : Yields next s' rest) : Yields next s (a :: rest)

/-- A list that each call shortens by its first object is what the calls hand out. -/
theorem Yields.of_pending {next : S → Option (A × S)} (pending : S → List A)
    (done : ∀ s, next s = none → pending s = [])
    (more : ∀ s a s', next s = some (a, s') → pending s = a :: pending s') (s : S) :
    Yields next s (pending s) := by
  induction left : (pending s).length using Nat.strong_induction_on generalizing s with
  | _ length ih =>
  cases call : next s with
  | none =>
    rw [done s call]
    exact .done call
  | some answer =>
    obtain ⟨a, s'⟩ := answer
    have first := more s a s' call
    rw [first] at left ⊢
    exact .more call (ih _ (by rw [← left]; exact Nat.lt_succ_self _) s' rfl)

/-- The calls decide the objects. -/
theorem Yields.unique {next : S → Option (A × S)} {s : S} {l m : List A}
    (left : Yields next s l) (right : Yields next s m) : l = m := by
  induction left generalizing m with
  | done none =>
    cases right with
    | done => rfl
    | more some => rw [none] at some; cases some
  | more some _ ih =>
    cases right with
    | done none => rw [some] at none; cases none
    | more some' later =>
      rw [some, Option.some.injEq, Prod.mk.injEq] at some'
      obtain ⟨rfl, rfl⟩ := some'
      rw [ih later]

/-- An enumerator inside another one. -/
theorem Yields.through {T : Type w} {next : S → Option (A × S)} {next' : T → Option (A × T)}
    (f : S → T) (calls : ∀ s, next' (f s) = (next s).map fun answer => (answer.1, f answer.2))
    {s : S} {l : List A} (yields : Yields next s l) : Yields next' (f s) l := by
  induction yields with
  | done none => exact .done (by rw [calls, none, Option.map_none])
  | more some _ ih => exact .more (by rw [calls, some, Option.map_some]) ih

/-- The block is called in turn until it asks to stop. -/
def visit (block : A → S → Bool × S) : List A → S → Bool × S
  | [], s => (false, s)
  | a :: rest, s =>
    let here := block a s
    if here.1 then here else visit block rest here.2

theorem visit_append (block : A → S → Bool × S) (l m : List A) (s : S) :
    visit block (l ++ m) s =
      if (visit block l s).1 then visit block l s else visit block m (visit block l s).2 := by
  induction l generalizing s with
  | nil => simp [visit]
  | cons a rest ih =>
    simp only [List.cons_append, visit, ih]
    split
    · simp
    · rfl

/-- A block that stops at the first object without `p` and says whether there was one. -/
theorem visit_all (p : A → Bool) (l : List A) :
    (visit (fun a ok => (!(ok && p a), ok && p a)) l true).2 = l.all p := by
  induction l with
  | nil => rfl
  | cons a rest ih =>
    cases holds : p a with
    | true => simpa [visit, holds] using ih
    | false => simp [visit, holds]

end WatchAndSee.Library
