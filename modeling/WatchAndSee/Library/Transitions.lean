/-!
# Machines, invariants and refinement

A machine is an initial state and a step relation labelled by events. An
invariant, of the states or of the states and the events before them, is proved
once for the initial state and once for a step. A machine
refines another through a map of states under which each of its steps is a step
of the other or changes nothing there.
-/

set_option autoImplicit false

namespace WatchAndSee.Library

universe u v w x

structure Machine (S : Type u) (E : Type v) where
  initial : S
  step : S → E → S → Prop

namespace Machine

variable {S : Type u} {E : Type v} {T : Type w} {F : Type x}

/-- States of some run of events, of any length and in any order. -/
inductive Reachable (M : Machine S E) : S → Prop where
  | start : M.Reachable M.initial
  | next {s s' : S} (e : E) (reached : M.Reachable s) (step : M.step s e s') : M.Reachable s'

theorem Reachable.invariant {M : Machine S E} {I : S → Prop} (start : I M.initial)
    (preserved : ∀ s e s', I s → M.step s e s' → I s') {s : S} (reached : M.Reachable s) : I s := by
  induction reached with
  | start => exact start
  | next e _ step ih => exact preserved _ e _ ih step

/-- Runs with their events, from the initial state. -/
inductive Run (M : Machine S E) : List E → S → Prop where
  | start : M.Run [] M.initial
  | next {events : List E} {s s' : S} (e : E) (run : M.Run events s) (step : M.step s e s') :
      M.Run (events ++ [e]) s'

theorem Run.reachable {M : Machine S E} {events : List E} {s : S} (run : M.Run events s) :
    M.Reachable s := by
  induction run with
  | start => exact .start
  | next e _ step ih => exact .next e ih step

/-- An invariant that relates the state to the events so far. -/
theorem Run.invariant {M : Machine S E} {I : List E → S → Prop} (start : I [] M.initial)
    (preserved : ∀ events s e s', I events s → M.step s e s' → I (events ++ [e]) s')
    {events : List E} {s : S} (run : M.Run events s) : I events s := by
  induction run with
  | start => exact start
  | next e _ step ih => exact preserved _ _ e _ ih step

/-- Each step of `M` is a step of `N` or stutters there. -/
structure Refines (M : Machine S E) (N : Machine T F) (f : S → T) : Prop where
  start : f M.initial = N.initial
  step : ∀ s e s', M.step s e s' → f s' = f s ∨ ∃ e', N.step (f s) e' (f s')

theorem Refines.reachable {M : Machine S E} {N : Machine T F} {f : S → T} (refines : M.Refines N f)
    {s : S} (reached : M.Reachable s) : N.Reachable (f s) := by
  induction reached with
  | start =>
    rw [refines.start]
    exact .start
  | next e _ step ih =>
    rcases refines.step _ e _ step with stutter | ⟨e', matched⟩
    · rw [stutter]
      exact ih
    · exact .next e' ih matched

end Machine

end WatchAndSee.Library
