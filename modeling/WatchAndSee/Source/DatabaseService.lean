import WatchAndSee.Source.ParseManager

/-!
# Services/DatabaseService.swift

The callback of `createRecipeObject`, on the list of children that the
snapshot of the 'Recipes' node enumerates. `DatabaseService.shared` holds one
`ParseManager` for the life of the app, so callbacks run one after another on
the same accumulators.
-/

set_option autoImplicit false

namespace WatchAndSee.Source
open Library

/-- `DataSnapshot`; only its `value` is read. -/
structure DataSnapshot where
  value : AnyValue

structure DatabaseService where
  parseRef : ParseManager
  deriving DecidableEq, Repr

/-- `DatabaseService.shared` before its first load. -/
def DatabaseService.shared : DatabaseService := ⟨.new⟩

/-- Body of the loop over the children: a child that is no dictionary is skipped. -/
def receiveChild (E : Enumeration String AnyValue) (state : ParseManager × List Recipes)
    (children : DataSnapshot) : Except Trap (ParseManager × List Recipes) :=
  match children.value.asDictionary with
  | some recipeJSON =>
    (parseRecipe E state.1 recipeJSON).map fun parsed => (parsed.1, state.2 ++ [parsed.2])
  | none => .ok state

/-- The calls of `completion` are returned in order, each with its argument. -/
def createRecipeObject (E : Enumeration String AnyValue) (self : DatabaseService)
    (snapshot : List DataSnapshot) :
    Except Trap (DatabaseService × List (Option (List Recipes))) := do
  let (parseRef, ingredients) ← snapshot.foldlM (receiveChild E) (self.parseRef, [])
  pure ({ self with parseRef := parseRef }, [some ingredients])

/-- Callbacks run to completion one after another on the shared service, with
the completion calls of each. -/
def runCallbacks (E : Enumeration String AnyValue) (self : DatabaseService)
    (loads : List (List DataSnapshot)) :
    Except Trap (DatabaseService × List (List (Option (List Recipes)))) :=
  loads.foldlM (fun state snapshot =>
    (createRecipeObject E state.1 snapshot).map fun loaded =>
      (loaded.1, state.2 ++ [loaded.2])) (self, [])

/-- What one child adds to the list when a brand-new parser reads it. -/
def childPart (E : Enumeration String AnyValue) (child : DataSnapshot) :
    Except Trap (List Recipes) :=
  match child.value.asDictionary with
  | some recipeJSON => (parseRecipe E .new recipeJSON).map fun parsed => [parsed.2]
  | none => .ok []

section Callback

variable (E : Enumeration String AnyValue)

/-- The loop appends the parts of the children, whatever the parser held. -/
theorem receive_loop (children : List DataSnapshot) (parseRef : ParseManager)
    (ingredients : List Recipes) :
    (children.foldlM (receiveChild E) (parseRef, ingredients)).map Prod.snd =
      (children.mapM (childPart E)).map fun parts => ingredients ++ parts.flatten := by
  induction children generalizing parseRef ingredients with
  | nil => simp [Except.map]
  | cons child rest ih =>
    rw [List.foldlM_cons, mapM_cons]
    cases isRecord : child.value.asDictionary with
    | none =>
      have step : receiveChild E (parseRef, ingredients) child = .ok (parseRef, ingredients) := by
        simp [receiveChild, isRecord]
      have part : childPart E child = .ok [] := by simp [childPart, isRecord]
      rw [step, part]
      refine (ih parseRef ingredients).trans ?_
      cases rest.mapM (childPart E) <;> rfl
    | some recipeJSON =>
      cases parsed : parseRecipe E .new recipeJSON with
      | error trap =>
        simp [receiveChild, childPart, isRecord, parseRecipe_prior E parseRef, parsed, Except.map,
          bind, Except.bind]
      | ok outcome =>
        have step : receiveChild E (parseRef, ingredients) child =
            .ok (outcome.1, ingredients ++ [outcome.2]) := by
          simp [receiveChild, isRecord, parseRecipe_prior E parseRef, parsed, Except.map]
        have part : childPart E child = .ok [outcome.2] := by
          simp [childPart, isRecord, parsed, Except.map]
        rw [step, part]
        refine (ih outcome.1 (ingredients ++ [outcome.2])).trans ?_
        cases rest.mapM (childPart E) <;> simp [Except.map, bind, Except.bind]

/-- The completion calls do not depend on the state of the shared parser. -/
theorem createRecipeObject_completions (self : DatabaseService) (snapshot : List DataSnapshot) :
    (createRecipeObject E self snapshot).map Prod.snd =
      (snapshot.mapM (childPart E)).map fun parts => [some parts.flatten] := by
  have loop := receive_loop E snapshot self.parseRef []
  unfold createRecipeObject
  cases run : snapshot.foldlM (receiveChild E) (self.parseRef, []) with
  | error trap =>
    rw [run] at loop
    cases parts : snapshot.mapM (childPart E) with
    | error trap' => simpa [parts, Except.map, bind, Except.bind] using loop
    | ok lists => simp [parts, Except.map] at loop
  | ok outcome =>
    rw [run] at loop
    cases parts : snapshot.mapM (childPart E) with
    | error trap' => simp [parts, Except.map] at loop
    | ok lists =>
      simp only [parts, Except.map, List.nil_append, Except.ok.injEq] at loop
      simp [bind, Except.bind, Except.map, loop]

/-- Success of a callback is success of every child's part. -/
theorem createRecipeObject_success_iff (self : DatabaseService) (snapshot : List DataSnapshot)
    (calls : List (Option (List Recipes))) :
    (∃ after, createRecipeObject E self snapshot = .ok (after, calls)) ↔
      ∃ parts, snapshot.mapM (childPart E) = .ok parts ∧ calls = [some parts.flatten] := by
  have outcome := createRecipeObject_completions E self snapshot
  have left : (∃ after, createRecipeObject E self snapshot = .ok (after, calls)) ↔
      (createRecipeObject E self snapshot).map Prod.snd = .ok calls := by
    rw [map_success_iff]
    constructor
    · intro given
      obtain ⟨after, run⟩ := given
      exact ⟨(after, calls), run, rfl⟩
    · rintro ⟨⟨after, _⟩, run, rfl⟩
      exact ⟨after, run⟩
  rw [left, outcome, map_success_iff]
  constructor
  · rintro ⟨parts, run, rfl⟩
    exact ⟨parts, run, rfl⟩
  · rintro ⟨parts, run, rfl⟩
    exact ⟨parts, run, rfl⟩

theorem childPart_succeeds_iff (child : DataSnapshot) :
    Succeeds (childPart E child) ↔ ∀ d, child.value.asDictionary = some d → Survives d := by
  cases isRecord : child.value.asDictionary with
  | none => simp [childPart, isRecord]
  | some d => simp [childPart, isRecord, parseRecipe_succeeds_iff]

/-- A run of callbacks delivers what each callback delivers on its own. -/
theorem runCallbacks_success (self : DatabaseService) (loads : List (List DataSnapshot))
    (delivered : List (List (Option (List Recipes))))
    (each : List.Forall₂ (fun snapshot calls =>
      ∀ service, ∃ after, createRecipeObject E service snapshot = .ok (after, calls)) loads delivered) :
    ∃ after, runCallbacks E self loads = .ok (after, delivered) := by
  have run (sofar : List (List (Option (List Recipes)))) :
      ∃ after, loads.foldlM (fun state snapshot =>
        (createRecipeObject E state.1 snapshot).map fun loaded =>
          (loaded.1, state.2 ++ [loaded.2])) (self, sofar) = .ok (after, sofar ++ delivered) := by
    induction each generalizing self sofar with
    | nil => exact ⟨self, by simp⟩
    | @cons snapshot calls rest others head _ ih =>
      obtain ⟨mid, first⟩ := head self
      obtain ⟨after, later⟩ := ih mid (sofar ++ [calls])
      refine ⟨after, ?_⟩
      rw [List.foldlM_cons, first]
      simpa [Except.map, bind, Except.bind] using later
  simpa [runCallbacks] using run []

end Callback

end WatchAndSee.Source
