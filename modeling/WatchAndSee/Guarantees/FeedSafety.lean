import WatchAndSee.Source.DatabaseService

/-!
# One malformed record and the feed

`createRecipeObject` skips children that are no dictionaries, and `parseRecipe`
answers several malformations with a blank recipe. This module determines for
which feeds that is enough: the callback delivers every well-formed child
untouched by the malformed ones exactly when no record of the feed reaches one
of the forced unwraps (`feed_survives_iff`).
-/

set_option autoImplicit false

namespace WatchAndSee.Guarantees.FeedSafety
open WatchAndSee.Library WatchAndSee.Source

/-- All six fields present and of the type that the parser asks for. -/
def WellFormed (d : AnyDictionary) : Bool :=
  (stringAt d "nome").isSome && (stringAt d "tempo").isSome &&
  (stringAt d "rendimento").isSome && (stringAt d "foto").isSome &&
  (dictionaryAt d "Ingredientes").any (fun ing => decide (ing.All IsString)) &&
  (dictionaryAt d "Passos").any (fun stp => decide (stp.All IsDictionary))

def wellFormedChild (child : DataSnapshot) : Bool := child.value.asDictionary.any WellFormed

/-- The callback ends with one completion call. Every child has a part in the
delivered list, in child order, which for a well-formed child is one recipe and
the same one as in a feed without the malformed children, and for a malformed
child is nothing or the blank recipe. -/
def FeedSurvives (E : Enumeration String AnyValue) (self : DatabaseService)
    (children : List DataSnapshot) : Prop :=
  ∃ part : DataSnapshot → List Recipes,
    (∃ after, createRecipeObject E self children = .ok (after, [some (children.flatMap part)])) ∧
    (∃ after, createRecipeObject E self (children.filter wellFormedChild) =
      .ok (after, [some ((children.filter wellFormedChild).flatMap part)])) ∧
    ∀ child ∈ children,
      if wellFormedChild child then ∃ r, part child = [r]
      else part child = [] ∨ part child = [Recipes.blank]

theorem wellFormed_of_reads {E : Enumeration String AnyValue} {d ing stp : AnyDictionary}
    {r : Recipes} (accepted : Accepted d ing stp) (reads : Reads E d ing stp r) :
    WellFormed d = true := by
  have strings : ing.All IsString := by
    refine ((E.lists ing).all_iff _).mpr ?_
    intro e member
    have value : e.2 ∈ r.ingredients.map AnyValue.string :=
      reads.ingredients ▸ List.mem_map_of_mem member
    obtain ⟨text, _, same⟩ := List.mem_map.mp value
    simp [IsString, ← same]
  simp [WellFormed, reads.name, reads.time, reads.rendiment, reads.photo, accepted.ingredientes,
    accepted.passos, strings, accepted.steps]

/-- A record on which the parser returns and that is not well formed gives the
blank recipe. -/
theorem malformed_blank (E : Enumeration String AnyValue) (self after : ParseManager)
    (d : AnyDictionary) (r : Recipes) (malformed : WellFormed d = false)
    (success : parseRecipe E self d = .ok (after, r)) : r = Recipes.blank := by
  rcases parseRecipe_cases E self d after r success with rejected | full
  · exact rejected.2
  · obtain ⟨ing, stp, accepted, reads⟩ := full
    rw [wellFormed_of_reads accepted reads] at malformed
    cases malformed

theorem part_of_child (E : Enumeration String AnyValue) (child : DataSnapshot)
    (part : List Recipes) (success : childPart E child = .ok part) :
    if wellFormedChild child then ∃ r, part = [r] else part = [] ∨ part = [Recipes.blank] := by
  cases isRecord : child.value.asDictionary with
  | none =>
    simp only [childPart, isRecord, Except.ok.injEq] at success
    simp [wellFormedChild, isRecord, ← success]
  | some d =>
    simp only [childPart, isRecord] at success
    obtain ⟨⟨after, r⟩, parsed, rfl⟩ := map_success_iff.mp success
    cases wellFormed : WellFormed d with
    | true => simp [wellFormedChild, isRecord, wellFormed]
    | false =>
      have blank := malformed_blank E .new after d r wellFormed parsed
      simp [wellFormedChild, isRecord, wellFormed, blank]

/-- The feed survives its malformed records exactly when each of its records
is one on which the parser does not trap: 'Ingredientes' is present; where both
maps are dictionaries every ingredient is a string; and where moreover every
step is a dictionary the four text fields are strings. -/
theorem feed_survives_iff (E : Enumeration String AnyValue) (self : DatabaseService)
    (children : List DataSnapshot) :
    FeedSurvives E self children ↔
      ∀ child ∈ children, ∀ d, child.value = .dictionary d → Survives d := by
  simp only [← AnyValue.asDictionary_eq_some_iff, ← childPart_succeeds_iff E,
    ← mapM_succeeds_iff]
  constructor
  · intro given
    obtain ⟨part, ⟨after, run⟩, _⟩ := given
    obtain ⟨parts, read, _⟩ := (createRecipeObject_success_iff E self children _).mp ⟨after, run⟩
    exact ⟨parts, read⟩
  · intro readable
    let part (child : DataSnapshot) : List Recipes := (childPart E child).toOption.getD []
    have each : ∀ child ∈ children, childPart E child = .ok (part child) := by
      intro child member
      obtain ⟨value, success⟩ := (mapM_succeeds_iff _ _).mp readable child member
      simp [part, success, Except.toOption]
    have delivers (feed : List DataSnapshot) (inside : ∀ child ∈ feed, child ∈ children) :
        ∃ after, createRecipeObject E self feed = .ok (after, [some (feed.flatMap part)]) := by
      refine (createRecipeObject_success_iff E self feed _).mpr ⟨feed.map part, ?_, ?_⟩
      · exact mapM_of_forall _ _ _ (fun child member => each child (inside child member))
      · rw [List.flatMap_def]
    refine ⟨part, delivers children (fun _ member => member), ?_, ?_⟩
    · exact delivers _ (fun child member => (List.mem_filter.mp member).1)
    · intro child member
      exact part_of_child E child (part child) (each child member)

/-- A record with its four texts around the given maps. -/
def dish (ing stp : AnyDictionary) : AnyDictionary :=
  (((((Dictionary.empty.set "nome" (.string "Ratatouille")).set "tempo" (.string "40 min")).set
    "rendimento" (.string "4")).set "foto" (.string "http://foto")).set
    "Ingredientes" (.dictionary ing)).set "Passos" (.dictionary stp)

def completeRecord : AnyDictionary :=
  dish (Dictionary.empty.set "i1" (.string "Berinjela"))
    (Dictionary.empty.set "1" (.dictionary (Dictionary.empty.set "Texto" (.string "Corte"))))

/-- A record that holds nothing but its name. -/
def nameOnlyRecord : AnyDictionary := Dictionary.empty.set "nome" (.string "Rabada")

/-- One record without 'Ingredientes' takes a complete recipe down with it. -/
theorem name_only_record_traps :
    ¬ FeedSurvives Enumeration.ascending DatabaseService.shared
      [⟨.dictionary completeRecord⟩, ⟨.dictionary nameOnlyRecord⟩] := by
  intro given
  obtain ⟨part, ⟨after, run⟩, _⟩ := given
  have trapped : createRecipeObject Enumeration.ascending DatabaseService.shared
      [⟨.dictionary completeRecord⟩, ⟨.dictionary nameOnlyRecord⟩] = .error .unwrappedNil := by
    rfl
  rw [trapped] at run
  cases run

end WatchAndSee.Guarantees.FeedSafety
