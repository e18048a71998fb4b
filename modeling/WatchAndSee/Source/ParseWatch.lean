import WatchAndSee.Source.Model

/-!
# Services/ParseWatch.swift

The phone's encoder and the watch's decoder of the application context. An
optional inside `[String: Any?]` is kept: a key can be present with the value
`nil`, and reading it gives an optional of an optional.
-/

set_option autoImplicit false

namespace WatchAndSee.Source
open Library

/-- `[String: Any?]` -/
abbrev OptionalDictionary := Dictionary String (Option AnyValue)

/-- Passing `[String: Any?]` where `[String: Any]` is expected: `nil` becomes `NSNull`. -/
def OptionalDictionary.bridged (data : OptionalDictionary) : AnyDictionary :=
  data.mapValues (·.getD .null)

/-- Passing `[String: Any]` where `[String: Any?]` is expected. -/
def optionals (data : AnyDictionary) : OptionalDictionary := data.mapValues some

/-- Body of the loop of `sendToWatch`. -/
def stepDictionary (step : Step) : AnyDictionary :=
  let dict : AnyDictionary := Dictionary.empty.set "Texto" (.string step.text)
  match step.time with
  | some time => dict.set "Tempo" (.int time)
  | none => dict

def sendToWatch (recipe : Recipes) : OptionalDictionary :=
  let valueToSend : AnyDictionary := .empty
  let currentArray := ((valueToSend.get? "steps").bind AnyValue.asDictionaryArray).getD []
  let currentArray :=
    recipe.steps.foldl (fun currentArray step => currentArray ++ [stepDictionary step]) currentArray
  let valueToSend := valueToSend.set "steps" (.array (currentArray.map AnyValue.dictionary))
  optionals valueToSend

/-- The loop of `decodeInWatch`, on the watch. An entry without a text ends it
with the steps read so far. -/
def decodeSteps (steps : List Step) : List AnyDictionary → List Step
  | [] => steps
  | stp :: rest =>
    match stringAt stp "Texto" with
    | none => steps
    | some text =>
      let newStep : Step := ⟨text, intAt .watch stp "Tempo"⟩
      decodeSteps (steps ++ [newStep]) rest

def decodeInWatch (dataArray : OptionalDictionary) : List Step :=
  match dataArray.get? "steps" with
  | none => []
  | some data =>
    match data.bind AnyValue.asDictionaryArray with
    | none => []
    | some singleData => decodeSteps [] singleData

/-! ## What the encoder builds and the decoder reads -/

theorem stringAt_stepDictionary (step : Step) : stringAt (stepDictionary step) "Texto" = some step.text := by
  unfold stepDictionary
  cases step.time with
  | none => simp [stringAt]
  | some t => simp [stringAt, Dictionary.get?_set_of_ne]

theorem intAt_stepDictionary (device : Device) (step : Step) :
    intAt device (stepDictionary step) "Tempo" = (step.on device).time := by
  unfold stepDictionary
  cases timed : step.time with
  | none => simp [intAt, Step.on, timed, Dictionary.get?_set_of_ne]
  | some t => simp [intAt, Step.on, timed, Option.filter]

/-- The context of a step list: 'steps' with one dictionary for each step. -/
theorem sendToWatch_eq (recipe : Recipes) :
    sendToWatch recipe =
      Dictionary.empty.set "steps" (some (.array ((recipe.steps.map stepDictionary).map .dictionary))) := by
  have loop (currentArray : List AnyDictionary) :
      recipe.steps.foldl (fun currentArray step => currentArray ++ [stepDictionary step]) currentArray =
        currentArray ++ recipe.steps.map stepDictionary := by
    rw [List.foldl_append_eq_append, ← List.flatMap_def, ← List.map_eq_flatMap]
  apply Dictionary.ext_get?
  intro k
  simp only [sendToWatch, optionals, loop, Dictionary.get?_mapValues, Dictionary.get?_set,
    Dictionary.get?_empty, Option.bind_none, Option.getD_none, List.nil_append]
  by_cases isSteps : k = "steps" <;> simp [isSteps]

/-- The loop of the decoder reads encoded steps back, one by one, with the times
that the watch can hold. -/
theorem decodeSteps_encoded (before steps : List Step) :
    decodeSteps before (steps.map stepDictionary) = before ++ steps.map (Step.on .watch) := by
  induction steps generalizing before with
  | nil => simp [decodeSteps]
  | cons step rest ih =>
    rw [List.map_cons, decodeSteps, stringAt_stepDictionary, intAt_stepDictionary]
    simp only [ih, List.append_assoc, List.singleton_append, List.map_cons]
    rfl

/-- Nothing but 'steps' is read from a context. -/
theorem decodeInWatch_array (context : OptionalDictionary) (entries : List AnyDictionary)
    (sent : context.get? "steps" = some (some (.array (entries.map .dictionary)))) :
    decodeInWatch context = decodeSteps [] entries := by
  have cast : (AnyValue.array (entries.map .dictionary)).asDictionaryArray = some entries :=
    (AnyValue.asDictionaryArray_eq_some_iff _ _).mpr rfl
  unfold decodeInWatch
  simp only [sent, Option.bind_some, cast]

theorem decode_send (recipe : Recipes) :
    decodeInWatch (sendToWatch recipe) = recipe.stepsOn .watch := by
  rw [sendToWatch_eq, decodeInWatch_array _ _ (Dictionary.get?_set_self _ _ _), decodeSteps_encoded,
    List.nil_append]
  rfl

/-- The two conversions on the way to the watch leave a sent context as it is. -/
theorem optionals_bridged_send (recipe : Recipes) :
    optionals (sendToWatch recipe).bridged = sendToWatch recipe := by
  apply Dictionary.ext_get?
  intro k
  simp only [optionals, OptionalDictionary.bridged, sendToWatch, Dictionary.get?_mapValues]
  cases Dictionary.get? _ k <;> rfl

end WatchAndSee.Source
