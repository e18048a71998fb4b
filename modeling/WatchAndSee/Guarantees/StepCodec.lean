import WatchAndSee.Source.ParseWatch

/-!
# The step codec

The encoder runs on the phone, the decoder on the watch, whose `Int` is
narrower. `decodeInWatch` inverts `sendToWatch` up to the times that the watch
cannot hold, and a context is what its decoded steps would be sent as exactly
when it has the single key 'steps' and well-formed entries with times of the
watch (`step_codec_exact`).
-/

set_option autoImplicit false

namespace WatchAndSee.Guarantees.StepCodec
open WatchAndSee.Library WatchAndSee.Source

/-- A String under 'Texto', optionally an Int of the device under 'Tempo', no
other key. -/
structure IsStepEntry (device : Device) (entry : AnyDictionary) : Prop where
  keys : ∀ k ∈ entry.keys, k = "Texto" ∨ k = "Tempo"
  text : ∃ text, entry.get? "Texto" = some (.string text)
  time : entry.get? "Tempo" = none ∨
    ∃ t, device.HoldsInt t ∧ entry.get? "Tempo" = some (.int t)

/-- Exactly the key 'steps', whose value is an array of step entries. -/
structure IsStepContext (device : Device) (context : OptionalDictionary) : Prop where
  keys : ∀ k, k ∈ context.keys ↔ k = "steps"
  entries : ∃ entries : List AnyDictionary,
    context.get? "steps" = some (some (.array (entries.map .dictionary))) ∧
      ∀ entry ∈ entries, IsStepEntry device entry

/-- All times of the recipe are Ints of the device. -/
def TimesHeldBy (device : Device) (recipe : Recipes) : Prop :=
  ∀ step ∈ recipe.steps, step.HeldBy device

section Device

variable {device : Device}

theorem stepDictionary_entry (step : Step) (held : step.HeldBy device) :
    IsStepEntry device (stepDictionary step) := by
  have text := (stringAt_eq_some_iff _ _ _).mp (stringAt_stepDictionary step)
  cases timed : step.time with
  | none =>
    refine ⟨?_, ⟨_, text⟩, Or.inl ?_⟩
    · intro k member
      simp only [stepDictionary, timed, Dictionary.set, Dictionary.empty] at member
      left
      simpa using member
    · simp [stepDictionary, timed, Dictionary.get?_set_of_ne]
  | some t =>
    refine ⟨?_, ⟨_, text⟩, Or.inr ⟨t, held t timed, ?_⟩⟩
    · intro k member
      simp only [stepDictionary, timed, Dictionary.set, Dictionary.empty] at member
      simpa [or_comm] using member
    · simp [stepDictionary, timed]

/-- A step entry is the dictionary of the step that it describes. -/
theorem entry_of_step (entry : AnyDictionary) (isEntry : IsStepEntry device entry) :
    ∃ step, step.HeldBy device ∧ entry = stepDictionary step := by
  obtain ⟨text, found⟩ := isEntry.text
  have absent (k : String) (notText : k ≠ "Texto") (notTime : k ≠ "Tempo") : entry.get? k = none := by
    rw [Dictionary.get?_eq_none_iff]
    intro member
    rcases isEntry.keys k member with same | same
    · exact notText same
    · exact notTime same
  rcases isEntry.time with untimed | ⟨t, held, timed⟩
  · refine ⟨⟨text, none⟩, by simp [Step.HeldBy], ?_⟩
    apply Dictionary.ext_get?
    intro k
    by_cases isText : k = "Texto"
    · simp [isText, found, stepDictionary]
    · by_cases isTime : k = "Tempo"
      · simp [isTime, untimed, stepDictionary, Dictionary.get?_set_of_ne]
      · simp [absent k isText isTime, stepDictionary, Dictionary.get?_set_of_ne, isText]
  · refine ⟨⟨text, some t⟩, by simpa [Step.HeldBy] using held, ?_⟩
    apply Dictionary.ext_get?
    intro k
    by_cases isText : k = "Texto"
    · simp [isText, found, stepDictionary, Dictionary.get?_set_of_ne]
    · by_cases isTime : k = "Tempo"
      · simp [isTime, timed, stepDictionary]
      · simp [absent k isText isTime, stepDictionary, Dictionary.get?_set_of_ne, isText, isTime]

theorem entries_of_steps (entries : List AnyDictionary)
    (each : ∀ entry ∈ entries, IsStepEntry device entry) :
    ∃ steps : List Step, (∀ step ∈ steps, step.HeldBy device) ∧ entries = steps.map stepDictionary := by
  induction entries with
  | nil => exact ⟨[], by simp, rfl⟩
  | cons entry rest ih =>
    obtain ⟨step, held, rfl⟩ := entry_of_step entry (each _ (by simp))
    obtain ⟨steps, others, rfl⟩ := ih (fun other member => each other (by simp [member]))
    exact ⟨step :: steps, List.forall_mem_cons.mpr ⟨held, others⟩, rfl⟩

theorem send_isStepContext (recipe : Recipes) (held : TimesHeldBy device recipe) :
    IsStepContext device (sendToWatch recipe) := by
  rw [sendToWatch_eq]
  constructor
  · intro k
    simp [Dictionary.set, Dictionary.empty]
  · refine ⟨recipe.steps.map stepDictionary, by simp, ?_⟩
    intro entry member
    obtain ⟨step, inside, rfl⟩ := List.mem_map.mp member
    exact stepDictionary_entry step (held step inside)

/-- A context in the format is what some steps of the device are sent as. -/
theorem context_of_steps (context : OptionalDictionary) (isContext : IsStepContext device context) :
    ∃ steps : List Step, (∀ step ∈ steps, step.HeldBy device) ∧
      ∀ recipe : Recipes, recipe.steps = steps → sendToWatch recipe = context := by
  obtain ⟨entries, found, each⟩ := isContext.entries
  obtain ⟨steps, held, rfl⟩ := entries_of_steps entries each
  refine ⟨steps, held, ?_⟩
  rintro recipe rfl
  rw [sendToWatch_eq]
  apply Dictionary.ext_get?
  intro k
  by_cases isSteps : k = "steps"
  · rw [isSteps, found, Dictionary.get?_set_self]
  · symm
    rw [Dictionary.get?_set_of_ne _ _ isSteps, Dictionary.get?_empty, Dictionary.get?_eq_none_iff,
      isContext.keys]
    exact isSteps

end Device

/-- What the watch decodes has times that it holds. -/
theorem decodeSteps_held (before : List Step) (entries : List AnyDictionary)
    (held : ∀ step ∈ before, step.HeldBy .watch) :
    ∀ step ∈ decodeSteps before entries, step.HeldBy .watch := by
  induction entries generalizing before with
  | nil => exact held
  | cons entry rest ih =>
    unfold decodeSteps
    split
    · exact held
    · next text _ =>
      refine ih _ ?_
      intro step member
      rcases List.mem_append.mp member with earlier | new
      · exact held step earlier
      · rw [List.mem_singleton.mp new]
        intro t timed
        obtain ⟨value, _, cast⟩ := Option.bind_eq_some_iff.mp timed
        exact AnyValue.asInt_holds cast

theorem decodeInWatch_held (context : OptionalDictionary) :
    ∀ step ∈ decodeInWatch context, step.HeldBy .watch := by
  unfold decodeInWatch
  split
  · simp
  · split
    · simp
    · exact decodeSteps_held [] _ (by simp)

/-- A context in the format of the watch is what any recipe with its decoded
steps is sent as. -/
theorem context_of_decoded (context : OptionalDictionary) (isContext : IsStepContext .watch context)
    (recipe : Recipes) (steps : recipe.steps = decodeInWatch context) :
    sendToWatch recipe = context := by
  obtain ⟨original, held, sends⟩ := context_of_steps context isContext
  have sent := sends { recipe with steps := original } rfl
  apply sends
  rw [steps, ← sent, decode_send]
  exact (Recipes.stepsOn_eq_iff _ _).mpr held

theorem sent_of_context {device : Device} (context : OptionalDictionary) :
    (∃ recipe, TimesHeldBy device recipe ∧ sendToWatch recipe = context) ↔
      IsStepContext device context := by
  constructor
  · rintro ⟨recipe, held, rfl⟩
    exact send_isStepContext recipe held
  · intro isContext
    obtain ⟨steps, held, sends⟩ := context_of_steps context isContext
    exact ⟨{ Recipes.blank with steps := steps }, held, sends _ rfl⟩

/-- The watch decodes the steps of every recipe, with the times that it can hold,
so exactly the steps when it can hold them all. The contexts that decoding and
sending again gives back are the ones in the format of the watch, which are the
ones that recipes with times of the watch are sent as; the contexts that recipes
of the phone are sent as are the ones in the format of the phone. -/
theorem step_codec_exact :
    (∀ recipe : Recipes, decodeInWatch (sendToWatch recipe) = recipe.stepsOn .watch ∧
      (decodeInWatch (sendToWatch recipe) = recipe.steps ↔ TimesHeldBy .watch recipe)) ∧
    (∀ (context : OptionalDictionary) (recipe : Recipes),
      sendToWatch { recipe with steps := decodeInWatch context } = context ↔
        IsStepContext .watch context) ∧
    ∀ (device : Device) (context : OptionalDictionary),
      (∃ recipe, TimesHeldBy device recipe ∧ sendToWatch recipe = context) ↔
        IsStepContext device context := by
  refine ⟨?_, ?_, fun _ => sent_of_context⟩
  · intro recipe
    rw [decode_send]
    exact ⟨rfl, Recipes.stepsOn_eq_iff recipe .watch⟩
  · intro context recipe
    constructor
    · intro same
      rw [← same]
      exact send_isStepContext _ (decodeInWatch_held context)
    · intro isContext
      exact context_of_decoded context isContext _ rfl

theorem stepDictionary_injective : Function.Injective stepDictionary := by
  intro a b same
  have texts : stringAt (stepDictionary a) "Texto" = stringAt (stepDictionary b) "Texto" := by rw [same]
  have time (step : Step) : (stepDictionary step).get? "Tempo" = step.time.map AnyValue.int := by
    unfold stepDictionary
    cases step.time <;> simp [Dictionary.get?_set_of_ne]
  have times : a.time.map AnyValue.int = b.time.map AnyValue.int := by rw [← time, same, time]
  rw [stringAt_stepDictionary, stringAt_stepDictionary, Option.some.injEq] at texts
  obtain ⟨textA, timeA⟩ := a
  obtain ⟨textB, timeB⟩ := b
  cases timeA <;> cases timeB <;> simp_all

/-- The phone never sends the same context for two step lists. -/
theorem sent_steps {recipe other : Recipes} (same : sendToWatch recipe = sendToWatch other) :
    recipe.steps = other.steps := by
  rw [sendToWatch_eq, sendToWatch_eq] at same
  have arrays := congrArg (fun context => Dictionary.get? context "steps") same
  simp only [Dictionary.get?_set_self, Option.some.injEq, AnyValue.array.injEq] at arrays
  have entries : recipe.steps.map stepDictionary = other.steps.map stepDictionary :=
    List.map_injective_iff.mpr (fun _ _ equal => AnyValue.dictionary.inj equal) arrays
  exact List.map_injective_iff.mpr stepDictionary_injective entries

/-- A step of 2^31 minutes, an `Int` of the phone. -/
def longSoak : Recipes := { Recipes.blank with steps := [⟨"Deixe de molho", some (2 ^ 31)⟩] }

/-- The watch reads it without its time, and would send another context. -/
theorem long_soak_loses_its_time :
    TimesHeldBy .phone longSoak ∧
    decodeInWatch (sendToWatch longSoak) = [⟨"Deixe de molho", none⟩] ∧
    decodeInWatch (sendToWatch longSoak) ≠ longSoak.steps ∧
    IsStepContext .phone (sendToWatch longSoak) ∧
    sendToWatch { longSoak with steps := decodeInWatch (sendToWatch longSoak) } ≠
      sendToWatch longSoak := by
  have decoded : decodeInWatch (sendToWatch longSoak) = [⟨"Deixe de molho", none⟩] := by
    rw [decode_send]
    rfl
  have held : TimesHeldBy .phone longSoak := by
    simp [TimesHeldBy, longSoak, Step.HeldBy, Device.HoldsInt, Device.intBits]
  have other : decodeInWatch (sendToWatch longSoak) ≠ longSoak.steps := by
    rw [decoded]
    simp [longSoak]
  exact ⟨held, decoded, other, send_isStepContext longSoak held, fun same => other (sent_steps same)⟩

end WatchAndSee.Guarantees.StepCodec
