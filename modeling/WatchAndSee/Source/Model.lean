import WatchAndSee.Source.SwiftValues

/-!
The value types of Model/Step.swift, Model/Recipes.swift and
Model/Category.swift. They are Swift structs: a copy handed out cannot change
later.
-/

set_option autoImplicit false

namespace WatchAndSee.Source

structure Step where
  text : String
  time : Option Int
  deriving DecidableEq, Repr

/-- The step with its time as an `Int` of the device, if the device can hold it. -/
def Step.on (device : Device) (step : Step) : Step :=
  { step with time := step.time.filter fun t => device.HoldsInt t }

/-- Its time is an `Int` of the device. -/
def Step.HeldBy (step : Step) (device : Device) : Prop :=
  ∀ t, step.time = some t → device.HoldsInt t

@[simp] theorem Step.on_text (device : Device) (step : Step) : (step.on device).text = step.text := rfl

theorem Step.on_time (device : Device) (step : Step) (t : Int) :
    (step.on device).time = some t ↔ step.time = some t ∧ device.HoldsInt t := by
  simp [Step.on, Option.filter_eq_some_iff]

theorem Step.on_heldBy (device : Device) (step : Step) : (step.on device).HeldBy device :=
  fun t timed => ((Step.on_time device step t).mp timed).2

theorem Step.on_eq_self_iff (device : Device) (step : Step) :
    step.on device = step ↔ step.HeldBy device := by
  obtain ⟨text, time⟩ := step
  cases time <;> simp [Step.on, Step.HeldBy, Option.filter]

theorem map_on_eq_iff (device : Device) (steps : List Step) :
    steps.map (Step.on device) = steps ↔ ∀ step ∈ steps, step.HeldBy device := by
  have same : steps.map id = steps := List.map_id steps
  calc
    steps.map (Step.on device) = steps ↔ steps.map (Step.on device) = steps.map id := by rw [same]
    _ ↔ ∀ step ∈ steps, step.HeldBy device := by
      simp only [List.map_inj_left, id_eq, Step.on_eq_self_iff]

/-- `Step()` -/
def Step.new : Step := ⟨"", none⟩

structure Recipes where
  name : String
  ingredients : List String
  time : String
  rendiment : String
  photo : String
  steps : List Step
  deriving DecidableEq, Repr

/-- The steps of the recipe as the device holds them. -/
def Recipes.stepsOn (recipe : Recipes) (device : Device) : List Step := recipe.steps.map (Step.on device)

theorem Recipes.stepsOn_eq_iff (recipe : Recipes) (device : Device) :
    recipe.stepsOn device = recipe.steps ↔ ∀ step ∈ recipe.steps, step.HeldBy device :=
  map_on_eq_iff device recipe.steps

/-- What `parseRecipe` returns for a record that it rejects. -/
def Recipes.blank : Recipes := ⟨"", [], "", "", "", []⟩

structure Category where
  name : String
  elements : List String
  recipes : List Recipes
  deriving DecidableEq, Repr

/-- `Category()` -/
def Category.new : Category := ⟨"", [], []⟩

/-- `mutating func setValues(_ name: String, _ elements: [String])` -/
def Category.setValues (self : Category) (name : String) (elements : List String) : Category :=
  { self with name := name, elements := elements }

end WatchAndSee.Source
