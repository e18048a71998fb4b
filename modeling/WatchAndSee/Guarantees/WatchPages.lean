import WatchAndSee.Source.InterfaceController
import WatchAndSee.Source.RecipesDetailsViewController
import WatchAndSee.Source.TimerInterfaceController

/-!
# From the phone's recipe to the watch's pages

A recipe is encoded on the phone, decoded on the watch, laid out as two parallel
arrays, and its times are read back from their texts by the timer pages. A time
that the watch's `Int` cannot hold is lost in the decoding: from there on the
step is one without a time.

* the pages follow the steps, each timed step with its timer right behind it
  (`pages_follow_steps`);
* the texts of the step pages are the list of the phone's details screen
  (`step_page_texts`);
* the two arrays determine the steps (`pages_determine_steps`);
* `recipe_reaches_watch` assembles them.
-/

set_option autoImplicit false

namespace WatchAndSee.Guarantees.WatchPages
open WatchAndSee.Library WatchAndSee.Source

/-- Awakened with the text, a timer page reads the time without returning early. -/
structure TimerReads (text : String) (t : ℤ) : Prop where
  parses : double Binary64.round text = some (t : ℚ)
  timeLeft : ∀ (timer : TimerInterfaceController) (now : ℚ),
    timer.awake Binary64.round now (some (.string text)) =
      { timer with
        timeLeft := t + 1
        timer := timer.timer.setDate (dateSince Binary64.round now (t + 1)) }

/-- The two arrays hold the pages of the steps, in order. -/
inductive PagesFor : List Step → List String → List String → Prop where
  | nil : PagesFor [] [] []
  | untimed (text : String) {steps : List Step} {controllers context : List String}
      (rest : PagesFor steps controllers context) :
      PagesFor (⟨text, none⟩ :: steps) ("StepInterfaceController" :: controllers) (text :: context)
  | timed (text timeValue : String) (t : ℤ) (reads : TimerReads timeValue t) {steps : List Step}
      {controllers context : List String} (rest : PagesFor steps controllers context) :
      PagesFor (⟨text, some t⟩ :: steps)
        ("StepInterfaceController" :: "TimerInterfaceController" :: controllers)
        (text :: timeValue :: context)

theorem PagesFor.timer_behind {text : String} {t : ℤ} {steps : List Step}
    {controllers context : List String}
    (pages : PagesFor (⟨text, some t⟩ :: steps) controllers context) :
    controllers[1]? = some "TimerInterfaceController" := by
  cases pages
  rfl

/-- The block that runs on the watch for the context of a recipe. -/
def watchReceives (watch : InterfaceController) (recipe : Recipes) : InterfaceController × Pages :=
  receiveBlock watch (sendToWatch recipe).bridged

/-- The contexts of the step pages, in order. -/
def stepPageContexts (pages : Pages) : List String :=
  ((pages.controllers.zip pages.context).filter
    (fun page => page.1 == "StepInterfaceController")).map Prod.snd

theorem watchReceives_eq (watch : InterfaceController) (recipe : Recipes) :
    watchReceives watch recipe =
      (⟨recipe.stepsOn .watch⟩, ⟨(stepBlocks.write (recipe.stepsOn .watch)).map Prod.fst,
        (stepBlocks.write (recipe.stepsOn .watch)).map Prod.snd⟩) := by
  unfold watchReceives receiveBlock
  simp only [optionals_bridged_send, decode_send, page_arrays]

theorem zip_pages (pages : List (String × String)) :
    (pages.map Prod.fst).zip (pages.map Prod.snd) = pages := by
  rw [List.zip_map']
  exact List.map_id pages

/-- An exact time is read back by its timer page. -/
theorem timer_reads (t : ℤ) (exact : |t| < 2 ^ 53) : TimerReads (DecimalText.integer t) t where
  parses := double_integer t exact
  timeLeft timer now := awake_integer timer now t exact

theorem pages_follow_steps (steps : List Step) (held : ∀ step ∈ steps, step.HeldBy .watch) :
    PagesFor steps ((stepBlocks.write steps).map Prod.fst)
      ((stepBlocks.write steps).map Prod.snd) := by
  induction steps with
  | nil => exact .nil
  | cons step rest ih =>
    have others := ih (fun later member => held later (List.mem_cons_of_mem _ member))
    obtain ⟨text, time⟩ := step
    cases time with
    | none => exact .untimed text others
    | some t =>
      have small : Device.watch.HoldsInt t := held _ List.mem_cons_self t rfl
      exact .timed text _ t (timer_reads t small.exact) others

/-- The watch has the texts of all steps, whatever happens to their times. -/
theorem texts_on (device : Device) (recipe : Recipes) :
    (recipe.stepsOn device).map Step.text = recipe.steps.map Step.text := by
  rw [Recipes.stepsOn, List.map_map]
  rfl

/-- The texts of the step pages are the steps of the phone's details screen. -/
theorem step_page_texts (steps : List Step) :
    stepPageContexts ⟨(stepBlocks.write steps).map Prod.fst, (stepBlocks.write steps).map Prod.snd⟩ =
      steps.map Step.text := by
  have heads := stepBlocks.filter_write steps
  simp only [stepPageContexts, zip_pages]
  calc
    ((stepBlocks.write steps).filter stepBlocks.marked).map Prod.snd =
        (steps.map stepBlocks.head).map Prod.snd := by rw [heads]
    _ = steps.map Step.text := by
      rw [List.map_map]
      rfl

theorem pages_determine_steps (steps others : List Step)
    (controllers : (stepBlocks.write others).map Prod.fst = (stepBlocks.write steps).map Prod.fst)
    (context : (stepBlocks.write others).map Prod.snd = (stepBlocks.write steps).map Prod.snd) :
    others = steps := by
  apply steps_of_blocks
  rw [← zip_pages (stepBlocks.write others), controllers, context, zip_pages]

/-- For every recipe: the arrays have equal length and hold the pages of its
steps as the watch holds them, which are its steps exactly when the watch holds
all their times; the step pages carry the texts that a new details screen lists,
and no recipe that the watch holds other steps of gives the same arrays. -/
theorem recipe_reaches_watch (watch : InterfaceController) (recipe : Recipes) :
    let received := watchReceives watch recipe
    received.1.steps = recipe.stepsOn .watch ∧
    (recipe.stepsOn .watch = recipe.steps ↔ ∀ step ∈ recipe.steps, step.HeldBy .watch) ∧
    received.2.controllers.length = received.2.context.length ∧
    PagesFor (recipe.stepsOn .watch) received.2.controllers received.2.context ∧
    (∀ UIImage : Type, ∃ details : RecipesDetailsViewController UIImage,
      (RecipesDetailsViewController.showing recipe).setupSteps = .ok details ∧
        stepPageContexts received.2 = details.steps) ∧
    ∀ (watch' : InterfaceController) (other : Recipes),
      other.stepsOn .watch ≠ recipe.stepsOn .watch → (watchReceives watch' other).2 ≠ received.2 := by
  simp only [watchReceives_eq]
  have held : ∀ step ∈ recipe.stepsOn .watch, step.HeldBy .watch := by
    intro step member
    obtain ⟨original, _, rfl⟩ := List.mem_map.mp member
    exact Step.on_heldBy .watch original
  refine ⟨trivial, Recipes.stepsOn_eq_iff recipe .watch, by simp, pages_follow_steps _ held, ?_, ?_⟩
  · intro UIImage
    refine ⟨_, RecipesDetailsViewController.setupSteps_showing recipe, ?_⟩
    exact (step_page_texts _).trans (texts_on .watch recipe)
  · intro _ other different same
    rw [Pages.mk.injEq] at same
    exact different (pages_determine_steps _ _ same.1 same.2)

/-- A timed step between two that are not, one of them with a number for a text. -/
def threeSteps : Recipes :=
  { Recipes.blank with steps := [⟨"Corte", none⟩, ⟨"Asse", some 600⟩, ⟨"600", none⟩] }

theorem three_steps_reach_watch :
    PagesFor threeSteps.steps
      ["StepInterfaceController", "StepInterfaceController", "TimerInterfaceController",
        "StepInterfaceController"]
      ["Corte", "Asse", "600", "600"] := by
  have pages := (recipe_reaches_watch .new threeSteps).2.2.2.1
  exact pages

/-- A step of 2^31 minutes between two others. -/
def slowSteps : Recipes :=
  { Recipes.blank with steps := [⟨"Corte", none⟩, ⟨"Cure", some (2 ^ 31)⟩, ⟨"Sirva", some 5⟩] }

/-- Its page has no timer behind it, and the recipe without that time gives the
same pages. -/
theorem slow_step_has_no_timer :
    (∀ step ∈ slowSteps.steps, ∀ t, step.time = some t → Device.phone.HoldsInt t ∧ |t| < 2 ^ 53) ∧
    (watchReceives .new slowSteps).2 =
      ⟨["StepInterfaceController", "StepInterfaceController", "StepInterfaceController",
          "TimerInterfaceController"],
        ["Corte", "Cure", "Sirva", "5"]⟩ ∧
    ¬ PagesFor slowSteps.steps (watchReceives .new slowSteps).2.controllers
      (watchReceives .new slowSteps).2.context ∧
    ∃ other : Recipes, other.steps ≠ slowSteps.steps ∧
      (watchReceives .new other).2 = (watchReceives .new slowSteps).2 := by
  have pages : (watchReceives .new slowSteps).2 =
      ⟨["StepInterfaceController", "StepInterfaceController", "StepInterfaceController",
          "TimerInterfaceController"],
        ["Corte", "Cure", "Sirva", "5"]⟩ := by
    rw [watchReceives_eq]
    rfl
  refine ⟨?_, pages, ?_, { Recipes.blank with steps := slowSteps.stepsOn .watch }, ?_, ?_⟩
  · simp [slowSteps, Device.HoldsInt, Device.intBits]
  · rw [pages]
    intro follows
    simp only [slowSteps] at follows
    cases follows with
    | untimed text rest => exact absurd rest.timer_behind (by decide)
  · simp [slowSteps, Recipes.stepsOn, Step.on, Option.filter, Device.HoldsInt, Device.intBits]
  · rw [watchReceives_eq, watchReceives_eq]
    rfl

end WatchAndSee.Guarantees.WatchPages
