import WatchAndSee.Source.CategoryCell
import WatchAndSee.Source.RecipesDetailsViewController
import WatchAndSee.Source.ViewController
import WatchAndSee.Source.WatchController

/-!
# The two screens of the phone

What the user sees and touches of Controllers/ViewController.swift and
Controllers/RecipesDetailsViewController.swift: the loading view, the tables,
the segue between the screens and the button that sends a recipe to the watch.
Fonts, colours and frames are left out.
-/

set_option autoImplicit false

namespace WatchAndSee.Source
open Library

variable {URL Data UIImage : Type}

/-! ## ViewController.swift -/

/-- The home screen: its data, the recipe of the next segue and what covers it
while it loads. -/
structure HomeView (UIImage : Type) where
  controller : ViewController UIImage
  rec' : Option Recipes
  isUserInteractionEnabled : Bool
  activityIndicator : Bool
  loadingViewIsHidden : Bool
  loadingLabel : String
  loadingLabelIsHidden : Bool

namespace HomeView

/-- As the storyboard sets it up. -/
def new : HomeView UIImage := ⟨.new, none, true, false, false, "Carregando...", false⟩

/-- `viewDidLoad()`, with whether it requested the recipes. -/
def viewDidLoad (checkCconnection : Bool) (self : HomeView UIImage) : HomeView UIImage × Bool :=
  let self := { self with controller := self.controller.viewDidLoad }
  let self := { self with isUserInteractionEnabled := false }
  let self := { self with activityIndicator := true }
  if checkCconnection then (self, true)
  else
    let self := { self with activityIndicator := false }
    ({ self with loadingLabel := "Sem conexão de Internet" }, false)

/-- The completion handler with everything it changes on the screen. -/
def completion (T : StringSearch) (images : ImageLoading URL Data UIImage) (search : String)
    (self : HomeView UIImage) (receivedRecipe : Option (List Recipes)) :
    Except Trap (HomeView UIImage) :=
  match receivedRecipe with
  | none => .ok self
  | some received => do
    let self := { self with isUserInteractionEnabled := true }
    let self := { self with activityIndicator := false }
    let self := { self with loadingViewIsHidden := true, loadingLabelIsHidden := true }
    let controller ← self.controller.completion T images search (some received)
    pure { self with controller := controller }

def numberOfSections (self : HomeView UIImage) : Nat := self.controller.categories.length

/-- `tableView(_:numberOfRowsInSection:)` -/
def numberOfRowsInSection : Nat := 1

/-- `tableView(_:cellForRowAt:)` -/
def cellForRowAt (self : HomeView UIImage) (dequeued : CategoryCell) (section' : Int) :
    Except Trap CategoryCell := do
  let category ← elementAt self.controller.categories section'
  let cell := dequeued.setup category
  pure { cell with delegate := true }

/-- The title of `tableView(_:viewForHeaderInSection:)`. -/
def viewForHeaderInSection (self : HomeView UIImage) (section' : Int) : Except Trap String :=
  (elementAt self.controller.categories section').map Category.name

/-- `prepare(for:sender:)`, with the details screen that the segue created. -/
def prepare (self : HomeView UIImage) : Except Trap (RecipesDetailsViewController UIImage) := do
  let recipe ← forceUnwrap self.rec'
  pure (RecipesDetailsViewController.showing recipe)

/-- `goToDetails(recipe:)` until the details screen has loaded. -/
def goToDetails (images : ImageLoading URL Data UIImage) (self : HomeView UIImage)
    (recipe : Recipes) :
    Except Trap (HomeView UIImage × RecipesDetailsViewController UIImage) := do
  let self := { self with rec' := some recipe }
  let details ← self.prepare
  let details ← details.viewDidLoad images
  pure (self, details)

def highlightPressed (images : ImageLoading URL Data UIImage) (self : HomeView UIImage) :
    Except Trap (HomeView UIImage × RecipesDetailsViewController UIImage) := do
  let highlightRecipe ← forceUnwrap self.controller.highlightRecipe
  self.goToDetails images highlightRecipe

/-- `presentData(recipe:)` of the cells' delegate. -/
def presentData (images : ImageLoading URL Data UIImage) (self : HomeView UIImage)
    (recipe : Recipes) :
    Except Trap (HomeView UIImage × RecipesDetailsViewController UIImage) :=
  self.goToDetails images recipe

end HomeView

/-! ## RecipesDetailsViewController.swift -/

structure Alert where
  title : String
  message : String
  deriving DecidableEq, Repr

namespace RecipesDetailsViewController

/-- The two sections of the table, which nothing changes. -/
def sections : List String := ["Ingredientes", "Modo de preparo"]

def numberOfSections : Nat := sections.length

/-- `tableView(_:titleForHeaderInSection:)` -/
def titleForHeaderInSection (section' : Int) : Except Trap String := elementAt sections section'

/-- `tableView(_:numberOfRowsInSection:)` -/
def numberOfRowsInSection (self : RecipesDetailsViewController UIImage) (section' : Int) :
    Except Trap Nat :=
  (elementAt self.items section').map List.length

def sucesso : Alert := ⟨"Sucesso", "Verifique seu Apple Watch"⟩
def erro : Alert := ⟨"Erro", ""⟩

/-- `startRecipeButtonPressed(_:)`, with the context that waits for delivery
afterwards and the alert that it presents. -/
def startRecipeButtonPressed (connectivity : Connectivity) (waiting : Option AnyDictionary)
    (self : RecipesDetailsViewController UIImage) : Option AnyDictionary × Option Alert :=
  match self.recipe with
  | some recipe =>
    let (waiting, sent) := prepareToSendValue connectivity waiting recipe
    if sent then (waiting, some sucesso) else (waiting, some erro)
  | none => (waiting, none)

end RecipesDetailsViewController

/-! ## Opening the details -/

/-- The details screen of a recipe, once it has loaded. -/
structure Shows (details : RecipesDetailsViewController UIImage) (recipe : Recipes) : Prop where
  about : details.recipe = some recipe
  name : details.recipeNameLabel = some recipe.name
  duration : details.durationLabel = some recipe.time
  portions : details.portionsLabel = some recipe.rendiment
  picture : details.recipeImage.isSome
  items : details.items = [recipe.ingredients, recipe.steps.map Step.text]

theorem viewDidLoad_showing (images : ImageLoading URL Data UIImage) (recipe : Recipes) :
    ∃ loaded : UIImage → RecipesDetailsViewController UIImage,
      (RecipesDetailsViewController.showing recipe).viewDidLoad images =
        (setImage images recipe.photo).map loaded ∧ ∀ image, Shows (loaded image) recipe := by
  refine ⟨fun image => ⟨some image, some recipe.name, some recipe.time, some recipe.rendiment,
    some recipe, [recipe.ingredients, recipe.steps.map Step.text], recipe.steps.map Step.text⟩, ?_,
    fun image => ⟨rfl, rfl, rfl, rfl, rfl, rfl⟩⟩
  unfold RecipesDetailsViewController.viewDidLoad
  rw [RecipesDetailsViewController.setupSteps_showing]
  simp only [RecipesDetailsViewController.showing, bind, Except.bind, forceUnwrap_some]
  cases setImage images recipe.photo <;> rfl

/-- Going to the details fails with the photo and otherwise shows the recipe. -/
theorem goToDetails_eq (images : ImageLoading URL Data UIImage) (self : HomeView UIImage)
    (recipe : Recipes) :
    ∃ loaded : UIImage → RecipesDetailsViewController UIImage,
      self.goToDetails images recipe = (setImage images recipe.photo).map (fun image =>
        ({ self with rec' := some recipe }, loaded image)) ∧
      ∀ image, Shows (loaded image) recipe := by
  obtain ⟨loaded, run, shows⟩ := viewDidLoad_showing images recipe
  refine ⟨loaded, ?_, shows⟩
  unfold HomeView.goToDetails HomeView.prepare
  simp only [forceUnwrap_some, bind, Except.bind, pure_eq_ok, run]
  cases setImage images recipe.photo <;> rfl

end WatchAndSee.Source
