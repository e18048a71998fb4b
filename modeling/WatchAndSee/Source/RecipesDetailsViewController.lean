import WatchAndSee.Library.DecimalText
import WatchAndSee.Source.ImageLoading
import WatchAndSee.Source.Model

/-!
# Controllers/RecipesDetailsViewController.swift

The details screen of one recipe: its labels, the two lists of its table and
the texts of the table's cells.
-/

set_option autoImplicit false

namespace WatchAndSee.Source
open Library

structure RecipesDetailsViewController (UIImage : Type) where
  recipeImage : Option UIImage
  recipeNameLabel : Option String
  durationLabel : Option String
  portionsLabel : Option String
  recipe : Option Recipes
  items : List (List String)
  steps : List String

namespace RecipesDetailsViewController

variable {URL Data UIImage : Type}

/-- A new details screen after `prepare(for:sender:)` set its recipe. -/
def showing (recipe : Recipes) : RecipesDetailsViewController UIImage :=
  ⟨none, none, none, none, some recipe, [], []⟩

def setupSteps (self : RecipesDetailsViewController UIImage) :
    Except Trap (RecipesDetailsViewController UIImage) := do
  let recipe ← forceUnwrap self.recipe
  pure { self with
    steps := recipe.steps.foldl (fun steps element => steps ++ [element.text]) self.steps }

def viewDidLoad (images : ImageLoading URL Data UIImage) (self : RecipesDetailsViewController UIImage) :
    Except Trap (RecipesDetailsViewController UIImage) := do
  let self ← self.setupSteps
  let self := { self with durationLabel := self.recipe.map Recipes.time }
  let self := { self with portionsLabel := self.recipe.map Recipes.rendiment }
  let recipe ← forceUnwrap self.recipe
  let image ← setImage images recipe.photo
  let self := { self with recipeImage := some image, recipeNameLabel := some recipe.name }
  let self := { self with items := self.items ++ [recipe.ingredients] }
  pure { self with items := self.items ++ [self.steps] }

/-- `tableView(_:cellForRowAt:)`: the texts of `ingredientLabel` and `indexLabel`. -/
def cellForRowAt (self : RecipesDetailsViewController UIImage) (section' row : Int) :
    Except Trap (String × String) := do
  let rows ← elementAt self.items section'
  let text ← elementAt rows row
  pure (text, DecimalText.integer (row + 1))

theorem setupSteps_showing (recipe : Recipes) :
    (showing recipe : RecipesDetailsViewController UIImage).setupSteps =
      .ok { (showing recipe : RecipesDetailsViewController UIImage) with
        steps := recipe.steps.map Step.text } := by
  have loop : recipe.steps.foldl (fun steps element => steps ++ [element.text]) [] =
      recipe.steps.map Step.text := by
    rw [List.foldl_append_eq_append, ← List.flatMap_def, ← List.map_eq_flatMap, List.nil_append]
  simp [setupSteps, showing, loop, bind, Except.bind, pure, Except.pure]

/-- Each cell of a list carries its entry and its place, counted from one. -/
theorem cell_texts (self : RecipesDetailsViewController UIImage) (list : Nat) (rows : List String)
    (inside : self.items[list]? = some rows) (row : Nat) (text : String)
    (entry : rows[row]? = some text) :
    self.cellForRowAt list row = .ok (text, DecimalText.integer (row + 1)) := by
  unfold cellForRowAt
  rw [elementAt_natCast, inside]
  simp only [Option.elim_some, bind, Except.bind]
  rw [elementAt_natCast, entry]
  rfl

end RecipesDetailsViewController

end WatchAndSee.Source
