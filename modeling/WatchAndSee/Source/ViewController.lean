import WatchAndSee.Source.ImageLoading
import WatchAndSee.Source.ObjectsManager

/-!
# Controllers/ViewController.swift

The home screen: its fixed categories, the completion handler of the recipe
request and the highlighted recipe. The loading indicators, which nothing
reads, are left out.
-/

set_option autoImplicit false

namespace WatchAndSee.Source
open Library

structure ViewController (UIImage : Type) where
  objManager : ObjectsManager
  highlightImage : Option UIImage
  hightlightLabel : Option String
  highlightRecipe : Option Recipes
  recipes : List Recipes
  categories : List Category

namespace ViewController

variable {URL Data UIImage : Type}

/-- `ViewController()` -/
def new : ViewController UIImage := ⟨.new, none, none, none, [], []⟩

def setupCategories (self : ViewController UIImage) (name : String) (elements : List String) :
    ViewController UIImage :=
  let category := Category.new
  let category := category.setValues name elements
  { self with categories := self.categories ++ [category] }

/-- `viewDidLoad` up to the request for the recipes. -/
def viewDidLoad (self : ViewController UIImage) : ViewController UIImage :=
  let self := self.setupCategories "Para impressionar as visitas"
    ["Costela de cordeiro assada ao molho de hortelã", "Ratatouille"]
  self.setupCategories "Almoço requintado"
    ["Sanduíche de Carne de Panela na Travessa", "Berinjela à parmegiana", "Rabada"]

/-- The search of `setupHighlightRecipe`. -/
def highlightSearch : String := "Torta de Frango"

section Load

variable (T : StringSearch) (images : ImageLoading URL Data UIImage) (search : String)

/-- In the source `search` is `highlightSearch`. -/
def setupHighlightRecipe (self : ViewController UIImage) : Except Trap (ViewController UIImage) := do
  let result := self.recipes.filter (nameContains T search)
  let highlight ← elementAt result 0
  let image ← setImage images highlight.photo
  let self := { self with highlightImage := some image }
  let highlight ← elementAt result 0
  let self := { self with hightlightLabel := some highlight.name }
  let highlight ← elementAt result 0
  pure { self with highlightRecipe := some highlight }

/-- The completion handler that `viewDidLoad` passes to `createRecipeObject`. -/
def completion (self : ViewController UIImage) (receivedRecipe : Option (List Recipes)) :
    Except Trap (ViewController UIImage) :=
  match receivedRecipe with
  | none => .ok self
  | some received => do
    let self := { self with recipes := received }
    let (objManager, categories) ← createCategories T self.objManager self.recipes self.categories
    let self := { self with objManager := objManager, categories := categories }
    setupHighlightRecipe T images search self

theorem setupHighlightRecipe_eq (self : ViewController UIImage) :
    setupHighlightRecipe T images search self =
      firstMatch T self.recipes search >>= fun highlight =>
        (setImage images highlight.photo).map fun image =>
          { self with
            highlightImage := some image
            hightlightLabel := some highlight.name
            highlightRecipe := some highlight } := by
  simp only [setupHighlightRecipe, firstMatch]
  cases elementAt (self.recipes.filter (nameContains T search)) 0 with
  | error trap => rfl
  | ok highlight =>
    simp only [bind, Except.bind]
    cases setImage images highlight.photo <;> rfl

/-- The screen after a load that filled the given categories. -/
def loaded (self : ViewController UIImage) (received : List Recipes) (filled : List Category)
    (highlight : Recipes) (image : UIImage) : ViewController UIImage where
  objManager := self.objManager.afterFilling filled
  highlightImage := some image
  hightlightLabel := some highlight.name
  highlightRecipe := some highlight
  recipes := received
  categories := self.objManager.categoryList ++ filled

/-- The handler fills the categories and then selects the highlight. -/
theorem completion_eq (self : ViewController UIImage) (received : List Recipes) :
    completion T images search self (some received) =
      self.categories.mapM (fillCategory T received) >>= fun filled =>
      firstMatch T received search >>= fun highlight =>
        (setImage images highlight.photo).map fun image =>
          self.loaded received filled highlight image := by
  simp only [completion, setupHighlightRecipe_eq, createCategories_eq]
  cases self.categories.mapM (fillCategory T received) <;> rfl

end Load

end ViewController

end WatchAndSee.Source
