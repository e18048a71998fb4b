import WatchAndSee.Source.ImageLoading
import WatchAndSee.Source.Model

/-!
# Controllers/Cells/CategoryCell.swift

A row of the home screen's table: the recipes of one category as a collection.
The delegate is the home screen, which outlives its cells; only its presence is
kept. Dequeued items are of the class that the storyboard registers.
-/

set_option autoImplicit false

namespace WatchAndSee.Source
open Library

structure CategoryCell where
  category : Option Category
  delegate : Bool
  deriving DecidableEq, Repr

namespace CategoryCell

variable {URL Data UIImage : Type}

/-- A cell of the storyboard after `awakeFromNib()`. -/
def awakeFromNib : CategoryCell := ⟨none, false⟩

def setup (self : CategoryCell) (category : Category) : CategoryCell :=
  { self with category := some category }

/-- `collectionView(_:numberOfItemsInSection:)` -/
def numberOfItemsInSection (self : CategoryCell) : Except Trap Nat :=
  forceUnwrap (self.category.map fun category => category.recipes.length)

/-- `category?.recipes[indexPath.row]` -/
def recipeAt (self : CategoryCell) (row : Int) : Except Trap (Option Recipes) :=
  match self.category with
  | some category => (elementAt category.recipes row).map some
  | none => .ok none

/-- `setImage(url:)` of a cell catches the error of the download and goes on with
`Data()`, here `noData`. -/
def setImage (images : ImageLoading URL Data UIImage) (noData : Data) (url : String) :
    Except Trap UIImage := do
  let imgURL ← forceUnwrap (images.url url)
  let data := (images.contents imgURL).getD noData
  forceUnwrap (images.image data)

/-- `collectionView(_:cellForItemAt:)`: the text and the image of the item. -/
def cellForItemAt (images : ImageLoading URL Data UIImage) (noData : Data) (self : CategoryCell)
    (row : Int) : Except Trap (Option String × UIImage) := do
  let labelled ← self.recipeAt row
  let pictured ← self.recipeAt row
  let photo ← forceUnwrap (pictured.map Recipes.photo)
  let image ← setImage images noData photo
  pure (labelled.map Recipes.name, image)

/-- `collectionView(_:didSelectItemAt:)`: the recipe that the delegate presents. -/
def didSelectItemAt (self : CategoryCell) (row : Int) : Except Trap (Option Recipes) :=
  if self.delegate then do
    let selected ← self.recipeAt row
    let recipe ← forceUnwrap selected
    pure (some recipe)
  else .ok none

/-! ## A cell that shows a category -/

variable {self : CategoryCell} {category : Category}

theorem numberOfItems_showing (shows : self.category = some category) :
    self.numberOfItemsInSection = .ok category.recipes.length := by
  rw [numberOfItemsInSection, shows]
  rfl

theorem recipeAt_showing (shows : self.category = some category) {row : Nat} {r : Recipes}
    (item : category.recipes[row]? = some r) : self.recipeAt row = .ok (some r) := by
  rw [recipeAt, shows]
  simp only [elementAt_natCast, item]
  rfl

theorem didSelectItemAt_showing (shows : self.category = some category)
    (delegate : self.delegate = true) {row : Nat} {r : Recipes}
    (item : category.recipes[row]? = some r) : self.didSelectItemAt row = .ok (some r) := by
  rw [didSelectItemAt, if_pos delegate, recipeAt_showing shows item]
  rfl

theorem cellForItemAt_showing (images : ImageLoading URL Data UIImage) (noData : Data)
    (shows : self.category = some category) {row : Nat} {r : Recipes}
    (item : category.recipes[row]? = some r) :
    self.cellForItemAt images noData row =
      (setImage images noData r.photo).map fun image => (some r.name, image) := by
  rw [cellForItemAt, recipeAt_showing shows item]
  simp only [bind, Except.bind, Option.map_some, forceUnwrap_some]
  cases setImage images noData r.photo <;> rfl

/-- Catching the error saves nothing where `Data()` is no image: the image of an
item loads exactly when the image of a screen does. -/
theorem setImage_succeeds_iff (images : ImageLoading URL Data UIImage) {noData : Data}
    (noPicture : images.image noData = none) (url : String) :
    Succeeds (setImage images noData url) ↔ Succeeds (Source.setImage images url) := by
  unfold setImage Source.setImage
  rw [succeeds_bind_iff, succeeds_bind_iff]
  apply exists_congr
  intro imgURL
  cases found : images.contents imgURL with
  | some data => rfl
  | none => simp [noPicture, bind, Except.bind]

end CategoryCell

end WatchAndSee.Source
