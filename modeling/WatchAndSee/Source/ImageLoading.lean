import WatchAndSee.Source.SwiftValues

/-!
`setImage(url:)`, which ViewController.swift and RecipesDetailsViewController.swift
repeat word for word. The initializers of `URL`, `Data` and `UIImage` depend on
the network and the system and are parameters.
-/

set_option autoImplicit false

namespace WatchAndSee.Source

structure ImageLoading (URL Data UIImage : Type) where
  /-- `URL(string:)` -/
  url : String → Option URL
  /-- `Data(contentsOf:)`, without a value where it throws. -/
  contents : URL → Option Data
  /-- `UIImage(data:)` -/
  image : Data → Option UIImage

/-- The same loading at a moment when the network has these contents. -/
def ImageLoading.answered {URL Data UIImage : Type} (images : ImageLoading URL Data UIImage)
    (contents : URL → Option Data) : ImageLoading URL Data UIImage :=
  { images with contents := contents }

def setImage {URL Data UIImage : Type} (images : ImageLoading URL Data UIImage) (url : String) :
    Except Trap UIImage := do
  let imgURL ← forceUnwrap (images.url url)
  let data ←
    match images.contents imgURL with
    | some data => Except.ok data
    | none => Except.error Trap.tryFailed
  forceUnwrap (images.image data)

end WatchAndSee.Source
