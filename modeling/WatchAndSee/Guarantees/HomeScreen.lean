import Mathlib.Data.List.Infix
import WatchAndSee.Source.ViewController

/-!
# Loading the home screen

When the completion handler of `viewDidLoad` finishes, and what it leaves: each
category keeps its name and elements and gets, element by element, the first
recipe of the feed that matches, and the highlight is the first that matches its
search (`home_screen_loads`).
-/

set_option autoImplicit false

namespace WatchAndSee.Guarantees.HomeScreen
open WatchAndSee.Library WatchAndSee.Source

/-- The first recipe of the feed, in feed order, that matches the text. -/
def IsFirstMatch (T : StringSearch) (feed : List Recipes) (search : String) (r : Recipes) : Prop :=
  ∃ before later, feed = before ++ r :: later ∧ nameContains T search r = true ∧
    ∀ other ∈ before, nameContains T search other = false

/-- The category with a recipe for each of its elements. -/
structure Filled (T : StringSearch) (feed : List Recipes) (input output : Category) : Prop where
  name : output.name = input.name
  elements : output.elements = input.elements
  recipes : List.Forall₂ (IsFirstMatch T feed) input.elements output.recipes

/-- The category has elements, and each of them is matched. -/
structure CanFill (T : StringSearch) (feed : List Recipes) (category : Category) : Prop where
  nonempty : category.elements ≠ []
  matched : ∀ element ∈ category.elements, ∃ r ∈ feed, nameContains T element r = true

section Feed

variable (T : StringSearch) (feed : List Recipes)

theorem firstMatch_isFirstMatch (search : String) (r : Recipes)
    (selected : firstMatch T feed search = .ok r) : IsFirstMatch T feed search r := by
  rw [firstMatch_success_iff, List.find?_eq_some_iff_append] at selected
  obtain ⟨found, before, later, split, earlier⟩ := selected
  refine ⟨before, later, split, found, ?_⟩
  intro other member
  simpa using earlier other member

theorem fillCategory_succeeds_iff (category : Category) :
    Succeeds (fillCategory T feed category) ↔ CanFill T feed category := by
  by_cases empty : category.elements = []
  · rw [fillCategory, if_pos empty]
    simp only [not_succeeds_error, false_iff]
    intro canFill
    exact canFill.nonempty empty
  · rw [fillCategory, if_neg empty, succeeds_map, firstMatches_succeed_iff]
    constructor
    · intro matched
      exact ⟨empty, matched⟩
    · intro canFill
      exact canFill.matched

theorem fillCategory_filled (category filled : Category)
    (success : fillCategory T feed category = .ok filled) : Filled T feed category filled := by
  unfold fillCategory at success
  split at success
  · cases success
  · obtain ⟨recipes, selected, rfl⟩ := map_success_iff.mp success
    rw [mapM_success_iff] at selected
    exact ⟨rfl, rfl, selected.imp (fun search r first => firstMatch_isFirstMatch T feed search r first)⟩

theorem categories_succeed_iff (categories : List Category) :
    Succeeds (categories.mapM (fillCategory T feed)) ↔
      ∀ category ∈ categories, CanFill T feed category := by
  rw [mapM_succeeds_iff]
  simp only [fillCategory_succeeds_iff]

theorem categories_filled (categories filled : List Category)
    (success : categories.mapM (fillCategory T feed) = .ok filled) :
    List.Forall₂ (Filled T feed) categories filled :=
  ((mapM_success_iff _ _ _).mp success).imp
    (fun category one success => fillCategory_filled T feed category one success)

end Feed

/-- With image loading assumed to succeed, the handler on a new manager finishes
exactly when every category can be filled and the highlight search is matched,
and then leaves the filled categories and the first match of the search. -/
theorem home_screen_loads {URL Data UIImage : Type} (T : StringSearch)
    (images : ImageLoading URL Data UIImage)
    (loads : ∀ url, ∃ image, setImage images url = .ok image) (search : String)
    (self : ViewController UIImage) (feed : List Recipes) :
    let outcome := ViewController.completion T images search { self with objManager := .new } (some feed)
    (Succeeds outcome ↔
      (∀ category ∈ self.categories, CanFill T feed category) ∧
        ∃ r ∈ feed, nameContains T search r = true) ∧
    ∀ after, outcome = .ok after →
      List.Forall₂ (Filled T feed) self.categories after.categories ∧
        ∃ r, after.highlightRecipe = some r ∧ IsFirstMatch T feed search r := by
  simp only [ViewController.completion_eq]
  constructor
  · simp only [succeeds_bind_iff, succeeds_map, ← categories_succeed_iff, ← firstMatch_succeeds_iff]
    constructor
    · intro finished
      obtain ⟨filled, categories, highlight, selected, _⟩ := finished
      exact ⟨⟨filled, categories⟩, ⟨highlight, selected⟩⟩
    · intro conditions
      obtain ⟨⟨filled, categories⟩, ⟨highlight, selected⟩⟩ := conditions
      exact ⟨filled, categories, highlight, selected, loads highlight.photo⟩
  · intro after success
    simp only [bind_success_iff, map_success_iff] at success
    obtain ⟨filled, categories, highlight, selected, image, _, rfl⟩ := success
    constructor
    · exact categories_filled T feed _ _ categories
    · exact ⟨highlight, rfl, firstMatch_isFirstMatch T feed search highlight selected⟩

/-- Lowercase and substrings of texts without capital letters beyond ASCII. -/
def asciiSearch : StringSearch where
  lowercased text := String.ofList (text.toList.map Char.toLower)
  contains text part := decide (part.toList <:+: text.toList)

/-- A device on which every image loads. -/
def blankImages : ImageLoading Unit Unit Unit := ⟨fun _ => some (), fun _ => some (), fun _ => some ()⟩

def dishNamed (name : String) : Recipes := { Recipes.blank with name := name }

theorem nameContains_self (name : String) : nameContains asciiSearch name (dishNamed name) = true := by
  have named : (dishNamed name).name = name := rfl
  simp only [nameContains, asciiSearch, named, decide_eq_true_eq]
  exact List.infix_refl _

/-- The dishes that the app asks for, one of them also under a longer name. -/
def weekendDishes : List String :=
  ["Rabada", "Torta de Frango", "Ratatouille de forno", "Berinjela à parmegiana", "Ratatouille",
    "Costela de cordeiro assada ao molho de hortelã", "Sanduíche de Carne de Panela na Travessa"]

theorem dish_matched (name : String) (listed : name ∈ weekendDishes) :
    ∃ r ∈ weekendDishes.map dishNamed, nameContains asciiSearch name r = true :=
  ⟨dishNamed name, List.mem_map_of_mem listed, nameContains_self name⟩

theorem weekend_feed_loads :
    Succeeds (ViewController.completion asciiSearch blankImages ViewController.highlightSearch
      { (ViewController.new : ViewController Unit).viewDidLoad with objManager := .new }
      (some (weekendDishes.map dishNamed))) := by
  apply (home_screen_loads asciiSearch blankImages (fun _ => ⟨(), rfl⟩) _ _ _).1.mpr
  constructor
  · intro category member
    simp only [ViewController.viewDidLoad, ViewController.setupCategories, ViewController.new,
      List.nil_append, List.cons_append, List.mem_cons, List.not_mem_nil, or_false] at member
    constructor
    · rcases member with rfl | rfl <;> simp [Category.setValues]
    · intro element inside
      apply dish_matched
      rcases member with rfl | rfl
      · simp only [Category.setValues, List.mem_cons, List.not_mem_nil, or_false] at inside
        rcases inside with rfl | rfl <;> simp [weekendDishes]
      · simp only [Category.setValues, List.mem_cons, List.not_mem_nil, or_false] at inside
        rcases inside with rfl | rfl | rfl <;> simp [weekendDishes]
  · exact dish_matched _ (by simp [weekendDishes, ViewController.highlightSearch])

end WatchAndSee.Guarantees.HomeScreen
