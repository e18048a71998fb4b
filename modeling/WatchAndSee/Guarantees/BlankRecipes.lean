import WatchAndSee.Guarantees.HomeScreen
import WatchAndSee.Source.ParseManager

/-!
# Blank recipes on the home screen

The parser answers a rejected record with a blank recipe, and the feed carries
it to the home screen like any other. No text of the home screen is found in its
empty name, so inserting blank recipes anywhere in a feed changes neither which
loads trap nor what a load leaves (`blank_recipes_inert`).
-/

set_option autoImplicit false

namespace WatchAndSee.Guarantees.BlankRecipes
open WatchAndSee.Library WatchAndSee.Source WatchAndSee.Guarantees.HomeScreen

/-- What the parser returns for a record that it rejects. -/
def OfRejectedRecord (r : Recipes) : Prop :=
  ∃ (E : Enumeration String AnyValue) (self after : ParseManager) (d : AnyDictionary),
    (∀ ing stp, ¬ Accepted d ing stp) ∧ parseRecipe E self d = .ok (after, r)

/-- The first feed is the second with recipes of rejected records inserted. -/
inductive WithBlanks : List Recipes → List Recipes → Prop where
  | nil : WithBlanks [] []
  | keep (r : Recipes) {extended feed : List Recipes} (rest : WithBlanks extended feed) :
      WithBlanks (r :: extended) (r :: feed)
  | insert (r : Recipes) (rejected : OfRejectedRecord r) {extended feed : List Recipes}
      (rest : WithBlanks extended feed) : WithBlanks (r :: extended) feed

theorem WithBlanks.refl (feed : List Recipes) : WithBlanks feed feed := by
  induction feed with
  | nil => exact .nil
  | cons r _ ih => exact .keep r ih

/-- Lowercasing maps the empty string only to itself, and the empty string
contains no other. -/
structure EmptyIsBare (T : StringSearch) : Prop where
  lowercased : ∀ text, T.lowercased text = "" ↔ text = ""
  contains : ∀ part, part ≠ "" → T.contains "" part = false

theorem ofRejectedRecord_iff (r : Recipes) : OfRejectedRecord r ↔ r = Recipes.blank := by
  constructor
  · intro given
    obtain ⟨E, self, after, d, rejected, success⟩ := given
    exact parseRecipe_rejected E self d after r success rejected
  · rintro rfl
    refine ⟨Enumeration.ascending, .new, .new,
      Dictionary.empty.set "Ingredientes" (.string ""), ?_, rfl⟩
    intro ing stp accepted
    have mistyped := accepted.ingredientes
    simp [dictionaryAt, AnyValue.asDictionary] at mistyped

section Search

variable {T : StringSearch} (bare : EmptyIsBare T) {extended feed : List Recipes}
  (blanks : WithBlanks extended feed)

include bare

theorem blank_unmatched (search : String) (nonempty : search ≠ "") :
    nameContains T search Recipes.blank = false := by
  have name : T.lowercased Recipes.blank.name = "" := (bare.lowercased _).mpr rfl
  unfold nameContains
  rw [name]
  exact bare.contains _ (mt (bare.lowercased search).mp nonempty)

include blanks

/-- The matches of a text are the same recipes in the same order. -/
theorem matches_withBlanks (search : String) (nonempty : search ≠ "") :
    extended.filter (nameContains T search) = feed.filter (nameContains T search) := by
  induction blanks with
  | nil => rfl
  | keep r _ ih => rw [List.filter_cons, List.filter_cons, ih]
  | insert r rejected _ ih =>
    rw [(ofRejectedRecord_iff r).mp rejected, List.filter_cons,
      blank_unmatched bare search nonempty, ih]
    rfl

theorem firstMatch_withBlanks (search : String) (nonempty : search ≠ "") :
    firstMatch T extended search = firstMatch T feed search := by
  unfold firstMatch
  rw [matches_withBlanks bare blanks search nonempty]

theorem fillCategory_withBlanks (category : Category)
    (nonempty : ∀ element ∈ category.elements, element ≠ "") :
    fillCategory T extended category = fillCategory T feed category := by
  have firsts : category.elements.mapM (firstMatch T extended) =
      category.elements.mapM (firstMatch T feed) :=
    mapM_congr fun element member => firstMatch_withBlanks bare blanks element (nonempty element member)
  unfold fillCategory
  rw [firsts]

end Search

/-- The handler on a new manager ends with the same trap, or with the same
screen except for the list of received recipes. -/
theorem blank_recipes_inert {URL Data UIImage : Type} (T : StringSearch) (bare : EmptyIsBare T)
    (images : ImageLoading URL Data UIImage) (search : String) (searched : search ≠ "")
    (self : ViewController UIImage)
    (nonempty : ∀ category ∈ self.categories, ∀ element ∈ category.elements, element ≠ "")
    (extended feed : List Recipes) (blanks : WithBlanks extended feed) :
    (ViewController.completion T images search { self with objManager := .new } (some extended)).map
        (fun after => { after with recipes := feed }) =
      ViewController.completion T images search { self with objManager := .new } (some feed) := by
  have filled : self.categories.mapM (fillCategory T extended) =
      self.categories.mapM (fillCategory T feed) :=
    mapM_congr fun category member =>
      fillCategory_withBlanks bare blanks category (nonempty category member)
  have first := firstMatch_withBlanks bare blanks search searched
  simp only [ViewController.completion_eq, filled, first, map_bind, map_map]
  rfl

theorem asciiSearch_bare : EmptyIsBare asciiSearch where
  lowercased text := by
    rw [← String.toList_inj]
    simp [asciiSearch]
  contains part nonempty := by
    simpa [asciiSearch] using nonempty

/-- A blank recipe before the dishes of the weekend. -/
theorem weekend_after_blank :
    (ViewController.completion asciiSearch blankImages ViewController.highlightSearch
      { (ViewController.new : ViewController Unit).viewDidLoad with objManager := .new }
      (some (Recipes.blank :: weekendDishes.map dishNamed))).map
        (fun after => { after with recipes := weekendDishes.map dishNamed }) =
    ViewController.completion asciiSearch blankImages ViewController.highlightSearch
      { (ViewController.new : ViewController Unit).viewDidLoad with objManager := .new }
      (some (weekendDishes.map dishNamed)) := by
  apply blank_recipes_inert asciiSearch asciiSearch_bare blankImages
  · decide
  · simp [ViewController.viewDidLoad, ViewController.setupCategories, ViewController.new,
      Category.setValues]
  · exact .insert _ ((ofRejectedRecord_iff _).mpr rfl) (.refl _)

end WatchAndSee.Guarantees.BlankRecipes
