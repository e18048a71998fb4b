import WatchAndSee.Guarantees.HomeScreen

/-!
# Which dish an exact name selects

The home screen searches names for a part, not for the whole: a text that is the
exact name of one recipe selects the first recipe in feed order whose name
contains it. That is the recipe of that name exactly when no recipe before it
in the feed has the text inside its own name (`exact_name_selects_iff`).
-/

set_option autoImplicit false

namespace WatchAndSee.Guarantees.DishSelection
open WatchAndSee.Library WatchAndSee.Source WatchAndSee.Guarantees.HomeScreen

variable (T : StringSearch) (feed : List Recipes) (search : String) (r : Recipes)

/-- `getElements` puts `r` wherever the text stands in a category whose other
elements are matched. -/
def SelectedForElement : Prop :=
  ∀ (self : ObjectsManager) (elements : List String) (index : Nat),
    elements[index]? = some search →
    (∀ element ∈ elements, element ≠ search → ∃ other ∈ feed, nameContains T element other = true) →
    ∃ after list, getElements T self elements feed = .ok (after, list) ∧ list[index]? = some r

/-- `setupHighlightRecipe` highlights `r` on a screen that received the feed. -/
def SelectedForHighlight : Prop :=
  ∀ {URL Data UIImage : Type} (images : ImageLoading URL Data UIImage)
    (self : ViewController UIImage), self.recipes = feed →
    (∀ url, ∃ image, setImage images url = .ok image) →
    ∃ after, ViewController.setupHighlightRecipe T images search self = .ok after ∧
      after.highlightRecipe = some r

theorem selectedForElement_iff :
    SelectedForElement T feed search r ↔ firstMatch T feed search = .ok r := by
  constructor
  · intro selected
    have position : [search][0]? = some search := rfl
    obtain ⟨after, list, run, chosen⟩ := selected .new [search] 0 position (by simp)
    obtain ⟨first, read, here⟩ := getElements_at T run position
    have same := Option.some.inj (here.symm.trans chosen)
    rw [← same]
    exact read
  · intro first
    unfold SelectedForElement
    intro self elements index position others
    have nonempty : elements ≠ [] := by
      rintro rfl
      simp at position
    have matched : ∀ element ∈ elements, ∃ other ∈ feed, nameContains T element other = true := by
      intro element member
      by_cases isSearch : element = search
      · exact (firstMatch_succeeds_iff T feed element).mp ⟨r, isSearch ▸ first⟩
      · exact others element member isSearch
    obtain ⟨result, run⟩ := (getElements_succeeds_iff T self elements feed).mpr ⟨nonempty, matched⟩
    obtain ⟨after, list⟩ := result
    obtain ⟨selected, read, here⟩ := getElements_at T run position
    rw [first] at read
    exact ⟨after, list, run, by rw [here, Except.ok.inj read]⟩

theorem selectedForHighlight_iff :
    SelectedForHighlight T feed search r ↔ firstMatch T feed search = .ok r := by
  constructor
  · intro selected
    obtain ⟨after, run, chosen⟩ := selected blankImages
      { (ViewController.new : ViewController Unit) with recipes := feed } rfl (fun _ => ⟨(), rfl⟩)
    rw [ViewController.setupHighlightRecipe_eq, bind_success_iff] at run
    obtain ⟨highlight, first, shown⟩ := run
    obtain ⟨image, _, rfl⟩ := map_success_iff.mp shown
    have same := Option.some.inj chosen
    rw [← same]
    exact first
  · intro first
    unfold SelectedForHighlight
    intro URL Data UIImage images self received loads
    obtain ⟨image, loaded⟩ := loads r.photo
    rw [ViewController.setupHighlightRecipe_eq, received, first]
    simp only [bind, Except.bind, loaded]
    exact ⟨_, rfl, rfl⟩

/-- The first match in a feed that holds `r` at a known place. -/
theorem firstMatch_split_iff (before later : List Recipes) (elsewhere : r ∉ before) :
    firstMatch T (before ++ r :: later) search = .ok r ↔
      nameContains T search r = true ∧ ∀ other ∈ before, nameContains T search other = false := by
  rw [firstMatch_success_iff, List.find?_append, List.find?_cons]
  cases earlier : before.find? (nameContains T search) with
  | none =>
    have unmatched : ∀ other ∈ before, nameContains T search other = false := by
      simpa using List.find?_eq_none.mp earlier
    cases matched : nameContains T search r with
    | false =>
      simp only [Option.none_or, Bool.false_eq_true, false_and, iff_false]
      intro found
      have contradiction := List.find?_some found
      rw [matched] at contradiction
      cases contradiction
    | true => simpa using unmatched
  | some other =>
    have member := List.mem_of_find?_eq_some earlier
    have matched := List.find?_some earlier
    simp only [Option.some_or, Option.some.injEq]
    constructor
    · rintro rfl
      exact absurd member elsewhere
    · intro conditions
      rw [conditions.2 other member] at matched
      cases matched

/-- A recipe of the searched name is matched, except possibly by the empty text. -/
theorem exact_name_matched_iff (reflexive : ∀ text, text ≠ "" → T.contains text text = true)
    (named : T.lowercased r.name = T.lowercased search) :
    nameContains T search r = true ↔ (T.lowercased search = "" → T.contains "" "" = true) := by
  unfold nameContains
  rw [named]
  by_cases empty : T.lowercased search = ""
  · simp [empty]
  · simp [empty, reflexive _ empty]

/-- In a feed with exactly one recipe of the searched name, the text selects
that recipe exactly when no recipe before it contains the text in its name. -/
theorem exact_name_selects_iff (T : StringSearch)
    (reflexive : ∀ text, text ≠ "" → T.contains text text = true) (search : String)
    (before later : List Recipes) (r : Recipes)
    (named : T.lowercased r.name = T.lowercased search)
    (only : ∀ other ∈ before ++ later, T.lowercased other.name ≠ T.lowercased search) :
    let decides := (T.lowercased search = "" → T.contains "" "" = true) ∧
      ∀ other ∈ before, nameContains T search other = false
    (SelectedForElement T (before ++ r :: later) search r ↔ decides) ∧
      (SelectedForHighlight T (before ++ r :: later) search r ↔ decides) := by
  have elsewhere : r ∉ before := by
    intro member
    exact only r (List.mem_append_left later member) named
  have selects := firstMatch_split_iff T search r before later elsewhere
  rw [exact_name_matched_iff T search r reflexive named] at selects
  constructor
  · rw [selectedForElement_iff, selects]
  · rw [selectedForHighlight_iff, selects]

theorem asciiSearch_reflexive (text : String) : asciiSearch.contains text text = true := by
  simp only [asciiSearch, decide_eq_true_eq]
  exact List.infix_refl _

/-- Behind another recipe and before its variant the dish is selected by both. -/
theorem ratatouille_before_its_variant :
    let feed := [dishNamed "Rabada", dishNamed "Ratatouille", dishNamed "Ratatouille de forno"]
    SelectedForElement asciiSearch feed "Ratatouille" (dishNamed "Ratatouille") ∧
      SelectedForHighlight asciiSearch feed "Ratatouille" (dishNamed "Ratatouille") := by
  obtain ⟨element, highlight⟩ := exact_name_selects_iff asciiSearch
    (fun text _ => asciiSearch_reflexive text) "Ratatouille" [dishNamed "Rabada"]
    [dishNamed "Ratatouille de forno"] (dishNamed "Ratatouille") rfl (by decide)
  have decides : (asciiSearch.lowercased "Ratatouille" = "" → asciiSearch.contains "" "" = true) ∧
      ∀ other ∈ [dishNamed "Rabada"], nameContains asciiSearch "Ratatouille" other = false := by
    refine ⟨fun _ => asciiSearch_reflexive "", ?_⟩
    decide
  exact ⟨element.mpr decides, highlight.mpr decides⟩

/-- A longer name before the dish takes its place in both searches. -/
theorem variant_before_ratatouille :
    let feed := [dishNamed "Ratatouille de forno", dishNamed "Ratatouille"]
    (∃ r ∈ feed, asciiSearch.lowercased r.name = asciiSearch.lowercased "Ratatouille" ∧
      ∀ other ∈ feed, other ≠ r →
        asciiSearch.lowercased other.name ≠ asciiSearch.lowercased "Ratatouille") ∧
    ¬ SelectedForElement asciiSearch feed "Ratatouille" (dishNamed "Ratatouille") ∧
    ¬ SelectedForHighlight asciiSearch feed "Ratatouille" (dishNamed "Ratatouille") := by
  have first : firstMatch asciiSearch [dishNamed "Ratatouille de forno", dishNamed "Ratatouille"]
      "Ratatouille" = .ok (dishNamed "Ratatouille de forno") := by
    rw [firstMatch_success_iff]
    decide
  have different : dishNamed "Ratatouille de forno" ≠ dishNamed "Ratatouille" := by decide
  refine ⟨⟨dishNamed "Ratatouille", by simp, rfl, ?_⟩, ?_, ?_⟩
  · decide
  · rw [selectedForElement_iff, first]
    simpa using different
  · rw [selectedForHighlight_iff, first]
    simpa using different

end WatchAndSee.Guarantees.DishSelection
