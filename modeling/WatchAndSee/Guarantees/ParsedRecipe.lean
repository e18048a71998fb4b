import WatchAndSee.Guarantees.FeedSafety

/-!
# What one record becomes

The result of `parseRecipe` against the record alone, for every order in which
Swift may enumerate its dictionaries and every prior state of the parser.

* a record whose maps or steps are mistyped gives the blank recipe and nothing
  else (`parseRecipe_all_or_nothing`, first part);
* any other record gives its texts, a permutation of its ingredients and its
  steps in strictly ascending key order (second part);
* two enumerations can differ in the order of the ingredients only
  (`loads_differ_in_ingredient_order`), and never do exactly on records that
  are rejected or whose ingredients are all equal (`same_on_every_load_iff`).
-/

set_option autoImplicit false

namespace WatchAndSee.Guarantees.ParsedRecipe
open WatchAndSee.Library WatchAndSee.Source
open WatchAndSee.Guarantees.FeedSafety (dish completeRecord)

/-- The keys of 'Passos' that carry a step, in strictly ascending order, each
with the step that its dictionary describes. -/
structure StepListing (stp : AnyDictionary) (l : List (String × Step)) : Prop where
  ascending : l.Pairwise (fun a b => a.1 < b.1)
  mem_iff : ∀ k step, (k, step) ∈ l ↔
    ∃ e, stp.get? k = some (.dictionary e) ∧ e.get? "Texto" = some (.string step.text) ∧
      step.time = intAt .phone e "Tempo"

theorem stepOf_eq_some_iff (value : AnyValue) (step : Step) :
    stepOf value = some step ↔
      ∃ e, value = .dictionary e ∧ e.get? "Texto" = some (.string step.text) ∧
        step.time = intAt .phone e "Tempo" := by
  simp only [stepOf, Option.bind_eq_some_iff, AnyValue.asDictionary_eq_some_iff,
    Option.map_eq_some_iff, stringAt_eq_some_iff]
  constructor
  · intro given
    obtain ⟨e, isStep, text, found, same⟩ := given
    subst same
    exact ⟨e, isStep, found, rfl⟩
  · intro given
    obtain ⟨e, isStep, found, time⟩ := given
    exact ⟨e, isStep, step.text, found, by rw [← time]⟩

/-- Sorting the entries and dropping those without a text lists the steps. -/
theorem sorted_steps_listing (stp : AnyDictionary) (l : List (String × AnyValue))
    (listing : stp.Lists l) :
    ∃ steps, StepListing stp steps ∧
      (Dictionary.sortByKey l).filterMap (fun e => stepOf e.2) = steps.map Prod.snd := by
  refine ⟨(Dictionary.sortByKey l).filterMap (fun e => (stepOf e.2).map (fun st => (e.1, st))),
    ⟨?_, ?_⟩, ?_⟩
  · refine List.Pairwise.filterMap _ ?_ listing.sortByKey_strict
    intro a b less a' isA b' isB
    obtain ⟨_, _, rfl⟩ := Option.map_eq_some_iff.mp isA
    obtain ⟨_, _, rfl⟩ := Option.map_eq_some_iff.mp isB
    exact less
  · intro k step
    simp only [List.mem_filterMap, Option.map_eq_some_iff, Prod.mk.injEq, stepOf_eq_some_iff]
    constructor
    · intro given
      obtain ⟨⟨k', value⟩, member, step', ⟨e, isStep, text, time⟩, sameKey, sameStep⟩ := given
      subst sameKey sameStep isStep
      exact ⟨e, (listing.sortByKey.mem_iff _ _).mp member, text, time⟩
    · intro given
      obtain ⟨e, read, text, time⟩ := given
      exact ⟨(k, .dictionary e), (listing.sortByKey.mem_iff _ _).mpr read, step,
        ⟨e, rfl, text, time⟩, rfl, rfl⟩
  · rw [List.map_filterMap]
    refine List.filterMap_congr ?_
    intro e _
    cases stepOf e.2 <;> rfl

/-- A mistyped map or a step that is no dictionary, wherever it stands. -/
theorem malformed_not_accepted (d : AnyDictionary)
    (malformed : dictionaryAt d "Ingredientes" = none ∨ dictionaryAt d "Passos" = none ∨
      ∃ stp k value, dictionaryAt d "Passos" = some stp ∧ stp.get? k = some value ∧
        value.asDictionary = none) (ing stp : AnyDictionary) : ¬ Accepted d ing stp := by
  intro accepted
  rcases malformed with notIng | notStp | ⟨stp', k, value, passos, read, notStep⟩
  · simp [accepted.ingredientes] at notIng
  · simp [accepted.passos] at notStp
  · have same : stp' = stp := Option.some.inj (passos.symm.trans accepted.passos)
    subst same
    have isStep := (Dictionary.all_iff _ _).mp accepted.steps k value read
    simp [IsDictionary, notStep] at isStep

theorem accepted_of_dictionaries {d ing stp : AnyDictionary}
    (ingredientes : dictionaryAt d "Ingredientes" = some ing)
    (passos : dictionaryAt d "Passos" = some stp)
    (steps : ∀ k value, stp.get? k = some value → ∃ e, value = .dictionary e) :
    Accepted d ing stp := by
  refine ⟨ingredientes, passos, (Dictionary.all_iff _ _).mpr ?_⟩
  intro k value read
  obtain ⟨e, rfl⟩ := steps k value read
  simp [IsDictionary]

/-- All or nothing: a mistyped map, or a step that is not a dictionary wherever
it falls in the order, gives exactly the blank recipe; otherwise nothing of the
record is lost or duplicated. Keys and texts are in one normal form, in which
Swift's equality and order of strings are those of their characters. -/
theorem parseRecipe_all_or_nothing (E : Enumeration String AnyValue) (self after : ParseManager)
    (d : AnyDictionary) (r : Recipes) (success : parseRecipe E self d = .ok (after, r)) :
    ((dictionaryAt d "Ingredientes" = none ∨ dictionaryAt d "Passos" = none ∨
        ∃ stp k value, dictionaryAt d "Passos" = some stp ∧ stp.get? k = some value ∧
          value.asDictionary = none) →
      r = Recipes.blank) ∧
    ∀ ing stp, dictionaryAt d "Ingredientes" = some ing → dictionaryAt d "Passos" = some stp →
      (∀ k value, stp.get? k = some value → ∃ e, value = .dictionary e) →
        d.get? "nome" = some (.string r.name) ∧ d.get? "tempo" = some (.string r.time) ∧
        d.get? "rendimento" = some (.string r.rendiment) ∧
        d.get? "foto" = some (.string r.photo) ∧
        (∀ l, ing.Lists l → (r.ingredients.map AnyValue.string).Perm (l.map Prod.snd)) ∧
        ∃ l, StepListing stp l ∧ r.steps = l.map Prod.snd := by
  constructor
  · intro malformed
    exact parseRecipe_rejected E self d after r success (malformed_not_accepted d malformed)
  · intro ing stp ingredientes passos dictionaries
    have reads := parseRecipe_accepted E self d after r success ing stp
      (accepted_of_dictionaries ingredientes passos dictionaries)
    obtain ⟨steps, listing, texts⟩ := sorted_steps_listing stp _ (E.lists stp)
    simp only [← stringAt_eq_some_iff]
    refine ⟨reads.name, reads.time, reads.rendiment, reads.photo, ?_, steps, listing, ?_⟩
    · intro l ingredients
      rw [← reads.ingredients]
      exact ((E.lists ing).perm ingredients).map Prod.snd
    · exact reads.steps.trans texts

/-- Two ingredients, two steps, one of them timed, and an entry without a text. -/
def twoCourses : AnyDictionary :=
  dish ((Dictionary.empty.set "1" (.string "Berinjela")).set "2" (.string "Tomate"))
    (((Dictionary.empty.set "1" (.dictionary (Dictionary.empty.set "Texto" (.string "Corte")))).set
      "2" (.dictionary ((Dictionary.empty.set "Texto" (.string "Asse")).set "Tempo" (.int 40)))).set
      "3" (.dictionary (Dictionary.empty.set "Tempo" (.int 5))))

/-- Both maps are enumerated from their second key on, and an earlier record left its reads. -/
theorem complete_record_read_in_full :
    ∃ ing stp, dictionaryAt twoCourses "Ingredientes" = some ing ∧
      dictionaryAt twoCourses "Passos" = some stp ∧
      (∀ l, ing.Lists l →
        [AnyValue.string "Tomate", AnyValue.string "Berinjela"].Perm (l.map Prod.snd)) ∧
      ∃ l, StepListing stp l ∧ [⟨"Corte", none⟩, ⟨"Asse", some 40⟩] = l.map Prod.snd := by
  let E : Enumeration String AnyValue := Enumeration.ascending
  have read : parseRecipe (E.startingAt "2") ⟨["Rabo"], [⟨"Cozinhe", some 5⟩]⟩ twoCourses =
      .ok (⟨["Tomate", "Berinjela"], [⟨"Corte", none⟩, ⟨"Asse", some 40⟩]⟩,
        ⟨"Ratatouille", ["Tomate", "Berinjela"], "40 min", "4", "http://foto",
          [⟨"Corte", none⟩, ⟨"Asse", some 40⟩]⟩) := by rfl
  refine ⟨_, _, rfl, rfl, ?_⟩
  have full := (parseRecipe_all_or_nothing _ _ _ _ _ read).2 _ _ rfl rfl ?_
  · exact full.2.2.2.2
  · intro k value found
    simp only [Dictionary.get?_set, Dictionary.get?_empty] at found
    split at found
    · exact ⟨_, (Option.some.inj found).symm⟩
    · split at found
      · exact ⟨_, (Option.some.inj found).symm⟩
      · split at found
        · exact ⟨_, (Option.some.inj found).symm⟩
        · cases found

/-! ## Two loads of one record -/

/-- Whatever orders two loads enumerate in, they return the same recipe. -/
def SameOnEveryLoad (d : AnyDictionary) : Prop :=
  ∀ (E₁ E₂ : Enumeration String AnyValue) (self₁ self₂ after₁ after₂ : ParseManager)
    (r₁ r₂ : Recipes), parseRecipe E₁ self₁ d = .ok (after₁, r₁) →
    parseRecipe E₂ self₂ d = .ok (after₂, r₂) → r₁ = r₂

/-- Two loads that both return reject the record alike or accept it alike. -/
theorem two_loads_cases {E₁ E₂ : Enumeration String AnyValue}
    {self₁ self₂ after₁ after₂ : ParseManager} {d : AnyDictionary} {r₁ r₂ : Recipes}
    (first : parseRecipe E₁ self₁ d = .ok (after₁, r₁))
    (second : parseRecipe E₂ self₂ d = .ok (after₂, r₂)) :
    (r₁ = Recipes.blank ∧ r₂ = Recipes.blank) ∨
      ∃ ing stp, Accepted d ing stp ∧ Reads E₁ d ing stp r₁ ∧ Reads E₂ d ing stp r₂ := by
  rcases parseRecipe_cases E₁ self₁ d after₁ r₁ first with ⟨rejected, blank⟩ | full
  · exact Or.inl ⟨blank, parseRecipe_rejected E₂ self₂ d after₂ r₂ second rejected⟩
  · obtain ⟨ing, stp, accepted, reads⟩ := full
    have reads' := parseRecipe_accepted E₂ self₂ d after₂ r₂ second ing stp accepted
    exact Or.inr ⟨ing, stp, accepted, reads, reads'⟩

theorem sameFields {E₁ E₂ : Enumeration String AnyValue} {d ing stp : AnyDictionary}
    {r₁ r₂ : Recipes} (first : Reads E₁ d ing stp r₁) (second : Reads E₂ d ing stp r₂)
    (ingredients : r₁.ingredients = r₂.ingredients) : r₁ = r₂ := by
  have name : r₁.name = r₂.name := Option.some.inj (first.name.symm.trans second.name)
  have time : r₁.time = r₂.time := Option.some.inj (first.time.symm.trans second.time)
  have rendiment : r₁.rendiment = r₂.rendiment :=
    Option.some.inj (first.rendiment.symm.trans second.rendiment)
  have photo : r₁.photo = r₂.photo := Option.some.inj (first.photo.symm.trans second.photo)
  have steps : r₁.steps = r₂.steps := by
    rw [first.steps, second.steps, (E₁.lists stp).sortByKey_eq (E₂.lists stp)]
  cases r₁
  cases r₂
  simp_all

/-- Two loads agree on everything but the order of the ingredients. -/
theorem loads_differ_in_ingredient_order {E₁ E₂ : Enumeration String AnyValue}
    {self₁ self₂ after₁ after₂ : ParseManager} {d : AnyDictionary} {r₁ r₂ : Recipes}
    (first : parseRecipe E₁ self₁ d = .ok (after₁, r₁))
    (second : parseRecipe E₂ self₂ d = .ok (after₂, r₂)) :
    r₁.ingredients.Perm r₂.ingredients ∧ r₁ = { r₂ with ingredients := r₁.ingredients } := by
  rcases two_loads_cases first second with ⟨rfl, rfl⟩ | ⟨ing, stp, _, reads₁, reads₂⟩
  · exact ⟨List.Perm.refl _, rfl⟩
  · have same : (r₁.ingredients.map AnyValue.string).Perm (r₂.ingredients.map AnyValue.string) := by
      rw [← reads₁.ingredients, ← reads₂.ingredients]
      exact ((E₁.lists ing).perm (E₂.lists ing)).map Prod.snd
    refine ⟨(List.map_perm_map_iff AnyValue.string_injective).mp same, ?_⟩
    have reordered : Reads E₁ d ing stp { r₂ with ingredients := r₁.ingredients } := by
      refine ⟨reads₂.name, reads₂.time, reads₂.rendiment, reads₂.photo, reads₁.ingredients, ?_⟩
      rw [(E₁.lists stp).sortByKey_eq (E₂.lists stp)]
      exact reads₂.steps
    exact sameFields reads₁ reordered rfl

/-- The first ingredient of a load that enumerates `k` first. -/
theorem first_ingredient {E : Enumeration String AnyValue} {d ing stp : AnyDictionary} {r : Recipes}
    {k : String} {value : AnyValue} (reads : Reads (E.startingAt k) d ing stp r)
    (read : ing.get? k = some value) : (r.ingredients.map AnyValue.string).head? = some value := by
  rw [← reads.ingredients, List.head?_map, E.startingAt_head k value ing read]
  rfl

/-- Every load returns the same recipe exactly when the record is one on which
the parser traps, one that it rejects, or one whose ingredients are all equal. -/
theorem same_on_every_load_iff (d : AnyDictionary) :
    SameOnEveryLoad d ↔
      ∀ ing stp, Survives d → Accepted d ing stp →
        ∀ k₁ k₂ v₁ v₂, ing.get? k₁ = some v₁ → ing.get? k₂ = some v₂ → v₁ = v₂ := by
  constructor
  · intro same ing stp survives accepted k₁ k₂ v₁ v₂ read₁ read₂
    let E : Enumeration String AnyValue := Enumeration.ascending
    obtain ⟨⟨after₁, r₁⟩, first⟩ := (parseRecipe_succeeds_iff (E.startingAt k₁) .new d).mpr survives
    obtain ⟨⟨after₂, r₂⟩, second⟩ := (parseRecipe_succeeds_iff (E.startingAt k₂) .new d).mpr survives
    have equal : r₁ = r₂ := same _ _ _ _ _ _ _ _ first second
    have head₁ := first_ingredient (parseRecipe_accepted _ _ _ _ _ first ing stp accepted) read₁
    have head₂ := first_ingredient (parseRecipe_accepted _ _ _ _ _ second ing stp accepted) read₂
    rw [equal, head₂] at head₁
    exact (Option.some.inj head₁).symm
  · intro equalValues E₁ E₂ self₁ self₂ after₁ after₂ r₁ r₂ first second
    rcases two_loads_cases first second with ⟨rfl, rfl⟩ | ⟨ing, stp, accepted, reads₁, reads₂⟩
    · rfl
    · have survives := (parseRecipe_succeeds_iff E₁ self₁ d).mp ⟨_, first⟩
      have values : (E₁.order ing).map Prod.snd = (E₂.order ing).map Prod.snd :=
        (E₁.lists ing).values_eq_of_equal (E₂.lists ing) (equalValues ing stp survives accepted)
      rw [reads₁.ingredients, reads₂.ingredients] at values
      exact sameFields reads₁ reads₂ (List.map_injective_iff.mpr AnyValue.string_injective values)

/-- Two ingredients and no steps. -/
def twoIngredients : AnyDictionary :=
  dish ((Dictionary.empty.set "i1" (.string "Berinjela")).set "i2" (.string "Tomate"))
    Dictionary.empty

theorem two_ingredients_swap : ¬ SameOnEveryLoad twoIngredients := by
  intro same
  let E : Enumeration String AnyValue := Enumeration.ascending
  have first : parseRecipe E .new twoIngredients =
      .ok (⟨["Berinjela", "Tomate"], []⟩,
        ⟨"Ratatouille", ["Berinjela", "Tomate"], "40 min", "4", "http://foto", []⟩) := by rfl
  have second : parseRecipe (E.startingAt "i2") .new twoIngredients =
      .ok (⟨["Tomate", "Berinjela"], []⟩,
        ⟨"Ratatouille", ["Tomate", "Berinjela"], "40 min", "4", "http://foto", []⟩) := by rfl
  have equal := same _ _ _ _ _ _ _ _ first second
  simp at equal

end WatchAndSee.Guarantees.ParsedRecipe
