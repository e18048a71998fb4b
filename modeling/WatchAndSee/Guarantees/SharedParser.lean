import WatchAndSee.Guarantees.FeedSafety

/-!
# No leakage through the shared parser

All loads of the app run on the one `ParseManager` of
`DatabaseService.shared`. A run of callbacks delivers, for every load and every
record in it, what a brand-new parser returns for that record alone.
-/

set_option autoImplicit false

namespace WatchAndSee.Guarantees.SharedParser
open WatchAndSee.Library WatchAndSee.Source
open WatchAndSee.Guarantees.FeedSafety (dish completeRecord)

/-- The dictionary-valued children of a load, in child order. -/
def records (children : List DataSnapshot) : List AnyDictionary :=
  children.filterMap (fun child => child.value.asDictionary)

/-- Each record of a load beside the recipe that a brand-new parser returns for it. -/
def ReadAlone (E : Enumeration String AnyValue) (children : List DataSnapshot)
    (recipes : List Recipes) : Prop :=
  List.Forall₂ (fun d r => ∃ after, parseRecipe E .new d = .ok (after, r)) (records children) recipes

/-- The parts of the children are the recipes of the records. -/
theorem parts_readAlone (E : Enumeration String AnyValue) (children : List DataSnapshot)
    (parts : List (List Recipes)) (success : children.mapM (childPart E) = .ok parts) :
    ReadAlone E children parts.flatten := by
  rw [mapM_success_iff] at success
  induction success with
  | nil => exact .nil
  | @cons child part rest others head _ ih =>
    cases isRecord : child.value.asDictionary with
    | none =>
      simp only [childPart, isRecord, Except.ok.injEq] at head
      subst head
      simpa [ReadAlone, records, isRecord] using ih
    | some d =>
      simp only [childPart, isRecord] at head
      obtain ⟨⟨after, r⟩, parsed, rfl⟩ := map_success_iff.mp head
      have next : List.Forall₂ (fun d r => ∃ after, parseRecipe E .new d = .ok (after, r))
          (d :: records rest) (r :: others.flatten) := .cons ⟨after, parsed⟩ ih
      simpa [ReadAlone, records, isRecord] using next

/-- One callback, whatever ran on the parser before it. -/
theorem callback_readAlone (E : Enumeration String AnyValue) (children : List DataSnapshot)
    (untrapped : ∀ d ∈ records children, Succeeds (parseRecipe E .new d)) :
    ∃ recipes, ReadAlone E children recipes ∧
      ∀ service, ∃ after, createRecipeObject E service children = .ok (after, [some recipes]) := by
  have readable : Succeeds (children.mapM (childPart E)) := by
    refine (mapM_succeeds_iff _ _).mpr ?_
    intro child member
    refine (childPart_succeeds_iff E child).mpr ?_
    intro d isRecord
    exact (parseRecipe_succeeds_iff E .new d).mp
      (untrapped d (List.mem_filterMap.mpr ⟨child, member, isRecord⟩))
  obtain ⟨parts, success⟩ := readable
  refine ⟨parts.flatten, parts_readAlone E children parts success, ?_⟩
  intro service
  exact (createRecipeObject_success_iff E service children _).mpr ⟨parts, success, rfl⟩

/-- For every sequence of loads, on a parser in any state, each completion gets
the recipes that a brand-new parser reads from the load's records one by one,
and what earlier loads delivered is what they would have delivered without the
later ones. -/
theorem shared_parser_isolates (E : Enumeration String AnyValue) (self : DatabaseService)
    (loads : List (List DataSnapshot))
    (untrapped : ∀ children ∈ loads, ∀ d ∈ records children, Succeeds (parseRecipe E .new d)) :
    ∃ after delivered, runCallbacks E self loads = .ok (after, delivered) ∧
      List.Forall₂ (fun children calls =>
        ∃ recipes, calls = [some recipes] ∧ ReadAlone E children recipes) loads delivered ∧
      ∀ n, ∃ mid, runCallbacks E self (loads.take n) = .ok (mid, delivered.take n) := by
  have each : ∃ delivered, List.Forall₂ (fun children calls =>
      (∃ recipes, calls = [some recipes] ∧ ReadAlone E children recipes) ∧
        ∀ service, ∃ after, createRecipeObject E service children = .ok (after, calls))
      loads delivered := by
    induction loads with
    | nil => exact ⟨[], .nil⟩
    | cons children rest ih =>
      obtain ⟨recipes, alone, run⟩ := callback_readAlone E children (untrapped children (by simp))
      obtain ⟨delivered, others⟩ :=
        ih (fun later member => untrapped later (List.mem_cons_of_mem _ member))
      exact ⟨[some recipes] :: delivered, .cons ⟨⟨recipes, rfl, alone⟩, run⟩ others⟩
  obtain ⟨delivered, each⟩ := each
  have runs := each.imp (fun _ _ both => both.2)
  obtain ⟨after, run⟩ := runCallbacks_success E self loads delivered runs
  refine ⟨after, delivered, run, each.imp (fun _ _ both => both.1), ?_⟩
  intro n
  exact runCallbacks_success E self (loads.take n) (delivered.take n) (List.forall₂_take n runs)

/-- A record rejected at its second step, after an ingredient and a step were read. -/
def abandonedRecord : AnyDictionary :=
  dish (Dictionary.empty.set "i1" (.string "Rabo"))
    ((Dictionary.empty.set "1" (.dictionary (Dictionary.empty.set "Texto" (.string "Cozinhe")))).set
      "2" (.string "Sirva"))

theorem abandoned_record_leaves_nothing :
    ∃ after delivered, runCallbacks Enumeration.ascending DatabaseService.shared
        [[⟨.dictionary abandonedRecord⟩, ⟨.dictionary completeRecord⟩],
          [⟨.dictionary completeRecord⟩]] = .ok (after, delivered) ∧
      List.Forall₂ (fun children calls =>
          ∃ recipes, calls = [some recipes] ∧ ReadAlone Enumeration.ascending children recipes)
        [[⟨.dictionary abandonedRecord⟩, ⟨.dictionary completeRecord⟩],
          [⟨.dictionary completeRecord⟩]] delivered ∧
      ∀ n, ∃ mid, runCallbacks Enumeration.ascending DatabaseService.shared
        (List.take n [[⟨.dictionary abandonedRecord⟩, ⟨.dictionary completeRecord⟩],
          [⟨.dictionary completeRecord⟩]]) = .ok (mid, delivered.take n) := by
  have abandoned : Succeeds (parseRecipe Enumeration.ascending .new abandonedRecord) := ⟨_, rfl⟩
  have complete : Succeeds (parseRecipe Enumeration.ascending .new completeRecord) := ⟨_, rfl⟩
  apply shared_parser_isolates
  intro children member d inside
  have cases : d = abandonedRecord ∨ d = completeRecord := by
    rcases List.mem_cons.mp member with rfl | last
    · simpa [records] using inside
    · rw [List.mem_singleton] at last
      subst last
      right
      simpa [records] using inside
  rcases cases with rfl | rfl
  · exact abandoned
  · exact complete

end WatchAndSee.Guarantees.SharedParser
