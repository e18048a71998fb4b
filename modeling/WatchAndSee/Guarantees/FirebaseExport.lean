import WatchAndSee.Source.FChildrenNode
import WatchAndSee.Source.ParseManager

/-!
# What the parser reads of an exported recipe

A stored recipe goes through `valForExport:NO` before `parseRecipe` sees it. A
map whose keys are small numerals arrives as an array, which the casts to
`[String: Any]` refuse: the full recipe is read exactly when neither its
ingredients nor its steps export that way (`stored_recipe_survives_iff`).
-/

set_option autoImplicit false

namespace WatchAndSee.Guarantees.FirebaseExport
open WatchAndSee.Library WatchAndSee.Source
open WatchAndSee.Library.Decimal (numeral)

def IsStoredText (node : FNode) : Prop := ∃ text, node = .leaf (.string text)

/-- A string 'Texto' and, optionally, an integer 'Tempo'. -/
def IsStoredStep (node : FNode) : Prop :=
  ∃ entries text, node = .children entries ∧
    entries.get? "Texto" = some (.leaf (.string text)) ∧
    (entries.get? "Tempo" = none ∨ ∃ t, entries.get? "Tempo" = some (.leaf (.int t)))

/-- A recipe node with valid content. -/
structure StoredRecipe (entries : Dictionary String FNode) (name time rendiment photo : String)
    (ing stp : Dictionary String FNode) : Prop where
  name : entries.get? "nome" = some (.leaf (.string name))
  time : entries.get? "tempo" = some (.leaf (.string time))
  rendiment : entries.get? "rendimento" = some (.leaf (.string rendiment))
  photo : entries.get? "foto" = some (.leaf (.string photo))
  ingredientes : entries.get? "Ingredientes" = some (.children ing)
  passos : entries.get? "Passos" = some (.children stp)
  ingredients : ing.keys ≠ ∅ ∧ ing.All IsStoredText
  steps : stp.keys ≠ ∅ ∧ stp.All IsStoredStep

/-- The text of a stored ingredient. -/
def storedText : FNode → String
  | .leaf value => value.asString.getD ""
  | .children _ => ""

/-- The step that a stored step describes. -/
def storedStep : FNode → Step
  | .leaf _ => Step.new
  | .children entries =>
    ⟨(entries.get? "Texto").elim "" storedText,
      (entries.get? "Tempo").bind fun
        | .leaf value => value.asInt .phone
        | .children _ => none⟩

/-- The list holds one item for each entry of the map, in some order. -/
def OneForEach {α : Type} (item : FNode → α) (stored : Dictionary String FNode)
    (l : List α) : Prop :=
  ∃ listing, stored.Lists listing ∧ l = listing.map (fun e => item e.2)

theorem OneForEach.length_eq {α : Type} {item : FNode → α} {stored : Dictionary String FNode}
    {l : List α} (each : OneForEach item stored l) : l.length = stored.keys.card := by
  obtain ⟨listing, lists, same⟩ := each
  rw [same, List.length_map, lists.length_eq]

/-- The stored texts, every stored ingredient and every stored step. -/
structure FullRecipe (name time rendiment photo : String) (ing stp : Dictionary String FNode)
    (r : Recipes) : Prop where
  name : r.name = name
  time : r.time = time
  rendiment : r.rendiment = rendiment
  photo : r.photo = photo
  ingredients : OneForEach storedText ing r.ingredients
  steps : OneForEach storedStep stp r.steps

/-- The node exports as a record that the parser reads in full. -/
def SurvivesExport (X E : Enumeration String AnyValue) (self : ParseManager)
    (entries : Dictionary String FNode) (name time rendiment photo : String)
    (ing stp : Dictionary String FNode) : Prop :=
  ∃ d after r, valForExport X (.children entries) = .dictionary d ∧
    parseRecipe E self d = .ok (after, r) ∧ FullRecipe name time rendiment photo ing stp r

/-! ## Maps with a field name among their keys -/

theorem not_numeral {key : String} {c : Char} (member : c ∈ key.toList)
    (letter : c.isDigit = false) : ¬ IsNumeral key := by
  intro numeral
  have digits := ((Decimal.eq_numeral_iff key).mp numeral).2.1 c member
  rw [letter] at digits
  cases digits

/-- A map with a key that is no numeral exports as a dictionary. -/
theorem export_record (X : Enumeration String AnyValue) (entries : Dictionary String FNode)
    (key : String) (node : FNode) (read : entries.get? key = some node)
    (other : ¬ IsNumeral key) :
    valForExport X (.children entries) = .dictionary (entries.mapValues (valForExport X)) := by
  have member : key ∈ (entries.mapValues (valForExport X)).keys :=
    (entries.mem_keys_iff key).mpr ⟨node, read⟩
  rw [valForExport_children]
  apply export_dictionary
  · exact Finset.ne_empty_of_mem member
  · exact not_exportsAsArray member other

/-- An exported step is read as the step that is stored. -/
theorem stepOf_export (X : Enumeration String AnyValue) (node : FNode) (stored : IsStoredStep node) :
    ∃ d, valForExport X node = .dictionary d ∧
      stepOf (valForExport X node) = some (storedStep node) := by
  obtain ⟨entries, text, rfl, isText, isTime⟩ := stored
  have notNumeral : ¬ IsNumeral "Texto" := not_numeral (c := 'T') (by decide) (by decide)
  have exported := export_record X entries "Texto" _ isText notNumeral
  refine ⟨_, exported, ?_⟩
  rw [exported]
  have readText : stringAt (entries.mapValues (valForExport X)) "Texto" = some text := by
    rw [stringAt_eq_some_iff, Dictionary.get?_mapValues, isText]
    rfl
  rcases isTime with absent | ⟨t, present⟩
  · simp [stepOf, readText, storedStep, isText, absent, storedText, intAt]
  · simp [stepOf, readText, storedStep, isText, present, storedText, intAt, valForExport]

/-! ## Reading the exported maps -/

section Reading

variable (X E : Enumeration String AnyValue)

theorem exported_ingredients (ing : Dictionary String FNode) (texts : ing.All IsStoredText)
    (l : List (String × AnyValue)) (listing : (ing.mapValues (valForExport X)).Lists l)
    (read : List String) (values : l.map Prod.snd = read.map AnyValue.string) :
    OneForEach storedText ing read := by
  obtain ⟨nodes, lists, rfl⟩ := listing.of_mapValues
  refine ⟨nodes, lists, ?_⟩
  have strings : nodes.map (fun e => valForExport X e.2) =
      (nodes.map (fun e => storedText e.2)).map AnyValue.string := by
    rw [List.map_map]
    apply List.map_congr_left
    intro e member
    obtain ⟨text, same⟩ := (lists.all_iff IsStoredText).mp texts e member
    rw [same, Function.comp_apply, same]
    rfl
  rw [List.map_map] at values
  exact List.map_injective_iff.mpr AnyValue.string_injective (values.symm.trans strings)

theorem exported_steps (stp : Dictionary String FNode) (steps : stp.All IsStoredStep)
    (l : List (String × AnyValue)) (listing : (stp.mapValues (valForExport X)).Lists l) :
    OneForEach storedStep stp (l.filterMap (fun e => stepOf e.2)) := by
  obtain ⟨nodes, lists, rfl⟩ := listing.of_mapValues
  refine ⟨nodes, lists, ?_⟩
  rw [List.filterMap_map, ← List.filterMap_eq_map]
  apply List.filterMap_congr
  intro e member
  obtain ⟨_, _, read⟩ := stepOf_export X e.2 ((lists.all_iff IsStoredStep).mp steps e member)
  exact read

variable {entries : Dictionary String FNode} {name time rendiment photo : String}
  {ing stp : Dictionary String FNode}

theorem exported_text {key value : String} (read : entries.get? key = some (.leaf (.string value))) :
    stringAt (entries.mapValues (valForExport X)) key = some value := by
  rw [stringAt_eq_some_iff, Dictionary.get?_mapValues, read]
  rfl

theorem exported_map {key : String} {map : Dictionary String FNode}
    (read : entries.get? key = some (.children map)) (nonempty : map.keys ≠ ∅)
    (keys : ¬ ExportsAsArray map.keys) :
    dictionaryAt (entries.mapValues (valForExport X)) key = some (map.mapValues (valForExport X)) := by
  rw [dictionaryAt_eq_some_iff, Dictionary.get?_mapValues, read, Option.map_some, valForExport_children]
  exact congrArg some (export_dictionary X (map.mapValues (valForExport X)) nonempty keys)

theorem exported_array {key : String} {map : Dictionary String FNode}
    (read : entries.get? key = some (.children map)) (nonempty : map.keys ≠ ∅)
    (keys : ExportsAsArray map.keys) :
    dictionaryAt (entries.mapValues (valForExport X)) key = none := by
  obtain ⟨elements, exported⟩ := export_array X (map.mapValues (valForExport X)) nonempty keys
  rw [dictionaryAt, Dictionary.get?_mapValues, read, Option.map_some, valForExport_children, exported]
  rfl

/-- The key 'nome' keeps the record itself a dictionary. -/
theorem exported_record (stored : StoredRecipe entries name time rendiment photo ing stp) :
    valForExport X (.children entries) = .dictionary (entries.mapValues (valForExport X)) := by
  have notNumeral : ¬ IsNumeral "nome" := not_numeral (c := 'n') (by decide) (by decide)
  exact export_record X entries "nome" _ stored.name notNumeral

/-- Both maps arrive as dictionaries: the parser accepts the record. -/
theorem exported_accepted (stored : StoredRecipe entries name time rendiment photo ing stp)
    (ingKeys : ¬ ExportsAsArray ing.keys) (stpKeys : ¬ ExportsAsArray stp.keys) :
    Accepted (entries.mapValues (valForExport X)) (ing.mapValues (valForExport X))
      (stp.mapValues (valForExport X)) where
  ingredientes := exported_map X stored.ingredientes stored.ingredients.1 ingKeys
  passos := exported_map X stored.passos stored.steps.1 stpKeys
  steps k := by
    obtain ⟨e, exportedStep, _⟩ := stepOf_export X (stp.value k) (stored.steps.2 k)
    simp [IsDictionary, Dictionary.mapValues, exportedStep]

theorem exported_survives (stored : StoredRecipe entries name time rendiment photo ing stp)
    (accepted : Accepted (entries.mapValues (valForExport X)) (ing.mapValues (valForExport X))
      (stp.mapValues (valForExport X))) : Survives (entries.mapValues (valForExport X)) where
  present := ⟨_, (dictionaryAt_eq_some_iff _ _ _).mp accepted.ingredientes⟩
  ingredients ing' _ ingredientes _ := by
    have same : ing' = ing.mapValues (valForExport X) :=
      Option.some.inj (ingredientes.symm.trans accepted.ingredientes)
    subst same
    intro k
    obtain ⟨value, same⟩ := stored.ingredients.2 k
    simp [IsString, Dictionary.mapValues, same, valForExport]
  fields _ _ _ := by
    simp [exported_text X stored.name, exported_text X stored.time,
      exported_text X stored.rendiment, exported_text X stored.photo]

/-- Nothing of the recipe is lost. -/
theorem dictionaries_survive (self : ParseManager)
    (stored : StoredRecipe entries name time rendiment photo ing stp)
    (ingKeys : ¬ ExportsAsArray ing.keys) (stpKeys : ¬ ExportsAsArray stp.keys) :
    SurvivesExport X E self entries name time rendiment photo ing stp := by
  have exported := exported_record X stored
  have accepted := exported_accepted X stored ingKeys stpKeys
  obtain ⟨⟨after, r⟩, parsed⟩ :=
    (parseRecipe_succeeds_iff E self _).mpr (exported_survives X stored accepted)
  have reads := parseRecipe_accepted E self _ after r parsed _ _ accepted
  refine ⟨_, after, r, exported, parsed, ?_, ?_, ?_, ?_, ?_, ?_⟩
  · exact Option.some.inj (reads.name.symm.trans (exported_text X stored.name))
  · exact Option.some.inj (reads.time.symm.trans (exported_text X stored.time))
  · exact Option.some.inj (reads.rendiment.symm.trans (exported_text X stored.rendiment))
  · exact Option.some.inj (reads.photo.symm.trans (exported_text X stored.photo))
  · exact exported_ingredients X ing stored.ingredients.2 _ (E.lists _) _ reads.ingredients
  · rw [reads.steps]
    exact exported_steps X stp stored.steps.2 _ (E.lists _).sortByKey

/-- One map arrives as an array: the record is rejected and comes out blank. -/
theorem array_blanks (self after : ParseManager) {r : Recipes}
    (stored : StoredRecipe entries name time rendiment photo ing stp)
    (array : ExportsAsArray ing.keys ∨ ExportsAsArray stp.keys)
    (success : parseRecipe E self (entries.mapValues (valForExport X)) = .ok (after, r)) :
    r = Recipes.blank := by
  apply parseRecipe_rejected E self _ after r success
  intro ing' stp' accepted
  rcases array with ingArray | stpArray
  · have refused := exported_array X stored.ingredientes stored.ingredients.1 ingArray
    rw [accepted.ingredientes] at refused
    cases refused
  · have refused := exported_array X stored.passos stored.steps.1 stpArray
    rw [accepted.passos] at refused
    cases refused

theorem array_not_survives (self : ParseManager)
    (stored : StoredRecipe entries name time rendiment photo ing stp)
    (array : ExportsAsArray ing.keys ∨ ExportsAsArray stp.keys) :
    ¬ SurvivesExport X E self entries name time rendiment photo ing stp := by
  intro survives
  obtain ⟨d, after, r, exported, parsed, full⟩ := survives
  rw [exported_record X stored, AnyValue.dictionary.injEq] at exported
  subst exported
  have blank := array_blanks X E self after stored array parsed
  have count := full.ingredients.length_eq
  rw [blank] at count
  exact stored.ingredients.1 (Finset.card_eq_zero.mp count.symm)

end Reading

/-- A stored recipe is read in full exactly when neither the keys of its
ingredients nor the keys of its steps are numerals below twice their number. Keys
are in one normal form, so that no two of them are one key of a Swift dictionary. -/
theorem stored_recipe_survives_iff (X E : Enumeration String AnyValue) (self : ParseManager)
    (entries : Dictionary String FNode) (name time rendiment photo : String)
    (ing stp : Dictionary String FNode)
    (stored : StoredRecipe entries name time rendiment photo ing stp) :
    SurvivesExport X E self entries name time rendiment photo ing stp ↔
      ¬ ExportsAsArray ing.keys ∧ ¬ ExportsAsArray stp.keys := by
  constructor
  · intro survives
    constructor
    · intro array
      exact array_not_survives X E self stored (Or.inl array) survives
    · intro array
      exact array_not_survives X E self stored (Or.inr array) survives
  · intro given
    obtain ⟨ingKeys, stpKeys⟩ := given
    exact dictionaries_survive X E self stored ingKeys stpKeys

/-- A recipe node with one ingredient around the given steps. -/
def storedDish (stp : Dictionary String FNode) : Dictionary String FNode :=
  (((((Dictionary.empty.set "nome" (.leaf (.string "Ratatouille"))).set "tempo"
    (.leaf (.string "40 min"))).set "rendimento" (.leaf (.string "4"))).set "foto"
    (.leaf (.string "http://foto"))).set "Ingredientes"
    (.children (Dictionary.empty.set "i1" (.leaf (.string "Berinjela"))))).set "Passos" (.children stp)

/-- A map of steps under the given keys. -/
def stepsKeyed (keys : List String) : Dictionary String FNode :=
  keys.foldr (fun key stp =>
    stp.set key (.children (Dictionary.empty.set "Texto" (.leaf (.string "Corte")))))
    Dictionary.empty

theorem stepsKeyed_read (keys : List String) (k : String) (node : FNode)
    (read : (stepsKeyed keys).get? k = some node) : IsStoredStep node := by
  induction keys with
  | nil =>
    simp only [stepsKeyed, List.foldr_nil, Dictionary.get?_empty] at read
    cases read
  | cons key rest ih =>
    rw [stepsKeyed, List.foldr_cons, Dictionary.get?_set] at read
    split at read
    · cases read
      exact ⟨_, "Corte", rfl, rfl, Or.inl rfl⟩
    · exact ih read

theorem storedDish_stored (keys : List String) (nonempty : (stepsKeyed keys).keys ≠ ∅) :
    StoredRecipe (storedDish (stepsKeyed keys)) "Ratatouille" "40 min" "4" "http://foto"
      (Dictionary.empty.set "i1" (.leaf (.string "Berinjela"))) (stepsKeyed keys) where
  name := rfl
  time := rfl
  rendiment := rfl
  photo := rfl
  ingredientes := rfl
  passos := rfl
  ingredients := by
    refine ⟨by decide, (Dictionary.all_iff _ _).mpr ?_⟩
    intro k node read
    rw [Dictionary.get?_set] at read
    split at read
    · cases read
      exact ⟨_, rfl⟩
    · simp at read
  steps := ⟨nonempty, (Dictionary.all_iff _ _).mpr (stepsKeyed_read keys)⟩

/-- Keys with a letter in them survive. -/
theorem stored_recipe_with_lettered_keys :
    SurvivesExport Enumeration.ascending Enumeration.ascending .new
      (storedDish (stepsKeyed ["p1", "p2"])) "Ratatouille" "40 min" "4" "http://foto"
      (Dictionary.empty.set "i1" (.leaf (.string "Berinjela"))) (stepsKeyed ["p1", "p2"]) := by
  have i1 : ¬ IsNumeral "i1" := not_numeral (c := 'i') (by decide) (by decide)
  have p1 : ¬ IsNumeral "p1" := not_numeral (c := 'p') (by decide) (by decide)
  apply (stored_recipe_survives_iff _ _ _ _ _ _ _ _ _ _
    (storedDish_stored ["p1", "p2"] (by decide))).mpr
  exact ⟨not_exportsAsArray (by decide) i1, not_exportsAsArray (by decide) p1⟩

/-- Three steps keyed "1", "2" and "3" come back as a blank recipe. -/
theorem three_numbered_steps_lost :
    ¬ ∀ (X E : Enumeration String AnyValue) (self : ParseManager)
      (entries : Dictionary String FNode) (name time rendiment photo : String)
      (ing stp : Dictionary String FNode),
      StoredRecipe entries name time rendiment photo ing stp →
        SurvivesExport X E self entries name time rendiment photo ing stp := by
  intro claim
  have stored := storedDish_stored ["1", "2", "3"] (by decide)
  have array : ExportsAsArray (stepsKeyed ["1", "2", "3"]).keys := by
    have one : "1" = numeral 1 := by decide
    have two : "2" = numeral 2 := by decide
    have three : "3" = numeral 3 := by decide
    constructor
    · intro key member
      have keys : key = "1" ∨ key = "2" ∨ key = "3" := by
        simpa [stepsKeyed, Dictionary.set, Dictionary.empty] using member
      rcases keys with rfl | rfl | rfl
      · exact ⟨1, one⟩
      · exact ⟨2, two⟩
      · exact ⟨3, three⟩
    · intro n member
      have keys : numeral n = "1" ∨ numeral n = "2" ∨ numeral n = "3" := by
        simpa [stepsKeyed, Dictionary.set, Dictionary.empty] using member
      have count : (stepsKeyed ["1", "2", "3"]).keys.card = 3 := by decide
      rw [one, two, three] at keys
      have small : n = 1 ∨ n = 2 ∨ n = 3 :=
        keys.imp Decimal.numeral_injective (Or.imp Decimal.numeral_injective Decimal.numeral_injective)
      omega
  exact array_not_survives Enumeration.ascending Enumeration.ascending .new stored (Or.inr array)
    (claim _ _ _ _ _ _ _ _ _ _ stored)

end WatchAndSee.Guarantees.FirebaseExport
