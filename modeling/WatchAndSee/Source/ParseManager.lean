import WatchAndSee.Source.Model

/-!
# Services/ParseManager.swift

`parseRecipe` with the object's mutable `ingredients` and `steps` passed
explicitly. The enumeration order of a Swift dictionary is a parameter. The
stored property `recipe` is never read or written and is left out.
-/

set_option autoImplicit false

namespace WatchAndSee.Source
open Library

structure ParseManager where
  ingredients : List String
  steps : List Step
  deriving DecidableEq, Repr

/-- `ParseManager()` -/
def ParseManager.new : ParseManager := ⟨[], []⟩

/-- Body of the ingredient loop: `ingredients.append((element.value as? String)!)`. -/
def appendIngredient (self : ParseManager) (element : String × AnyValue) :
    Except Trap ParseManager :=
  (forceUnwrap element.2.asString).map fun text =>
    { self with ingredients := self.ingredients ++ [text] }

/-- The step loop. `false` is the early return "nao rolou": it leaves what was
accumulated before the entry that is not a dictionary. -/
def appendSteps (self : ParseManager) : List (String × AnyValue) → ParseManager × Bool
  | [] => (self, true)
  | element :: rest =>
    match element.2.asDictionary with
    | none => (self, false)
    | some stp =>
      match stringAt stp "Texto" with
      | some text =>
        let newStep : Step := { Step.new with text := text, time := intAt .phone stp "Tempo" }
        appendSteps { self with steps := self.steps ++ [newStep] } rest
      | none => appendSteps self rest

def parseRecipe (E : Enumeration String AnyValue) (self : ParseManager)
    (snapshotDic : AnyDictionary) : Except Trap (ParseManager × Recipes) := do
  let name := stringAt snapshotDic "nome"
  let time := stringAt snapshotDic "tempo"
  let rendiment := stringAt snapshotDic "rendimento"
  let ing ← forceUnwrap (snapshotDic.get? "Ingredientes")
  let stp := snapshotDic.get? "Passos"
  let photo := stringAt snapshotDic "foto"
  let self := { self with ingredients := [], steps := [] }
  match ing.asDictionary with
  | none => pure (self, Recipes.blank)
  | some ingDictionary =>
    match stp.bind AnyValue.asDictionary with
    | none => pure (self, Recipes.blank)
    | some stpDictionary =>
      let sortedSteps := Dictionary.sortByKey (E.order stpDictionary)
      let self ← (E.order ingDictionary).foldlM appendIngredient self
      match appendSteps self sortedSteps with
      | (self, false) => pure (self, Recipes.blank)
      | (self, true) => do
        let name ← forceUnwrap name
        let time ← forceUnwrap time
        let rendiment ← forceUnwrap rendiment
        let photo ← forceUnwrap photo
        pure (self, ⟨name, self.ingredients, time, rendiment, photo, self.steps⟩)

/-! ## What the loops compute -/

/-- The step an entry of 'Passos' stands for: none without a text. -/
def stepOf (value : AnyValue) : Option Step :=
  value.asDictionary.bind fun stp =>
    (stringAt stp "Texto").map fun text => ⟨text, intAt .phone stp "Tempo"⟩

def IsString (value : AnyValue) : Prop := value.asString.isSome

def IsDictionary (value : AnyValue) : Prop := value.asDictionary.isSome

instance : DecidablePred IsString := fun value => inferInstanceAs (Decidable (value.asString.isSome))

instance : DecidablePred IsDictionary :=
  fun value => inferInstanceAs (Decidable (value.asDictionary.isSome))

/-- The ingredient loop traps on the first value that is not a string and
otherwise appends all of them in the order of enumeration. -/
theorem ingredient_loop (entries : List (String × AnyValue)) (self : ParseManager) :
    entries.foldlM appendIngredient self =
      (entries.mapM (fun e => forceUnwrap e.2.asString)).map fun texts =>
        { self with ingredients := self.ingredients ++ texts } := by
  have pushes (texts : List String) (s : ParseManager) :
      texts.foldl (fun s text => { s with ingredients := s.ingredients ++ [text] }) s =
        { s with ingredients := s.ingredients ++ texts } := by
    induction texts generalizing s with
    | nil => simp
    | cons text rest ih => simp [ih]
  calc
    entries.foldlM appendIngredient self =
        (entries.mapM (fun e => forceUnwrap e.2.asString)).map (fun texts =>
          texts.foldl (fun s text => { s with ingredients := s.ingredients ++ [text] }) self) :=
      foldlM_push _ _ entries self
    _ = _ := by simp only [pushes]

theorem ingredients_succeed_iff (entries : List (String × AnyValue)) :
    Succeeds (entries.mapM (fun e => forceUnwrap e.2.asString)) ↔ ∀ e ∈ entries, IsString e.2 := by
  simp [mapM_succeeds_iff, IsString, Option.isSome_iff_exists]

/-- The texts that the ingredient loop read are the enumerated values. -/
theorem ingredients_values (entries : List (String × AnyValue)) (texts : List String)
    (success : entries.mapM (fun e => forceUnwrap e.2.asString) = .ok texts) :
    entries.map Prod.snd = texts.map AnyValue.string := by
  rw [mapM_success_iff] at success
  induction success with
  | nil => rfl
  | cons head _ ih =>
    have value := (AnyValue.asString_eq_some_iff _ _).mp ((forceUnwrap_success_iff _ _).mp head)
    simp [value, ih]

/-- Run to its end, the step loop appends one step for each entry that has a
text, in the order of the list. -/
theorem step_loop_finished (entries : List (String × AnyValue)) (self : ParseManager)
    (dictionaries : ∀ e ∈ entries, IsDictionary e.2) :
    appendSteps self entries =
      ({ self with steps := self.steps ++ entries.filterMap (fun e => stepOf e.2) }, true) := by
  induction entries generalizing self with
  | nil => simp [appendSteps]
  | cons element rest ih =>
    obtain ⟨stp, isStep⟩ := Option.isSome_iff_exists.mp (dictionaries element (by simp))
    have others := fun e member => dictionaries e (List.mem_cons_of_mem element member)
    cases text : stringAt stp "Texto" with
    | none => simp [appendSteps, stepOf, isStep, text, ih _ others]
    | some text => simp [appendSteps, stepOf, isStep, text, ih _ others]

/-- One entry that is not a dictionary abandons the loop wherever it stands. -/
theorem step_loop_abandoned (entries : List (String × AnyValue)) (self : ParseManager)
    (malformed : ¬ ∀ e ∈ entries, IsDictionary e.2) : (appendSteps self entries).2 = false := by
  induction entries generalizing self with
  | nil => simp at malformed
  | cons element rest ih =>
    cases isStep : element.2.asDictionary with
    | none => simp [appendSteps, isStep]
    | some stp =>
      have others : ¬ ∀ e ∈ rest, IsDictionary e.2 := by
        intro all
        apply malformed
        intro e member
        rcases List.mem_cons.mp member with rfl | tail
        · simp [IsDictionary, isStep]
        · exact all e tail
      cases text : stringAt stp "Texto" with
      | none => simpa [appendSteps, isStep, text] using ih _ others
      | some text => simpa [appendSteps, isStep, text] using ih _ others

/-! ## Outcomes of a record -/

/-- Both maps of the record are dictionaries, and so is every step. -/
structure Accepted (d ing stp : AnyDictionary) : Prop where
  ingredientes : dictionaryAt d "Ingredientes" = some ing
  passos : dictionaryAt d "Passos" = some stp
  steps : stp.All IsDictionary

/-- The recipe of an accepted record. The texts list the ingredients in the
order of enumeration; the steps are sorted by key. -/
structure Reads (E : Enumeration String AnyValue) (d ing stp : AnyDictionary) (r : Recipes) :
    Prop where
  name : stringAt d "nome" = some r.name
  time : stringAt d "tempo" = some r.time
  rendiment : stringAt d "rendimento" = some r.rendiment
  photo : stringAt d "foto" = some r.photo
  ingredients : (E.order ing).map Prod.snd = r.ingredients.map AnyValue.string
  steps : r.steps = (Dictionary.sortByKey (E.order stp)).filterMap (fun e => stepOf e.2)

/-- Exactly the records on which `parseRecipe` does not trap. -/
structure Survives (d : AnyDictionary) : Prop where
  present : ∃ ing, d.get? "Ingredientes" = some ing
  ingredients : ∀ ing stp, dictionaryAt d "Ingredientes" = some ing →
    dictionaryAt d "Passos" = some stp → ing.All IsString
  fields : ∀ ing stp, Accepted d ing stp →
    (stringAt d "nome").isSome ∧ (stringAt d "tempo").isSome ∧
      (stringAt d "rendimento").isSome ∧ (stringAt d "foto").isSome

section Outcomes

variable (E : Enumeration String AnyValue) (self : ParseManager) (d : AnyDictionary)

/-- Both accumulators are reset before anything reads them. -/
theorem parseRecipe_prior : parseRecipe E self d = parseRecipe E .new d := rfl

theorem parseRecipe_missing (missing : d.get? "Ingredientes" = none) :
    parseRecipe E self d = .error .unwrappedNil := by
  simp [parseRecipe, missing, bind, Except.bind]

/-- A missing or mistyped map other than a missing 'Ingredientes' rejects the
record before any loop runs. -/
theorem parseRecipe_without_maps (ing : AnyValue) (present : d.get? "Ingredientes" = some ing)
    (mistyped : dictionaryAt d "Ingredientes" = none ∨ dictionaryAt d "Passos" = none) :
    parseRecipe E self d = .ok (.new, Recipes.blank) := by
  simp only [parseRecipe, present, forceUnwrap_some, bind, Except.bind]
  cases isIng : ing.asDictionary with
  | none => rfl
  | some ingDictionary =>
    have noSteps : dictionaryAt d "Passos" = none := by
      rcases mistyped with notIng | notStp
      · simp [dictionaryAt, present, isIng] at notIng
      · exact notStp
    simp only [dictionaryAt] at noSteps
    simp only [noSteps]
    rfl

/-- With both maps present the outcome is decided by the two loops and the
four unwrapped fields. -/
theorem parseRecipe_with_maps (ing stp : AnyDictionary)
    (ingredientes : dictionaryAt d "Ingredientes" = some ing)
    (passos : dictionaryAt d "Passos" = some stp) :
    parseRecipe E self d =
      (E.order ing).mapM (fun e => forceUnwrap e.2.asString) >>= fun texts =>
        match appendSteps ⟨texts, []⟩ (Dictionary.sortByKey (E.order stp)) with
        | (self, false) => .ok (self, Recipes.blank)
        | (self, true) =>
          forceUnwrap (stringAt d "nome") >>= fun name =>
          forceUnwrap (stringAt d "tempo") >>= fun time =>
          forceUnwrap (stringAt d "rendimento") >>= fun rendiment =>
          forceUnwrap (stringAt d "foto") >>= fun photo =>
            .ok (self, ⟨name, self.ingredients, time, rendiment, photo, self.steps⟩) := by
  have present := (dictionaryAt_eq_some_iff _ _ _).mp ingredientes
  have passosCast : (d.get? "Passos").bind AnyValue.asDictionary = some stp := passos
  simp only [parseRecipe, present, passosCast, forceUnwrap_some, AnyValue.asDictionary_dictionary,
    ingredient_loop, bind, Except.bind]
  cases (E.order ing).mapM (fun e => forceUnwrap e.2.asString) <;> rfl

/-- A run on an accepted record that returns reads it in full. -/
theorem parseRecipe_accepted (after : ParseManager) (r : Recipes)
    (success : parseRecipe E self d = .ok (after, r)) (ing stp : AnyDictionary)
    (accepted : Accepted d ing stp) : Reads E d ing stp r := by
  have dictionaries := ((E.lists stp).sortByKey.all_iff _).mp accepted.steps
  rw [parseRecipe_with_maps E self d ing stp accepted.ingredientes accepted.passos] at success
  obtain ⟨texts, read, success⟩ := bind_success_iff.mp success
  rw [step_loop_finished _ _ dictionaries] at success
  simp only [bind_success_iff, forceUnwrap_success_iff] at success
  obtain ⟨name, isName, time, isTime, rendiment, isRendiment, photo, isPhoto, result⟩ := success
  cases result
  exact ⟨isName, isTime, isRendiment, isPhoto, ingredients_values _ _ read, by simp⟩

/-- One step that is not a dictionary rejects the record after the ingredients were read. -/
theorem parseRecipe_malformed_step (after : ParseManager) (r : Recipes)
    (success : parseRecipe E self d = .ok (after, r)) (ing stp : AnyDictionary)
    (ingredientes : dictionaryAt d "Ingredientes" = some ing)
    (passos : dictionaryAt d "Passos" = some stp) (malformed : ¬ stp.All IsDictionary) :
    r = Recipes.blank := by
  rw [parseRecipe_with_maps E self d ing stp ingredientes passos] at success
  obtain ⟨texts, _, success⟩ := bind_success_iff.mp success
  have abandoned := step_loop_abandoned (Dictionary.sortByKey (E.order stp)) ⟨texts, []⟩
    (fun all => malformed (((E.lists stp).sortByKey.all_iff _).mpr all))
  split at success
  · cases success
    rfl
  · next finished =>
    rw [finished] at abandoned
    cases abandoned

/-- Every run that returns either rejects the record or reads it in full. -/
theorem parseRecipe_cases (after : ParseManager) (r : Recipes)
    (success : parseRecipe E self d = .ok (after, r)) :
    ((∀ ing stp, ¬ Accepted d ing stp) ∧ r = Recipes.blank) ∨
      ∃ ing stp, Accepted d ing stp ∧ Reads E d ing stp r := by
  cases present : d.get? "Ingredientes" with
  | none =>
    rw [parseRecipe_missing E self d present] at success
    cases success
  | some value =>
    by_cases mistyped : dictionaryAt d "Ingredientes" = none ∨ dictionaryAt d "Passos" = none
    · rw [parseRecipe_without_maps E self d value present mistyped] at success
      left
      refine ⟨?_, by cases success; rfl⟩
      intro ing stp accepted
      simp [accepted.ingredientes, accepted.passos] at mistyped
    · rw [not_or] at mistyped
      obtain ⟨ing, ingredientes⟩ := Option.ne_none_iff_exists'.mp mistyped.1
      obtain ⟨stp, passos⟩ := Option.ne_none_iff_exists'.mp mistyped.2
      by_cases steps : stp.All IsDictionary
      · right
        have accepted : Accepted d ing stp := ⟨ingredientes, passos, steps⟩
        exact ⟨ing, stp, accepted, parseRecipe_accepted E self d after r success ing stp accepted⟩
      · left
        refine ⟨?_, parseRecipe_malformed_step E self d after r success ing stp ingredientes passos steps⟩
        intro ing' stp' accepted
        have same : stp' = stp := Option.some.inj (accepted.passos.symm.trans passos)
        exact steps (same ▸ accepted.steps)

theorem parseRecipe_rejected (after : ParseManager) (r : Recipes)
    (success : parseRecipe E self d = .ok (after, r)) (rejected : ∀ ing stp, ¬ Accepted d ing stp) :
    r = Recipes.blank := by
  rcases parseRecipe_cases E self d after r success with ⟨_, blank⟩ | ⟨ing, stp, accepted, _⟩
  · exact blank
  · exact absurd accepted (rejected ing stp)

/-- The four unwraps at the end of an accepted record. -/
theorem fields_succeed_iff (after : ParseManager) :
    Succeeds (forceUnwrap (stringAt d "nome") >>= fun name =>
      forceUnwrap (stringAt d "tempo") >>= fun time =>
      forceUnwrap (stringAt d "rendimento") >>= fun rendiment =>
      forceUnwrap (stringAt d "foto") >>= fun photo =>
        (.ok (after, ⟨name, after.ingredients, time, rendiment, photo, after.steps⟩) :
          Except Trap (ParseManager × Recipes))) ↔
      (stringAt d "nome").isSome ∧ (stringAt d "tempo").isSome ∧
        (stringAt d "rendimento").isSome ∧ (stringAt d "foto").isSome := by
  simp only [succeeds_bind_iff, forceUnwrap_success_iff, succeeds_ok, and_true,
    exists_and_right, Option.isSome_iff_exists]

/-- With both maps present, the ingredients are unwrapped in any case and the
text fields only where no step abandons the record. -/
theorem with_maps_succeeds_iff (ing stp : AnyDictionary)
    (ingredientes : dictionaryAt d "Ingredientes" = some ing)
    (passos : dictionaryAt d "Passos" = some stp) :
    Succeeds (parseRecipe E self d) ↔
      ing.All IsString ∧ (stp.All IsDictionary →
        (stringAt d "nome").isSome ∧ (stringAt d "tempo").isSome ∧
          (stringAt d "rendimento").isSome ∧ (stringAt d "foto").isSome) := by
  have listing := (E.lists stp).sortByKey
  have strings : (∃ texts, (E.order ing).mapM (fun e => forceUnwrap e.2.asString) = .ok texts) ↔
      ing.All IsString :=
    (ingredients_succeed_iff _).trans ((E.lists ing).all_iff _).symm
  rw [parseRecipe_with_maps E self d ing stp ingredientes passos, succeeds_bind_iff, ← strings]
  by_cases steps : stp.All IsDictionary
  · have finished := fun self => step_loop_finished (Dictionary.sortByKey (E.order stp)) self
      ((listing.all_iff _).mp steps)
    simp only [finished, fields_succeed_iff, exists_and_right, steps, true_implies]
  · constructor
    · intro outcome
      obtain ⟨texts, read, _⟩ := outcome
      exact ⟨⟨texts, read⟩, fun all => absurd all steps⟩
    · intro outcome
      obtain ⟨⟨texts, read⟩, _⟩ := outcome
      refine ⟨texts, read, ?_⟩
      have abandoned := step_loop_abandoned (Dictionary.sortByKey (E.order stp)) ⟨texts, []⟩
        (fun all => steps ((listing.all_iff _).mpr all))
      split
      · exact succeeds_ok _
      · next finished =>
        rw [finished] at abandoned
        cases abandoned

theorem parseRecipe_succeeds_iff : Succeeds (parseRecipe E self d) ↔ Survives d := by
  cases present : d.get? "Ingredientes" with
  | none =>
    rw [parseRecipe_missing E self d present]
    simp only [not_succeeds_error, false_iff]
    intro survives
    obtain ⟨ing, found⟩ := survives.present
    rw [present] at found
    cases found
  | some value =>
    by_cases mistyped : dictionaryAt d "Ingredientes" = none ∨ dictionaryAt d "Passos" = none
    · rw [parseRecipe_without_maps E self d value present mistyped]
      simp only [succeeds_ok, true_iff]
      refine ⟨⟨value, present⟩, ?_, ?_⟩
      · intro ing stp ingredientes passos
        simp [ingredientes, passos] at mistyped
      · intro ing stp accepted
        simp [accepted.ingredientes, accepted.passos] at mistyped
    · rw [not_or] at mistyped
      obtain ⟨ing, ingredientes⟩ := Option.ne_none_iff_exists'.mp mistyped.1
      obtain ⟨stp, passos⟩ := Option.ne_none_iff_exists'.mp mistyped.2
      rw [with_maps_succeeds_iff E self d ing stp ingredientes passos]
      constructor
      · intro outcome
        obtain ⟨strings, fields⟩ := outcome
        refine ⟨⟨value, present⟩, ?_, ?_⟩
        · intro ing' stp' ingredientes' _
          have same : ing' = ing := Option.some.inj (ingredientes'.symm.trans ingredientes)
          exact same ▸ strings
        · intro ing' stp' accepted
          have same : stp' = stp := Option.some.inj (accepted.passos.symm.trans passos)
          exact fields (same ▸ accepted.steps)
      · intro survives
        constructor
        · exact survives.ingredients ing stp ingredientes passos
        · intro steps
          exact survives.fields ing stp ⟨ingredientes, passos, steps⟩

end Outcomes

end WatchAndSee.Source
