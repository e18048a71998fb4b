import WatchAndSee.Source.Model

/-!
# Services/ObjectsManager.swift

`createCategories` and `getElements` with the object's `recipeList` and
`categoryList` passed explicitly. Lowercasing and substring search of Unicode
strings are parameters.
-/

set_option autoImplicit false

namespace WatchAndSee.Source
open Library

/-- `lowercased()` and `contains(_:)` of `String`. -/
structure StringSearch where
  lowercased : String → String
  contains : String → String → Bool

structure ObjectsManager where
  recipeList : List Recipes
  categoryList : List Category
  deriving DecidableEq, Repr

/-- `ObjectsManager()` -/
def ObjectsManager.new : ObjectsManager := ⟨[], []⟩

section Search

variable (T : StringSearch)

/-- `rec.name.lowercased().contains(search.lowercased())` -/
def nameContains (search : String) (rec : Recipes) : Bool :=
  T.contains (T.lowercased rec.name) (T.lowercased search)

/-- Body of the loop of `getElements`. -/
def appendElement (elements : List String) (recipes : List Recipes) (self : ObjectsManager)
    (index : Int) : Except Trap ObjectsManager := do
  let search ← elementAt elements index
  let result := recipes.filter (nameContains T search)
  let first ← elementAt result 0
  pure { self with recipeList := self.recipeList ++ [first] }

def getElements (self : ObjectsManager) (elements : List String) (recipes : List Recipes) :
    Except Trap (ObjectsManager × List Recipes) := do
  let self := { self with recipeList := [] }
  let indices ← closedRange 0 ((elements.length : Int) - 1)
  let self ← indices.foldlM (appendElement T elements recipes) self
  pure (self, self.recipeList)

/-- Body of the loop of `createCategories`; `auxCat` is reused by the next iteration. -/
def appendCategory (recipes : List Recipes) (state : ObjectsManager × Category)
    (category : Category) : Except Trap (ObjectsManager × Category) := do
  let (self, auxCat) := state
  let auxCat := { auxCat with name := category.name }
  let auxCat := { auxCat with elements := category.elements }
  let (self, recipeList) ← getElements T self category.elements recipes
  let auxCat := { auxCat with recipes := recipeList }
  pure ({ self with categoryList := self.categoryList ++ [auxCat] }, auxCat)

def createCategories (self : ObjectsManager) (recipes : List Recipes) (categories : List Category) :
    Except Trap (ObjectsManager × List Category) := do
  let auxCat := Category.new
  let (self, _) ← categories.foldlM (appendCategory T recipes) (self, auxCat)
  pure (self, self.categoryList)

/-! ## What the loops compute -/

/-- The recipe that a search text selects: the first that matches. -/
def firstMatch (recipes : List Recipes) (search : String) : Except Trap Recipes :=
  elementAt (recipes.filter (nameContains T search)) 0

/-- A category filled by itself, without the manager's fields. -/
def fillCategory (recipes : List Recipes) (category : Category) : Except Trap Category :=
  if category.elements = [] then .error .invalidRange
  else (category.elements.mapM (firstMatch T recipes)).map fun list =>
    { category with recipes := list }

theorem firstMatch_success_iff (recipes : List Recipes) (search : String) (r : Recipes) :
    firstMatch T recipes search = .ok r ↔ recipes.find? (nameContains T search) = some r := by
  have first : (recipes.filter (nameContains T search))[0]? =
      recipes.find? (nameContains T search) := by
    rw [← List.head?_eq_getElem?, List.head?_filter]
  unfold firstMatch elementAt
  simp only [Int.lt_irrefl, if_false, Int.toNat_zero, first]
  cases recipes.find? (nameContains T search) <;> simp

theorem firstMatch_succeeds_iff (recipes : List Recipes) (search : String) :
    Succeeds (firstMatch T recipes search) ↔ ∃ r ∈ recipes, nameContains T search r = true := by
  unfold Succeeds
  simp only [firstMatch_success_iff, ← Option.isSome_iff_exists, List.find?_isSome]

theorem firstMatches_succeed_iff (recipes : List Recipes) (elements : List String) :
    Succeeds (elements.mapM (firstMatch T recipes)) ↔
      ∀ element ∈ elements, ∃ r ∈ recipes, nameContains T element r = true := by
  rw [mapM_succeeds_iff]
  simp only [firstMatch_succeeds_iff]

/-- Reading all indices of an array in a traversal is traversing the array. -/
theorem mapM_indices {α β : Type} (f : α → Except Trap β) (array : List α) :
    ((List.range array.length).map fun (k : Nat) => (0 : Int) + (k : Int)).mapM
        (fun index => elementAt array index >>= f) = array.mapM f := by
  let read (element : Option α) : Except Trap β := element.elim (.error .indexOutOfRange) f
  have body (k : Nat) : elementAt array ((0 : Int) + (k : Int)) >>= f = read array[k]? := by
    rw [Int.zero_add, elementAt_natCast]
    cases array[k]? <;> rfl
  have elements : (List.range array.length).map (fun k => array[k]?) = array.map some := by
    apply List.ext_getElem
    · simp
    · intro i _ inside
      have bound : i < array.length := by simpa using inside
      simp [bound]
  calc
    ((List.range array.length).map fun (k : Nat) => (0 : Int) + (k : Int)).mapM
        (fun index => elementAt array index >>= f) =
        (List.range array.length).mapM (fun k => read array[k]?) := by
      rw [List.mapM_map]
      congr 1
      funext k
      exact body k
    _ = ((List.range array.length).map (fun k => array[k]?)).mapM read := by
      rw [List.mapM_map]
      rfl
    _ = array.mapM f := by
      rw [elements, List.mapM_map]
      rfl

theorem appendElement_eq (elements : List String) (recipes : List Recipes) (self : ObjectsManager)
    (index : Int) :
    appendElement T elements recipes self index =
      (elementAt elements index >>= firstMatch T recipes).map fun first =>
        { self with recipeList := self.recipeList ++ [first] } := by
  unfold appendElement firstMatch
  cases elementAt elements index with
  | error trap => rfl
  | ok search =>
    simp only [bind, Except.bind]
    cases elementAt (recipes.filter (nameContains T search)) 0 <;> rfl

/-- The loop over the indices appends the first match of each element. -/
theorem element_loop (elements : List String) (recipes : List Recipes) (self : ObjectsManager) :
    ((List.range elements.length).map fun (k : Nat) => (0 : Int) + (k : Int)).foldlM
        (appendElement T elements recipes) self =
      (elements.mapM (firstMatch T recipes)).map fun list =>
        { self with recipeList := self.recipeList ++ list } := by
  have pushes (list : List Recipes) (self : ObjectsManager) :
      list.foldl (fun self first => { self with recipeList := self.recipeList ++ [first] }) self =
        { self with recipeList := self.recipeList ++ list } := by
    induction list generalizing self with
    | nil => simp
    | cons first rest ih => simp [ih]
  have loop := foldlM_push (fun index => elementAt elements index >>= firstMatch T recipes)
    (fun (self : ObjectsManager) first => { self with recipeList := self.recipeList ++ [first] })
    ((List.range elements.length).map fun (k : Nat) => (0 : Int) + (k : Int)) self
  simpa only [← appendElement_eq, mapM_indices, pushes] using loop

/-- `getElements` replaces `recipeList` by the first matches of the elements,
whatever it held. -/
theorem getElements_eq (self : ObjectsManager) (elements : List String) (recipes : List Recipes) :
    getElements T self elements recipes =
      if elements = [] then .error .invalidRange
      else (elements.mapM (firstMatch T recipes)).map fun list =>
        ({ self with recipeList := list }, list) := by
  by_cases empty : elements = []
  · subst empty
    rfl
  · have positive : 0 < elements.length := List.length_pos_iff.mpr empty
    have range : closedRange 0 ((elements.length : Int) - 1) =
        .ok ((List.range elements.length).map fun (k : Nat) => (0 : Int) + (k : Int)) := by
      have bound : (0 : Int) ≤ (elements.length : Int) - 1 := by omega
      have count : ((elements.length : Int) - 1 - 0 + 1).toNat = elements.length := by omega
      rw [closedRange, if_pos bound, count]
    rw [getElements, if_neg empty, range]
    simp only [bind, Except.bind, element_loop, List.nil_append]
    cases elements.mapM (firstMatch T recipes) <;> rfl

theorem getElements_succeeds_iff (self : ObjectsManager) (elements : List String)
    (recipes : List Recipes) :
    Succeeds (getElements T self elements recipes) ↔
      elements ≠ [] ∧ ∀ element ∈ elements, ∃ r ∈ recipes, nameContains T element r = true := by
  rw [getElements_eq]
  by_cases empty : elements = []
  · simp [empty]
  · rw [if_neg empty, succeeds_map, firstMatches_succeed_iff]
    exact (and_iff_right empty).symm

/-- A call that returns has the first match of each element at its index. -/
theorem getElements_at {self after : ObjectsManager} {elements : List String}
    {recipes list : List Recipes} (run : getElements T self elements recipes = .ok (after, list))
    {index : Nat} {search : String} (position : elements[index]? = some search) :
    ∃ r, firstMatch T recipes search = .ok r ∧ list[index]? = some r := by
  rw [getElements_eq] at run
  split at run
  · cases run
  · obtain ⟨firsts, read, result⟩ := map_success_iff.mp run
    obtain ⟨_, rfl⟩ := Prod.mk.inj result
    have results := (mapM_success_iff _ _ _).mp read
    have counts : elements.length = firsts.length := results.length_eq
    obtain ⟨inside, element⟩ := List.getElem?_eq_some_iff.mp position
    have inList : index < firsts.length := by omega
    have here := results.get inside inList
    simp only [List.get_eq_getElem, element] at here
    exact ⟨firsts[index], here, List.getElem?_eq_getElem inList⟩

/-- One category is filled by itself: nothing of the manager's `recipeList` or
of the reused `auxCat` gets into it. -/
theorem appendCategory_eq (recipes : List Recipes) (state : ObjectsManager × Category)
    (category : Category) :
    appendCategory T recipes state category =
      (fillCategory T recipes category).map fun filled =>
        (⟨filled.recipes, state.1.categoryList ++ [filled]⟩, filled) := by
  unfold appendCategory fillCategory
  simp only [getElements_eq]
  by_cases empty : category.elements = []
  · rw [if_pos empty, if_pos empty]
    rfl
  · rw [if_neg empty, if_neg empty]
    cases category.elements.mapM (firstMatch T recipes) <;> rfl

/-- The manager after a run that filled the given categories. -/
def ObjectsManager.afterFilling (self : ObjectsManager) (filled : List Category) : ObjectsManager where
  recipeList := (filled.getLast?.map Category.recipes).getD self.recipeList
  categoryList := self.categoryList ++ filled

/-- `createCategories` appends the filled categories, one for each input, to
what `categoryList` held. -/
theorem createCategories_eq (self : ObjectsManager) (recipes : List Recipes)
    (categories : List Category) :
    createCategories T self recipes categories =
      (categories.mapM (fillCategory T recipes)).map fun filled =>
        (self.afterFilling filled, self.categoryList ++ filled) := by
  have pushes (filled : List Category) (state : ObjectsManager × Category) :
      (filled.foldl (fun (state : ObjectsManager × Category) filled =>
          (⟨filled.recipes, state.1.categoryList ++ [filled]⟩, filled)) state).1 =
        state.1.afterFilling filled := by
    induction filled generalizing state with
    | nil => simp [ObjectsManager.afterFilling]
    | cons first rest ih =>
      rw [List.foldl_cons, ih]
      cases last : rest.getLast? <;> simp [ObjectsManager.afterFilling, List.getLast?_cons, last]
  have loop := foldlM_push (fillCategory T recipes)
    (fun (state : ObjectsManager × Category) filled =>
      (⟨filled.recipes, state.1.categoryList ++ [filled]⟩, filled))
    categories (self, Category.new)
  simp only [← appendCategory_eq] at loop
  simp only [createCategories, loop]
  cases categories.mapM (fillCategory T recipes) with
  | error trap => rfl
  | ok filled =>
    simp only [Except.map, bind, Except.bind, pushes]
    rfl

end Search

end WatchAndSee.Source
