import WatchAndSee.Guarantees.HomeScreen
import WatchAndSee.Library.Transitions

/-!
# Calling `createCategories` again

`getElements` empties `recipeList` before it fills it; `createCategories` never
empties `categoryList`. Over any history of calls on one manager that field
collects every category that was ever filled (`collected_of_run`), and a
call returns what a new manager would return exactly as long as no earlier call
was given a category (`returns_as_new_iff`).
-/

set_option autoImplicit false

namespace WatchAndSee.Guarantees.RepeatedLoads
open WatchAndSee.Library WatchAndSee.Source WatchAndSee.Guarantees.HomeScreen

/-- A call of one of the manager's two methods. -/
inductive ManagerCall where
  | createCategories (recipes : List Recipes) (categories : List Category)
  | getElements (elements : List String) (recipes : List Recipes)

/-- The categories that the call was given. -/
def ManagerCall.categories : ManagerCall → List Category
  | .createCategories _ categories => categories
  | .getElements _ _ => []

section Calls

variable (T : StringSearch)

/-- The manager after the call; what the call returns is dropped. -/
def runCall (self : ObjectsManager) : ManagerCall → Except Trap ObjectsManager
  | .createCategories recipes categories =>
    (Source.createCategories T self recipes categories).map Prod.fst
  | .getElements elements recipes => (Source.getElements T self elements recipes).map Prod.fst

/-- A new manager and the calls on it that return. -/
def managerMachine : Machine ObjectsManager ManagerCall where
  initial := .new
  step self call after := runCall T self call = .ok after

/-- The categories that the call fills by itself. -/
def filledBy : ManagerCall → List Category
  | .createCategories recipes categories =>
    (categories.mapM (fillCategory T recipes)).toOption.getD []
  | .getElements _ _ => []

/-- A call that returns appends what it filled, one category for each that it was given. -/
theorem runCall_appends (self after : ObjectsManager) (call : ManagerCall)
    (success : runCall T self call = .ok after) :
    after.categoryList = self.categoryList ++ filledBy T call ∧
      (filledBy T call).length = call.categories.length := by
  cases call with
  | createCategories recipes categories =>
    unfold runCall at success
    simp only [createCategories_eq, map_success_iff] at success
    obtain ⟨_, ⟨filled, read, rfl⟩, rfl⟩ := success
    have collected : filledBy T (.createCategories recipes categories) = filled := by
      simp [filledBy, read, Except.toOption]
    have counts : categories.length = filled.length := ((mapM_success_iff _ _ _).mp read).length_eq
    rw [collected]
    exact ⟨rfl, counts.symm⟩
  | getElements elements recipes =>
    simp only [runCall, getElements_eq] at success
    split at success
    · cases success
    · simp only [map_success_iff] at success
      obtain ⟨_, ⟨list, _, rfl⟩, rfl⟩ := success
      simp [filledBy, ManagerCall.categories]

/-- `categoryList` has collected what all calls so far have filled. -/
structure Collected (calls : List ManagerCall) (manager : ObjectsManager) : Prop where
  list : manager.categoryList = calls.flatMap (filledBy T)
  counts : ∀ call ∈ calls, (filledBy T call).length = call.categories.length

theorem collected_step (calls : List ManagerCall) (self : ObjectsManager) (call : ManagerCall)
    (after : ObjectsManager) (collected : Collected T calls self)
    (success : runCall T self call = .ok after) : Collected T (calls ++ [call]) after := by
  obtain ⟨appended, counts⟩ := runCall_appends T self after call success
  constructor
  · rw [appended, collected.list, List.flatMap_append, List.flatMap_singleton]
  · intro earlier member
    rcases List.mem_append.mp member with before | last
    · exact collected.counts earlier before
    · rw [List.mem_singleton.mp last]
      exact counts

theorem collected_of_run {calls : List ManagerCall} {self : ObjectsManager}
    (run : (managerMachine T).Run calls self) : Collected T calls self := by
  have start : Collected T [] (managerMachine T).initial := ⟨rfl, by simp⟩
  exact run.invariant start (collected_step T)

/-- Nothing has been collected exactly when no call was given a category. -/
theorem nothing_collected_iff {calls : List ManagerCall} {self : ObjectsManager}
    (run : (managerMachine T).Run calls self) :
    self.categoryList = [] ↔ ∀ call ∈ calls, call.categories = [] := by
  have collected := collected_of_run T run
  rw [collected.list, List.flatMap_eq_nil_iff]
  have same (call : ManagerCall) (member : call ∈ calls) :
      filledBy T call = [] ↔ call.categories = [] := by
    rw [← List.length_eq_zero_iff, collected.counts call member, List.length_eq_zero_iff]
  exact forall₂_congr same

end Calls

/-- The call returns what it would return on a new manager: one filled category
for each that it is given, in order. -/
def ReturnsAsNew (T : StringSearch) (recipes : List Recipes) (categories returned : List Category) :
    Prop :=
  (∃ fresh, createCategories T .new recipes categories = .ok (fresh, returned)) ∧
    List.Forall₂ (Filled T recipes) categories returned

/-- After any history of calls, a call that returns does so as on a new manager
exactly when no earlier call was given a category. -/
theorem returns_as_new_iff (T : StringSearch) (calls : List ManagerCall) (self : ObjectsManager)
    (run : (managerMachine T).Run calls self) (recipes : List Recipes) (categories : List Category)
    (after : ObjectsManager) (returned : List Category)
    (success : createCategories T self recipes categories = .ok (after, returned)) :
    ReturnsAsNew T recipes categories returned ↔ ∀ call ∈ calls, call.categories = [] := by
  rw [← nothing_collected_iff T run]
  rw [createCategories_eq, map_success_iff] at success
  obtain ⟨filled, read, result⟩ := success
  obtain ⟨_, rfl⟩ := Prod.mk.inj result
  have new : createCategories T .new recipes categories =
      .ok (ObjectsManager.new.afterFilling filled, filled) := by
    rw [createCategories_eq, read]
    rfl
  unfold ReturnsAsNew
  rw [new]
  constructor
  · intro asNew
    obtain ⟨⟨fresh, same⟩, _⟩ := asNew
    have returned := (Prod.mk.inj (Except.ok.inj same)).2
    exact List.self_eq_append_left.mp returned
  · intro empty
    rw [empty, List.nil_append]
    exact ⟨⟨_, rfl⟩, categories_filled T recipes _ _ read⟩

def lunch : Category := ⟨"Almoço requintado", ["Rabada"], []⟩

def filledLunch : Category := { lunch with recipes := [dishNamed "Rabada"] }

/-- One load of one category on any manager. -/
theorem lunch_load (self : ObjectsManager) :
    createCategories asciiSearch self [dishNamed "Rabada"] [lunch] =
      .ok (self.afterFilling [filledLunch], self.categoryList ++ [filledLunch]) := by
  have first : firstMatch asciiSearch [dishNamed "Rabada"] "Rabada" = .ok (dishNamed "Rabada") := by
    rw [firstMatch_success_iff]
    decide
  have filled : fillCategory asciiSearch [dishNamed "Rabada"] lunch = .ok filledLunch := by
    simp [fillCategory, lunch, filledLunch, first, bind, Except.bind, Except.map]
  simp [createCategories_eq, filled, bind, Except.bind, Except.map]

/-- After a load of no category the manager is as good as new. -/
theorem load_after_empty_load :
    ReturnsAsNew asciiSearch [dishNamed "Rabada"] [lunch] [filledLunch] :=
  (returns_as_new_iff asciiSearch [.createCategories [] []] .new
    (.next _ .start rfl) _ _ _ _ (lunch_load .new)).mpr (by simp [ManagerCall.categories])

/-- The same load twice returns its category twice. -/
theorem second_load_repeats_the_first :
    let once := ObjectsManager.new.afterFilling [filledLunch]
    (managerMachine asciiSearch).Run [.createCategories [dishNamed "Rabada"] [lunch]] once ∧
    createCategories asciiSearch once [dishNamed "Rabada"] [lunch] =
      .ok (once.afterFilling [filledLunch], [filledLunch, filledLunch]) ∧
    ¬ ReturnsAsNew asciiSearch [dishNamed "Rabada"] [lunch] [filledLunch, filledLunch] := by
  refine ⟨?_, lunch_load _, ?_⟩
  · exact .next _ .start (by simp [managerMachine, runCall, lunch_load, Except.map])
  · intro asNew
    have counts := asNew.2.length_eq
    simp at counts

end WatchAndSee.Guarantees.RepeatedLoads
