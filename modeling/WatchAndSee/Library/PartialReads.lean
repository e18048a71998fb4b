import Mathlib.Data.List.Basic

/-!
# Two ways to read a list with defects

Items are read one by one, and some cannot be read. One reader stops at the
first such item, the other skips it. The first reads a prefix of what the second
reads, and the same exactly when the defects are the last items of the list.
-/

set_option autoImplicit false

namespace WatchAndSee.Library

universe u v w

variable {α : Type u} {β : Type v} (read : α → Option β)

/-- What is read up to the first defect. -/
def readUntil : List α → List β
  | [] => []
  | item :: rest =>
    match read item with
    | none => []
    | some value => value :: readUntil rest

/-- No item that can be read comes after a defect. -/
def DefectsLast (items : List α) : Prop :=
  items.Pairwise fun earlier later => read earlier = none → read later = none

/-- What is made of each item later does not matter for how far the reading goes. -/
theorem readUntil_map {γ : Type w} (f : β → γ) (items : List α) :
    readUntil (fun item => (read item).map f) items = (readUntil read items).map f := by
  induction items with
  | nil => rfl
  | cons item rest ih =>
    cases found : read item with
    | none => simp [readUntil, found]
    | some value => simp [readUntil, found, ih]

theorem readUntil_prefix (items : List α) : readUntil read items <+: items.filterMap read := by
  induction items with
  | nil => exact List.prefix_refl []
  | cons item rest ih =>
    cases found : read item with
    | none => simp [readUntil, found]
    | some value => simpa [readUntil, found] using ih

variable {read}

theorem defectsLast_cons_defect {item : α} (found : read item = none) (rest : List α) :
    DefectsLast read (item :: rest) ↔ ∀ later ∈ rest, read later = none := by
  unfold DefectsLast
  rw [List.pairwise_cons]
  constructor
  · intro defects later member
    exact defects.1 later member found
  · intro all
    refine ⟨fun later member _ => all later member, ?_⟩
    exact List.pairwise_of_forall_mem_list (fun _ _ later member _ => all later member)

theorem defectsLast_cons_value {item : α} {value : β} (found : read item = some value)
    (rest : List α) : DefectsLast read (item :: rest) ↔ DefectsLast read rest := by
  unfold DefectsLast
  rw [List.pairwise_cons]
  simp [found]

theorem readUntil_eq_filterMap_iff (items : List α) :
    readUntil read items = items.filterMap read ↔ DefectsLast read items := by
  induction items with
  | nil => simp [readUntil, DefectsLast]
  | cons item rest ih =>
    cases found : read item with
    | none =>
      rw [readUntil, found, List.filterMap_cons_none found, defectsLast_cons_defect found, eq_comm]
      exact List.filterMap_eq_nil_iff
    | some value =>
      rw [readUntil, found, List.filterMap_cons_some found, defectsLast_cons_value found]
      simp only [List.cons.injEq, true_and, ih]

end WatchAndSee.Library
