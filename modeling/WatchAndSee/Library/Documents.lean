import Mathlib.Data.List.Basic
import Mathlib.Logic.Basic

/-!
# Documents addressed by paths

A document maps a path to the value that stands there and to a mark on whatever
stands there or below. Keys are compared three ways; keys that compare equal
address the same place. A write replaces all that is below a path. It removes a
value above the path when it puts something below, and the marks above the path
of places that hold nothing any more.
-/

set_option autoImplicit false

namespace WatchAndSee.Library

universe u v

variable {K : Type u} {V : Type v}

/-- The rest of `q` below `p`. -/
def under (cmp : K → K → Ordering) : List K → List K → Option (List K)
  | [], q => some q
  | _ :: _, [] => none
  | k :: p, j :: q => if cmp k j = .eq then under cmp p q else none

@[ext] structure Document (K : Type u) (V : Type v) where
  values : List K → Option V
  marks : List K → Option V

namespace Document

/-- Some value stands at `q` or below. -/
def Holds (d : Document K V) (q : List K) : Prop := ∃ r, (d.values (q ++ r)).isSome

def child (d : Document K V) (k : K) : Document K V where
  values q := d.values (k :: q)
  marks q := d.marks (k :: q)

variable (cmp : K → K → Ordering)

open Classical in
noncomputable def writeValues (d : Document K V) (p : List K) (new : Document K V) (q : List K) :
    Option V :=
  match under cmp p q, under cmp q p with
  | some rest, _ => new.values rest
  | none, some _ => if new.Holds [] then none else d.values q
  | none, none => d.values q

/-- Some value stands at `q` or below after the write. -/
def WriteHolds (d : Document K V) (p : List K) (new : Document K V) (q : List K) : Prop :=
  ∃ r, (writeValues cmp d p new (q ++ r)).isSome

open Classical in
noncomputable def write (d : Document K V) (p : List K) (new : Document K V) : Document K V where
  values := writeValues cmp d p new
  marks q :=
    match under cmp p q, under cmp q p with
    | some rest, _ => new.marks rest
    | none, some _ => if WriteHolds cmp d p new q then d.marks q else none
    | none, none => d.marks q

open Classical in
/-- Sets the mark at `p` where something stands. -/
noncomputable def mark (d : Document K V) (p : List K) (new : Option V) : Document K V where
  values := d.values
  marks q := if under cmp p q = some [] then (if d.Holds q then new else none) else d.marks q

variable {cmp}

/-- A document is its root and its children. -/
theorem ext_child {d e : Document K V} (value : d.values [] = e.values [])
    (mark : d.marks [] = e.marks []) (children : ∀ k, d.child k = e.child k) : d = e := by
  ext q : 2
  · cases q with
    | nil => exact value
    | cons k q => exact congrFun (congrArg values (children k)) q
  · cases q with
    | nil => exact mark
    | cons k q => exact congrFun (congrArg marks (children k)) q

theorem holds_nil_iff {d : Document K V} :
    d.Holds [] ↔ (d.values []).isSome ∨ ∃ k, (d.child k).Holds [] := by
  constructor
  · rintro ⟨q, found⟩
    cases q with
    | nil => exact .inl found
    | cons k q => exact .inr ⟨k, q, found⟩
  · rintro (found | ⟨k, q, found⟩)
    · exact ⟨[], found⟩
    · exact ⟨k :: q, found⟩

@[simp] theorem write_nil (d new : Document K V) : d.write cmp [] new = new := by
  ext q : 2 <;> simp [write, writeValues, under]

theorem write_values_root (d : Document K V) (k : K) (p : List K) (new : Document K V)
    (holds : new.Holds []) : (d.write cmp (k :: p) new).values [] = none := by
  simp only [write, writeValues, under]
  exact if_pos holds

theorem write_values_root_of_not (d : Document K V) (k : K) (p : List K) (new : Document K V)
    (empty : ¬ new.Holds []) : (d.write cmp (k :: p) new).values [] = d.values [] := by
  simp only [write, writeValues, under]
  exact if_neg empty

theorem write_marks_root (d : Document K V) (k : K) (p : List K) (new : Document K V)
    (holds : (d.write cmp (k :: p) new).Holds []) :
    (d.write cmp (k :: p) new).marks [] = d.marks [] := if_pos holds

theorem write_marks_root_of_not (d : Document K V) (k : K) (p : List K) (new : Document K V)
    (empty : ¬ (d.write cmp (k :: p) new).Holds []) :
    (d.write cmp (k :: p) new).marks [] = none := if_neg empty

theorem under_cons_of_eq {k j : K} (same : cmp k j = .eq) (p q : List K) :
    under cmp (k :: p) (j :: q) = under cmp p q := if_pos same

theorem under_cons_of_ne {k j : K} (different : cmp k j ≠ .eq) (p q : List K) :
    under cmp (k :: p) (j :: q) = none := if_neg different

section Order

variable [Std.OrientedCmp cmp]

theorem writeValues_cons_of_eq (d : Document K V) {k j : K} (same : cmp k j = .eq)
    (p q : List K) (new : Document K V) :
    writeValues cmp d (k :: p) new (j :: q) = writeValues cmp (d.child j) p new q := by
  unfold writeValues
  rw [under_cons_of_eq same, under_cons_of_eq (Std.OrientedCmp.eq_comm.mp same)]
  rfl

theorem writeValues_cons_of_ne (d : Document K V) {k j : K} (different : cmp k j ≠ .eq)
    (p q : List K) (new : Document K V) :
    writeValues cmp d (k :: p) new (j :: q) = d.values (j :: q) := by
  unfold writeValues
  rw [under_cons_of_ne different, under_cons_of_ne (mt Std.OrientedCmp.eq_comm.mp different)]

theorem writeHolds_cons_of_eq (d : Document K V) {k j : K} (same : cmp k j = .eq)
    (p q : List K) (new : Document K V) :
    WriteHolds cmp d (k :: p) new (j :: q) = WriteHolds cmp (d.child j) p new q := by
  unfold WriteHolds
  simp only [List.cons_append, writeValues_cons_of_eq d same]

/-- A write goes into the child that its path names first. -/
theorem child_write_of_eq (d : Document K V) {k j : K} (same : cmp k j = .eq) (p : List K)
    (new : Document K V) : (d.write cmp (k :: p) new).child j = (d.child j).write cmp p new := by
  ext q : 2
  · exact writeValues_cons_of_eq d same p q new
  · unfold child write
    dsimp only
    rw [under_cons_of_eq same, under_cons_of_eq (Std.OrientedCmp.eq_comm.mp same),
      writeHolds_cons_of_eq d same]
    rfl

theorem child_write_of_ne (d : Document K V) {k j : K} (different : cmp k j ≠ .eq) (p : List K)
    (new : Document K V) : (d.write cmp (k :: p) new).child j = d.child j := by
  ext q : 2
  · exact writeValues_cons_of_ne d different p q new
  · simp only [child, write]
    rw [under_cons_of_ne different, under_cons_of_ne (mt Std.OrientedCmp.eq_comm.mp different)]

end Order

theorem child_mark_of_eq (d : Document K V) {k j : K} (same : cmp k j = .eq) (p : List K)
    (new : Option V) : (d.mark cmp (k :: p) new).child j = (d.child j).mark cmp p new := by
  ext q : 2
  · rfl
  · unfold child mark
    dsimp only
    rw [under_cons_of_eq same]
    rfl

theorem child_mark_of_ne (d : Document K V) {k j : K} (different : cmp k j ≠ .eq) (p : List K)
    (new : Option V) : (d.mark cmp (k :: p) new).child j = d.child j := by
  ext q : 2
  · rfl
  · unfold child mark
    dsimp only
    rw [under_cons_of_ne different, if_neg (by simp)]

theorem mark_nil_root (d : Document K V) (new : Option V) (empty : Bool)
    (holds : d.Holds [] ↔ empty = false) :
    (d.mark cmp [] new).marks [] = if empty then none else new := by
  unfold mark
  dsimp only
  rw [if_pos (by rfl)]
  cases empty with
  | true => exact if_neg (fun found => by cases holds.mp found)
  | false => exact if_pos (holds.mpr rfl)

theorem child_mark_nil (d : Document K V) (new : Option V) (k : K) :
    (d.mark cmp [] new).child k = d.child k := by
  ext q : 2
  · rfl
  · unfold child mark
    dsimp only
    rw [if_neg (by simp [under])]

/-! ## What stands in a document after a write -/

theorem holds_congr {d e : Document K V} (value : d.values [] = e.values [])
    (children : ∀ k, d.child k = e.child k) : d.Holds [] ↔ e.Holds [] := by
  rw [holds_nil_iff, value, holds_nil_iff (d := e)]
  simp only [children]

theorem under_append [Std.ReflCmp cmp] (p q : List K) : under cmp p (p ++ q) = some q := by
  induction p with
  | nil => rfl
  | cons k p ih =>
    rw [List.cons_append, under_cons_of_eq Std.ReflCmp.compare_self]
    exact ih

theorem holds_write [Std.ReflCmp cmp] (d : Document K V) (p : List K) {new : Document K V}
    (holds : new.Holds []) : (d.write cmp p new).Holds [] := by
  obtain ⟨r, found⟩ := holds
  refine ⟨p ++ r, ?_⟩
  simp only [write, writeValues, List.nil_append, under_append]
  exact found

theorem not_holds_iff {d : Document K V} : ¬ d.Holds [] ↔ ∀ q, d.values q = none := by
  simp [Holds]

theorem not_holds_write {d : Document K V} (p : List K) {new : Document K V}
    (nothing : ¬ d.Holds []) (empty : ¬ new.Holds []) : ¬ (d.write cmp p new).Holds [] := by
  rw [not_holds_iff] at *
  intro q
  simp only [write, writeValues]
  split
  · exact empty _
  · split
    · rfl
    · exact nothing q
  · exact nothing q

theorem holds_mark (d : Document K V) (p : List K) (new : Option V) :
    (d.mark cmp p new).Holds [] ↔ d.Holds [] := Iff.rfl

end Document

end WatchAndSee.Library
