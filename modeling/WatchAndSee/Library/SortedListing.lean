import Mathlib.Data.List.Basic
import Mathlib.Data.List.Pairwise
import Mathlib.Logic.Function.Basic
import Mathlib.Order.Basic

/-!
# Listings in ascending key order

The contents of an ordered map, written down as the list of its entries. The
order is a three-way comparison. Entries are read, replaced, added and removed
by key, and each operation works on one side of an entry whose key is known to
be smaller or larger. Two ascending listings with the same reads are equal.
-/

set_option autoImplicit false

namespace WatchAndSee.Library.SortedListing

universe u v w

variable {K : Type u} {V : Type v} (cmp : K → K → Ordering)

/-- Keys strictly ascending. -/
def Ascending (l : List (K × V)) : Prop := l.Pairwise (fun a b => cmp a.1 b.1 = .lt)

/-- Every key of the listing compares with `k` as `side` says. -/
def AllKeys (k : K) (side : Ordering) (l : List (K × V)) : Prop := ∀ e ∈ l, cmp k e.1 = side

/-- The keys, in the order of the listing. -/
def keys (l : List (K × V)) : List K := l.map Prod.fst

def lookup (k : K) : List (K × V) → Option V
  | [] => none
  | e :: rest => if cmp k e.1 = .eq then some e.2 else lookup k rest

def put (k : K) (v : V) : List (K × V) → List (K × V)
  | [] => [(k, v)]
  | e :: rest =>
    match cmp k e.1 with
    | .lt => (k, v) :: e :: rest
    | .eq => (k, v) :: rest
    | .gt => e :: put k v rest

def erase (k : K) : List (K × V) → List (K × V)
  | [] => []
  | e :: rest => if cmp k e.1 = .eq then rest else e :: erase k rest

/-- The keys that are not below `start`, ascending. -/
def keysFrom (start : K) (l : List (K × V)) : List K :=
  (keys l).filter fun k => (cmp k start).isGE

/-- The keys that are not above `start`, descending. -/
def keysDownFrom (start : K) (l : List (K × V)) : List K :=
  ((keys l).filter fun k => (cmp k start).isLE).reverse

/-- The last key below `k`. -/
def predecessor (k : K) (l : List (K × V)) : Option K :=
  ((keys l).filter fun j => cmp k j = .gt).getLast?

variable {cmp}

/-! ## Each side of an entry -/

theorem lookup_append_left (k : K) {l m : List (K × V)} (absent : ∀ e ∈ m, cmp k e.1 ≠ .eq) :
    lookup cmp k (l ++ m) = lookup cmp k l := by
  induction l with
  | nil =>
    induction m with
    | nil => rfl
    | cons e rest ih =>
      have tail := ih (fun d member => absent d (List.mem_cons_of_mem _ member))
      simpa [lookup, absent e (by simp)] using tail
  | cons e rest ih => simp only [List.cons_append, lookup, ih]

theorem lookup_append_right (k : K) {l m : List (K × V)} (absent : ∀ e ∈ l, cmp k e.1 ≠ .eq) :
    lookup cmp k (l ++ m) = lookup cmp k m := by
  induction l with
  | nil => rfl
  | cons e rest ih =>
    rw [List.cons_append, lookup, if_neg (absent e (by simp)),
      ih (fun d member => absent d (List.mem_cons_of_mem _ member))]

theorem put_append_left (k : K) (v : V) (l m : List (K × V)) (e : K × V)
    (below : cmp k e.1 = .lt) : put cmp k v (l ++ e :: m) = put cmp k v l ++ e :: m := by
  induction l with
  | nil => simp [put, below]
  | cons d rest ih =>
    simp only [List.cons_append, put]
    split
    · rfl
    · rfl
    · rw [ih, List.cons_append]

theorem put_append_right (k : K) (v : V) {l : List (K × V)} (m : List (K × V))
    (above : AllKeys cmp k .gt l) : put cmp k v (l ++ m) = l ++ put cmp k v m := by
  induction l with
  | nil => rfl
  | cons d rest ih =>
    have head : cmp k d.1 = .gt := above d (by simp)
    have tail := ih (fun e member => above e (List.mem_cons_of_mem _ member))
    simp [put, head, tail]

theorem erase_of_absent (k : K) {l : List (K × V)} (absent : ∀ e ∈ l, cmp k e.1 ≠ .eq) :
    erase cmp k l = l := by
  induction l with
  | nil => rfl
  | cons e rest ih =>
    rw [erase, if_neg (absent e (by simp)),
      ih (fun d member => absent d (List.mem_cons_of_mem _ member))]

theorem erase_append_left (k : K) (l : List (K × V)) {m : List (K × V)}
    (absent : ∀ e ∈ m, cmp k e.1 ≠ .eq) : erase cmp k (l ++ m) = erase cmp k l ++ m := by
  induction l with
  | nil => exact erase_of_absent k absent
  | cons e rest ih =>
    simp only [List.cons_append, erase]
    split
    · rfl
    · rw [ih, List.cons_append]

theorem erase_append_right (k : K) {l : List (K × V)} (m : List (K × V))
    (absent : ∀ e ∈ l, cmp k e.1 ≠ .eq) : erase cmp k (l ++ m) = l ++ erase cmp k m := by
  induction l with
  | nil => rfl
  | cons e rest ih =>
    rw [List.cons_append, erase, if_neg (absent e (by simp)),
      ih (fun d member => absent d (List.mem_cons_of_mem _ member)), List.cons_append]

theorem AllKeys.not_eq {k : K} {side : Ordering} {l : List (K × V)} (all : AllKeys cmp k side l)
    (strict : side ≠ .eq) : ∀ e ∈ l, cmp k e.1 ≠ .eq := by
  intro e member same
  rw [all e member] at same
  exact strict same

theorem AllKeys.append {k : K} {side : Ordering} {l m : List (K × V)} :
    AllKeys cmp k side (l ++ m) ↔ AllKeys cmp k side l ∧ AllKeys cmp k side m :=
  List.forall_mem_append

theorem AllKeys.cons {k : K} {side : Ordering} {e : K × V} {l : List (K × V)} :
    AllKeys cmp k side (e :: l) ↔ cmp k e.1 = side ∧ AllKeys cmp k side l :=
  List.forall_mem_cons

theorem mem_put {k : K} {v : V} {l : List (K × V)} {e : K × V} (member : e ∈ put cmp k v l) :
    e = (k, v) ∨ e ∈ l := by
  induction l with
  | nil => simpa [put] using member
  | cons d rest ih =>
    simp only [put] at member
    split at member
    · exact List.mem_cons.mp member
    · rcases List.mem_cons.mp member with new | old
      · exact .inl new
      · exact .inr (List.mem_cons_of_mem _ old)
    · rcases List.mem_cons.mp member with rfl | later
      · exact .inr (by simp)
      · rcases ih later with new | old
        · exact .inl new
        · exact .inr (List.mem_cons_of_mem _ old)

theorem length_put_le (k : K) (v : V) (l : List (K × V)) :
    (put cmp k v l).length ≤ l.length + 1 := by
  induction l with
  | nil => exact Nat.le_refl _
  | cons e rest ih =>
    simp only [put]
    split <;> simp only [List.length_cons] <;> omega

theorem erase_sublist (k : K) (l : List (K × V)) : (erase cmp k l).Sublist l := by
  induction l with
  | nil => exact List.Sublist.refl _
  | cons e rest ih =>
    unfold erase
    split
    · exact List.sublist_cons_self e rest
    · exact ih.cons_cons e

theorem Ascending.tail {e : K × V} {l : List (K × V)} (sorted : Ascending cmp (e :: l)) :
    Ascending cmp l := List.Pairwise.of_cons sorted

theorem Ascending.head {e : K × V} {l : List (K × V)} (sorted : Ascending cmp (e :: l)) :
    AllKeys cmp e.1 .lt l := fun _ member => List.rel_of_pairwise_cons sorted member

theorem ascending_erase {k : K} {l : List (K × V)} (sorted : Ascending cmp l) :
    Ascending cmp (erase cmp k l) :=
  List.Pairwise.sublist (erase_sublist k l) sorted

/-! ## Ranges of keys -/

theorem lookup_isSome_iff {k : K} {l : List (K × V)} :
    (lookup cmp k l).isSome ↔ ∃ e ∈ l, cmp k e.1 = .eq := by
  induction l with
  | nil => simp [lookup]
  | cons e rest ih =>
    simp only [lookup, List.mem_cons, exists_eq_or_imp]
    split
    · next same => simp [same]
    · next other => simp [other, ih]

@[simp] theorem keys_append (l m : List (K × V)) : keys (l ++ m) = keys l ++ keys m :=
  List.map_append

@[simp] theorem keys_cons (e : K × V) (l : List (K × V)) : keys (e :: l) = e.1 :: keys l := rfl

@[simp] theorem length_keys (l : List (K × V)) : (keys l).length = l.length := List.length_map _

theorem keysFrom_append (start : K) (l m : List (K × V)) :
    keysFrom cmp start (l ++ m) = keysFrom cmp start l ++ keysFrom cmp start m := by
  simp [keysFrom]

theorem keysFrom_cons (start : K) (e : K × V) (l : List (K × V)) :
    keysFrom cmp start (e :: l) =
      if (cmp e.1 start).isGE then e.1 :: keysFrom cmp start l else keysFrom cmp start l := by
  simp only [keysFrom, keys_cons, List.filter_cons]

theorem keysFrom_of_below {start : K} {l : List (K × V)} (below : ∀ e ∈ l, cmp e.1 start = .lt) :
    keysFrom cmp start l = [] := by
  simp only [keysFrom, keys, List.filter_eq_nil_iff, List.mem_map]
  rintro _ ⟨e, member, rfl⟩
  rw [below e member]
  decide

theorem keysFrom_of_above {start : K} {l : List (K × V)} (above : ∀ e ∈ l, cmp e.1 start = .gt) :
    keysFrom cmp start l = keys l := by
  simp only [keysFrom, keys, List.filter_eq_self, List.mem_map]
  rintro _ ⟨e, member, rfl⟩
  rw [above e member]
  rfl

theorem keysDownFrom_append (start : K) (l m : List (K × V)) :
    keysDownFrom cmp start (l ++ m) = keysDownFrom cmp start m ++ keysDownFrom cmp start l := by
  simp [keysDownFrom]

theorem keysDownFrom_cons (start : K) (e : K × V) (l : List (K × V)) :
    keysDownFrom cmp start (e :: l) =
      if (cmp e.1 start).isLE then keysDownFrom cmp start l ++ [e.1]
      else keysDownFrom cmp start l := by
  simp only [keysDownFrom, keys_cons, List.filter_cons]
  split <;> simp

theorem keysDownFrom_of_below {start : K} {l : List (K × V)}
    (below : ∀ e ∈ l, cmp e.1 start = .lt) : keysDownFrom cmp start l = (keys l).reverse := by
  have all : (keys l).filter (fun k => (cmp k start).isLE) = keys l := by
    simp only [keys, List.filter_eq_self, List.mem_map]
    rintro _ ⟨e, member, rfl⟩
    rw [below e member]
    rfl
  rw [keysDownFrom, all]

theorem keysDownFrom_of_above {start : K} {l : List (K × V)}
    (above : ∀ e ∈ l, cmp e.1 start = .gt) : keysDownFrom cmp start l = [] := by
  have none : (keys l).filter (fun k => (cmp k start).isLE) = [] := by
    simp only [keys, List.filter_eq_nil_iff, List.mem_map]
    rintro _ ⟨e, member, rfl⟩
    rw [above e member]
    decide
  rw [keysDownFrom, none, List.reverse_nil]

theorem predecessor_append (k : K) (l m : List (K × V)) :
    predecessor cmp k (l ++ m) = (predecessor cmp k m).or (predecessor cmp k l) := by
  simp [predecessor]

theorem predecessor_of_not_gt {k : K} {l : List (K × V)} (none : ∀ e ∈ l, cmp k e.1 ≠ .gt) :
    predecessor cmp k l = .none := by
  have empty : (keys l).filter (fun j => cmp k j = .gt) = [] := by
    simp only [keys, List.filter_eq_nil_iff, List.mem_map, decide_eq_true_eq]
    rintro _ ⟨e, member, rfl⟩
    exact none e member
  rw [predecessor, empty, List.getLast?_nil]

theorem predecessor_of_gt {k : K} {l : List (K × V)} (all : AllKeys cmp k .gt l) :
    predecessor cmp k l = (keys l).getLast? := by
  have whole : (keys l).filter (fun j => cmp k j = .gt) = keys l := by
    simp only [keys, List.filter_eq_self, List.mem_map, decide_eq_true_eq]
    rintro _ ⟨e, member, rfl⟩
    exact all e member
  rw [predecessor, whole]

/-! ## What the order gives -/

section Order

variable [Std.TransCmp cmp]

/-- An entry splits an ascending listing. -/
theorem ascending_append_cons {l m : List (K × V)} {e : K × V} :
    Ascending cmp (l ++ e :: m) ↔
      Ascending cmp l ∧ Ascending cmp m ∧ AllKeys cmp e.1 .gt l ∧ AllKeys cmp e.1 .lt m := by
  simp only [Ascending, AllKeys, List.pairwise_append, List.pairwise_cons, List.forall_mem_cons,
    Std.OrientedCmp.gt_iff_lt]
  constructor
  · rintro ⟨left, ⟨above, right⟩, between⟩
    exact ⟨left, right, fun d member => (between d member).1, above⟩
  · rintro ⟨left, right, below, above⟩
    refine ⟨left, ⟨above, right⟩, fun d member => ⟨below d member, fun b inside => ?_⟩⟩
    exact Std.TransCmp.lt_trans (below d member) (above b inside)

/-- A key on one side of an entry is on that side of everything beyond it. -/
theorem AllKeys.of_lt {j k : K} {l : List (K × V)} (less : cmp j k = .lt)
    (all : AllKeys cmp k .lt l) : AllKeys cmp j .lt l :=
  fun e member => Std.TransCmp.lt_trans less (all e member)

theorem AllKeys.of_gt {j k : K} {l : List (K × V)} (greater : cmp j k = .gt)
    (all : AllKeys cmp k .gt l) : AllKeys cmp j .gt l :=
  fun e member => Std.TransCmp.gt_trans greater (all e member)

theorem AllKeys.of_eq {j k : K} {side : Ordering} {l : List (K × V)} (same : cmp j k = .eq)
    (all : AllKeys cmp k side l) : AllKeys cmp j side l := by
  intro e member
  rw [Std.TransCmp.congr_left same]
  exact all e member

theorem ascending_put {k : K} {v : V} {l : List (K × V)} (sorted : Ascending cmp l) :
    Ascending cmp (put cmp k v l) := by
  induction l with
  | nil => exact List.pairwise_singleton _ _
  | cons e rest ih =>
    have above := sorted.head
    simp only [put]
    split
    · next less =>
      exact List.Pairwise.cons
        (List.forall_mem_cons.mpr ⟨less, AllKeys.of_lt less above⟩) sorted
    · next same => exact List.Pairwise.cons (AllKeys.of_eq same above) sorted.tail
    · next greater =>
      refine List.Pairwise.cons (fun d member => ?_) (ih sorted.tail)
      rcases mem_put member with rfl | old
      · exact Std.OrientedCmp.gt_iff_lt.mp greater
      · exact above d old

/-! ## Reads after writes -/

theorem lookup_put (j k : K) (v : V) {l : List (K × V)} (sorted : Ascending cmp l) :
    lookup cmp j (put cmp k v l) = if cmp j k = .eq then some v else lookup cmp j l := by
  induction l with
  | nil => rfl
  | cons e rest ih =>
    simp only [put]
    split
    · simp only [lookup]
    · next same =>
      simp only [lookup, Std.TransCmp.congr_right same]
      split <;> rfl
    · next greater =>
      simp only [lookup, ih sorted.tail]
      by_cases hit : cmp j e.1 = .eq
      · have apart : cmp j k ≠ .eq := by
          have below := Std.OrientedCmp.gt_iff_lt.mp greater
          rw [Std.TransCmp.congr_left hit, below]
          decide
        simp [hit, apart]
      · simp [hit]

theorem lookup_erase (j k : K) {l : List (K × V)} (sorted : Ascending cmp l) :
    lookup cmp j (erase cmp k l) = if cmp j k = .eq then none else lookup cmp j l := by
  induction l with
  | nil => simp [erase, lookup]
  | cons e rest ih =>
    by_cases found : cmp k e.1 = .eq
    · rw [erase, if_pos found, lookup, Std.TransCmp.congr_right found]
      split
      · next hit =>
        have above : AllKeys cmp j .lt rest := AllKeys.of_eq hit sorted.head
        have absent := lookup_append_left (l := []) j (above.not_eq (by decide))
        simpa [lookup] using absent
      · rfl
    · rw [erase, if_neg found, lookup, lookup, ih sorted.tail]
      by_cases hit : cmp j e.1 = .eq
      · have apart : cmp j k ≠ .eq := by
          intro same
          exact found (by rw [← Std.TransCmp.congr_left same]; exact hit)
        simp [hit, apart]
      · simp [hit]

/-! ## Writes after writes -/

theorem put_put (k : K) (x y : V) (l : List (K × V)) :
    put cmp k y (put cmp k x l) = put cmp k y l := by
  induction l with
  | nil => simp [put, Std.ReflCmp.compare_self]
  | cons e rest ih =>
    cases side : cmp k e.1 with
    | lt => simp [put, side, Std.ReflCmp.compare_self]
    | eq => simp [put, side, Std.ReflCmp.compare_self]
    | gt => simp [put, side, ih]

theorem put_comm_of_lt {j k : K} (less : cmp j k = .lt) (x y : V) (l : List (K × V)) :
    put cmp j x (put cmp k y l) = put cmp k y (put cmp j x l) := by
  have more : cmp k j = .gt := Std.OrientedCmp.gt_iff_lt.mpr less
  induction l with
  | nil => simp [put, less, more]
  | cons e rest ih =>
    cases side : cmp k e.1 with
    | lt => simp [put, side, less, more, Std.TransCmp.lt_trans less side]
    | eq =>
      have below : cmp j e.1 = .lt := by rw [← Std.TransCmp.congr_right side]; exact less
      simp [put, side, less, more, below]
    | gt =>
      cases side' : cmp j e.1 with
      | lt => simp [put, side, side', more]
      | eq => simp [put, side, side', more]
      | gt => simp [put, side, side', ih]

/-- Entries under different keys are put in any order. -/
theorem put_comm {j k : K} (apart : cmp j k ≠ .eq) (x y : V) (l : List (K × V)) :
    put cmp j x (put cmp k y l) = put cmp k y (put cmp j x l) := by
  cases side : cmp j k with
  | lt => exact put_comm_of_lt side x y l
  | eq => exact absurd side apart
  | gt => exact (put_comm_of_lt (Std.OrientedCmp.gt_iff_lt.mp side) y x l).symm

theorem put_of_mem {k : K} {v : V} {l : List (K × V)} (sorted : Ascending cmp l)
    (member : (k, v) ∈ l) : put cmp k v l = l := by
  induction l with
  | nil => cases member
  | cons e rest ih =>
    rcases List.mem_cons.mp member with rfl | later
    · simp [put, Std.ReflCmp.compare_self]
    · have greater : cmp k e.1 = .gt := Std.OrientedCmp.gt_iff_lt.mpr (sorted.head _ later)
      simp only [put, greater, ih sorted.tail later]

/-! ## Members and extensionality -/

/-- Keys that compare equal read the same. -/
theorem lookup_congr {j k : K} (same : cmp j k = .eq) (l : List (K × V)) :
    lookup cmp j l = lookup cmp k l := by
  induction l with
  | nil => rfl
  | cons e rest ih => simp only [lookup, Std.TransCmp.congr_left same, ih]

omit [Std.TransCmp cmp] in
theorem exists_mem_of_lookup {k : K} {v : V} {l : List (K × V)} (found : lookup cmp k l = some v) :
    ∃ j, (j, v) ∈ l ∧ cmp k j = .eq := by
  induction l with
  | nil => simp [lookup] at found
  | cons e rest ih =>
    simp only [lookup] at found
    split at found
    · next same =>
      rw [Option.some.injEq] at found
      exact ⟨e.1, by rw [← found]; exact List.mem_cons_self, same⟩
    · obtain ⟨j, member, same⟩ := ih found
      exact ⟨j, List.mem_cons_of_mem _ member, same⟩

theorem lookup_of_mem {k : K} {v : V} {l : List (K × V)} (sorted : Ascending cmp l)
    (member : (k, v) ∈ l) : lookup cmp k l = some v := by
  induction l with
  | nil => simp at member
  | cons e rest ih =>
    rcases List.mem_cons.mp member with rfl | later
    · simp [lookup, Std.ReflCmp.compare_self]
    · have apart : cmp k e.1 ≠ .eq := by
        have below := sorted.head _ later
        have above := Std.OrientedCmp.gt_iff_lt.mpr below
        rw [above]
        decide
      rw [lookup, if_neg apart]
      exact ih sorted.tail later

/-- Members of an ascending listing whose keys compare equal are the same entry. -/
theorem Ascending.eq_of_tie {l : List (K × V)} (sorted : Ascending cmp l) {a b : K × V}
    (inLeft : a ∈ l) (inRight : b ∈ l) (tie : cmp a.1 b.1 = .eq) : a = b := by
  induction l with
  | nil => simp at inLeft
  | cons e rest ih =>
    rcases List.mem_cons.mp inLeft with rfl | left <;>
      rcases List.mem_cons.mp inRight with rfl | right
    · rfl
    · rw [sorted.head b right] at tie
      cases tie
    · rw [Std.OrientedCmp.gt_iff_lt.mpr (sorted.head a left)] at tie
      cases tie
    · exact ih sorted.tail left right

theorem nodup_keys {l : List (K × V)} (sorted : Ascending cmp l) : (keys l).Nodup := by
  refine List.pairwise_map.mpr (List.Pairwise.imp (fun {a b} less same => ?_) sorted)
  have equal : cmp b.1 b.1 = .eq := Std.ReflCmp.compare_self
  rw [same, equal] at less
  cases less

theorem pairwise_isLE_mergeSort (l : List (K × V)) :
    (l.mergeSort fun a b => (cmp a.1 b.1).isLE).Pairwise fun a b => (cmp a.1 b.1).isLE = true := by
  refine List.pairwise_mergeSort (fun _ _ _ => Std.TransCmp.isLE_trans) (fun a b => ?_) l
  rw [show cmp b.1 a.1 = (cmp a.1 b.1).swap from Std.OrientedCmp.eq_swap]
  cases cmp a.1 b.1 <;> rfl

/-- A sorted reordering of an ascending listing is the listing. -/
theorem eq_of_sorted_perm {l m : List (K × V)}
    (sorted : l.Pairwise fun a b => (cmp a.1 b.1).isLE = true) (ascending : Ascending cmp m)
    (same : l.Perm m) : l = m := by
  have weak : m.Pairwise fun a b => (cmp a.1 b.1).isLE = true :=
    List.Pairwise.imp (fun {a b} less => by rw [less]; rfl) ascending
  refine List.Perm.eq_of_pairwise (fun a b inLeft inRight le ge => ?_) sorted weak same
  exact ascending.eq_of_tie (same.subset inLeft) inRight (Std.OrientedCmp.isLE_antisymm le ge)

variable [Std.LawfulEqCmp cmp]

omit [Std.TransCmp cmp] in
theorem mem_of_lookup {k : K} {v : V} {l : List (K × V)} (found : lookup cmp k l = some v) :
    (k, v) ∈ l := by
  obtain ⟨j, member, same⟩ := exists_mem_of_lookup found
  rw [Std.LawfulEqCmp.eq_of_compare same]
  exact member

theorem mem_iff_lookup {k : K} {v : V} {l : List (K × V)} (sorted : Ascending cmp l) :
    (k, v) ∈ l ↔ lookup cmp k l = some v := ⟨lookup_of_mem sorted, mem_of_lookup⟩

/-- Reads determine an ascending listing. -/
theorem ext_lookup {l m : List (K × V)} (left : Ascending cmp l) (right : Ascending cmp m)
    (same : ∀ k, lookup cmp k l = lookup cmp k m) : l = m := by
  have irreflexive {a b : K × V} (less : cmp a.1 b.1 = .lt) (more : cmp b.1 a.1 = .lt) : a = b :=
    absurd more (Std.OrientedCmp.not_lt_of_lt less)
  have distinct {n : List (K × V)} (sorted : Ascending cmp n) : n.Nodup :=
    List.Pairwise.imp (fun {a b} less equal => by
      subst equal
      simp [Std.ReflCmp.compare_self] at less) sorted
  refine List.Perm.eq_of_pairwise (fun a b _ _ less more => irreflexive less more) left right ?_
  refine (List.perm_ext_iff_of_nodup (distinct left) (distinct right)).mpr (fun e => ?_)
  rw [show e = (e.1, e.2) from rfl, mem_iff_lookup left, mem_iff_lookup right, same]

omit [Std.TransCmp cmp] in
/-- Without repeated keys a sorted listing ascends. -/
theorem ascending_of_nodup {l : List (K × V)}
    (sorted : l.Pairwise fun a b => (cmp a.1 b.1).isLE = true) (distinct : (keys l).Nodup) :
    Ascending cmp l := by
  have apart : l.Pairwise fun a b => a.1 ≠ b.1 := List.pairwise_map.mp distinct
  refine List.Pairwise.imp₂ (fun a b le other => ?_) sorted apart
  cases order : cmp a.1 b.1 with
  | lt => rfl
  | eq => exact absurd (Std.LawfulEqCmp.eq_of_compare order) other
  | gt => rw [order] at le; cases le

end Order

/-! ## Runs of writes -/

inductive Write (K : Type u) (V : Type v) where
  | insert (k : K) (v : V)
  | remove (k : K)

namespace Write

/-- What a write does to the listing. -/
def onListing (cmp : K → K → Ordering) (l : List (K × V)) : Write K V → List (K × V)
  | insert k v => put cmp k v l
  | remove k => erase cmp k l

/-- What a write does to the reads: the map from a key to its last value. -/
def onReads [DecidableEq K] (reads : K → Option V) : Write K V → K → Option V
  | insert k v => Function.update reads k (some v)
  | remove k => Function.update reads k none

def key : Write K V → K
  | insert k _ => k
  | remove k => k

theorem onReads_of_ne [DecidableEq K] (reads : K → Option V) (write : Write K V) {j : K}
    (other : j ≠ write.key) : write.onReads reads j = reads j := by
  cases write <;> exact Function.update_of_ne other _ _

/-- A key that no write touches keeps its value. -/
theorem foldl_onReads_of_ne [DecidableEq K] (writes : List (Write K V)) (reads : K → Option V)
    {j : K} (others : ∀ write ∈ writes, j ≠ write.key) :
    writes.foldl onReads reads j = reads j := by
  induction writes generalizing reads with
  | nil => rfl
  | cons write rest ih =>
    obtain ⟨other, later⟩ := List.forall_mem_cons.mp others
    rw [List.foldl_cons, ih _ later, onReads_of_ne reads write other]

variable [Std.TransCmp cmp]

theorem ascending_onListing {l : List (K × V)} (write : Write K V) (sorted : Ascending cmp l) :
    Ascending cmp (write.onListing cmp l) := by
  cases write with
  | insert => exact ascending_put sorted
  | remove => exact ascending_erase sorted

theorem lookup_onListing [Std.LawfulEqCmp cmp] [DecidableEq K] {l : List (K × V)}
    (write : Write K V) (sorted : Ascending cmp l) (j : K) :
    lookup cmp j (write.onListing cmp l) = write.onReads (fun k => lookup cmp k l) j := by
  cases write with
  | insert k v =>
    simp only [onListing, onReads, lookup_put j k v sorted, Std.LawfulEqCmp.compare_eq_iff_eq,
      Function.update_apply]
  | remove k =>
    simp only [onListing, onReads, lookup_erase j k sorted, Std.LawfulEqCmp.compare_eq_iff_eq,
      Function.update_apply]

/-- A run on the listing reads as the run on the map. -/
theorem lookup_foldl_onListing [Std.LawfulEqCmp cmp] [DecidableEq K] (writes : List (Write K V))
    {l : List (K × V)} (sorted : Ascending cmp l) :
    (fun j => lookup cmp j (writes.foldl (onListing cmp) l)) =
      writes.foldl onReads (fun k => lookup cmp k l) := by
  induction writes generalizing l with
  | nil => rfl
  | cons write rest ih =>
    rw [List.foldl_cons, List.foldl_cons, ih (ascending_onListing write sorted)]
    congr 1
    funext j
    exact lookup_onListing write sorted j

end Write

/-! ## Keys under other names -/

section Renamed

variable {J : Type w} {K : Type u} {V : Type v} {cmp : J → J → Ordering} {cmp' : K → K → Ordering}
  {f : J → K}

/-- The entries under other names. -/
def renamed (f : J → K) (l : List (J × V)) : List (K × V) := l.map fun e => (f e.1, e.2)

theorem lookup_renamed (same : ∀ a b, cmp' (f a) (f b) = cmp a b) (k : J) (l : List (J × V)) :
    lookup cmp' (f k) (renamed f l) = lookup cmp k l := by
  induction l with
  | nil => rfl
  | cons e rest ih =>
    change (if cmp' (f k) (f e.1) = .eq then some e.2 else lookup cmp' (f k) (renamed f rest)) = _
    rw [same, ih]
    rfl

theorem put_renamed (same : ∀ a b, cmp' (f a) (f b) = cmp a b) (k : J) (v : V) (l : List (J × V)) :
    put cmp' (f k) v (renamed f l) = renamed f (put cmp k v l) := by
  induction l with
  | nil => rfl
  | cons e rest ih =>
    change (match cmp' (f k) (f e.1) with
      | .lt => (f k, v) :: renamed f (e :: rest)
      | .eq => (f k, v) :: renamed f rest
      | .gt => (f e.1, e.2) :: put cmp' (f k) v (renamed f rest)) = _
    rw [same, put]
    cases cmp k e.1 with
    | lt => rfl
    | eq => rfl
    | gt => exact congrArg _ ih

theorem erase_renamed (same : ∀ a b, cmp' (f a) (f b) = cmp a b) (k : J) (l : List (J × V)) :
    erase cmp' (f k) (renamed f l) = renamed f (erase cmp k l) := by
  induction l with
  | nil => rfl
  | cons e rest ih =>
    change (if cmp' (f k) (f e.1) = .eq then renamed f rest
      else (f e.1, e.2) :: erase cmp' (f k) (renamed f rest)) = _
    rw [same, ih, erase]
    split <;> rfl

/-- The write under the other name. -/
def Write.renamed (f : J → K) : Write J V → Write K V
  | .insert k v => .insert (f k) v
  | .remove k => .remove (f k)

/-- Where names compare like the keys, runs on the listing are the same. -/
theorem foldl_renamed (same : ∀ a b, cmp' (f a) (f b) = cmp a b) (writes : List (Write J V))
    (l : List (J × V)) :
    (writes.map (Write.renamed f)).foldl (Write.onListing cmp') (SortedListing.renamed f l) =
      SortedListing.renamed f (writes.foldl (Write.onListing cmp) l) := by
  induction writes generalizing l with
  | nil => rfl
  | cons write rest ih =>
    rw [List.map_cons, List.foldl_cons, List.foldl_cons, ← ih]
    congr 1
    cases write with
    | insert k v => exact put_renamed same k v l
    | remove k => exact erase_renamed same k l

end Renamed

end WatchAndSee.Library.SortedListing
