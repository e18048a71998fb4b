import Mathlib.Data.Finset.Card
import Mathlib.Data.List.Sort

/-!
# Ascending listings and ranks

A finite set listed in ascending order of a key `f`: the position of an
element is its rank, the number of elements with a smaller key. Two listings
of one set by different keys read alike under `c` exactly when elements of the
same rank do.
-/

set_option autoImplicit false

namespace WatchAndSee.Library

universe u v w

section AscendingList

variable {K : Type u} [LinearOrder K]

/-- Insertion sort of a finite set, computed through the quotient. -/
def ascendingList (s : Finset K) : List K :=
  Quot.liftOn s.val (List.insertionSort (· ≤ ·)) (fun l m same => by
    refine List.Perm.eq_of_pairwise' (List.pairwise_insertionSort _ l)
      (List.pairwise_insertionSort _ m) ?_
    exact ((List.perm_insertionSort _ l).trans same).trans (List.perm_insertionSort _ m).symm)

theorem coe_ascendingList (s : Finset K) : (ascendingList s : Multiset K) = s.val := by
  obtain ⟨⟨l⟩, nodup⟩ := s
  exact Multiset.coe_eq_coe.mpr (List.perm_insertionSort _ l)

@[simp] theorem mem_ascendingList (s : Finset K) (k : K) : k ∈ ascendingList s ↔ k ∈ s := by
  rw [← Multiset.mem_coe, coe_ascendingList, Finset.mem_val]

theorem nodup_ascendingList (s : Finset K) : (ascendingList s).Nodup := by
  rw [← Multiset.coe_nodup, coe_ascendingList]
  exact s.nodup

theorem ascendingList_pairwise (s : Finset K) : (ascendingList s).Pairwise (· < ·) := by
  have sorted : (ascendingList s).Pairwise (· ≤ ·) := by
    obtain ⟨⟨l⟩, nodup⟩ := s
    exact List.pairwise_insertionSort _ l
  exact sorted.imp₂ (fun _ _ le ne => lt_of_le_of_ne le ne) (nodup_ascendingList s)

end AscendingList

/-- A function that is injective on a set tells its lists apart. -/
theorem map_eq_map_iff_of_injOn {α : Type u} {β : Type v} {f : α → β} {s : Set α}
    (injective : Set.InjOn f s) {xs ys : List α} (left : ∀ x ∈ xs, x ∈ s) (right : ∀ y ∈ ys, y ∈ s) :
    xs.map f = ys.map f ↔ xs = ys := by
  induction xs generalizing ys with
  | nil => cases ys <;> simp
  | cons x xs ih =>
    cases ys with
    | nil => simp
    | cons y ys =>
      rw [List.forall_mem_cons] at left right
      simp only [List.map_cons, List.cons.injEq, injective.eq_iff left.1 right.1, ih left.2 right.2]

variable {α : Type u} {β : Type v} {γ : Type w} [LinearOrder β]

/-- Number of elements of `s` whose key is smaller than that of `a`. -/
def rank (f : α → β) (s : Finset α) (a : α) : Nat := (s.filter (fun x => f x < f a)).card

/-- In an ascending list, the elements below the one at position `i` are the
`i` elements before it. -/
theorem length_filter_lt_getElem (f : α → β) (l : List α)
    (ascending : l.Pairwise (fun a b => f a < f b)) (i : Nat) (inside : i < l.length) :
    (l.filter (fun x => f x < f l[i])).length = i := by
  induction l generalizing i with
  | nil => simp at inside
  | cons a rest ih =>
    have parts := List.pairwise_cons.mp ascending
    cases i with
    | zero =>
      have above : rest.filter (fun x => f x < f a) = [] := by
        rw [List.filter_eq_nil_iff]
        intro x member
        simpa using le_of_lt (parts.1 x member)
      simp [above]
    | succ i =>
      have inside' : i < rest.length := by simpa using inside
      have first : f a < f rest[i] := parts.1 _ (List.getElem_mem inside')
      simp [first, ih parts.2 i inside']

variable [DecidableEq α]

theorem rank_getElem (f : α → β) (s : Finset α) (l : List α)
    (mem_iff : ∀ a, a ∈ l ↔ a ∈ s) (ascending : l.Pairwise (fun a b => f a < f b))
    (i : Nat) (inside : i < l.length) : rank f s l[i] = i := by
  have nodup : l.Nodup := ascending.imp (fun less same => absurd less (by simp [same]))
  have listed : s.filter (fun x => f x < f l[i]) = (l.filter (fun x => f x < f l[i])).toFinset := by
    ext x
    simp [mem_iff]
  rw [rank, listed, List.toFinset_card_of_nodup (nodup.filter _)]
  exact length_filter_lt_getElem f l ascending i inside

/-- Two ascending listings of one set, by two keys, agree under `c` at every
position exactly when elements of equal rank do. -/
theorem map_eq_map_iff_rank {δ : Type v} [LinearOrder δ] (f : α → β) (g : α → δ) (c : α → γ)
    (s : Finset α) (l m : List α) (memL : ∀ a, a ∈ l ↔ a ∈ s) (memM : ∀ a, a ∈ m ↔ a ∈ s)
    (ascendingL : l.Pairwise (fun a b => f a < f b))
    (ascendingM : m.Pairwise (fun a b => g a < g b)) :
    l.map c = m.map c ↔ ∀ a ∈ s, ∀ b ∈ s, rank f s a = rank g s b → c a = c b := by
  have nodupL : l.Nodup := ascendingL.imp (fun less same => absurd less (by simp [same]))
  have nodupM : m.Nodup := ascendingM.imp (fun less same => absurd less (by simp [same]))
  have lengths : l.length = m.length := by
    rw [← List.toFinset_card_of_nodup nodupL, ← List.toFinset_card_of_nodup nodupM]
    congr 1
    ext x
    simp [memL, memM]
  constructor
  · intro same a inA b inB ranks
    obtain ⟨i, inside, rfl⟩ := List.getElem_of_mem ((memL a).mpr inA)
    obtain ⟨j, inside', rfl⟩ := List.getElem_of_mem ((memM b).mpr inB)
    rw [rank_getElem f s l memL ascendingL, rank_getElem g s m memM ascendingM] at ranks
    subst ranks
    have position : (l.map c)[i]? = (m.map c)[i]? := by rw [same]
    simpa [inside, inside'] using position
  · intro agree
    apply List.ext_getElem
    · simpa using lengths
    · intro i inside inside'
      have inL : i < l.length := by simpa using inside
      have inM : i < m.length := by simpa using inside'
      rw [List.getElem_map, List.getElem_map]
      refine agree _ ((memL _).mp (List.getElem_mem inL)) _ ((memM _).mp (List.getElem_mem inM)) ?_
      rw [rank_getElem f s l memL ascendingL, rank_getElem g s m memM ascendingM]

end WatchAndSee.Library
