import Mathlib.Data.Fintype.Basic
import WatchAndSee.Library.Ranking

/-!
# Finite dictionaries without an order

A dictionary is a finite set of keys with a value for each of them. Two
dictionaries are equal exactly when they hold the same entries, and no key can
occur twice. A language whose dictionaries are enumerated in an unspecified
order is modelled by an `Enumeration`: any choice of one listing for each
dictionary. Nothing here fixes what the keys or the values are.
-/

set_option autoImplicit false

namespace WatchAndSee.Library

universe u v w

structure Dictionary (K : Type u) (V : Type v) where
  keys : Finset K
  value : {k // k ∈ keys} → V

namespace Dictionary

variable {K : Type u} {V : Type v} {W : Type w} [DecidableEq K]

/-- Subscript read: absent keys give `none`. -/
def get? (d : Dictionary K V) (k : K) : Option V :=
  if h : k ∈ d.keys then some (d.value ⟨k, h⟩) else none

def empty : Dictionary K V where
  keys := ∅
  value k := absurd k.2 (Finset.notMem_empty _)

/-- Subscript assignment of a value. -/
def set (d : Dictionary K V) (k : K) (v : V) : Dictionary K V where
  keys := insert k d.keys
  value j := if h : j.1 = k then v else d.value ⟨j.1, (Finset.mem_insert.mp j.2).resolve_left h⟩

omit [DecidableEq K] in
/-- The same keys, with every value passed through `f`. -/
def mapValues (f : V → W) (d : Dictionary K V) : Dictionary K W where
  keys := d.keys
  value k := f (d.value k)

omit [DecidableEq K] in
/-- Every value satisfies `p`. -/
def All (p : V → Prop) (d : Dictionary K V) : Prop := ∀ k, p (d.value k)

instance (p : V → Prop) [DecidablePred p] (d : Dictionary K V) : Decidable (d.All p) :=
  inferInstanceAs (Decidable (∀ k : {k // k ∈ d.keys}, p (d.value k)))

theorem mem_keys_iff (d : Dictionary K V) (k : K) : k ∈ d.keys ↔ ∃ v, d.get? k = some v := by
  unfold get?
  by_cases h : k ∈ d.keys <;> simp [h]

theorem get?_eq_none_iff (d : Dictionary K V) (k : K) : d.get? k = none ↔ k ∉ d.keys := by
  unfold get?
  by_cases h : k ∈ d.keys <;> simp [h]

/-- Equality is equality of all reads. -/
theorem ext_get? {d e : Dictionary K V} (h : ∀ k, d.get? k = e.get? k) : d = e := by
  have keys : d.keys = e.keys := by
    ext k
    rw [mem_keys_iff, mem_keys_iff, h k]
  obtain ⟨ks, f⟩ := d
  obtain ⟨ks', g⟩ := e
  simp only at keys
  subst keys
  congr 1
  funext ⟨k, hk⟩
  have read := h k
  simpa [get?, hk] using read

@[simp] theorem get?_empty (k : K) : (empty : Dictionary K V).get? k = none := by
  simp [get?, empty]

@[simp] theorem get?_set_self (d : Dictionary K V) (k : K) (v : V) :
    (d.set k v).get? k = some v := by
  simp [get?, set]

theorem get?_set_of_ne (d : Dictionary K V) {k j : K} (v : V) (different : j ≠ k) :
    (d.set k v).get? j = d.get? j := by
  by_cases h : j ∈ d.keys <;> simp [get?, set, different, h]

theorem get?_set (d : Dictionary K V) (k j : K) (v : V) :
    (d.set k v).get? j = if j = k then some v else d.get? j := by
  by_cases same : j = k
  · subst same
    simp
  · rw [get?_set_of_ne d v same, if_neg same]

@[simp] theorem get?_mapValues (f : V → W) (d : Dictionary K V) (k : K) :
    (d.mapValues f).get? k = (d.get? k).map f := by
  by_cases h : k ∈ d.keys <;> simp [get?, mapValues, h]

theorem all_iff (p : V → Prop) (d : Dictionary K V) :
    d.All p ↔ ∀ k v, d.get? k = some v → p v := by
  constructor
  · intro all k v read
    unfold get? at read
    split at read
    · cases read
      exact all _
    · cases read
  · intro all k
    exact all k.1 _ (by simp [get?, k.2])

/-- A listing of the dictionary: each entry once, in some order. -/
structure Lists (d : Dictionary K V) (l : List (K × V)) : Prop where
  nodup : (l.map Prod.fst).Nodup
  mem_iff : ∀ k v, (k, v) ∈ l ↔ d.get? k = some v

namespace Lists

variable {d : Dictionary K V} {l m : List (K × V)}

theorem key_mem_iff (listing : d.Lists l) (k : K) : k ∈ l.map Prod.fst ↔ k ∈ d.keys := by
  simp only [List.mem_map, Prod.exists, listing.mem_iff, mem_keys_iff]
  constructor
  · rintro ⟨k', v, read, rfl⟩
    exact ⟨v, read⟩
  · intro given
    obtain ⟨v, read⟩ := given
    exact ⟨k, v, read, rfl⟩

theorem value_mem_iff (listing : d.Lists l) (v : V) :
    v ∈ l.map Prod.snd ↔ ∃ k, d.get? k = some v := by
  simp only [List.mem_map, Prod.exists, listing.mem_iff]
  constructor
  · rintro ⟨k, v', read, rfl⟩
    exact ⟨k, read⟩
  · intro given
    obtain ⟨k, read⟩ := given
    exact ⟨k, v, read, rfl⟩

theorem all_iff (listing : d.Lists l) (p : V → Prop) : d.All p ↔ ∀ e ∈ l, p e.2 := by
  rw [Dictionary.all_iff]
  constructor
  · intro all e member
    exact all e.1 e.2 ((listing.mem_iff _ _).mp member)
  · intro all k v read
    exact all (k, v) ((listing.mem_iff _ _).mpr read)

/-- Any two listings are the same up to order. -/
theorem perm (left : d.Lists l) (right : d.Lists m) : l.Perm m := by
  refine (List.perm_ext_iff_of_nodup left.nodup.of_map right.nodup.of_map).mpr ?_
  intro given
  obtain ⟨k, v⟩ := given
  rw [left.mem_iff, right.mem_iff]

/-- Where all values are equal, every listing has the same values in the same order. -/
theorem values_eq_of_equal (left : d.Lists l) (right : d.Lists m)
    (equal : ∀ k₁ k₂ v₁ v₂, d.get? k₁ = some v₁ → d.get? k₂ = some v₂ → v₁ = v₂) :
    l.map Prod.snd = m.map Prod.snd := by
  refine @List.Perm.eq_of_pairwise _ (fun _ _ => True) _ _ ?_ ?_ ?_ ((left.perm right).map Prod.snd)
  · intro v w inLeft inRight _ _
    obtain ⟨k₁, read₁⟩ := (left.value_mem_iff v).mp inLeft
    obtain ⟨k₂, read₂⟩ := (right.value_mem_iff w).mp inRight
    exact equal k₁ k₂ v w read₁ read₂
  · exact List.pairwise_of_forall (fun _ _ => trivial)
  · exact List.pairwise_of_forall (fun _ _ => trivial)

/-- A reordering of a listing is a listing. -/
theorem of_perm (listing : d.Lists l) (same : m.Perm l) : d.Lists m where
  nodup := (same.map Prod.fst).nodup_iff.mpr listing.nodup
  mem_iff k v := (same.mem_iff).trans (listing.mem_iff k v)

/-- A listing of the mapped values lists the dictionary under the same keys. -/
theorem of_mapValues {W : Type w} {f : V → W} {mapped : List (K × W)}
    (listing : (d.mapValues f).Lists mapped) :
    ∃ l, d.Lists l ∧ mapped = l.map (fun e => (e.1, f e.2)) := by
  have read : ∀ e ∈ mapped, ∃ v, d.get? e.1 = some v ∧ f v = e.2 := by
    intro e member
    have found := (listing.mem_iff e.1 e.2).mp member
    rwa [get?_mapValues, Option.map_eq_some_iff] at found
  obtain ⟨l, same⟩ : ∃ l : List (K × V), mapped = l.map (fun e => (e.1, f e.2)) ∧
      ∀ e ∈ l, d.get? e.1 = some e.2 := by
    clear listing
    induction mapped with
    | nil => exact ⟨[], rfl, by simp⟩
    | cons e rest ih =>
      obtain ⟨v, found, same⟩ := read e (by simp)
      obtain ⟨others, rfl, reads⟩ := ih (fun e' member => read e' (List.mem_cons_of_mem _ member))
      exact ⟨(e.1, v) :: others, by simp [same], List.forall_mem_cons.mpr ⟨found, reads⟩⟩
  obtain ⟨same, reads⟩ := same
  have keys : mapped.map Prod.fst = l.map Prod.fst := by
    rw [same, List.map_map]
    rfl
  refine ⟨l, ⟨keys ▸ listing.nodup, ?_⟩, same⟩
  intro k v
  constructor
  · exact reads (k, v)
  · intro found
    have listed : k ∈ l.map Prod.fst := by
      rw [← keys, listing.key_mem_iff]
      exact (d.mem_keys_iff k).mpr ⟨v, found⟩
    obtain ⟨e, member, rfl⟩ := List.mem_map.mp listed
    have value := reads e member
    rw [found, Option.some.injEq] at value
    exact value ▸ member

theorem length_eq (listing : d.Lists l) : l.length = d.keys.card := by
  have keys : (l.map Prod.fst).toFinset = d.keys := by
    ext k
    rw [List.mem_toFinset, listing.key_mem_iff]
  rw [← keys, List.toFinset_card_of_nodup listing.nodup, List.length_map]

end Lists

theorem exists_lists (d : Dictionary K V) : ∃ l, d.Lists l := by
  refine ⟨d.keys.attach.toList.map fun k => (k.1, d.value k), ?_, fun k v => ?_⟩
  · rw [List.map_map]
    exact d.keys.attach.nodup_toList.map Subtype.val_injective
  · simp only [List.mem_map, Finset.mem_toList, Finset.mem_attach, true_and, Prod.mk.injEq]
    constructor
    · rintro ⟨⟨j, member⟩, rfl, rfl⟩
      simp [get?, member]
    · intro read
      have member : k ∈ d.keys := (d.mem_keys_iff k).mpr ⟨v, read⟩
      rw [get?, dif_pos member, Option.some.injEq] at read
      exact ⟨⟨k, member⟩, rfl, read⟩

theorem get?_foldl_set_of_notMem (d : Dictionary K V) {l : List (K × V)} {k : K}
    (absent : k ∉ l.map Prod.fst) : (l.foldl (fun d e => d.set e.1 e.2) d).get? k = d.get? k := by
  induction l generalizing d with
  | nil => rfl
  | cons e rest ih =>
    obtain ⟨here, later⟩ := not_or.mp (mt List.mem_cons.mpr absent)
    rw [List.foldl_cons, ih _ later, get?_set_of_ne _ _ here]

theorem get?_foldl_set_of_mem (d : Dictionary K V) {l : List (K × V)} {k : K} {v : V}
    (distinct : (l.map Prod.fst).Nodup) (member : (k, v) ∈ l) :
    (l.foldl (fun d e => d.set e.1 e.2) d).get? k = some v := by
  induction l generalizing d with
  | nil => exact absurd member List.not_mem_nil
  | cons e rest ih =>
    obtain ⟨apart, others⟩ := List.nodup_cons.mp distinct
    rw [List.foldl_cons]
    rcases List.mem_cons.mp member with rfl | later
    · rw [get?_foldl_set_of_notMem _ apart, get?_set_self]
    · exact ih _ others later

/-- Assigning the entries of a listing one after the other. -/
theorem lists_foldl_set {l : List (K × V)} (distinct : (l.map Prod.fst).Nodup) :
    (l.foldl (fun d e => d.set e.1 e.2) empty).Lists l where
  nodup := distinct
  mem_iff k v := by
    refine ⟨get?_foldl_set_of_mem _ distinct, fun read => ?_⟩
    by_cases listed : k ∈ l.map Prod.fst
    · obtain ⟨e, member, rfl⟩ := List.mem_map.mp listed
      have value := get?_foldl_set_of_mem empty distinct member
      rw [read, Option.some.injEq] at value
      rw [value]
      exact member
    · rw [get?_foldl_set_of_notMem _ listed, get?_empty] at read
      cases read

/-- Sort of a listing by ascending key. -/
def sortByKey [LinearOrder K] (l : List (K × V)) : List (K × V) :=
  l.insertionSort (fun a b => a.1 ≤ b.1)

section Sorted

variable [LinearOrder K] {d : Dictionary K V} {l m : List (K × V)}

omit [DecidableEq K] in
theorem sortByKey_perm (l : List (K × V)) : (sortByKey l).Perm l :=
  List.perm_insertionSort _ l

omit [DecidableEq K] in
theorem sortByKey_pairwise (l : List (K × V)) :
    (sortByKey l).Pairwise (fun a b => a.1 ≤ b.1) := by
  have total : Std.Total (fun a b : K × V => a.1 ≤ b.1) := ⟨fun a b => le_total a.1 b.1⟩
  have trans : IsTrans (K × V) (fun a b => a.1 ≤ b.1) := ⟨fun _ _ _ h k => le_trans h k⟩
  exact List.pairwise_insertionSort _ l

theorem Lists.sortByKey (listing : d.Lists l) : d.Lists (Dictionary.sortByKey l) :=
  listing.of_perm (sortByKey_perm l)

/-- Distinct keys make the sorted listing strictly ascending. -/
theorem Lists.sortByKey_strict (listing : d.Lists l) :
    (Dictionary.sortByKey l).Pairwise (fun a b => a.1 < b.1) := by
  have distinct : (Dictionary.sortByKey l).Pairwise (fun a b => a.1 ≠ b.1) :=
    List.pairwise_map.mp listing.sortByKey.nodup
  exact (sortByKey_pairwise l).imp₂ (fun _ _ le ne => lt_of_le_of_ne le ne) distinct

/-- There is one strictly ascending listing: sorting forgets the order of
enumeration. -/
theorem Lists.eq_of_ascending (left : d.Lists l) (right : d.Lists m)
    (ascendingLeft : l.Pairwise (fun a b => a.1 < b.1))
    (ascendingRight : m.Pairwise (fun a b => a.1 < b.1)) : l = m := by
  refine List.Perm.eq_of_pairwise ?_ ascendingLeft ascendingRight (left.perm right)
  intro a b _ _ less greater
  exact absurd greater (lt_asymm less)

/-- Sorting any listing gives the ascending one. -/
theorem Lists.sortByKey_eq_ascending (listing : d.Lists l) (ordered : d.Lists m)
    (ascending : m.Pairwise (fun a b => a.1 < b.1)) : Dictionary.sortByKey l = m :=
  listing.sortByKey.eq_of_ascending ordered listing.sortByKey_strict ascending

theorem Lists.sortByKey_eq (left : d.Lists l) (right : d.Lists m) :
    Dictionary.sortByKey l = Dictionary.sortByKey m :=
  left.sortByKey_eq_ascending right.sortByKey right.sortByKey_strict

end Sorted

end Dictionary

/-- One possible order of enumeration for every dictionary. -/
structure Enumeration (K : Type u) (V : Type v) [DecidableEq K] where
  order : Dictionary K V → List (K × V)
  lists : ∀ d : Dictionary K V, d.Lists (order d)

namespace Enumeration

variable {K : Type u} {V : Type v} [DecidableEq K]

/-- Reenumerate so that the entry of `k`, where there is one, comes first. -/
def startingAt (E : Enumeration K V) (k : K) : Enumeration K V where
  order d := (E.order d).filter (fun e => e.1 = k) ++ (E.order d).filter (fun e => !decide (e.1 = k))
  lists d := (E.lists d).of_perm (List.filter_append_perm (fun e : K × V => decide (e.1 = k)) _)

theorem startingAt_head (E : Enumeration K V) (k : K) (v : V) (d : Dictionary K V)
    (read : d.get? k = some v) : ((E.startingAt k).order d).head? = some (k, v) := by
  have member : (k, v) ∈ (E.order d).filter (fun e => e.1 = k) := by
    simpa using ((E.lists d).mem_iff k v).mpr read
  cases found : (E.order d).filter (fun e => e.1 = k) with
  | nil => simp [found] at member
  | cons e rest =>
    have listed : e ∈ (E.order d).filter (fun e => e.1 = k) := by simp [found]
    obtain ⟨inside, key⟩ := List.mem_filter.mp listed
    have same : e = (k, v) := by
      have readKey := ((E.lists d).mem_iff e.1 e.2).mp inside
      simp only [decide_eq_true_eq] at key
      rw [key, read] at readKey
      exact Prod.ext key (Option.some.inj readKey).symm
    simp [startingAt, found, same]

section Ascending

variable [LinearOrder K]

def ascendingOrder (d : Dictionary K V) : List (K × V) :=
  (ascendingList d.keys).filterMap (fun k => (d.get? k).map (fun v => (k, v)))

/-- The enumeration by ascending keys, which can be evaluated. -/
def ascending : Enumeration K V where
  order := ascendingOrder
  lists d := by
    constructor
    · have read (l : List K) (inside : ∀ k ∈ l, k ∈ d.keys) :
          (l.filterMap (fun k => (d.get? k).map (fun v => (k, v)))).map Prod.fst = l := by
        induction l with
        | nil => rfl
        | cons k rest ih =>
          obtain ⟨v, found⟩ := (d.mem_keys_iff k).mp (inside k (by simp))
          simp [found, ih (fun j member => inside j (by simp [member]))]
      have same : (ascendingOrder d).map Prod.fst = ascendingList d.keys :=
        read _ (fun k member => (mem_ascendingList d.keys k).mp member)
      rw [same]
      exact nodup_ascendingList d.keys
    · intro k v
      simp only [ascendingOrder, List.mem_filterMap, Option.map_eq_some_iff, Prod.mk.injEq,
        mem_ascendingList]
      constructor
      · rintro ⟨k', _, v', read, rfl, rfl⟩
        exact read
      · intro read
        exact ⟨k, (d.mem_keys_iff k).mpr ⟨v, read⟩, v, read, rfl, rfl⟩

end Ascending

end Enumeration

end WatchAndSee.Library
