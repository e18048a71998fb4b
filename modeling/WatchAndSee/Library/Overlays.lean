import Mathlib.Data.List.Infix
import Mathlib.Logic.Basic

/-!
# Overlays: new values for some paths of a store

An overlay gives values to some paths of a store, none of them below another. A
write below such a path goes into the value there; any other write takes its
place and drops the values below it. Writes that lie below a later write leave no
trace, and writes that no other write meets can be cut out again.
-/

set_option autoImplicit false

namespace WatchAndSee.Library

universe u v w

abbrev Overlay (K : Type u) (N : Type v) := List K → Option N

namespace Overlay

variable {K : Type u} {N : Type v}

/-- Neither path leads to the other. -/
def Apart (p q : List K) : Prop := ¬ p <+: q ∧ ¬ q <+: p

theorem Apart.symm {p q : List K} (apart : Apart p q) : Apart q p := ⟨apart.2, apart.1⟩

def PrefixFree (o : Overlay K N) : Prop :=
  ∀ p q, (o p).isSome → (o q).isSome → p <+: q → p = q

/-- A value stands strictly above `p`. -/
def Above (o : Overlay K N) (p : List K) : Prop := ∃ r, r <+: p ∧ r ≠ p ∧ (o r).isSome

/-- A value stands at `p` or above. -/
def Covers (o : Overlay K N) (p : List K) : Prop := ∃ r, r <+: p ∧ (o r).isSome

def empty : Overlay K N := fun _ => none

variable (sub : N → List K → N → N)

open Classical in
/-- The write of `n` at `p`, where `sub` writes inside a value. -/
noncomputable def add (o : Overlay K N) (p : List K) (n : N) : Overlay K N := fun q =>
  if p <+: q then (if q = p ∧ ¬ o.Above p then some n else none)
  else if q <+: p then (o q).map fun v => sub v (p.drop q.length) n
  else o q

open Classical in
/-- Without the values at the paths and below them. -/
noncomputable def cut (o : Overlay K N) (paths : List (List K)) : Overlay K N := fun q =>
  if ∃ p ∈ paths, p <+: q then none else o q

noncomputable def writeAll (o : Overlay K N) (ws : List (List K × N)) : Overlay K N :=
  ws.foldl (fun o w => o.add sub w.1 w.2) o

theorem writeAll_append (o : Overlay K N) (ws vs : List (List K × N)) :
    o.writeAll sub (ws ++ vs) = (o.writeAll sub ws).writeAll sub vs := List.foldl_append

theorem writeAll_cons (o : Overlay K N) (w : List K × N) (ws : List (List K × N)) :
    o.writeAll sub (w :: ws) = (o.add sub w.1 w.2).writeAll sub ws := rfl

variable {sub}

theorem add_self (o : Overlay K N) {p : List K} (n : N) (free : ¬ o.Above p) :
    o.add sub p n p = some n := by simp [add, free]

theorem add_under (o : Overlay K N) {p q : List K} (n : N) (below : p <+: q) (different : q ≠ p) :
    o.add sub p n q = none := by simp [add, below, different]

theorem add_under_above (o : Overlay K N) {p q : List K} (n : N) (below : p <+: q)
    (above : o.Above p) : o.add sub p n q = none := by simp [add, below, above]

theorem add_off (o : Overlay K N) {p q : List K} (n : N) (off : ¬ p <+: q) (leads : q <+: p) :
    o.add sub p n q = (o q).map fun v => sub v (p.drop q.length) n := by
  rw [add, if_neg off, if_pos leads]

theorem add_apart (o : Overlay K N) {p q : List K} (n : N) (apart : Apart p q) :
    o.add sub p n q = o q := by rw [add, if_neg apart.1, if_neg apart.2]

theorem isSome_add_off (o : Overlay K N) {p q : List K} (n : N) (off : ¬ p <+: q) :
    (o.add sub p n q).isSome = (o q).isSome := by
  by_cases leads : q <+: p
  · rw [add_off o n off leads, Option.isSome_map]
  · rw [add_apart o n ⟨off, leads⟩]

/-- Two paths to one path lie one above the other. -/
theorem prefix_of_not_under {p q r : List K} (left : p <+: r) (right : q <+: r) (off : ¬ p <+: q) :
    q <+: p := (List.prefix_or_prefix_of_prefix left right).resolve_left off

theorem PrefixFree.add {o : Overlay K N} (free : o.PrefixFree) (p : List K) (n : N) :
    (o.add sub p n).PrefixFree := by
  intro x y atX atY below
  by_cases under : p <+: x
  · have same {z : List K} (found : (o.add sub p n z).isSome) (under : p <+: z) : z = p := by
      by_contra different
      simp [add_under o n under different] at found
    rw [same atX under, same atY (under.trans below)]
  · rw [isSome_add_off o n under] at atX
    by_cases underY : p <+: y
    · have leads := prefix_of_not_under underY below under
      have above : o.Above p := ⟨x, leads, fun same => under (same ▸ List.prefix_refl _), atX⟩
      simp [add_under_above o n underY above] at atY
    · rw [isSome_add_off o n underY] at atY
      exact free x y atX atY below

open Classical in
/-- A write at a value of the overlay or below it. -/
theorem add_of_some {o : Overlay K N} (free : o.PrefixFree) {r s : List K} {v : N} (n : N)
    (found : o r = some v) (whole : s = [] → sub v s n = n) :
    o.add sub (r ++ s) n = fun q => if q = r then some (sub v s n) else o q := by
  have leads : r <+: r ++ s := List.prefix_append r s
  funext q
  by_cases same : q = r
  · rw [if_pos same, same]
    by_cases here : s = []
    · subst here
      have clear : ¬ o.Above (r ++ []) := by
        rintro ⟨x, below, different, there⟩
        rw [List.append_nil] at below different
        exact different (free x r there (by simp [found]) below)
      have written : o.add sub (r ++ []) n (r ++ []) = some n := add_self o n clear
      rw [List.append_nil] at written ⊢
      rw [written, whole rfl]
    · have off : ¬ r ++ s <+: r := by
        intro below
        have shorter := below.length_le
        rw [List.length_append] at shorter
        exact here (List.length_eq_zero_iff.mp (by omega))
      rw [add_off o n off leads, found, List.drop_left]
      rfl
  · rw [if_neg same]
    have nothing (meets : r <+: q ∨ q <+: r) : o q = none := by
      by_contra something
      have there : (o q).isSome := Option.isSome_iff_ne_none.mpr something
      rcases meets with below | leads
      · exact same (free r q (by simp [found]) there below).symm
      · exact same (free q r there (by simp [found]) leads)
    by_cases under : r ++ s <+: q
    · rw [nothing (.inl (leads.trans under))]
      by_cases equal : q = r ++ s
      · have above : o.Above (r ++ s) := ⟨r, leads, fun short => same (equal.trans short.symm), by simp [found]⟩
        exact add_under_above o n under above
      · exact add_under o n under equal
    · by_cases reaches : q <+: r ++ s
      · rw [add_off o n under reaches, nothing (List.prefix_or_prefix_of_prefix leads reaches),
          Option.map_none]
      · exact add_apart o n ⟨under, reaches⟩

open Classical in
/-- A write where nothing stands on the way. -/
theorem add_of_free {o : Overlay K N} {p : List K} (n : N) (free : ∀ r, r <+: p → o r = none) :
    o.add sub p n = fun q => if p <+: q then (if q = p then some n else none) else o q := by
  have clear : ¬ o.Above p := by
    rintro ⟨r, leads, _, found⟩
    rw [free r leads] at found
    cases found
  funext q
  by_cases under : p <+: q
  · rw [if_pos under]
    by_cases same : q = p
    · rw [if_pos same, same, add_self o n clear]
    · rw [if_neg same, add_under o n under same]
  · rw [if_neg under]
    by_cases reaches : q <+: p
    · rw [add_off o n under reaches, free q reaches, Option.map_none]
    · exact add_apart o n ⟨under, reaches⟩

/-- The overlay of what lies at `q` or below. -/
def part (o : Overlay K N) (q : List K) : Overlay K N := fun s => o (q ++ s)

theorem above_append {o : Overlay K N} {q : List K} (free : ¬ o.Above q) (x : List K) :
    o.Above (q ++ x) ↔ (o.part q).Above x := by
  constructor
  · rintro ⟨r, leads, different, found⟩
    rcases List.prefix_or_prefix_of_prefix leads (List.prefix_append q x) with shorter | ⟨y, rfl⟩
    · by_cases same : r = q
      · subst same
        refine ⟨[], List.nil_prefix, fun nothing => different ?_, ?_⟩
        · rw [← nothing, List.append_nil]
        · rwa [part, List.append_nil]
      · exact absurd ⟨r, shorter, same, found⟩ free
    · exact ⟨y, (List.prefix_append_right_inj q).mp leads, fun same => different (by rw [same]), found⟩
  · rintro ⟨y, leads, different, found⟩
    exact ⟨q ++ y, (List.prefix_append_right_inj q).mpr leads,
      fun same => different (List.append_cancel_left same), found⟩

/-- A write below a free place is a write of the part there. -/
theorem part_add {o : Overlay K N} {q : List K} (free : ¬ o.Above q) (x : List K) (n : N) :
    (o.add sub (q ++ x) n).part q = (o.part q).add sub x n := by
  funext s
  unfold part
  by_cases under : x <+: s
  · have underQ : q ++ x <+: q ++ s := (List.prefix_append_right_inj q).mpr under
    by_cases same : s = x
    · subst same
      by_cases above : o.Above (q ++ s)
      · rw [add_under_above o n underQ above]
        exact (add_under_above _ n under ((above_append free s).mp above)).symm
      · rw [add_self o n above]
        exact (add_self _ n (mt (above_append free s).mpr above)).symm
    · rw [add_under o n underQ fun equal => same (List.append_cancel_left equal)]
      exact (add_under _ n under same).symm
  · have off : ¬ q ++ x <+: q ++ s := mt (List.prefix_append_right_inj q).mp under
    by_cases leads : s <+: x
    · obtain ⟨y, rfl⟩ := leads
      rw [add_off o n off ((List.prefix_append_right_inj q).mpr (List.prefix_append s y)),
        add_off _ n under (List.prefix_append s y), List.drop_left, ← List.append_assoc, List.drop_left]
    · rw [add_apart o n ⟨off, mt (List.prefix_append_right_inj q).mp leads⟩,
        add_apart _ n ⟨under, leads⟩]

theorem prefixFree_empty : (empty : Overlay K N).PrefixFree := by
  intro p q found
  cases found

theorem PrefixFree.cut {o : Overlay K N} (free : o.PrefixFree) (paths : List (List K)) :
    (o.cut paths).PrefixFree := by
  have old {q : List K} (found : (o.cut paths q).isSome) : (o q).isSome := by
    unfold Overlay.cut at found
    split at found
    · cases found
    · exact found
  exact fun p q atP atQ leads => free p q (old atP) (old atQ) leads

theorem cut_nil (o : Overlay K N) : o.cut [] = o := by
  funext x
  rw [cut, if_neg]
  rintro ⟨p, member, _⟩
  cases member

theorem cut_cut (o : Overlay K N) (ps qs : List (List K)) : (o.cut ps).cut qs = o.cut (ps ++ qs) := by
  have either (x : List K) : (∃ p ∈ ps ++ qs, p <+: x) ↔ (∃ p ∈ ps, p <+: x) ∨ ∃ q ∈ qs, q <+: x := by
    simp only [List.mem_append, or_and_right, exists_or]
  funext x
  by_cases below : ∃ q ∈ qs, q <+: x
  · rw [cut, if_pos below, cut, if_pos ((either x).mpr (.inr below))]
  · rw [cut, if_neg below]
    by_cases first : ∃ p ∈ ps, p <+: x
    · rw [cut, if_pos first, cut, if_pos ((either x).mpr (.inl first))]
    · rw [cut, if_neg first, cut, if_neg (mt (either x).mp (not_or.mpr ⟨first, below⟩))]

/-- Values stand where they were or where something was written. -/
theorem isSome_writeAll {o : Overlay K N} {ws : List (List K × N)} {q : List K}
    (found : (o.writeAll sub ws q).isSome) : (o q).isSome ∨ q ∈ ws.map Prod.fst := by
  induction ws generalizing o with
  | nil => exact .inl found
  | cons w ws ih =>
    rcases ih found with old | later
    · by_cases under : w.1 <+: q
      · by_cases same : q = w.1
        · exact .inr (by simp [same])
        · simp [add_under o w.2 under same] at old
      · exact .inl (by rwa [isSome_add_off o w.2 under] at old)
    · exact .inr (List.mem_cons_of_mem _ later)

/-- Writes none of which meets another stand side by side. -/
theorem writeAll_of_apart {ws : List (List K × N)} (pairwise : ws.Pairwise fun w v => Apart w.1 v.1)
    {o : Overlay K N} (clear : ∀ r, (o r).isSome → ∀ w ∈ ws, Apart r w.1) (q : List K) (n : N) :
    o.writeAll sub ws q = some n ↔ o q = some n ∨ (q, n) ∈ ws := by
  induction ws generalizing o with
  | nil => simp [writeAll]
  | cons w ws ih =>
    obtain ⟨first, others⟩ := List.pairwise_cons.mp pairwise
    have nothing (r : List K) (near : r <+: w.1 ∨ w.1 <+: r) : o r = none := by
      by_contra something
      have apart := clear r (Option.isSome_iff_ne_none.mpr something) w List.mem_cons_self
      rcases near with leads | under
      · exact apart.1 leads
      · exact apart.2 under
    have written : o.add sub w.1 w.2 = _ := add_of_free w.2 fun r leads => nothing r (.inl leads)
    have clear' : ∀ r, (o.add sub w.1 w.2 r).isSome → ∀ v ∈ ws, Apart r v.1 := by
      intro r found v member
      by_cases same : r = w.1
      · exact same ▸ first v member
      · refine clear r ?_ v (List.mem_cons_of_mem _ member)
        by_cases under : w.1 <+: r
        · simp [written, under, same] at found
        · simpa [written, under] using found
    rw [writeAll_cons, ih others clear', List.mem_cons, ← or_assoc]
    refine or_congr_left ?_
    rw [written]
    by_cases under : w.1 <+: q
    · simp only [under, if_true, nothing q (.inr under)]
      by_cases same : q = w.1
      · simp [same, Prod.ext_iff, eq_comm]
      · simp [same, Prod.ext_iff]
    · have different : q ≠ w.1 := fun same => under (same ▸ List.prefix_refl _)
      simp [under, Prod.ext_iff, different]

theorem covers_add (o : Overlay K N) (p : List K) (n : N) (q : List K) :
    (o.add sub p n).Covers q ↔ o.Covers q ∨ p <+: q := by
  constructor
  · rintro ⟨r, leads, found⟩
    by_cases under : p <+: r
    · exact .inr (under.trans leads)
    · exact .inl ⟨r, leads, by rwa [isSome_add_off o n under] at found⟩
  · intro covered
    by_cases below : p <+: q
    · by_cases above : o.Above p
      · obtain ⟨r, leads, different, found⟩ := above
        have off : ¬ p <+: r := fun under => different (leads.eq_of_length_le under.length_le)
        exact ⟨r, leads.trans below, by rwa [isSome_add_off o n off]⟩
      · exact ⟨p, below, by rw [add_self o n above]; rfl⟩
    · obtain ⟨r, leads, found⟩ := covered.resolve_right below
      have off : ¬ p <+: r := fun under => below (under.trans leads)
      exact ⟨r, leads, by rwa [isSome_add_off o n off]⟩

/-- Covered are the paths at or below a write. -/
theorem covers_writeAll (o : Overlay K N) (ws : List (List K × N)) (q : List K) :
    (o.writeAll sub ws).Covers q ↔ o.Covers q ∨ ∃ w ∈ ws, w.1 <+: q := by
  induction ws generalizing o with
  | nil => simp [writeAll]
  | cons w ws ih => rw [writeAll_cons, ih, covers_add, or_assoc, List.exists_mem_cons_iff]

/-! ## Writes that others hide, and writes that no other touches -/

/-- Equal except at `p` and below. -/
def AgreeOff (p : List K) (o o' : Overlay K N) : Prop := ∀ q, ¬ p <+: q → o q = o' q

theorem AgreeOff.above_iff {p q : List K} {o o' : Overlay K N} (agree : AgreeOff p o o')
    (off : ∀ r, r <+: q → r ≠ q → ¬ p <+: r) : o.Above q ↔ o'.Above q := by
  constructor <;>
  · rintro ⟨r, leads, different, found⟩
    refine ⟨r, leads, different, ?_⟩
    simpa [agree r (off r leads different)] using found

theorem AgreeOff.add {p q : List K} {o o' : Overlay K N} (agree : AgreeOff p o o') (n : N) :
    AgreeOff p (o.add sub q n) (o'.add sub q n) := by
  intro x off
  by_cases under : q <+: x
  · have same := agree.above_iff (q := q) (fun r leads _ below => off ((below.trans leads).trans under))
    unfold Overlay.add
    rw [if_pos under, if_pos under, same]
  · unfold Overlay.add
    rw [if_neg under, if_neg under, agree x off]

/-- A write above the difference removes it. -/
theorem AgreeOff.add_eq {p q : List K} {o o' : Overlay K N} (agree : AgreeOff p o o')
    (covers : q <+: p) (n : N) : o.add sub q n = o'.add sub q n := by
  funext x
  by_cases under : q <+: x
  · have same := agree.above_iff (q := q) (fun r leads different below =>
      different (leads.eq_of_length_le (covers.trans below).length_le))
    unfold Overlay.add
    rw [if_pos under, if_pos under, same]
  · have off : ¬ p <+: x := fun below => under (covers.trans below)
    unfold Overlay.add
    rw [if_neg under, if_neg under, agree x off]

theorem agreeOff_add {p q : List K} {o : Overlay K N} (free : ¬ o.Above p) (under : p <+: q)
    (n : N) : AgreeOff p (o.add sub q n) o := by
  intro x off
  have offQ : ¬ q <+: x := fun below => off (under.trans below)
  by_cases leads : x <+: q
  · have nothing : o x = none := by
      by_contra something
      refine free ⟨x, prefix_of_not_under under leads off, ?_, Option.isSome_iff_ne_none.mpr something⟩
      intro same
      exact off (same ▸ List.prefix_refl _)
    rw [add_off o n offQ leads, nothing, Option.map_none]
  · exact add_apart o n ⟨offQ, leads⟩

theorem AgreeOff.trans {p : List K} {o o' o'' : Overlay K N} (left : AgreeOff p o o')
    (right : AgreeOff p o' o'') : AgreeOff p o o'' := fun q off => (left q off).trans (right q off)

theorem AgreeOff.writeAll {p : List K} {o o' : Overlay K N} (agree : AgreeOff p o o')
    (ws : List (List K × N)) : AgreeOff p (o.writeAll sub ws) (o'.writeAll sub ws) := by
  induction ws generalizing o o' with
  | nil => exact agree
  | cons w ws ih => exact ih (agree.add w.2)

theorem agreeOff_writeAll {p : List K} {o : Overlay K N} (free : ¬ o.Above p)
    {own : List (List K × N)} (under : ∀ w ∈ own, p <+: w.1) :
    AgreeOff p (o.writeAll sub own) o := by
  induction own generalizing o with
  | nil => exact fun _ _ => rfl
  | cons w own ih =>
    obtain ⟨first, others⟩ := List.forall_mem_cons.mp under
    have agree : AgreeOff p (o.add sub w.1 w.2) o := agreeOff_add free first w.2
    have free' : ¬ (o.add sub w.1 w.2).Above p := by
      rw [agree.above_iff fun r leads different below =>
        different (leads.eq_of_length_le below.length_le)]
      exact free
    exact (ih free' others).trans agree

theorem AgreeOff.writeAll_eq {p : List K} {o o' : Overlay K N} (agree : AgreeOff p o o')
    {ws : List (List K × N)} (covered : ∃ w ∈ ws, w.1 <+: p) :
    o.writeAll sub ws = o'.writeAll sub ws := by
  induction ws generalizing o o' with
  | nil => simp at covered
  | cons w ws ih =>
    rw [writeAll_cons, writeAll_cons]
    by_cases covers : w.1 <+: p
    · rw [agree.add_eq covers]
    · refine ih (agree.add w.2) ?_
      obtain ⟨x, member, leads⟩ := covered
      rcases List.mem_cons.mp member with rfl | later
      · exact absurd leads covers
      · exact ⟨x, later, leads⟩

/-- Writes below `p` leave no trace once `p` is written. -/
theorem writeAll_hidden {p : List K} {o : Overlay K N} (free : ¬ o.Above p)
    {own later : List (List K × N)} (under : ∀ w ∈ own, p <+: w.1)
    (covered : ∃ w ∈ later, w.1 <+: p) :
    o.writeAll sub (own ++ later) = o.writeAll sub later := by
  rw [writeAll_append]
  exact (agreeOff_writeAll free under).writeAll_eq covered

theorem writeAll_apart {p x : List K} {o : Overlay K N} {ws : List (List K × N)}
    (apart : ∀ w ∈ ws, Apart w.1 p) (under : p <+: x) : o.writeAll sub ws x = o x := by
  induction ws generalizing o with
  | nil => rfl
  | cons w ws ih =>
    obtain ⟨first, others⟩ := List.forall_mem_cons.mp apart
    rw [writeAll_cons, ih others]
    refine add_apart o w.2 ⟨fun below => ?_, fun leads => first.2 (under.trans leads)⟩
    rcases List.prefix_or_prefix_of_prefix below under with left | right
    · exact first.1 left
    · exact first.2 right

/-- Writes below `p` can be cut out again when no other write meets `p`. -/
theorem cut_writeAll {p : List K} {o : Overlay K N} (clear : ∀ q, (o q).isSome → Apart q p)
    {own later : List (List K × N)} (under : ∀ w ∈ own, p <+: w.1)
    (apart : ∀ w ∈ later, Apart w.1 p) :
    (o.writeAll sub (own ++ later)).cut (own.map Prod.fst) = o.writeAll sub later := by
  have free : ¬ o.Above p := fun ⟨r, leads, _, found⟩ => (clear r found).1 leads
  have agree : AgreeOff p ((o.writeAll sub own).writeAll sub later) (o.writeAll sub later) :=
    (agreeOff_writeAll free under).writeAll later
  rw [← writeAll_append] at agree
  funext x
  unfold cut
  by_cases below : p <+: x
  · have nothing : o x = none := by
      by_contra something
      exact (clear x (Option.isSome_iff_ne_none.mpr something)).2 below
    rw [writeAll_apart apart below, nothing]
    split
    · rfl
    · next kept =>
      rw [writeAll_append, writeAll_apart apart below]
      by_contra something
      rcases isSome_writeAll (Option.isSome_iff_ne_none.mpr something) with old | written
      · rw [nothing] at old
        cases old
      · exact kept ⟨x, written, List.prefix_refl _⟩
  · rw [if_neg]
    · exact agree x below
    · rintro ⟨q, member, leads⟩
      obtain ⟨w, inside, rfl⟩ := List.mem_map.mp member
      exact below ((under w inside).trans leads)

end Overlay

end WatchAndSee.Library
