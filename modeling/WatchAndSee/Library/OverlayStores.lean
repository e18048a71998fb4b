import Mathlib.Data.List.Nodup
import Mathlib.Data.List.Perm.Basic
import WatchAndSee.Library.Overlays

/-!
# Overlays put on a store

The values of an overlay are written into a store one after the other, in any
order. When writes apart from each other may change places, a write hides those
below it, and a write below another one goes into its value, the overlay of some
writes does to the store what the writes do.
-/

set_option autoImplicit false

namespace WatchAndSee.Library

universe u v w

namespace Overlay

variable {K : Type u} {N : Type v}

/-- What a store and the values in it do with writes: two of them apart from each
other may change places, a write hides those below it, and a write below another
one goes into its value. -/
structure Store (K : Type u) (N : Type v) (M : Type w) where
  upd : M → List K → N → M
  sub : N → List K → N → N
  base : M → Prop
  path : List K → Prop
  val : N → Prop
  path_append : ∀ {p r}, path (p ++ r) ↔ path p ∧ path r
  base_upd : ∀ {m p a}, base m → path p → val a → base (upd m p a)
  val_sub : ∀ {a r b}, val a → path r → val b → val (sub a r b)
  comm : ∀ {m p q a b}, base m → path p → path q → val a → val b → Apart p q →
    upd (upd m p a) q b = upd (upd m q b) p a
  absorb : ∀ {m p r a b}, base m → path (p ++ r) → val a → val b →
    upd (upd m (p ++ r) a) p b = upd m p b
  compose : ∀ {m p r a b}, base m → path (p ++ r) → val a → val b →
    upd (upd m p a) (p ++ r) b = upd m p (sub a r b)

namespace Store

variable {M : Type w} (S : Store K N M)

/-- Writes that the laws speak of. -/
def Allows (ws : List (List K × N)) : Prop := ∀ w ∈ ws, S.path w.1 ∧ S.val w.2

def performs (m : M) (ws : List (List K × N)) : M := ws.foldl (fun m w => S.upd m w.1 w.2) m

theorem performs_append (m : M) (ws vs : List (List K × N)) :
    S.performs m (ws ++ vs) = S.performs (S.performs m ws) vs := List.foldl_append

theorem performs_cons (m : M) (w : List K × N) (ws : List (List K × N)) :
    S.performs m (w :: ws) = S.performs (S.upd m w.1 w.2) ws := rfl

theorem base_performs {m : M} (base : S.base m) {ws : List (List K × N)} (allowed : S.Allows ws) :
    S.base (S.performs m ws) := by
  induction ws generalizing m with
  | nil => exact base
  | cons w ws ih =>
    obtain ⟨⟨path, val⟩, others⟩ := List.forall_mem_cons.mp allowed
    exact ih (S.base_upd base path val) others

/-- The order of writes apart from each other is free. -/
theorem performs_perm {ws vs : List (List K × N)} (same : ws.Perm vs) (allowed : S.Allows ws)
    (apart : ∀ w ∈ ws, ∀ x ∈ ws, w ≠ x → Apart w.1 x.1) {m : M} (base : S.base m) :
    S.performs m ws = S.performs m vs := by
  induction same generalizing m with
  | nil => rfl
  | cons w _ ih =>
    obtain ⟨⟨path, val⟩, others⟩ := List.forall_mem_cons.mp allowed
    rw [performs_cons, performs_cons]
    exact ih others (fun x inX y inY => apart x (List.mem_cons_of_mem _ inX) y
      (List.mem_cons_of_mem _ inY)) (S.base_upd base path val)
  | swap w x rest =>
    obtain ⟨⟨pathX, valX⟩, others⟩ := List.forall_mem_cons.mp allowed
    obtain ⟨⟨pathW, valW⟩, _⟩ := List.forall_mem_cons.mp others
    by_cases equal : x = w
    · rw [equal]
    · have aside := apart x (by simp) w (by simp) equal
      simp only [performs_cons, S.comm base pathX pathW valX valW aside]
  | trans first _ ihFirst ihSecond =>
    have allowed' : S.Allows _ := fun w member => allowed w (first.mem_iff.mpr member)
    rw [ihFirst allowed apart base]
    exact ihSecond allowed' (fun w inW x inX => apart w (first.mem_iff.mpr inW) x
      (first.mem_iff.mpr inX)) base

theorem upd_performs_under {m : M} (base : S.base m) {p : List K} {n : N} (val : S.val n)
    {ws : List (List K × N)} (allowed : S.Allows ws) (under : ∀ w ∈ ws, p <+: w.1) :
    S.upd (S.performs m ws) p n = S.upd m p n := by
  induction ws generalizing m with
  | nil => rfl
  | cons w ws ih =>
    obtain ⟨⟨r, path⟩, others⟩ := List.forall_mem_cons.mp under
    obtain ⟨⟨pathW, valW⟩, allowed'⟩ := List.forall_mem_cons.mp allowed
    rw [performs_cons, ih (S.base_upd base pathW valW) allowed' others]
    rw [← path] at pathW ⊢
    exact S.absorb base pathW valW val

end Store

/-- The values of the overlay with their paths, in some order. -/
structure Lists (o : Overlay K N) (ws : List (List K × N)) : Prop where
  nodup : ws.Nodup
  mem_iff : ∀ p n, (p, n) ∈ ws ↔ o p = some n

theorem Lists.perm {o : Overlay K N} {ws vs : List (List K × N)} (left : o.Lists ws)
    (right : o.Lists vs) : ws.Perm vs := by
  refine (List.perm_ext_iff_of_nodup left.nodup right.nodup).mpr (fun w => ?_)
  rw [show w = (w.1, w.2) from rfl, left.mem_iff, right.mem_iff]

theorem lists_empty : (empty : Overlay K N).Lists [] := ⟨List.nodup_nil, by simp [empty]⟩

theorem Lists.apart {o : Overlay K N} (free : o.PrefixFree) {ws : List (List K × N)}
    (lists : o.Lists ws) {w x : List K × N} (left : w ∈ ws) (right : x ∈ ws) (different : w ≠ x) :
    Apart w.1 x.1 := by
  have atW : o w.1 = some w.2 := (lists.mem_iff w.1 w.2).mp left
  have atX : o x.1 = some x.2 := (lists.mem_iff x.1 x.2).mp right
  have distinct : w.1 ≠ x.1 := by
    intro same
    rw [same, atX] at atW
    exact different (Prod.ext same (Option.some.inj atW).symm)
  refine ⟨fun leads => ?_, fun leads => ?_⟩
  · exact distinct (free w.1 x.1 (by simp [atW]) (by simp [atX]) leads)
  · exact distinct (free x.1 w.1 (by simp [atX]) (by simp [atW]) leads).symm

section Batch

variable {M : Type w} (S : Store K N M)

/-- Any two listings of an overlay do the same. -/
theorem performs_lists {o : Overlay K N} (free : o.PrefixFree) {ws vs : List (List K × N)}
    (left : o.Lists ws) (right : o.Lists vs) (allowed : S.Allows ws) {m : M} (base : S.base m) :
    S.performs m ws = S.performs m vs :=
  S.performs_perm (left.perm right) allowed
    (fun _ inLeft _ inRight different => left.apart free inLeft inRight different) base

/-- A write below a value of the overlay. -/
theorem lists_add_above {o : Overlay K N} (free : o.PrefixFree) {r s : List K} {v n : N}
    (nonempty : s ≠ []) {left right : List (List K × N)} (lists : o.Lists (left ++ (r, v) :: right)) :
    (o.add S.sub (r ++ s) n).Lists (left ++ (r, S.sub v s n) :: right) := by
  classical
  have found : o r = some v := (lists.mem_iff r v).mp (by simp)
  have after : o.add S.sub (r ++ s) n = fun q => if q = r then some (S.sub v s n) else o q :=
    add_of_some free n found (fun short => absurd short nonempty)
  have atR : o.add S.sub (r ++ s) n r = some (S.sub v s n) := by simp [after]
  have elsewhere {q : List K} (different : q ≠ r) : o.add S.sub (r ++ s) n q = o q := by
    simp [after, different]
  have nodup := List.nodup_middle.mp lists.nodup
  have once {q : List K} {w : N} (inside : (q, w) ∈ left ++ right) : q ≠ r := by
    rintro rfl
    have atQ : o q = some w := (lists.mem_iff q w).mp (by
      rcases List.mem_append.mp inside with first | second
      · simp [first]
      · simp [second])
    rw [found] at atQ
    cases atQ
    exact (List.nodup_cons.mp nodup).1 inside
  refine ⟨List.nodup_middle.mpr (List.nodup_cons.mpr ⟨fun inside => once inside rfl,
    (List.nodup_cons.mp nodup).2⟩), fun q w => ?_⟩
  rw [List.mem_append, List.mem_cons, or_left_comm, ← List.mem_append, Prod.mk.injEq]
  by_cases same : q = r
  · subst same
    rw [atR]
    refine ⟨?_, fun equal => .inl ⟨rfl, (Option.some.inj equal).symm⟩⟩
    rintro (⟨_, rfl⟩ | inside)
    · rfl
    · exact absurd rfl (once inside)
  · rw [elsewhere same, ← lists.mem_iff]
    simp [same]

/-- Any other write. -/
theorem lists_add_free {o : Overlay K N} {p : List K} (free : ¬ o.Above p) (n : N)
    {ws : List (List K × N)} (lists : o.Lists ws) [DecidablePred fun w : List K × N => p <+: w.1] :
    (o.add S.sub p n).Lists ((p, n) :: ws.filter fun w => ¬ p <+: w.1) := by
  refine ⟨List.nodup_cons.mpr ⟨by simp, lists.nodup.filter _⟩, fun q w => ?_⟩
  rw [List.mem_cons, List.mem_filter, lists.mem_iff, Prod.mk.injEq]
  by_cases under : p <+: q
  · by_cases same : q = p
    · subst same
      rw [add_self o n free]
      simp [eq_comm]
    · rw [add_under o n under same]
      simp [same, under]
  · have different : q ≠ p := fun same => under (same ▸ List.prefix_refl _)
    have kept : o.add S.sub p n q = o q := by
      by_cases leads : q <+: p
      · have nothing : o q = none := by
          by_contra something
          exact free ⟨q, leads, different, Option.isSome_iff_ne_none.mpr something⟩
        rw [add_off o n under leads, nothing, Option.map_none]
      · exact add_apart o n ⟨under, leads⟩
    rw [kept]
    simp [different, under]

/-- One more write can go into the overlay or come after its values. -/
theorem performs_add {o : Overlay K N} (free : o.PrefixFree) {ws : List (List K × N)}
    (lists : o.Lists ws) (allowed : S.Allows ws) {p : List K} {n : N} (path : S.path p)
    (val : S.val n) :
    ∃ vs, (o.add S.sub p n).Lists vs ∧ S.Allows vs ∧
      ∀ m, S.base m → S.performs m vs = S.upd (S.performs m ws) p n := by
  classical
  by_cases above : o.Above p
  · obtain ⟨r, ⟨s, rfl⟩, different, found⟩ := above
    obtain ⟨v, there⟩ := Option.isSome_iff_exists.mp found
    obtain ⟨left, right, rfl⟩ := List.append_of_mem ((lists.mem_iff r v).mpr there)
    have nonempty : s ≠ [] := by
      rintro rfl
      exact different (List.append_nil r).symm
    obtain ⟨pathR, pathS⟩ := S.path_append.mp path
    have valV : S.val v := (allowed (r, v) (by simp)).2
    have changed := lists_add_above S free (n := n) nonempty lists
    have others : S.Allows (left ++ right) := by
      intro w member
      rcases List.mem_append.mp member with inside | inside
      · exact allowed w (by simp [inside])
      · exact allowed w (by simp [inside])
    have allowed' : S.Allows (left ++ (r, S.sub v s n) :: right) := by
      intro w member
      rcases List.mem_append.mp member with inside | inside
      · exact allowed w (by simp [inside])
      · rcases List.mem_cons.mp inside with rfl | later
        · exact ⟨pathR, S.val_sub valV pathS val⟩
        · exact allowed w (by simp [later])
    refine ⟨_, changed, allowed', fun m base => ?_⟩
    -- the value at `r` can be put last
    have moved {o : Overlay K N} (free : o.PrefixFree) {w : List K × N}
        (lists : o.Lists (left ++ w :: right)) (allowed : S.Allows (left ++ w :: right)) :
        S.performs m (left ++ w :: right) = S.upd (S.performs m (left ++ right)) w.1 w.2 := by
      have last : (left ++ right ++ [w]).Perm (left ++ w :: right) := by
        rw [List.append_assoc]
        exact (List.perm_append_singleton w right).append_left left
      have lists' : o.Lists (left ++ right ++ [w]) :=
        ⟨last.nodup_iff.mpr lists.nodup, fun p n => last.mem_iff.trans (lists.mem_iff p n)⟩
      rw [performs_lists S free lists lists' allowed base, S.performs_append]
      rfl
    rw [moved (free.add _ _) changed allowed', moved free lists allowed,
      S.compose (S.base_performs base others) path valV val]
  · have kept : S.Allows (ws.filter fun w => ¬ p <+: w.1) :=
      fun w member => allowed w (List.mem_of_mem_filter member)
    have dropped : S.Allows (ws.filter fun w => p <+: w.1) :=
      fun w member => allowed w (List.mem_of_mem_filter member)
    have added := lists_add_free S above n lists
    have allowed' : S.Allows ((p, n) :: ws.filter fun w => ¬ p <+: w.1) :=
      List.forall_mem_cons.mpr ⟨⟨path, val⟩, kept⟩
    refine ⟨_, added, allowed', fun m base => ?_⟩
    have split : (ws.filter (fun w => ¬ p <+: w.1) ++ ws.filter fun w => p <+: w.1).Perm ws := by
      simpa using List.filter_append_perm (fun w : List K × N => decide (¬ p <+: w.1)) ws
    have sorted : o.Lists (ws.filter (fun w => ¬ p <+: w.1) ++ ws.filter fun w => p <+: w.1) :=
      ⟨split.nodup_iff.mpr lists.nodup, fun q w => split.mem_iff.trans (lists.mem_iff q w)⟩
    have turned := List.perm_append_singleton (p, n) (ws.filter fun w => ¬ p <+: w.1)
    have last : (o.add S.sub p n).Lists (ws.filter (fun w => ¬ p <+: w.1) ++ [(p, n)]) :=
      ⟨turned.nodup_iff.mpr added.nodup, fun q w => turned.mem_iff.trans (added.mem_iff q w)⟩
    rw [performs_lists S (free.add p n) added last allowed' base,
      performs_lists S free lists sorted allowed base, S.performs_append, S.performs_append,
      S.upd_performs_under (S.base_performs base kept) val dropped
        (fun w member => by simpa using (List.mem_filter.mp member).2)]
    rfl

/-- Putting the overlay of some writes on a store does what the writes do in their order. -/
theorem performs_writeAll {ws : List (List K × N)} (allowedW : S.Allows ws) {o : Overlay K N}
    (free : o.PrefixFree) {ls : List (List K × N)} (lists : o.Lists ls) (allowed : S.Allows ls) :
    ∃ vs, (o.writeAll S.sub ws).Lists vs ∧ S.Allows vs ∧
      ∀ m, S.base m → S.performs m vs = S.performs (S.performs m ls) ws := by
  induction ws generalizing o ls with
  | nil => exact ⟨ls, lists, allowed, fun _ _ => rfl⟩
  | cons w ws ih =>
    obtain ⟨⟨path, val⟩, others⟩ := List.forall_mem_cons.mp allowedW
    obtain ⟨ls', lists', allowed', same⟩ := performs_add S free lists allowed path val
    obtain ⟨vs, listed, allowedV, performed⟩ := ih others (free.add w.1 w.2) lists' allowed'
    refine ⟨vs, listed, allowedV, fun m base => ?_⟩
    rw [performed m base, same m base]
    rfl

end Batch

end Overlay

end WatchAndSee.Library
