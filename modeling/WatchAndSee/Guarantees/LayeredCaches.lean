import WatchAndSee.Guarantees.EventCaches

/-!
# Caches without some writes, or with the hidden ones

A cache that leaves records out or takes hidden ones in is layered anew, at the
path that is asked for. It is the part of the cache that would be layered at the
root, as long as no merge above the path writes below it or covers it from two
levels up: such a merge loses its deep writes, and its nodes are read twice along
the same keys.
-/

set_option autoImplicit false

namespace WatchAndSee.Guarantees.StoredNodes
open Library
open Library.Overlay (Apart)
open Source
open Source.FStoredNode hiding children
open Source.FWriteTree
open ImmutableTrees

/-! ## Windows -/

/-- `m` is what `w` writes at `q` and below. -/
structure Window (w : FCompoundWrite) (q : FPath) (m : FCompoundWrite) : Prop where
  whole : GoodWrite w
  good : GoodWrite m
  free : ¬ (overlay w).Above q → overlay m = (overlay w).part q
  above : ∀ r s v, q = r ++ s → s ≠ [] → overlay w r = some v →
    overlay m [] = some (descendant v s)

theorem window_empty (q : FPath) : Window .emptyWrite q .emptyWrite where
  whole := goodWrite_emptyWrite
  good := goodWrite_emptyWrite
  free _ := by
    rw [overlay_emptyWrite]
    rfl
  above r s v _ _ found := by
    rw [overlay_emptyWrite] at found
    cases found

theorem not_above_nil (o : Overlay String FStoredNode) : ¬ o.Above [] := by
  rintro ⟨r, leads, different, _⟩
  exact different (List.prefix_nil.mp leads)

/-- The part of a client's write below a path. -/
theorem Writable.inner {q x : FPath} {c : FStoredNode} (writable : Writable (q ++ x) c) :
    Writable x c := by
  by_cases short : x = []
  · subst short
    exact .value plainPath_nil writable.formed
  · exact (writable.of_append short).2

/-- A value above a place stands on the way to what is written there. -/
theorem value_of_above {o : Overlay String FStoredNode} {p r : FPath} {c v : FStoredNode}
    (off : ¬ p <+: r) (found : o.add updated p c r = some v) :
    (∃ y u, p = r ++ y ∧ o r = some u ∧ v = updated u y c) ∨ Apart p r ∧ o r = some v := by
  by_cases leads : r <+: p
  · obtain ⟨y, rfl⟩ := leads
    rw [Overlay.add_off o c off (List.prefix_append r y), List.drop_left] at found
    obtain ⟨u, old, new⟩ := Option.map_eq_some_iff.mp found
    exact .inl ⟨y, u, rfl, old, new.symm⟩
  · rw [Overlay.add_apart o c ⟨off, leads⟩] at found
    exact .inr ⟨⟨off, leads⟩, found⟩

/-- A write that is not above the place leaves what stands above it. -/
theorem above_add_iff {o : Overlay String FStoredNode} {p q : FPath} (c : FStoredNode)
    (notAbove : p <+: q → p = q) : (o.add updated p c).Above q ↔ o.Above q := by
  have same {r : FPath} (leads : r <+: q) (different : r ≠ q) :
      (o.add updated p c r).isSome = (o r).isSome := by
    refine Overlay.isSome_add_off o c fun under => different ?_
    have whole := notAbove (under.trans leads)
    subst whole
    exact leads.eq_of_length_le under.length_le
  constructor
  · rintro ⟨r, leads, different, found⟩
    exact ⟨r, leads, different, by rwa [same leads different] at found⟩
  · rintro ⟨r, leads, different, found⟩
    exact ⟨r, leads, different, by rwa [same leads different]⟩

theorem Window.add_below {w m w' m' : FCompoundWrite} {q x : FPath} {c : FStoredNode}
    (window : Window w q m) (plain : PlainPath q) (writable : Writable (q ++ x) c)
    (goodW : GoodWrite w') (goodM : GoodWrite m')
    (meaningW : overlay w' = (overlay w).add updated (q ++ x) c)
    (meaningM : overlay m' = (overlay m).add updated x c) : Window w' q m' where
  whole := goodW
  good := goodM
  free clear := by
    have notAbove (leads : q ++ x <+: q) : q ++ x = q :=
      leads.eq_of_length_le (List.prefix_append q x).length_le
    rw [meaningW, above_add_iff c notAbove] at clear
    rw [meaningM, meaningW, Overlay.part_add clear, window.free clear]
  above r s v split nonempty found := by
    have off : ¬ q ++ x <+: r := by
      intro under
      have longer := under.length_le
      rw [split, List.length_append, List.length_append] at longer
      exact nonempty (List.length_eq_zero_iff.mp (by omega))
    rw [meaningW] at found
    rcases value_of_above off found with ⟨y, u, reach, old, rfl⟩ | ⟨apart, _⟩
    · have rest : y = s ++ x := by
        rw [split, List.append_assoc] at reach
        exact (List.append_cancel_left reach).symm
      subst rest
      have root := window.above r s u split nonempty old
      have plainS : PlainPath s := (PlainPath.append.mp (split ▸ plain)).2
      have formedU := (window.whole.writable r u old).formed
      rw [descendant_updated_below formedU plainS writable.inner, meaningM]
      by_cases here : x = []
      · subst here
        rw [updated_nil, Overlay.add_self _ c (not_above_nil _)]
      · have offRoot : ¬ x <+: [] := fun leads => here (List.prefix_nil.mp leads)
        rw [Overlay.add_off _ c offRoot List.nil_prefix, root]
        rfl
    · refine absurd ?_ apart.2
      rw [split, List.append_assoc]
      exact List.prefix_append r (s ++ x)

theorem Window.add_above {w m w' m' : FCompoundWrite} {p s : FPath} {c : FStoredNode}
    (window : Window w (p ++ s) m) (plain : PlainPath (p ++ s)) (nonempty : s ≠ [])
    (formed : WellFormed c)
    (goodW : GoodWrite w') (goodM : GoodWrite m')
    (meaningW : overlay w' = (overlay w).add updated p c)
    (meaningM : overlay m' = (overlay m).add updated [] (descendant c s)) : Window w' (p ++ s) m' where
  whole := goodW
  good := goodM
  free clear := by
    obtain ⟨r, leads, found⟩ := (Overlay.covers_add (overlay w) p c p).mpr (.inr (List.prefix_refl p))
    refine absurd ⟨r, leads.trans (List.prefix_append p s), fun same => ?_, meaningW ▸ found⟩ clear
    have longer := leads.length_le
    rw [same, List.length_append] at longer
    exact nonempty (List.length_eq_zero_iff.mp (by omega))
  above r x v split _ found := by
    rw [meaningM, Overlay.add_self _ _ (not_above_nil _)]
    rw [meaningW] at found
    congr 1
    by_cases under : p <+: r
    · by_cases same : r = p
      · subst same
        by_cases clear : (overlay w).Above r
        · rw [Overlay.add_under_above _ c under clear] at found
          cases found
        · rw [Overlay.add_self _ c clear] at found
          rw [← Option.some.inj found, List.append_cancel_left split]
      · rw [Overlay.add_under _ c under same] at found
        cases found
    · rcases value_of_above under found with ⟨y, u, rfl, old, rfl⟩ | ⟨apart, _⟩
      · rw [List.append_assoc] at split
        obtain rfl := List.append_cancel_left split
        have formedU := (window.whole.writable r u old).formed
        have root : Writable [] c := .value plainPath_nil formed
        have plainY : PlainPath y := (PlainPath.append.mp (PlainPath.append.mp plain).1).2
        have inner := descendant_updated_below formedU plainY root
        rw [List.append_nil, updated_nil] at inner
        rw [descendant_append, inner]
      · have leads : r <+: p ++ s := split ▸ List.prefix_append r x
        rcases List.prefix_or_prefix_of_prefix leads (List.prefix_append p s) with left | right
        · exact absurd left apart.2
        · exact absurd right under

theorem Window.add_apart {w m w' : FCompoundWrite} {p q : FPath} {c : FStoredNode}
    (window : Window w q m) (apart : Apart p q) (writable : Writable p c) (goodW : GoodWrite w')
    (meaningW : overlay w' = (overlay w).add updated p c) : Window w' q m where
  whole := goodW
  good := window.good
  free clear := by
    rw [meaningW, above_add_iff c fun leads => absurd leads apart.1] at clear
    rw [window.free clear, meaningW]
    funext s
    have alone : ∀ e ∈ [(p, c)], Apart e.1 q := by
      intro e member
      rwa [List.mem_singleton.mp member]
    exact (Overlay.writeAll_apart alone (List.prefix_append q s)).symm
  above r s v split nonempty found := by
    have off : ¬ p <+: r := fun leads => apart.1 (leads.trans (split ▸ List.prefix_append r s))
    rw [meaningW] at found
    rcases value_of_above off found with ⟨y, u, rfl, old, rfl⟩ | ⟨_, old⟩
    · subst split
      have apartS : Apart y s :=
        ⟨fun leads => apart.1 ((List.prefix_append_right_inj r).mpr leads),
          fun leads => apart.2 ((List.prefix_append_right_inj r).mpr leads)⟩
      have formedU := (window.whole.writable r u old).formed
      rw [descendant_updated_apart formedU writable.inner apartS]
      exact window.above r s u rfl nonempty old
    · exact window.above r s v split nonempty old

/-- The node in the window is the node at `q` with all writes applied. -/
theorem Window.applied_eq {w m : FCompoundWrite} {q : FPath} (window : Window w q m)
    (plain : PlainPath q) {n : FStoredNode} (formed : WellFormed n) :
    applied m (n.getChild q) = (applied w n).getChild q := by
  have formedQ := formed.getChild plain
  by_cases above : (overlay w).Above q
  · obtain ⟨r, ⟨s, rfl⟩, different, something⟩ := above
    obtain ⟨v, found⟩ := Option.isSome_iff_exists.mp something
    have nonempty : s ≠ [] := by
      rintro rfl
      exact different (List.append_nil r).symm
    have root := window.above r s v rfl nonempty found
    have inWindow := shown_applied window.good formedQ [] _ root plainPath_nil
    have inWhole := shown_applied window.whole formed r v found (PlainPath.append.mp plain).1
    rw [plain.getChild (applied w n), descendant_append, inWhole]
    exact inWindow
  · have same : overlay m = overlay ⟨w.writeTree.subtreeAtPath q⟩ := by
      rw [window.free above]
      funext s
      exact (valueAtPath_subtreeAtPath w.writeTree q s).symm
    rw [window.good.ext (window.whole.subtree q) same, plain.getChild, plain.getChild,
      descendant_applied window.whole formed plain above]

/-! ## One record at two places -/

theorem addWrite_below {w m : FCompoundWrite} {q x : FPath} {c : FStoredNode}
    (window : Window w q m) (plain : PlainPath q) (writable : Writable (q ++ x) c) :
    ∃ w' m', w.addWrite c (q ++ x) = .ok w' ∧ m.addWrite c x = .ok m' ∧ Window w' q m' := by
  obtain ⟨w', addedW, goodW, meaningW⟩ := addWrite_spec window.whole writable
  obtain ⟨m', addedM, goodM, meaningM⟩ := addWrite_spec window.good writable.inner
  exact ⟨w', m', addedW, addedM, window.add_below plain writable goodW goodM meaningW meaningM⟩

/-- A write at `p` or above is one of the node that it has at the place. -/
theorem addWrite_covering {w m : FCompoundWrite} {p s : FPath} {c : FStoredNode}
    (window : Window w (p ++ s) m) (plain : PlainPath (p ++ s)) (formed : WellFormed c) :
    ∃ w' m', w.addWrite c p = .ok w' ∧ m.addWrite (descendant c s) [] = .ok m' ∧
      Window w' (p ++ s) m' := by
  have plainP := (PlainPath.append.mp plain).1
  by_cases here : s = []
  · subst here
    rw [List.append_nil] at window plain ⊢
    have writable : Writable (p ++ []) c := by
      rw [List.append_nil]
      exact .value plainP formed
    have both := addWrite_below window plain writable
    rw [List.append_nil] at both
    exact both
  · obtain ⟨w', addedW, goodW, meaningW⟩ := addWrite_spec window.whole (.value plainP formed)
    obtain ⟨m', addedM, goodM, meaningM⟩ :=
      addWrite_spec window.good (.value plainPath_nil (formed.descendant s))
    exact ⟨w', m', addedW, addedM,
      window.add_above plain here formed goodW goodM meaningW meaningM⟩

theorem addWrites_below {w m : FCompoundWrite} {q x : FPath} (window : Window w q m)
    (plain : PlainPath q) {es : List (FPath × FStoredNode)}
    (writable : ∀ e ∈ es, Writable (q ++ (x ++ e.1)) e.2) :
    ∃ w' m', es.foldlM (fun (w : FCompoundWrite) e => w.addWrite e.2 (q ++ (x ++ e.1))) w = .ok w' ∧
      es.foldlM (fun (m : FCompoundWrite) e => m.addWrite e.2 (x ++ e.1)) m = .ok m' ∧
      Window w' q m' := by
  induction es generalizing w m with
  | nil => exact ⟨w, m, rfl, rfl, window⟩
  | cons e es ih =>
    obtain ⟨first, others⟩ := List.forall_mem_cons.mp writable
    obtain ⟨w₁, m₁, addedW, addedM, window₁⟩ := addWrite_below window plain first
    obtain ⟨w', m', runW, runM, window'⟩ := ih window₁ others
    refine ⟨w', m', ?_, ?_, window'⟩
    · rw [List.foldlM_cons, addedW]
      exact runW
    · rw [List.foldlM_cons, addedM]
      exact runM

theorem addWrites_apart {w m : FCompoundWrite} {p q : FPath} (window : Window w q m)
    {es : List (FPath × FStoredNode)} (writable : ∀ e ∈ es, Writable (p ++ e.1) e.2)
    (apart : ∀ e ∈ es, Apart (p ++ e.1) q) :
    ∃ w', es.foldlM (fun (w : FCompoundWrite) e => w.addWrite e.2 (p ++ e.1)) w = .ok w' ∧
      Window w' q m := by
  induction es generalizing w with
  | nil => exact ⟨w, rfl, window⟩
  | cons e es ih =>
    obtain ⟨first, others⟩ := List.forall_mem_cons.mp writable
    obtain ⟨apartE, apartEs⟩ := List.forall_mem_cons.mp apart
    obtain ⟨w₁, added, good, meaning⟩ := addWrite_spec window.whole first
    obtain ⟨w', run, window'⟩ := ih (window.add_apart apartE first good meaning) others apartEs
    refine ⟨w', ?_, window'⟩
    rw [List.foldlM_cons, added]
    exact run

/-- A record at the place or below. -/
theorem layerRecord_below {w m : FCompoundWrite} {q x : FPath} (window : Window w q m)
    (plain : PlainPath q) {r : FWriteRecord} (good : GoodRecord r) (path : r.path = q ++ x) :
    ∃ w' m', layerRecord [] w r = .ok w' ∧ layerRecord q m r = .ok m' ∧ Window w' q m' := by
  have inside : FPath.contains q (q ++ x) = true :=
    (FPath.contains_iff _ _).mpr (List.prefix_append q x)
  have relative : FPath.relativePathFrom q (q ++ x) = .ok x := FPath.relativePathFrom_append q x
  obtain ⟨writeId, p, write, visible⟩ := r
  obtain rfl : p = q ++ x := path
  cases write with
  | overwrite newData =>
    obtain ⟨w', m', addedW, addedM, window'⟩ := addWrite_below window plain good
    refine ⟨w', m', ?_, ?_, window'⟩
    · rw [layerRecord_overwrite_root, addedW]
    · simp only [layerRecord, inside, if_true, relative]
      exact addedM
  | merge changedChildren =>
    have writable : ∀ e ∈ changedChildren.writeTree.forEach, Writable (q ++ (x ++ e.1)) e.2 := by
      intro e member
      rw [← List.append_assoc]
      exact (good.2.writable_forEach member).below good.1
    obtain ⟨w', m', runW, runM, window'⟩ := addWrites_below window plain writable
    refine ⟨w', m', ?_, ?_, window'⟩
    · rw [layerRecord_merge_root, ← runW]
      simp only [FCompoundWrite.addCompoundWrite, FPath.child, List.append_assoc]
    · simp only [layerRecord, inside, if_true, relative]
      exact runM

/-- A record elsewhere is left out. -/
theorem layerRecord_apart {w m : FCompoundWrite} {q : FPath} (window : Window w q m)
    {r : FWriteRecord} (good : GoodRecord r) (apart : Apart r.path q) :
    ∃ w', layerRecord [] w r = .ok w' ∧ Window w' q m := by
  obtain ⟨writeId, path, write, visible⟩ := r
  cases write with
  | overwrite newData =>
    obtain ⟨w', added, goodW, meaning⟩ := addWrite_spec window.whole good
    exact ⟨w', by rw [layerRecord_overwrite_root, added], window.add_apart apart good goodW meaning⟩
  | merge changedChildren =>
    have apartAll : ∀ e ∈ changedChildren.writeTree.forEach, Apart (path ++ e.1) q := by
      intro e _
      constructor
      · intro leads
        exact apart.1 ((List.prefix_append path e.1).trans leads)
      · intro leads
        rcases List.prefix_or_prefix_of_prefix leads (List.prefix_append path e.1) with left | right
        · exact apart.2 left
        · exact apart.1 right
    obtain ⟨w', run, window'⟩ := addWrites_apart window
      (fun e member => (good.2.writable_forEach member).below good.1) apartAll
    exact ⟨w', by rw [layerRecord_merge_root, ← run]; rfl, window'⟩

/-- What a merge above the place may write: the place from one level up, or other places. -/
def LayersAt (q : FPath) (r : FWriteRecord) : Prop :=
  match r.write with
  | .overwrite _ => True
  | .merge _ => r.path <+: q → r.path ≠ q → ∀ e ∈ recordWrites r,
      Apart e.1 q ∨ e.1 <+: q ∧ q.length = r.path.length + 1

theorem layerRecord_above {w m : FCompoundWrite} {p s : FPath} (window : Window w (p ++ s) m)
    (plain : PlainPath (p ++ s)) {r : FWriteRecord} (good : GoodRecord r) (path : r.path = p)
    (nonempty : s ≠ []) (layers : LayersAt (p ++ s) r) :
    ∃ w' m', layerRecord [] w r = .ok w' ∧ layerRecord (p ++ s) m r = .ok m' ∧
      Window w' (p ++ s) m' := by
  have shorter : ¬ p ++ s <+: p := by
    intro leads
    have length := leads.length_le
    rw [List.length_append] at length
    exact nonempty (List.length_eq_zero_iff.mp (by omega))
  have outside : FPath.contains (p ++ s) p = false := by
    rw [Bool.eq_false_iff]
    exact mt (FPath.contains_iff _ _).mp shorter
  have leads : FPath.contains p (p ++ s) = true :=
    (FPath.contains_iff _ _).mpr (List.prefix_append p s)
  have relative : FPath.relativePathFrom p (p ++ s) = .ok s := FPath.relativePathFrom_append p s
  have plainS := (PlainPath.append.mp plain).2
  obtain ⟨writeId, path', write, visible⟩ := r
  obtain rfl : path' = p := path
  cases write with
  | overwrite newData =>
    obtain ⟨w', m', addedW, addedM, window'⟩ := addWrite_covering window plain (Writable.formed good)
    refine ⟨w', m', ?_, ?_, window'⟩
    · rw [layerRecord_overwrite_root, addedW]
    · simp only [layerRecord, outside, leads, relative, if_true, Bool.false_eq_true, if_false]
      rw [← plainS.getChild] at addedM
      exact addedM
  | merge changedChildren =>
    obtain ⟨plainP, goodC⟩ := good
    have listed : Overlay.Lists (overlay changedChildren) changedChildren.writeTree.forEach :=
      lists_forEach goodC.canonical
    have writable : ∀ e ∈ changedChildren.writeTree.forEach, Writable (path' ++ e.1) e.2 :=
      fun e member => (goodC.writable_forEach member).below plainP
    have either {e : FPath × FStoredNode} (member : e ∈ changedChildren.writeTree.forEach) :
        Apart (path' ++ e.1) (path' ++ s) ∨
          path' ++ e.1 <+: path' ++ s ∧ (path' ++ s).length = path'.length + 1 :=
      layers (List.prefix_append path' s) (fun same => shorter (same ▸ List.prefix_refl _))
        (path' ++ e.1, e.2) (List.mem_map.mpr ⟨e, member, rfl⟩)
    have layeredChild {child : FStoredNode}
        (complete : changedChildren.completeNodeAtPath s = .ok (some child)) :
        layerRecord (path' ++ s) m ⟨writeId, path', .merge changedChildren, visible⟩ =
          m.addWrite (child.getChild s.popFront) [] := by
      simp only [layerRecord, outside, leads, relative, if_true, Bool.false_eq_true, if_false, bind,
        Except.bind, nonempty, complete]
    have layeredNothing (nothing : changedChildren.completeNodeAtPath s = .ok none) :
        layerRecord (path' ++ s) m ⟨writeId, path', .merge changedChildren, visible⟩ = .ok m := by
      simp only [layerRecord, outside, leads, relative, if_true, Bool.false_eq_true, if_false, bind,
        Except.bind, nonempty, nothing]
    rw [layerRecord_merge_root]
    rcases completeNodeAtPath_spec goodC plainS.pieces with
      ⟨x, y, v, rfl, found, complete⟩ | ⟨free, nothing⟩
    · -- One write of the merge covers the place, and by prefix-freedom only one.
      have member : (x, v) ∈ changedChildren.writeTree.forEach := (listed.mem_iff x v).mpr found
      have covers : path' ++ x <+: path' ++ (x ++ y) :=
        (List.prefix_append_right_inj path').mpr (List.prefix_append x y)
      obtain ⟨before, after, split⟩ := List.append_of_mem member
      have nodup := listed.nodup
      rw [split] at nodup writable
      have others : ∀ e ∈ before ++ after, Apart (path' ++ e.1) (path' ++ (x ++ y)) := by
        intro e inside
        have old : e ∈ changedChildren.writeTree.forEach := by
          rw [split]
          exact ((List.sublist_cons_self (x, v) after).append_left before).subset inside
        refine (either old).resolve_right fun both => ?_
        have different : e ≠ (x, v) := by
          rintro rfl
          exact (List.nodup_cons.mp (List.nodup_middle.mp nodup)).1 inside
        have apart := listed.apart goodC.prefixFree old member different
        have leadsE := (List.prefix_append_right_inj path').mp both.1
        rcases List.prefix_or_prefix_of_prefix leadsE (List.prefix_append x y) with left | right
        · exact apart.1 left
        · exact apart.2 right
      have length := ((either member).resolve_left fun apart => apart.1 covers).2
      have short : (x ++ y).popFront = [] := by
        rw [List.length_append] at length
        unfold FPath.popFront
        exact List.length_eq_zero_iff.mp (by rw [List.length_tail]; omega)
      obtain ⟨w₁, run₁, window₁⟩ := addWrites_apart window
        (fun e inside => writable e (List.mem_append_left _ inside))
        (fun e inside => others e (List.mem_append_left after inside))
      rw [← List.append_assoc] at window₁ plain
      obtain ⟨w₂, m', added, addedM, window₂⟩ :=
        addWrite_covering window₁ plain (goodC.writable x v found).formed
      rw [List.append_assoc] at window₂
      obtain ⟨w₃, run₃, window₃⟩ := addWrites_apart window₂
        (fun e inside => writable e (List.mem_append_right before (List.mem_cons_of_mem _ inside)))
        (fun e inside => others e (List.mem_append_right before inside))
      refine ⟨w₃, m', ?_, ?_, window₃⟩
      · simp only [FCompoundWrite.addCompoundWrite, FPath.child, split, List.foldlM_append, run₁]
        simp only [bind, Except.bind, List.foldlM, added]
        exact run₃
      · have child : (v.getChild y).getChild (x ++ y).popFront = descendant v y := by
          rw [short, (PlainPath.append.mp plainS).2.getChild, plainPath_nil.getChild]
          rfl
        rw [layeredChild complete, child, addedM]
    · have apart : ∀ e ∈ changedChildren.writeTree.forEach, Apart (path' ++ e.1) (path' ++ s) := by
        intro e member
        refine (either member).resolve_right fun both => ?_
        have stands := (listed.mem_iff e.1 e.2).mp member
        rw [free e.1 ((List.prefix_append_right_inj path').mp both.1)] at stands
        cases stands
      obtain ⟨w', run, window'⟩ := addWrites_apart window writable apart
      refine ⟨w', m, ?_, layeredNothing nothing, window'⟩
      rw [← run]
      rfl

/-! ## All records at two places -/

/-- The records that a cache layers, wherever they write. -/
def kept (writeIdsToExclude : Option (List Int)) (includeHiddenWrites : Bool)
    (record : FWriteRecord) : Bool :=
  (record.visible || includeHiddenWrites) &&
    writeIdsToExclude.all fun excluded => !(excluded.contains record.writeId)

def meets (q : FPath) (record : FWriteRecord) : Bool :=
  FPath.contains record.path q || FPath.contains q record.path

theorem meets_iff (q : FPath) (r : FWriteRecord) : meets q r = true ↔ ¬ Apart r.path q := by
  unfold meets Apart
  rw [Bool.or_eq_true, FPath.contains_iff, FPath.contains_iff]
  by_cases above : r.path <+: q <;> by_cases below : q <+: r.path <;> simp [above, below]

theorem layerRecord_window {w m : FCompoundWrite} {q : FPath} (window : Window w q m)
    (plain : PlainPath q) {r : FWriteRecord} (good : GoodRecord r) (layers : LayersAt q r) :
    ∃ w' m', layerRecord [] w r = .ok w' ∧
      (if meets q r then layerRecord q m r else .ok m) = .ok m' ∧ Window w' q m' := by
  by_cases apart : Apart r.path q
  · obtain ⟨w', addedW, window'⟩ := layerRecord_apart window good apart
    refine ⟨w', m, addedW, ?_, window'⟩
    rw [if_neg fun both => (meets_iff q r).mp both apart]
  · rw [if_pos ((meets_iff q r).mpr apart)]
    by_cases below : q <+: r.path
    · obtain ⟨x, path⟩ := below
      exact layerRecord_below window plain good path.symm
    · have above : r.path <+: q := by
        by_contra off
        exact apart ⟨off, below⟩
      obtain ⟨s, rfl⟩ := above
      have nonempty : s ≠ [] := by
        rintro rfl
        exact below (by rw [List.append_nil])
      exact layerRecord_above window plain good rfl nonempty layers

theorem layerTreeFromWrites_window {records : List FWriteRecord} (good : ∀ r ∈ records, GoodRecord r)
    {q : FPath} (plain : PlainPath q) (layers : ∀ r ∈ records, LayersAt q r)
    (filter : FWriteRecord → Bool) :
    ∃ w m, layerTreeFromWrites records filter [] = .ok w ∧
      layerTreeFromWrites records (fun r => filter r && meets q r) q = .ok m ∧ Window w q m := by
  have loop (records : List FWriteRecord) (good : ∀ r ∈ records, GoodRecord r)
      (layers : ∀ r ∈ records, LayersAt q r) {w m : FCompoundWrite} (window : Window w q m) :
      ∃ w' m', records.foldlM (fun compoundWrite record =>
          if filter record then layerRecord [] compoundWrite record else .ok compoundWrite) w = .ok w' ∧
        records.foldlM (fun compoundWrite record =>
          if filter record && meets q record then layerRecord q compoundWrite record
          else .ok compoundWrite) m = .ok m' ∧ Window w' q m' := by
    induction records generalizing w m with
    | nil => exact ⟨w, m, rfl, rfl, window⟩
    | cons r rest ih =>
      obtain ⟨goodR, goodRest⟩ := List.forall_mem_cons.mp good
      obtain ⟨layersR, layersRest⟩ := List.forall_mem_cons.mp layers
      rw [List.foldlM_cons, List.foldlM_cons]
      cases filter r with
      | false => exact ih goodRest layersRest window
      | true =>
        obtain ⟨w₁, m₁, stepW, stepM, window₁⟩ := layerRecord_window window plain goodR layersR
        obtain ⟨w', m', runW, runM, window'⟩ := ih goodRest layersRest window₁
        refine ⟨w', m', ?_, ?_, window'⟩
        · rw [if_pos rfl, stepW]
          exact runW
        · rw [Bool.true_and, stepM]
          exact runM
  exact loop records good layers (window_empty q)

/-! ## The caches -/

/-- Where no visible record writes, nothing kept of them writes either. -/
theorem empty_window {t : FWriteTree} (consistent : Consistent t) {q : FPath} {b m w : FCompoundWrite}
    (below : Below t.visibleWrites q b) (nothing : b.isEmpty = true) (window : Window w q m)
    {filter : FWriteRecord → Bool} (visible : ∀ r, filter r = true → r.visible = true)
    (meaning : overlay w = layered (t.allWrites.filter filter)) (n : FStoredNode) :
    applied m n = n := by
  have nowhere (x : FPath) (near : x <+: q ∨ q <+: x) : overlay w x = none := by
    by_contra something
    rw [meaning] at something
    obtain ⟨r, inside, e, written, rfl⟩ :=
      exists_record_of_layered (Option.isSome_iff_ne_none.mpr something)
    obtain ⟨old, selected⟩ := List.mem_filter.mp inside
    have covered : (overlay t.visibleWrites).Covers e.1 :=
      (consistent.covers_iff e.1).mpr ⟨r, old, visible r selected,
        (recordContainsPath_iff r e.1).mpr ⟨e, written, List.prefix_refl _⟩⟩
    obtain ⟨x, leads, found⟩ := covered
    have close : x <+: q ∨ q <+: x := by
      rcases near with above | under
      · exact .inl (leads.trans above)
      · exact List.prefix_or_prefix_of_prefix leads under
    rw [below.nothing nothing x close] at found
    cases found
  have clear : ¬ (overlay w).Above q := by
    rintro ⟨r, leads, _, found⟩
    rw [nowhere r (.inl leads)] at found
    cases found
  have same : overlay m = overlay .emptyWrite := by
    rw [window.free clear, overlay_emptyWrite]
    funext s
    exact nowhere (q ++ s) (.inr (List.prefix_append q s))
  rw [window.good.ext goodWrite_emptyWrite same]
  rfl

/-- Every cache is a part of the cache layered at the root. -/
theorem calculateCompleteEventCacheAtPath_spec {t : FWriteTree} (consistent : Consistent t)
    (ids : Option (List Int)) (hidden : Bool) :
    ∃ w, GoodWrite w ∧ overlay w = layered (t.allWrites.filter (kept ids hidden)) ∧
      ∀ n, WellFormed n → ∀ q, PlainPath q → (∀ r ∈ t.allWrites, LayersAt q r) →
        t.calculateCompleteEventCacheAtPath q (some (n.getChild q)) ids hidden =
          .ok (some ((applied w n).getChild q)) := by
  obtain ⟨w, layers, good, meaning⟩ := layerTreeFromWrites_root consistent.records (kept ids hidden)
  refine ⟨w, good, meaning, fun n formed q plain fits => ?_⟩
  obtain ⟨w', m, layersW, layersM, window⟩ :=
    layerTreeFromWrites_window consistent.records plain fits (kept ids hidden)
  obtain rfl : w = w' := Except.ok.inj (layers.symm.trans layersW)
  unfold calculateCompleteEventCacheAtPath
  cases visible : (ids.isNone && !hidden) with
  | true =>
    obtain ⟨noIds, notHidden⟩ := Bool.and_eq_true_iff.mp visible
    obtain rfl := Option.isNone_iff_eq_none.mp noIds
    obtain rfl : hidden = false := by simpa using notHidden
    have shown : t.allWrites.filter (kept none false) = shownRecords t.allWrites := by
      unfold shownRecords kept
      simp
    rw [shown, ← consistent.meaning] at meaning
    rw [if_pos rfl, good.ext consistent.good meaning]
    exact (visibleEventCache_spec consistent.good plain formed).1
  | false =>
    rw [if_neg Bool.false_ne_true]
    obtain ⟨b, child, below⟩ := childCompoundWriteAtPath_spec consistent.good plain
    obtain ⟨complete, has, _⟩ := hasCompleteWriteAtPath_spec below.good plainPath_nil
    have applies := (applyToNode_spec window.good (formed.getChild plain)).1
    have whole := window.applied_eq plain formed
    have filters : eventFilter q ids hidden = fun r => kept ids hidden r && meets q r := rfl
    unfold layeredEventCache
    cases empty : (!hidden && b.isEmpty) with
    | true =>
      obtain ⟨notHidden, nothing⟩ := Bool.and_eq_true_iff.mp empty
      obtain rfl : hidden = false := by simpa using notHidden
      have onlyVisible (r : FWriteRecord) (selected : kept ids false r = true) : r.visible = true := by
        unfold kept at selected
        simpa using (Bool.and_eq_true_iff.mp selected).1
      rw [← whole, empty_window consistent below nothing window onlyVisible meaning]
      simp [child, nothing, bind, Except.bind, pure, Except.pure]
    | false =>
      rw [← whole]
      simp [child, empty, has, filters, layersM, applies, bind, Except.bind, pure, Except.pure]

theorem filter_without {t : FWriteTree} (consistent : Consistent t) {before after : List FWriteRecord}
    {r : FWriteRecord} (writes : t.allWrites = before ++ r :: after) :
    t.allWrites.filter (kept (some [r.writeId]) false) = shownRecords (before ++ after) := by
  have ascending := consistent.ascending
  rw [writes] at ascending
  obtain ⟨_, later, earlier⟩ := List.pairwise_append.mp ascending
  have different : ∀ s ∈ before ++ after, s.writeId ≠ r.writeId := by
    intro s member
    rcases List.mem_append.mp member with old | new
    · have less := earlier s old r List.mem_cons_self
      omega
    · have less := (List.pairwise_cons.mp later).1 s new
      omega
  have gone : kept (some [r.writeId]) false r = false := by simp [kept]
  have rest : (before ++ after).filter (kept (some [r.writeId]) false) =
      shownRecords (before ++ after) := by
    refine List.filter_congr fun s member => ?_
    simp [kept, different s member]
  rw [writes, List.filter_append, List.filter_cons_of_neg (by simp [gone]), ← List.filter_append, rest]

/-- In every run a cache without some writes, or with the hidden ones, is the part
of one view at every place where merges layer, and the cache without one write is
the cache after the removal of that write. -/
theorem layered_caches_agree (t : FWriteTree) (reached : pendingWrites.Reachable t)
    (server : StoredNode) :
    (∀ ids hidden, ∃ view,
      t.calculateCompleteEventCacheAtPath [] (some server.node) ids hidden = .ok (some view) ∧
        ∀ q, PlainPath q → (∀ r ∈ t.allWrites, LayersAt q r) →
          t.calculateCompleteEventCacheAtPath q (some (server.node.getChild q)) ids hidden =
            .ok (some (view.getChild q))) ∧
      ∀ writeId t', pendingWrites.step t (.remove writeId) t' →
        ∀ q, PlainPath q → (∀ r ∈ t.allWrites, LayersAt q r) →
          t.calculateCompleteEventCacheAtPath q (some (server.node.getChild q)) (some [writeId]) false =
            t'.calculateCompleteEventCacheAtPath q (some (server.node.getChild q)) none false := by
  have consistent := consistent_of_pending reached
  have atRoot : ∀ r ∈ t.allWrites, LayersAt [] r := by
    intro r _
    unfold LayersAt
    split
    · trivial
    · exact fun leads different => absurd (List.prefix_nil.mp leads) different
  constructor
  · intro ids hidden
    obtain ⟨w, _, _, caches⟩ := calculateCompleteEventCacheAtPath_spec consistent ids hidden
    refine ⟨applied w server.node, ?_, caches server.node server.formed⟩
    have root := caches server.node server.formed [] plainPath_nil atRoot
    rwa [plainPath_nil.getChild, plainPath_nil.getChild] at root
  · rintro writeId t' ⟨⟨before, r, after, writes, rfl, removable⟩, removed⟩ q plain fits
    obtain ⟨w, good, meaning, caches⟩ :=
      calculateCompleteEventCacheAtPath_spec consistent (some [r.writeId]) false
    obtain ⟨answer, t'', ok, consistent', left⟩ := removeWriteId_spec consistent writes removable
    have same : t'' = t' := by
      rw [next, ok] at removed
      exact Except.ok.inj removed
    subst same
    have selected : t.allWrites.filter (kept (some [r.writeId]) false) =
        shownRecords (before ++ after) := filter_without consistent writes
    rw [selected, ← left, ← consistent'.meaning] at meaning
    rw [caches server.node server.formed q plain fits, good.ext consistent'.good meaning]
    exact (visibleEventCache_spec consistent'.good plain server.formed).1.symm

/-- The menu is removed, and the price is added after that. -/
def dishPending : FWriteTree where
  visibleWrites := ⟨.node none [("menu", .node none
    [("dish", .node (some stew.node) []), ("side", .node (some (textNode "Bread")) [])])]⟩
  allWrites := [dishRecord, sideRecord, priceRecord]
  lastWriteId := 3

theorem dish_reached : pendingWrites.Reachable dishPending := by
  have removable := removable_oldest (r := menuRecord) (fun s member => (menu_writesChildren s member).1)
    (fun s member => (menu_writesChildren s member).2)
  have removed : pendingWrites.Reachable
      ⟨dishPending.visibleWrites, [dishRecord, sideRecord], 2⟩ :=
    .next (.remove 0) menu_reached ⟨⟨[], menuRecord, _, rfl, rfl, fun _ => removable⟩, rfl⟩
  exact .next (.overwrite ["menu", "price"] (textNode "Cheap") 3 false) removed
    ⟨⟨.value (plain_path (by decide)) (textNode_formed (by decide)), by decide⟩, rfl⟩

/-- The view with the price, and the cache without the dish while it still waits. -/
theorem dish_left_out :
    (∃ view, dishPending.calculateCompleteEventCacheAtPath [] (some served.node) none true =
        .ok (some view) ∧ view.getChild ["menu", "price"] = textNode "Cheap" ∧
      dishPending.calculateCompleteEventCacheAtPath ["menu"] (some (served.node.getChild ["menu"]))
        none true = .ok (some (view.getChild ["menu"]))) ∧
    ∃ t', pendingWrites.step dishPending (.remove 1) t' ∧
      dishPending.calculateCompleteEventCacheAtPath ["menu"] (some (served.node.getChild ["menu"]))
          (some [1]) false =
        t'.calculateCompleteEventCacheAtPath ["menu"] (some (served.node.getChild ["menu"])) none false ∧
      t'.calculateCompleteEventCacheAtPath ["menu"] (some (served.node.getChild ["menu"])) none false =
        .ok (some (menuOf "Fish" "Bread")) := by
  obtain ⟨layered, without⟩ := layered_caches_agree dishPending dish_reached served
  have plain : PlainPath ["menu"] := plain_path (by decide)
  have fits : ∀ r ∈ dishPending.allWrites, LayersAt ["menu"] r := by
    intro r member
    simp only [dishPending, List.mem_cons, List.not_mem_nil, or_false] at member
    rcases member with rfl | rfl | rfl
    · trivial
    · exact fun _ different => absurd rfl different
    · trivial
  have removable : Removable [] dishRecord [sideRecord, priceRecord] := by
    refine ⟨fun s member => (by cases member), fun s member visible => .inr fun e inside => ?_, ?_⟩
    · rcases List.mem_pair.mp member with rfl | rfl
      · rw [List.mem_singleton.mp inside]
        exact .inr ⟨by decide, by decide⟩
      · cases visible
    · rintro ⟨s, member, visible, below⟩
      rcases List.mem_pair.mp member with rfl | rfl
      · exact absurd below (by decide)
      · cases visible
  have allowed : Allowed dishPending (.remove 1) :=
    ⟨[], dishRecord, [sideRecord, priceRecord], rfl, rfl, fun _ => removable⟩
  obtain ⟨view, whole, parts⟩ := layered none true
  have shows : dishPending.calculateCompleteEventCacheAtPath [] (some served.node) none true =
      .ok (some (pairNode "drink" (textNode "Water") "menu" (.children (some .emptyNode)
        [("dish", stew.node), ("price", textNode "Cheap"), ("side", textNode "Bread")]))) := rfl
  obtain ⟨t', removed, _⟩ := next_spec (consistent_of_pending dish_reached) allowed
  refine ⟨⟨view, whole, ?_, parts ["menu"] plain fits⟩, t', ⟨allowed, removed⟩,
    without 1 t' ⟨allowed, removed⟩ ["menu"] plain fits, ?_⟩
  · rw [Option.some.inj (Except.ok.inj (whole.symm.trans shows))]
    rfl
  · rw [← without 1 t' ⟨allowed, removed⟩ ["menu"] plain fits]
    rfl

end WatchAndSee.Guarantees.StoredNodes
