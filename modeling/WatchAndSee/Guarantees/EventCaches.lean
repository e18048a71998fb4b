import WatchAndSee.Guarantees.PendingWrites

/-!
# The event caches agree with one view

Listeners ask the write tree for the data at their own path, with what the server
knows there. Every answer is the part at that path of one view: the server data
with the visible writes applied at the root. Without server data a place is known
exactly when a pending write reaches it from above. Runs are the ones of
`pendingWrites`, whose removals never take a hidden record in.
-/

set_option autoImplicit false

namespace WatchAndSee.Guarantees.StoredNodes
open Library
open Library.Overlay (Apart)
open Source
open Source.FStoredNode hiding children
open Source.FWriteTree
open ImmutableTrees

/-! ## The compound write below a path -/

theorem PlainPath.pieces {q : FPath} (plain : PlainPath q) : ∀ k ∈ q, FPath.IsPiece k :=
  fun k member => (plain k member).piece

theorem PlainPath.getChild {q : FPath} (plain : PlainPath q) (n : FStoredNode) :
    n.getChild q = descendant n q := getChild_eq n plain.no_priority

theorem WellFormed.getChild {n : FStoredNode} (formed : WellFormed n) {q : FPath}
    (plain : PlainPath q) : WellFormed (n.getChild q) := by
  rw [plain.getChild]
  exact formed.descendant q

theorem goodWrite_initWithValue {v : FStoredNode} (formed : WellFormed v) :
    GoodWrite ⟨.initWithValue v⟩ := by
  have root : Writable [] v := .value plainPath_nil formed
  obtain ⟨w, added, good, _⟩ := addWrite_spec goodWrite_emptyWrite root
  rwa [← Except.ok.inj added] at good

theorem applied_initWithValue (v n : FStoredNode) : applied ⟨.initWithValue v⟩ n = v :=
  updated_nil n v

theorem applied_of_isEmpty {w : FCompoundWrite} (nothing : w.isEmpty = true) (n : FStoredNode) :
    applied w n = n := by
  obtain ⟨t⟩ := w
  obtain rfl : t = .empty := eq_empty nothing
  rfl

theorem overlay_of_isEmpty {w : FCompoundWrite} (nothing : w.isEmpty = true) :
    overlay w = Overlay.empty := by
  obtain ⟨t⟩ := w
  obtain rfl : t = .empty := eq_empty nothing
  exact overlay_emptyWrite

theorem completeNodeAtPath_covered {w : FCompoundWrite} (good : GoodWrite w) {q : FPath}
    (plain : PlainPath q) (covered : (overlay w).Covers q) {n : FStoredNode} (formed : WellFormed n) :
    w.completeNodeAtPath q = .ok (some ((applied w n).getChild q)) := by
  rcases completeNodeAtPath_spec good plain.pieces with ⟨r, s, v, rfl, found, complete⟩ | ⟨free, _⟩
  · obtain ⟨plainR, plainS⟩ := PlainPath.append.mp plain
    rw [complete, plain.getChild, descendant_append, shown_applied good formed r v found plainR,
      plainS.getChild]
  · obtain ⟨r, leads, found⟩ := covered
    rw [free r leads] at found
    cases found

theorem completeNodeAtPath_free {w : FCompoundWrite} (good : GoodWrite w) {q : FPath}
    (plain : PlainPath q) (free : ¬ (overlay w).Covers q) : w.completeNodeAtPath q = .ok none := by
  rcases completeNodeAtPath_spec good plain.pieces with ⟨r, s, v, rfl, found, _⟩ | ⟨_, nothing⟩
  · exact absurd ⟨r, List.prefix_append r s, by simp [found]⟩ free
  · exact nothing

/-- What the compound write below `q` knows of the whole one. -/
structure Below (w : FCompoundWrite) (q : FPath) (m : FCompoundWrite) : Prop where
  good : GoodWrite m
  applied_eq : ∀ n, WellFormed n → applied m (n.getChild q) = (applied w n).getChild q
  root : (overlay m).Covers [] ↔ (overlay w).Covers q
  nothing : m.isEmpty = true → ∀ r, r <+: q ∨ q <+: r → overlay w r = none

/-- The compound write below a path makes the node there what the whole one makes it. -/
theorem Below.applies {w m : FCompoundWrite} {q : FPath} (below : Below w q m) (plain : PlainPath q)
    {n : FStoredNode} (formed : WellFormed n) :
    m.applyToNode (n.getChild q) = .ok ((applied w n).getChild q) ∧
      (m.isEmpty = true → n.getChild q = (applied w n).getChild q) := by
  rw [← below.applied_eq n formed]
  refine ⟨(applyToNode_spec below.good (formed.getChild plain)).1, fun nothing => ?_⟩
  rw [applied_of_isEmpty nothing]

theorem below_covered {w : FCompoundWrite} (good : GoodWrite w) {q : FPath} (plain : PlainPath q)
    (covered : (overlay w).Covers q) :
    Below w q ⟨.initWithValue ((applied w emptyNode).getChild q)⟩ where
  good := goodWrite_initWithValue ((applyToNode_spec good .empty).2.getChild plain)
  applied_eq n formed := by
    have here := completeNodeAtPath_covered good plain covered formed
    rw [completeNodeAtPath_covered good plain covered .empty] at here
    rw [applied_initWithValue]
    exact Option.some.inj (Except.ok.inj here)
  root := by
    refine iff_of_true ⟨[], List.nil_prefix, ?_⟩ covered
    unfold overlay
    rw [valueAtPath_initWithValue]
    rfl
  nothing no := by cases no

theorem below_free {w : FCompoundWrite} (good : GoodWrite w) {q : FPath} (plain : PlainPath q)
    (free : ¬ (overlay w).Covers q) : Below w q ⟨w.writeTree.subtreeAtPath q⟩ where
  good := good.subtree q
  applied_eq n formed := by
    rw [plain.getChild, plain.getChild, descendant_applied good formed plain]
    rintro ⟨r, leads, _, found⟩
    exact free ⟨r, leads, found⟩
  root := by
    refine iff_of_false ?_ free
    rintro ⟨r, leads, found⟩
    rw [List.prefix_nil.mp leads, overlay, valueAtPath_subtreeAtPath, List.append_nil] at found
    exact free ⟨q, List.prefix_refl q, found⟩
  nothing no r meets := by
    rcases meets with above | ⟨s, rfl⟩
    · by_contra something
      exact free ⟨r, above, Option.isSome_iff_ne_none.mpr something⟩
    · have nowhere := congrFun (overlay_of_isEmpty no) s
      unfold overlay at nowhere ⊢
      rwa [valueAtPath_subtreeAtPath] at nowhere

theorem childCompoundWriteAtPath_spec {w : FCompoundWrite} (good : GoodWrite w) {q : FPath}
    (plain : PlainPath q) : ∃ m, w.childCompoundWriteAtPath q = .ok m ∧ Below w q m := by
  unfold FCompoundWrite.childCompoundWriteAtPath
  by_cases root : q = []
  · subst root
    rw [if_pos rfl]
    refine ⟨w, rfl, good, fun n formed => ?_, Iff.rfl, fun no r _ => ?_⟩
    · rw [plain.getChild, plain.getChild]
      rfl
    · rw [overlay_of_isEmpty no]
      rfl
  · rw [if_neg root]
    by_cases covered : (overlay w).Covers q
    · refine ⟨_, ?_, below_covered good plain covered⟩
      rw [completeNodeAtPath_covered good plain covered .empty]
      rfl
    · refine ⟨_, ?_, below_free good plain covered⟩
      rw [completeNodeAtPath_free good plain covered]
      rfl

theorem hasCompleteWriteAtPath_spec {w : FCompoundWrite} (good : GoodWrite w) {q : FPath}
    (plain : PlainPath q) :
    ∃ complete, w.hasCompleteWriteAtPath q = .ok complete ∧
      (complete = true ↔ (overlay w).Covers q) := by
  unfold FCompoundWrite.hasCompleteWriteAtPath
  by_cases covered : (overlay w).Covers q
  · rw [completeNodeAtPath_covered good plain covered .empty]
    exact ⟨true, rfl, iff_of_true rfl covered⟩
  · rw [completeNodeAtPath_free good plain covered]
    exact ⟨false, rfl, iff_of_false Bool.false_ne_true covered⟩

/-! ## The visible writes -/

theorem visibleEventCache_spec {t : FWriteTree} (good : GoodWrite t.visibleWrites) {q : FPath}
    (plain : PlainPath q) {n : FStoredNode} (formed : WellFormed n) :
    t.visibleEventCache q (some (n.getChild q)) =
        .ok (some ((applied t.visibleWrites n).getChild q)) ∧
      t.visibleEventCache q none = t.visibleWrites.completeNodeAtPath q := by
  unfold visibleEventCache
  by_cases covered : (overlay t.visibleWrites).Covers q
  · rw [completeNodeAtPath_covered good plain covered formed]
    exact ⟨rfl, rfl⟩
  · obtain ⟨m, child, below⟩ := childCompoundWriteAtPath_spec good plain
    obtain ⟨complete, has, iff⟩ := hasCompleteWriteAtPath_spec below.good plainPath_nil
    have incomplete : complete = false := by
      rw [Bool.eq_false_iff]
      exact fun whole => covered (below.root.mp (iff.mp whole))
    subst incomplete
    obtain ⟨applies, unchanged⟩ := below.applies plain formed
    rw [completeNodeAtPath_free good plain covered, child]
    cases nothing : m.isEmpty with
    | true =>
      rw [← unchanged nothing]
      simp [nothing, bind, Except.bind, pure, Except.pure]
    | false => simp [nothing, has, applies, bind, Except.bind, pure, Except.pure]

/-- New server data below a path is shown as far as no write covers it. -/
theorem afterServerOverwrite_spec {t : FWriteTree} (good : GoodWrite t.visibleWrites) {p s : FPath}
    (plain : PlainPath (p ++ s)) {n : FStoredNode} (formed : WellFormed n) :
    ((overlay t.visibleWrites).Covers (p ++ s) →
        t.calculateEventCacheAfterServerOverwriteAtPath p s (n.getChild p) = .ok none) ∧
      (¬ (overlay t.visibleWrites).Covers (p ++ s) →
        t.calculateEventCacheAfterServerOverwriteAtPath p s (n.getChild p) =
          .ok (some ((applied t.visibleWrites n).getChild (p ++ s)))) := by
  obtain ⟨plainP, plainS⟩ := PlainPath.append.mp plain
  obtain ⟨complete, has, iff⟩ := hasCompleteWriteAtPath_spec good plain
  have path : p.child s = p ++ s := rfl
  unfold calculateEventCacheAfterServerOverwriteAtPath
  simp only [path, has]
  constructor
  · intro covered
    rw [iff.mpr covered]
    rfl
  · intro free
    have incomplete : complete = false := Bool.eq_false_iff.mpr fun whole => free (iff.mp whole)
    subst incomplete
    obtain ⟨m, child, below⟩ := childCompoundWriteAtPath_spec good plain
    have there : (n.getChild p).getChild s = n.getChild (p ++ s) := by
      rw [plainP.getChild, plainS.getChild, plain.getChild, descendant_append]
    obtain ⟨applies, unchanged⟩ := below.applies plain formed
    rw [child, there]
    cases nothing : m.isEmpty with
    | true =>
      rw [← unchanged nothing]
      simp [nothing, bind, Except.bind, pure, Except.pure]
    | false => simp [nothing, applies, bind, Except.bind, pure, Except.pure]

/-- A visible record writes at the place or above it. -/
def Reaches (t : FWriteTree) (q : FPath) : Prop :=
  ∃ r ∈ t.allWrites, r.visible = true ∧ recordContainsPath r q = true

theorem Consistent.covers_iff {t : FWriteTree} (consistent : Consistent t) (q : FPath) :
    (overlay t.visibleWrites).Covers q ↔ Reaches t q := by
  rw [consistent.meaning, layered, Overlay.covers_writeAll,
    or_iff_right (by simp [Overlay.Covers, Overlay.empty])]
  constructor
  · rintro ⟨e, member, leads⟩
    obtain ⟨r, inside, here⟩ := List.mem_flatMap.mp member
    obtain ⟨old, visible⟩ := List.mem_filter.mp inside
    exact ⟨r, old, visible, (recordContainsPath_iff r q).mpr ⟨e, here, leads⟩⟩
  · rintro ⟨r, old, visible, contains⟩
    obtain ⟨e, here, leads⟩ := (recordContainsPath_iff r q).mp contains
    exact ⟨e, List.mem_flatMap.mpr ⟨r, List.mem_filter.mpr ⟨old, visible⟩, here⟩, leads⟩

/-- In every run the answers about all places are parts of one view. The data at
a place is known without the server, and new server data there is not shown,
exactly when a visible record writes at the place or above it. -/
theorem event_caches_agree (t : FWriteTree) (reached : pendingWrites.Reachable t)
    (server : StoredNode) :
    ∃ view, t.visibleWrites.applyToNode server.node = .ok view ∧
      ∀ q, PlainPath q →
        t.calculateCompleteEventCacheAtPath q (some (server.node.getChild q)) none false =
          .ok (some (view.getChild q)) ∧
        (Reaches t q ∧
            t.calculateCompleteEventCacheAtPath q none none false = .ok (some (view.getChild q)) ∧
            (∀ p s, q = p ++ s →
              t.calculateEventCacheAfterServerOverwriteAtPath p s (server.node.getChild p) = .ok none) ∨
          ¬ Reaches t q ∧
            t.calculateCompleteEventCacheAtPath q none none false = .ok none ∧
            ∀ p s, q = p ++ s →
              t.calculateEventCacheAfterServerOverwriteAtPath p s (server.node.getChild p) =
                .ok (some (view.getChild q))) := by
  have consistent := consistent_of_pending reached
  have good := consistent.good
  have whole := (applyToNode_spec good server.formed).1
  refine ⟨_, whole, fun q plain => ?_⟩
  obtain ⟨withServer, alone⟩ := visibleEventCache_spec good plain server.formed
  refine ⟨withServer, ?_⟩
  rw [← consistent.covers_iff]
  change _ ∧ t.visibleEventCache q none = _ ∧ _ ∨ _ ∧ t.visibleEventCache q none = _ ∧ _
  rw [alone]
  by_cases covered : (overlay t.visibleWrites).Covers q
  · refine .inl ⟨covered, completeNodeAtPath_covered good plain covered server.formed, ?_⟩
    rintro p s rfl
    exact (afterServerOverwrite_spec good plain server.formed).1 covered
  · refine .inr ⟨covered, completeNodeAtPath_free good plain covered, ?_⟩
    rintro p s rfl
    exact (afterServerOverwrite_spec good plain server.formed).2 covered

/-- The dishes that wait are known without the server, the drink is not, and the
price that does not show is neither seen nor known. -/
theorem pending_menu_shown : ∃ view, pricePending.visibleWrites.applyToNode served.node = .ok view ∧
    view = pairNode "drink" (textNode "Water") "menu"
      (pairNode "dish" stew.node "side" (textNode "Bread")) ∧
    pricePending.calculateCompleteEventCacheAtPath ["menu", "side"] none none false =
      .ok (some (view.getChild ["menu", "side"])) ∧
    pricePending.calculateEventCacheAfterServerOverwriteAtPath ["menu"] ["side"]
      (served.node.getChild ["menu"]) = .ok none ∧
    pricePending.calculateCompleteEventCacheAtPath ["drink"] none none false = .ok none ∧
    pricePending.calculateCompleteEventCacheAtPath ["drink"] (some (served.node.getChild ["drink"]))
      none false = .ok (some (view.getChild ["drink"])) := by
  obtain ⟨view, whole, parts⟩ := event_caches_agree pricePending price_reached served
  have node : pricePending.visibleWrites.applyToNode served.node =
      .ok (pairNode "drink" (textNode "Water") "menu"
        (pairNode "dish" stew.node "side" (textNode "Bread"))) := rfl
  have reached : Reaches pricePending ["menu", "side"] :=
    ⟨menuRecord, List.mem_cons_self, rfl, rfl⟩
  have free : ¬ Reaches pricePending ["drink"] := by
    rintro ⟨r, member, _, contains⟩
    have apart : ∀ r ∈ pricePending.allWrites, recordContainsPath r ["drink"] = false :=
      forall_pricePending rfl rfl rfl rfl
    rw [apart r member] at contains
    cases contains
  obtain ⟨_, covered⟩ := parts ["menu", "side"] (plain_path (by decide))
  obtain ⟨drink, uncovered⟩ := parts ["drink"] (plain_path (by decide))
  obtain ⟨_, known, dropped⟩ := covered.resolve_right fun other => other.1 reached
  obtain ⟨_, unknown, _⟩ := uncovered.resolve_left fun other => free other.1
  exact ⟨view, whole, Except.ok.inj (whole.symm.trans node), known, dropped ["menu"] ["side"] rfl,
    unknown, drink⟩

/-- The visible records put something under plain keys. -/
def PutsOnly (t : FWriteTree) : Prop :=
  ∀ r ∈ t.allWrites, r.visible = true → ∀ e ∈ recordWrites r, PlainPath e.1 ∧ e.2.isEmpty = false

/-- In every run whose pending writes put something, the view is the server data
with the updates of the visible records, oldest first. -/
theorem view_is_pending_in_order (t : FWriteTree) (reached : pendingWrites.Reachable t)
    (puts : PutsOnly t) (server : StoredNode) :
    ∃ view, t.calculateCompleteEventCacheAtPath [] (some server.node) none false = .ok (some view) ∧
      (recordsWrites (shownRecords t.allWrites)).foldlM (fun n e => n.updateChild e.1 e.2) server.node =
        .ok view := by
  have consistent := consistent_of_pending reached
  have allowed : nodeStore.Allows (recordsWrites (shownRecords t.allWrites)) := by
    intro e written
    obtain ⟨r, member, inside⟩ := List.mem_flatMap.mp written
    obtain ⟨old, visible⟩ := List.mem_filter.mp member
    obtain ⟨plain, full⟩ := puts r old visible e inside
    exact ⟨plain, ((consistent.records r old).writable e inside).formed, full⟩
  have updates := (updateAll_ok server.formed (allows_plain allowed)).1
  refine ⟨_, ?_, updates⟩
  have root := (visibleEventCache_spec consistent.good plainPath_nil server.formed).1
  rw [plainPath_nil.getChild, plainPath_nil.getChild] at root
  rw [applied_writeAll consistent.good allowed consistent.meaning server.formed] at root
  exact root

theorem pending_menu_performed : ∃ view,
    pricePending.calculateCompleteEventCacheAtPath [] (some served.node) none false = .ok (some view) ∧
      [(["menu"], newMenu.node), (["menu", "dish"], stew.node), (["menu", "side"], textNode "Bread")].foldlM
        (fun n e => n.updateChild e.1 e.2) served.node = .ok view := by
  have puts : PutsOnly pricePending := by
    have one {r : FWriteRecord} (e : FPath × FStoredNode) (writes : recordWrites r = [e])
        (put : PlainPath e.1 ∧ e.2.isEmpty = false) :
        r.visible = true → ∀ e ∈ recordWrites r, PlainPath e.1 ∧ e.2.isEmpty = false := by
      intro _
      rw [writes]
      exact List.forall_mem_singleton.mpr put
    exact forall_pricePending
      (one (["menu"], newMenu.node) rfl ⟨plain_path (by decide), rfl⟩)
      (one (["menu", "dish"], stew.node) rfl ⟨plain_path (by decide), rfl⟩)
      (one (["menu", "side"], textNode "Bread") rfl ⟨plain_path (by decide), rfl⟩)
      (fun hidden => by cases hidden)
  exact view_is_pending_in_order pricePending price_reached puts served

end WatchAndSee.Guarantees.StoredNodes
