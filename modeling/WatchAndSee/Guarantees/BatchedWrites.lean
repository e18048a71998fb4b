import WatchAndSee.Guarantees.AppliedWrites

/-!
# A compound write does what its writes do one after the other

Writes that remove nothing keep every node above them, with its priority. So they
commute where their paths part, a later one hides the earlier ones below it, and
applying the compound write of a batch leaves the very node that the writes leave
in their order. With removals this can fail: a node that is empty for a moment
loses its priority.
-/

set_option autoImplicit false

namespace WatchAndSee.Guarantees.StoredNodes
open Library
open Library.Overlay (Apart PrefixFree Lists)
open Library.SortedListing (put)
open Source
open Source.FStoredNode hiding children
open ImmutableTrees

/-! ## Updates that put something -/

def childrenOf : FStoredNode → List (String × FStoredNode)
  | .leaf _ _ => []
  | .children _ entries => entries

/-- The node with a child under the key. -/
def putChild (n : FStoredNode) (k : String) (c : FStoredNode) : FStoredNode :=
  .children (some n.getPriority) (put keyComparator k c (childrenOf n))

theorem put_nonempty (k : String) (c : FStoredNode) (entries : List (String × FStoredNode)) :
    put keyComparator k c entries ≠ [] := by
  cases entries with
  | nil => exact List.cons_ne_nil _ _
  | cons e rest =>
    unfold put
    split <;> exact List.cons_ne_nil _ _

theorem updateImmediateChild_put (n : FStoredNode) {c : FStoredNode} {k : String}
    (plain : PlainKey k) (full : c.isEmpty = false) :
    n.updateImmediateChild k c = .ok (putChild n k c) := by
  have made (p : FStoredNode) (entries : List (String × FStoredNode)) :
      updateEntries p entries k c = .ok (.children (some p) (put keyComparator k c entries)) := by
    have nonempty := put_nonempty k c entries
    simp [updateEntries, full, nonempty, initWithPriority]
  unfold updateImmediateChild
  rw [if_neg plain.not_priority]
  cases n with
  | children priority entries => exact made _ _
  | leaf value priority =>
    dsimp only
    rw [full, if_neg Bool.false_ne_true, made]
    rfl

theorem updated_full {n c : FStoredNode} (formed : WellFormed n) (formedC : WellFormed c)
    (full : c.isEmpty = false) {p : FPath} (plain : PlainPath p) :
    (updated n p c).isEmpty = false ∧
      ∀ k, PlainKey k → updated n (k :: p) c = putChild n k (updated (entry n k) p c) := by
  induction p generalizing n with
  | nil =>
    rw [updated_nil]
    refine ⟨full, fun k key => ?_⟩
    have step := updateChild_through formed key (.value plain formedC)
    rw [updated_nil, updateImmediateChild_put n key full] at step
    rw [updated_nil, updated_of_ok step]
  | cons j p ih =>
    obtain ⟨key, others⟩ := PlainPath.cons.mp plain
    have whole : (updated n (j :: p) c).isEmpty = false := by
      rw [(ih formed others).2 j key]
      simpa [putChild, isEmpty] using put_nonempty j _ (childrenOf n)
    have below (k : String) : (updated (entry n k) (j :: p) c).isEmpty = false := by
      rw [(ih (formed.child k) others).2 j key]
      simpa [putChild, isEmpty] using put_nonempty j _ (childrenOf (entry n k))
    refine ⟨whole, fun k keyK => ?_⟩
    have step := updateChild_through formed keyK (.value plain formedC)
    rw [updateImmediateChild_put n keyK (below k)] at step
    exact updated_of_ok step

theorem putChild_putChild (n : FStoredNode) (k : String) (x y : FStoredNode) :
    putChild (putChild n k x) k y = putChild n k y := by
  simp only [putChild, childrenOf, getPriority, Option.getD_some, SortedListing.put_put]

theorem putChild_comm (n : FStoredNode) {j k : String} (plain : PlainKey k) (different : j ≠ k)
    (x y : FStoredNode) : putChild (putChild n k x) j y = putChild (putChild n j y) k x := by
  simp only [putChild, childrenOf, getPriority, Option.getD_some]
  rw [SortedListing.put_comm (plain.apart different)]

/-- Nodes as a store of writes that put something. -/
def nodeStore : Overlay.Store String FStoredNode FStoredNode where
  upd := updated
  sub := updated
  base := WellFormed
  path := PlainPath
  val c := WellFormed c ∧ c.isEmpty = false
  path_append := PlainPath.append
  base_upd formed plain val := (updateChild_ok formed (.value plain val.1)).2
  val_sub val plain new :=
    ⟨(updateChild_ok val.1 (.value plain new.1)).2, (updated_full val.1 new.1 new.2 plain).1⟩
  comm {m p q a b} formed plainP plainQ valA valB apart := by
    induction p generalizing m q with
    | nil => exact absurd List.nil_prefix apart.1
    | cons k p ih =>
      cases q with
      | nil => exact absurd List.nil_prefix apart.2
      | cons j q =>
        obtain ⟨keyK, plainP'⟩ := PlainPath.cons.mp plainP
        obtain ⟨keyJ, plainQ'⟩ := PlainPath.cons.mp plainQ
        have afterP := (updateChild_ok formed (.value plainP valA.1)).2
        have afterQ := (updateChild_ok formed (.value plainQ valB.1)).2
        rw [(updated_full afterP valB.1 valB.2 plainQ').2 j keyJ,
          (updated_full afterQ valA.1 valA.2 plainP').2 k keyK]
        by_cases same : j = k
        · subst same
          have apart' : Apart p q := by
            refine ⟨fun leads => apart.1 ?_, fun leads => apart.2 ?_⟩
            · exact List.cons_prefix_cons.mpr ⟨rfl, leads⟩
            · exact List.cons_prefix_cons.mpr ⟨rfl, leads⟩
          rw [entry_updated_same formed keyJ (.value plainP' valA.1),
            entry_updated_same formed keyJ (.value plainQ' valB.1),
            (updated_full formed valA.1 valA.2 plainP').2 j keyJ,
            (updated_full formed valB.1 valB.2 plainQ').2 j keyJ, putChild_putChild, putChild_putChild,
            ih (formed.child j) plainP' plainQ' apart']
        · rw [entry_updated_other formed (.value plainP valA.1) same,
            entry_updated_other formed (.value plainQ valB.1) (Ne.symm same),
            (updated_full formed valA.1 valA.2 plainP').2 k keyK,
            (updated_full formed valB.1 valB.2 plainQ').2 j keyJ, putChild_comm m keyK same]
  absorb {m p r a b} formed plain valA valB := by
    induction p generalizing m with
    | nil => rw [List.nil_append, updated_nil, updated_nil]
    | cons k p ih =>
      rw [List.cons_append] at plain ⊢
      obtain ⟨key, below⟩ := PlainPath.cons.mp plain
      have afterA := (updateChild_ok formed (.value plain valA.1)).2
      have plainP := (PlainPath.append.mp below).1
      rw [(updated_full afterA valB.1 valB.2 plainP).2 k key,
        entry_updated_same formed key (.value below valA.1),
        (updated_full formed valA.1 valA.2 below).2 k key, putChild_putChild,
        ih (formed.child k) below, (updated_full formed valB.1 valB.2 plainP).2 k key]
  compose {m p r a b} formed plain valA valB := by
    induction p generalizing m with
    | nil => rw [List.nil_append, updated_nil, updated_nil]
    | cons k p ih =>
      rw [List.cons_append] at plain ⊢
      obtain ⟨key, below⟩ := PlainPath.cons.mp plain
      obtain ⟨plainP, plainR⟩ := PlainPath.append.mp below
      have afterA := (updateChild_ok formed (.value (PlainPath.cons.mpr ⟨key, plainP⟩) valA.1)).2
      have inner := (updateChild_ok valA.1 (.value plainR valB.1)).2
      have innerFull := (updated_full valA.1 valB.1 valB.2 plainR).1
      rw [(updated_full afterA valB.1 valB.2 below).2 k key,
        entry_updated_same formed key (.value plainP valA.1),
        (updated_full formed valA.1 valA.2 plainP).2 k key, putChild_putChild,
        ih (formed.child k) below, (updated_full formed inner innerFull plainP).2 k key]

/-! ## The listing of a compound write -/

/-- Without priorities an application goes through the tree as `forEach:` does. -/
theorem forEachPathSoFar_eq {t : FImmutableTree FStoredNode} (canonical : Canonical t)
    (free : PrefixFree t.valueAtPath) (plain : ∀ r c, t.valueAtPath r = some c → PlainPath r)
    (p : FPath) : t.forEachPathSoFar p = underPath p (orderedWrites t) := by
  induction canonical generalizing p with
  | @node value children ascending pieces full below ih =>
    have child {e : String × FImmutableTree FStoredNode} (inside : e ∈ children) (r : FPath) :
        (FImmutableTree.node value children).valueAtPath (e.1 :: r) = e.2.valueAtPath r := by
      rw [valueAtPath_cons, sub, FImmutableTree.child, FImmutableTree.children,
        SortedListing.lookup_of_mem ascending inside]
      rfl
    rw [forEachPathSoFar_node]
    cases value with
    | some c =>
      have leaf : children = [] := by
        by_contra nonempty
        obtain ⟨e, member⟩ := List.exists_mem_of_ne_nil children nonempty
        obtain ⟨q, found⟩ := (below e member).exists_value (full e member)
        rw [← child member q] at found
        have same := free [] (e.1 :: q) rfl found List.nil_prefix
        cases same
      subst leaf
      simp [FImmutableTree.forEachChildren, orderedWrites, underPath]
    | none =>
      have key {e : String × FImmutableTree FStoredNode} (member : e ∈ children) : PlainKey e.1 := by
        obtain ⟨q, found⟩ := (below e member).exists_value (full e member)
        obtain ⟨c, value⟩ := Option.isSome_iff_exists.mp found
        rw [← child member q] at value
        exact plain _ c value e.1 List.mem_cons_self
      have last : lastPriority children none = none := by
        cases found : lastPriority children none with
        | none => rfl
        | some c =>
          obtain ⟨e, member, name, _⟩ := (lastPriority_eq found).resolve_left (by simp)
          exact absurd name (key member).not_priority
      have loop (cs : List (String × FImmutableTree FStoredNode)) (inside : cs ⊆ children) :
          FImmutableTree.forEachChildren cs p = underPath p (childWrites cs) := by
        induction cs with
        | nil => rfl
        | cons e rest ihRest =>
          obtain ⟨member, others⟩ := List.cons_subset.mp inside
          have freeE : PrefixFree e.2.valueAtPath := by
            intro x y atX atY leads
            rw [← child member] at atX atY
            have same := free _ _ atX atY (List.cons_prefix_cons.mpr ⟨rfl, leads⟩)
            exact (List.cons.inj same).2
          have plainE (r : FPath) (c : FStoredNode) (found : e.2.valueAtPath r = some c) :
              PlainPath r := by
            rw [← child member] at found
            exact (PlainPath.cons.mp (plain _ c found)).2
          rw [FImmutableTree.forEachChildren, childFromString_piece p (pieces e member),
            ih e member freeE plainE, ihRest others, childWrites, if_neg (key member).not_priority,
            underPath_append, underPath_underPath]
      rw [loop children (List.Subset.refl _), orderedWrites, last]
      simp

theorem GoodWrite.lists_ordered {w : FCompoundWrite} (good : GoodWrite w)
    (plain : ∀ r c, overlay w r = some c → PlainPath r) :
    Lists (overlay w) (orderedWrites w.writeTree) := by
  have same := forEachPathSoFar_eq good.canonical good.prefixFree plain []
  have whole : underPath [] (orderedWrites w.writeTree) = orderedWrites w.writeTree := by
    simp [underPath]
  rw [whole] at same
  rw [← same]
  exact lists_forEach good.canonical

/-! ## Batches -/

theorem allows_plain {ws : List (FPath × FStoredNode)} (allowed : nodeStore.Allows ws) :
    ∀ e ∈ ws, Writable e.1 e.2 := fun e member => .value (allowed e member).1 (allowed e member).2.1

/-- Applying what was written is writing once more. -/
theorem applied_writeAll {w : FCompoundWrite} (good : GoodWrite w)
    {ws : List (FPath × FStoredNode)} (allowed : nodeStore.Allows ws)
    (meaning : overlay w = Overlay.empty.writeAll updated ws) {n : FStoredNode}
    (formed : WellFormed n) : applied w n = performed n ws := by
  obtain ⟨vs, listed, allowedV, same⟩ :=
    Overlay.performs_writeAll nodeStore allowed Overlay.prefixFree_empty Overlay.lists_empty
      (fun _ member => by cases member)
  change (Overlay.empty.writeAll updated ws).Lists vs at listed
  rw [← meaning] at listed
  have plain (r : FPath) (c : FStoredNode) (found : overlay w r = some c) : PlainPath r :=
    (allowedV (r, c) ((listed.mem_iff r c).mpr found)).1
  have ordered := Overlay.performs_lists nodeStore good.prefixFree listed (good.lists_ordered plain)
    allowedV (m := n) formed
  exact ordered.symm.trans (same n formed)

/-- A write that puts something under plain keys. -/
structure PlainWrite where
  path : FPath
  node : FStoredNode
  plain : PlainPath path
  formed : WellFormed node
  full : node.isEmpty = false

def PlainWrite.entry (w : PlainWrite) : FPath × FStoredNode := (w.path, w.node)

theorem allows_entries (ws : List PlainWrite) : nodeStore.Allows (ws.map PlainWrite.entry) := by
  intro e member
  obtain ⟨w, _, rfl⟩ := List.mem_map.mp member
  exact ⟨w.plain, w.formed, w.full⟩

/-- Any run of writes that put something, gathered in a compound write and applied
to any stored node, leaves what the same updates leave one after the other. -/
theorem batch_applies_in_order (ws : List PlainWrite) (start : StoredNode) :
    ∃ w n, ws.foldlM (fun (w : FCompoundWrite) e => w.addWrite e.node e.path) .emptyWrite = .ok w ∧
      w.applyToNode start.node = .ok n ∧
      ws.foldlM (fun n e => n.updateChild e.path e.node) start.node = .ok n := by
  have allowed := allows_entries ws
  obtain ⟨w, run, good, meaning⟩ := addWrites_spec goodWrite_emptyWrite (allows_plain allowed)
  obtain ⟨updates, _⟩ := updateAll_ok start.formed (allows_plain allowed)
  rw [overlay_emptyWrite] at meaning
  rw [List.foldlM_map] at run updates
  refine ⟨w, _, run, ?_, updates⟩
  rw [(applyToNode_spec good start.formed).1, applied_writeAll good allowed meaning start.formed]

/-- Writes that put something, below and above one another, one of them with a priority. -/
def menuBatch : List PlainWrite :=
  [⟨["menu", "dish"], textNode "Soup", plain_path (by decide),
      textNode_formed (by decide), rfl⟩,
    ⟨["menu"], newMenu.node, plain_path (by decide), newMenu.formed, rfl⟩,
    ⟨["menu", "dish"], stew.node, plain_path (by decide), stew.formed, rfl⟩,
    ⟨["drink", "name"], textNode "Juice", plain_path (by decide),
      textNode_formed (by decide), rfl⟩]

theorem menu_batch_applies : ∃ w,
    menuBatch.foldlM (fun (w : FCompoundWrite) e => w.addWrite e.node e.path) .emptyWrite = .ok w ∧
      w.applyToNode served.node =
        .ok (pairNode "drink" (.children (some emptyNode) [("name", textNode "Juice")]) "menu"
          (pairNode "dish" stew.node "side" (textNode "Salad"))) := by
  obtain ⟨w, n, writes, applies, updates⟩ := batch_applies_in_order menuBatch served
  have node : menuBatch.foldlM (fun n e => n.updateChild e.path e.node) served.node =
      .ok (pairNode "drink" (.children (some emptyNode) [("name", textNode "Juice")]) "menu"
        (pairNode "dish" stew.node "side" (textNode "Salad"))) := rfl
  exact ⟨w, writes, by rw [applies, ← updates, node]⟩

end WatchAndSee.Guarantees.StoredNodes
