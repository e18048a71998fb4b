import WatchAndSee.Guarantees.BatchedWrites
import WatchAndSee.Source.FWriteTree

/-!
# The visible writes are the pending ones put together

The write tree keeps the compound write of its visible records next to their list.
Adding a record adds its writes. Removing one leaves the compound write as it is
when a later record hides the removed one, puts all records together again when
some record lies below it, and cuts its writes out otherwise. This is right as
long as every other write that meets the removed path is one that the check looks
at: the check compares the path of a record, not the paths below it that a merge
writes to, and putting together again takes hidden records in.
-/

set_option autoImplicit false

namespace WatchAndSee.Guarantees.StoredNodes
open Library
open Library.Overlay (Apart)
open Source
open Source.FWriteTree
open ImmutableTrees

/-! ## Records and their writes -/

def recordWrites (r : FWriteRecord) : List (FPath × FStoredNode) :=
  match r.write with
  | .overwrite newData => [(r.path, newData)]
  | .merge changedChildren => placed r.path changedChildren

/-- What a client may write with one record. -/
def GoodWriteAt (path : FPath) : FWrite → Prop
  | .overwrite newData => Writable path newData
  | .merge changedChildren => PlainPath path ∧ GoodWrite changedChildren

def GoodRecord (r : FWriteRecord) : Prop := GoodWriteAt r.path r.write

theorem GoodRecord.writable {r : FWriteRecord} (good : GoodRecord r) :
    ∀ e ∈ recordWrites r, Writable e.1 e.2 := by
  obtain ⟨writeId, path, write, visible⟩ := r
  cases write with
  | overwrite newData =>
    intro e member
    rw [List.mem_singleton.mp member]
    exact good
  | merge changedChildren => exact good.2.writable_placed good.1

/-- The writes of a record lie at its path or below. -/
theorem path_prefix_of_mem {r : FWriteRecord} {e : FPath × FStoredNode}
    (member : e ∈ recordWrites r) : r.path <+: e.1 := by
  obtain ⟨writeId, path, write, visible⟩ := r
  cases write with
  | overwrite newData => rw [List.mem_singleton.mp member]
  | merge changedChildren =>
    obtain ⟨inner, _, rfl⟩ := List.mem_map.mp member
    exact List.prefix_append path inner.1

theorem recordContainsPath_iff (r : FWriteRecord) (p : FPath) :
    recordContainsPath r p = true ↔ ∃ e ∈ recordWrites r, e.1 <+: p := by
  obtain ⟨writeId, path, write, visible⟩ := r
  cases write with
  | overwrite newData => simp [recordContainsPath, recordWrites, FPath.contains_iff]
  | merge changedChildren =>
    rw [recordContainsPath, List.any_eq_true]
    constructor
    · rintro ⟨e, member, contains⟩
      exact ⟨(path ++ e.1, e.2), List.mem_map.mpr ⟨e, member, rfl⟩, (FPath.contains_iff _ _).mp contains⟩
    · rintro ⟨e, member, leads⟩
      obtain ⟨inner, inside, rfl⟩ := List.mem_map.mp member
      exact ⟨inner, inside, (FPath.contains_iff _ _).mpr leads⟩

/-! ## Layers -/

def recordsWrites (records : List FWriteRecord) : List (FPath × FStoredNode) :=
  records.flatMap recordWrites

theorem recordsWrites_append (records others : List FWriteRecord) :
    recordsWrites (records ++ others) = recordsWrites records ++ recordsWrites others :=
  List.flatMap_append

/-- The overlay of all writes of some records. -/
noncomputable def layered (records : List FWriteRecord) : Overlay String FStoredNode :=
  Overlay.empty.writeAll updated (recordsWrites records)

theorem layerRecord_overwrite_root (w : FCompoundWrite) (writeId : Int) (path : FPath)
    (newData : FStoredNode) (visible : Bool) :
    layerRecord [] w ⟨writeId, path, .overwrite newData, visible⟩ = w.addWrite newData path := by
  have root : FPath.contains [] path = true := (FPath.contains_iff _ _).mpr List.nil_prefix
  have relative : FPath.relativePathFrom [] path = .ok path := FPath.relativePathFrom_append [] path
  simp only [layerRecord, root, if_true, relative]
  rfl

theorem layerRecord_merge_root (w : FCompoundWrite) (writeId : Int) (path : FPath)
    (changedChildren : FCompoundWrite) (visible : Bool) :
    layerRecord [] w ⟨writeId, path, .merge changedChildren, visible⟩ =
      w.addCompoundWrite changedChildren path := by
  have root : FPath.contains [] path = true := (FPath.contains_iff _ _).mpr List.nil_prefix
  have relative : FPath.relativePathFrom [] path = .ok path := FPath.relativePathFrom_append [] path
  simp only [layerRecord, root, if_true, relative]
  rfl

theorem layerRecord_root {w : FCompoundWrite} (good : GoodWrite w) {r : FWriteRecord}
    (goodR : GoodRecord r) :
    ∃ w', layerRecord [] w r = .ok w' ∧ GoodWrite w' ∧
      overlay w' = (overlay w).writeAll updated (recordWrites r) := by
  obtain ⟨writeId, path, write, visible⟩ := r
  cases write with
  | overwrite newData =>
    rw [layerRecord_overwrite_root]
    exact addWrite_spec good goodR
  | merge changedChildren =>
    rw [layerRecord_merge_root]
    exact addCompoundWrite_spec good goodR.2 goodR.1

theorem layerTreeFromWrites_root {records : List FWriteRecord} (good : ∀ r ∈ records, GoodRecord r)
    (filter : FWriteRecord → Bool) :
    ∃ w, layerTreeFromWrites records filter [] = .ok w ∧ GoodWrite w ∧
      overlay w = layered (records.filter filter) := by
  have loop (records : List FWriteRecord) (good : ∀ r ∈ records, GoodRecord r) {w : FCompoundWrite}
      (goodW : GoodWrite w) :
      ∃ w', records.foldlM (fun compoundWrite record =>
          if filter record then layerRecord [] compoundWrite record else .ok compoundWrite) w = .ok w' ∧
        GoodWrite w' ∧
        overlay w' = (overlay w).writeAll updated (recordsWrites (records.filter filter)) := by
    induction records generalizing w with
    | nil => exact ⟨w, rfl, goodW, rfl⟩
    | cons r rest ih =>
      obtain ⟨first, others⟩ := List.forall_mem_cons.mp good
      cases kept : filter r with
      | false =>
        obtain ⟨w', run, goodW', meaning⟩ := ih others goodW
        refine ⟨w', ?_, goodW', ?_⟩
        · rw [List.foldlM_cons, kept]
          exact run
        · rw [meaning, List.filter_cons_of_neg (by simp [kept])]
      | true =>
        obtain ⟨v, layer, goodV, meaning⟩ := layerRecord_root goodW first
        obtain ⟨w', run, goodW', meaning'⟩ := ih others goodV
        refine ⟨w', ?_, goodW', ?_⟩
        · rw [List.foldlM_cons, kept, if_pos rfl, layer]
          exact run
        · rw [meaning', meaning, List.filter_cons_of_pos (by simp [kept]), ← Overlay.writeAll_append]
          rfl
  obtain ⟨w, run, goodW, meaning⟩ := loop records good goodWrite_emptyWrite
  rw [overlay_emptyWrite] at meaning
  exact ⟨w, run, goodW, meaning⟩

/-- A value of a layer was written by one of its records. -/
theorem exists_record_of_layered {records : List FWriteRecord} {q : FPath}
    (found : (layered records q).isSome) : ∃ r ∈ records, ∃ e ∈ recordWrites r, e.1 = q := by
  rcases Overlay.isSome_writeAll found with nothing | written
  · cases nothing
  · obtain ⟨e, member, rfl⟩ := List.mem_map.mp written
    obtain ⟨r, inside, here⟩ := List.mem_flatMap.mp member
    exact ⟨r, inside, e, here, rfl⟩

/-! ## The check of a removal -/

theorem removeLoop_false (records : List FWriteRecord) (r : FWriteRecord) (index i : Nat)
    (overlaps : Bool) : removeLoop records r index i false overlaps = (false, overlaps) := by
  cases i <;> rfl

/-- The record at `j` hides the removed one. -/
def Hides (records : List FWriteRecord) (r : FWriteRecord) (index j : Nat) : Prop :=
  ∃ s, records[j]? = some s ∧ s.visible = true ∧ index ≤ j ∧ recordContainsPath s r.path = true

/-- The record at `j` lies at the removed path or below. -/
def Overlaps (records : List FWriteRecord) (r : FWriteRecord) (j : Nat) : Prop :=
  ∃ s, records[j]? = some s ∧ s.visible = true ∧ FPath.contains r.path s.path = true

/-- The loop asks every record before `i` whether it hides or overlaps the removed one. -/
theorem removeLoop_spec (records : List FWriteRecord) (r : FWriteRecord) (index : Nat) {i : Nat}
    (bound : i ≤ records.length) (overlaps : Bool) :
    ((removeLoop records r index i true overlaps).1 = false ↔ ∃ j < i, Hides records r index j) ∧
      ((removeLoop records r index i true overlaps).1 = true →
        ((removeLoop records r index i true overlaps).2 = true ↔
          overlaps = true ∨ ∃ j < i, Overlaps records r j)) := by
  induction i generalizing overlaps with
  | zero => simp [removeLoop]
  | succ i ih =>
    have split (P : Nat → Prop) : (∃ j < i + 1, P j) ↔ (∃ j < i, P j) ∨ P i := by
      simp only [Nat.lt_succ_iff_lt_or_eq, or_and_right, exists_or, exists_eq_left]
    have inside : i < records.length := by omega
    have here : records[i]? = some records[i] := List.getElem?_eq_getElem inside
    generalize records[i] = s at here
    have hides : Hides records r index i ↔
        s.visible = true ∧ index ≤ i ∧ recordContainsPath s r.path = true := by
      simp [Hides, here]
    have meets : Overlaps records r i ↔
        s.visible = true ∧ FPath.contains r.path s.path = true := by
      simp [Overlaps, here]
    rw [split, split, hides, meets, removeLoop]
    simp only [Bool.not_true, Bool.false_eq_true, if_false, here]
    cases shown : s.visible with
    | false => simpa using ih (by omega) overlaps
    | true =>
      cases hidden : (decide (i ≥ index) && recordContainsPath s r.path) with
      | true =>
        rw [Bool.and_eq_true, decide_eq_true_eq] at hidden
        simp [removeLoop_false, hidden.1, hidden.2]
      | false =>
        have apart : ¬ (index ≤ i ∧ recordContainsPath s r.path = true) := by
          intro both
          simp [both.1, both.2] at hidden
        cases below : FPath.contains r.path s.path with
        | true => simpa [apart] using ih (by omega) true
        | false => simpa [apart] using ih (by omega) overlaps

theorem hides_iff (before after : List FWriteRecord) (r : FWriteRecord) :
    (∃ j < (before ++ after).length, Hides (before ++ after) r before.length j) ↔
      ∃ s ∈ after, s.visible = true ∧ recordContainsPath s r.path = true := by
  constructor
  · rintro ⟨j, _, s, here, shown, past, hides⟩
    rw [List.getElem?_append_right past] at here
    exact ⟨s, List.mem_of_getElem? here, shown, hides⟩
  · rintro ⟨s, member, shown, hides⟩
    obtain ⟨i, here⟩ := List.mem_iff_getElem?.mp member
    have there : (before ++ after)[before.length + i]? = some s := by
      rw [List.getElem?_append_right (by omega), Nat.add_sub_cancel_left, here]
    obtain ⟨bound, _⟩ := List.getElem?_eq_some_iff.mp there
    exact ⟨before.length + i, bound, s, there, shown, by omega, hides⟩

theorem overlaps_iff (records : List FWriteRecord) (r : FWriteRecord) :
    (∃ j < records.length, Overlaps records r j) ↔
      ∃ s ∈ records, s.visible = true ∧ r.path <+: s.path := by
  constructor
  · rintro ⟨j, _, s, here, shown, below⟩
    exact ⟨s, List.mem_of_getElem? here, shown, (FPath.contains_iff _ _).mp below⟩
  · rintro ⟨s, member, shown, below⟩
    obtain ⟨j, here⟩ := List.mem_iff_getElem?.mp member
    obtain ⟨bound, _⟩ := List.getElem?_eq_some_iff.mp here
    exact ⟨j, bound, s, here, shown, (FPath.contains_iff _ _).mpr below⟩

/-- What the whole loop answers about a record between `before` and `after`. -/
theorem removeLoop_answer (before after : List FWriteRecord) (r : FWriteRecord) :
    ∃ wasVisible overlaps,
      removeLoop (before ++ after) r before.length (before ++ after).length true false =
        (wasVisible, overlaps) ∧
      (wasVisible = false ↔ ∃ s ∈ after, s.visible = true ∧ recordContainsPath s r.path = true) ∧
      (wasVisible = true →
        (overlaps = true ↔ ∃ s ∈ before ++ after, s.visible = true ∧ r.path <+: s.path)) := by
  have spec := removeLoop_spec (before ++ after) r before.length (Nat.le_refl _) false
  rw [hides_iff, overlaps_iff, or_iff_right Bool.false_ne_true] at spec
  exact ⟨_, _, rfl, spec⟩

/-! ## The invariant -/

def shownRecords (records : List FWriteRecord) : List FWriteRecord :=
  records.filter fun r => r.visible

/-- The list of records is in order. -/
structure Recorded (t : FWriteTree) : Prop where
  records : ∀ r ∈ t.allWrites, GoodRecord r
  good : GoodWrite t.visibleWrites
  ascending : t.allWrites.Pairwise fun r s => r.writeId < s.writeId
  last : ∀ r ∈ t.allWrites, r.writeId ≤ t.lastWriteId

/-- Moreover the visible writes are what the visible records make together. -/
structure Consistent (t : FWriteTree) : Prop extends Recorded t where
  meaning : overlay t.visibleWrites = layered (shownRecords t.allWrites)

theorem recorded_empty (lastWriteId : Int) : Recorded ⟨.emptyWrite, [], lastWriteId⟩ where
  records r member := by cases member
  good := goodWrite_emptyWrite
  ascending := .nil
  last r member := by cases member

theorem consistent_empty (lastWriteId : Int) : Consistent ⟨.emptyWrite, [], lastWriteId⟩ :=
  ⟨recorded_empty lastWriteId, overlay_emptyWrite⟩

theorem layered_append (records others : List FWriteRecord) :
    layered (records ++ others) = (layered records).writeAll updated (recordsWrites others) := by
  unfold layered
  rw [recordsWrites_append, Overlay.writeAll_append]

/-- A new record goes to the end of the list. -/
theorem Recorded.push {t : FWriteTree} (recorded : Recorded t) {r : FWriteRecord}
    (good : GoodRecord r) (newer : t.lastWriteId < r.writeId) {w : FCompoundWrite}
    (goodW : GoodWrite w) : Recorded ⟨w, t.allWrites ++ [r], r.writeId⟩ where
  records s member := by
    rcases List.mem_append.mp member with old | new
    · exact recorded.records s old
    · rwa [List.mem_singleton.mp new]
  good := goodW
  ascending := by
    refine List.pairwise_append.mpr ⟨recorded.ascending, List.pairwise_singleton _ _, ?_⟩
    intro s old r' new
    rw [List.mem_singleton.mp new]
    have bound := recorded.last s old
    omega
  last s member := by
    rcases List.mem_append.mp member with old | new
    · have bound := recorded.last s old
      dsimp only
      omega
    · rw [List.mem_singleton.mp new]

/-- The tree after a record was added. -/
structure Pushes (t : FWriteTree) (r : FWriteRecord) (t' : FWriteTree) : Prop where
  allWrites : t'.allWrites = t.allWrites ++ [r]
  recorded : Recorded t'
  meaning : overlay t'.visibleWrites = (overlay t.visibleWrites).writeAll updated
    (if r.visible then recordWrites r else [])

theorem Pushes.consistent {t t' : FWriteTree} {r : FWriteRecord} (pushes : Pushes t r t')
    (consistent : Consistent t) : Consistent t' where
  toRecorded := pushes.recorded
  meaning := by
    rw [pushes.meaning, pushes.allWrites, consistent.meaning, shownRecords, shownRecords,
      List.filter_append, layered_append]
    cases shown : r.visible <;> simp [recordsWrites, shown]

theorem addOverwriteAtPath_spec {t : FWriteTree} (recorded : Recorded t) {path : FPath}
    {newData : FStoredNode} (writable : Writable path newData) {writeId : Int}
    (newer : t.lastWriteId < writeId) (visible : Bool) :
    ∃ t', t.addOverwriteAtPath path newData writeId visible = .ok t' ∧
      Pushes t ⟨writeId, path, .overwrite newData, visible⟩ t' := by
  have assertion : nsAssert (writeId > t.lastWriteId)
      "Stacking an older write on top of a newer one" = .ok () := by
    simp [nsAssert, newer]
  cases visible with
  | false =>
    refine ⟨⟨t.visibleWrites, t.allWrites ++ [⟨writeId, path, .overwrite newData, false⟩], writeId⟩,
      ?_, rfl, ?_, rfl⟩
    · rw [addOverwriteAtPath, assertion]
      rfl
    · exact recorded.push (r := ⟨writeId, path, .overwrite newData, false⟩) writable newer recorded.good
  | true =>
    obtain ⟨w, added, good, meaning⟩ := addWrite_spec recorded.good writable
    refine ⟨⟨w, t.allWrites ++ [⟨writeId, path, .overwrite newData, true⟩], writeId⟩, ?_, rfl,
      recorded.push (r := ⟨writeId, path, .overwrite newData, true⟩) writable newer good, meaning⟩
    rw [addOverwriteAtPath, assertion]
    simp only [if_true, added]
    rfl

theorem addMergeAtPath_spec {t : FWriteTree} (recorded : Recorded t) {path : FPath}
    {changedChildren : FCompoundWrite} (plain : PlainPath path) (goodM : GoodWrite changedChildren)
    {writeId : Int} (newer : t.lastWriteId < writeId) :
    ∃ t', t.addMergeAtPath path changedChildren writeId = .ok t' ∧
      Pushes t ⟨writeId, path, .merge changedChildren, true⟩ t' := by
  have assertion : nsAssert (writeId > t.lastWriteId)
      "Stacking an older merge on top of newer one" = .ok () := by
    simp [nsAssert, newer]
  obtain ⟨w, added, good, meaning⟩ := addCompoundWrite_spec recorded.good goodM plain
  refine ⟨⟨w, t.allWrites ++ [⟨writeId, path, .merge changedChildren, true⟩], writeId⟩, ?_, rfl,
    recorded.push (r := ⟨writeId, path, .merge changedChildren, true⟩) ⟨plain, goodM⟩ newer good,
    meaning⟩
  rw [addMergeAtPath, assertion]
  simp only [added]
  rfl

/-! ## Removals -/

/-- The writes that the check of a removal leaves out: none of them may meet the
removed record, and no hidden one may wait when all are put together again. -/
structure Removable (before : List FWriteRecord) (r : FWriteRecord) (after : List FWriteRecord) :
    Prop where
  earlier : ∀ s ∈ before, s.visible = true →
    r.path <+: s.path ∨ ∀ e ∈ recordWrites s, Apart e.1 r.path
  later : ∀ s ∈ after, s.visible = true →
    r.path <+: s.path ∨ ∀ e ∈ recordWrites s, e.1 <+: r.path ∨ Apart e.1 r.path
  shown : (∃ s ∈ before ++ after, s.visible = true ∧ r.path <+: s.path) →
    ∀ s ∈ before ++ after, s.visible = true

theorem withoutWrite_spec {w : FCompoundWrite} (good : GoodWrite w) {r : FWriteRecord}
    (goodR : GoodRecord r) :
    GoodWrite (withoutWrite w r) ∧
      overlay (withoutWrite w r) = (overlay w).cut ((recordWrites r).map Prod.fst) := by
  have pieces {e : FPath × FStoredNode} (member : e ∈ recordWrites r) : ∀ k ∈ e.1, FPath.IsPiece k :=
    (goodR.writable e member).pieces
  obtain ⟨writeId, path, write, visible⟩ := r
  cases write with
  | overwrite newData => exact removeWriteAtPath_spec good (pieces List.mem_cons_self)
  | merge changedChildren =>
    have loop (es : List (FPath × FStoredNode))
        (pieces : ∀ e ∈ es, ∀ k ∈ path ++ e.1, FPath.IsPiece k) {w : FCompoundWrite}
        (good : GoodWrite w) :
        GoodWrite (es.foldl (fun (w : FCompoundWrite) e => w.removeWriteAtPath (path ++ e.1)) w) ∧
          overlay (es.foldl (fun (w : FCompoundWrite) e => w.removeWriteAtPath (path ++ e.1)) w) =
            (overlay w).cut (es.map fun e => path ++ e.1) := by
      induction es generalizing w with
      | nil => exact ⟨good, (Overlay.cut_nil _).symm⟩
      | cons e es ih =>
        obtain ⟨first, others⟩ := List.forall_mem_cons.mp pieces
        obtain ⟨good', removed⟩ := removeWriteAtPath_spec good first
        obtain ⟨goodAll, meaning⟩ := ih others good'
        refine ⟨goodAll, ?_⟩
        rw [List.foldl_cons, meaning, removed, Overlay.cut_cut]
        rfl
    obtain ⟨goodAll, meaning⟩ := loop changedChildren.enumerateWrites (fun e member =>
      pieces (List.mem_map.mpr ⟨e, member, rfl⟩)) good
    have paths : (changedChildren.enumerateWrites.map fun e => path ++ e.1) =
        (placed path changedChildren).map Prod.fst := by
      unfold placed
      rw [List.map_map]
      rfl
    exact ⟨goodAll, meaning.trans (congrArg (overlay w).cut paths)⟩

theorem sublist_of_writes {t : FWriteTree} {before after : List FWriteRecord} {r : FWriteRecord}
    (writes : t.allWrites = before ++ r :: after) : (before ++ after).Sublist t.allWrites := by
  rw [writes]
  exact (List.sublist_cons_self r after).append_left before

/-- The list without one of the records. -/
theorem Recorded.drop {t : FWriteTree} (recorded : Recorded t)
    {before after : List FWriteRecord} {r : FWriteRecord} (writes : t.allWrites = before ++ r :: after)
    {w : FCompoundWrite} (good : GoodWrite w) {lastWriteId : Int}
    (last : ∀ s ∈ before ++ after, s.writeId ≤ lastWriteId) :
    Recorded ⟨w, before ++ after, lastWriteId⟩ := by
  have kept := sublist_of_writes writes
  exact ⟨fun s member => recorded.records s (kept.subset member), good,
    recorded.ascending.sublist kept, last⟩

theorem pairwise_le_getLast {records : List FWriteRecord}
    (ascending : records.Pairwise fun r s => r.writeId < s.writeId) {s last : FWriteRecord}
    (ends : records.getLast? = some last) (member : s ∈ records) : s.writeId ≤ last.writeId := by
  obtain ⟨front, rfl⟩ := List.getLast?_eq_some_iff.mp ends
  rcases List.mem_append.mp member with old | new
  · have less := (List.pairwise_append.mp ascending).2.2 s old last List.mem_cons_self
    omega
  · rw [List.mem_singleton.mp new]

/-- The writes of all records around a removed one. -/
theorem layered_around (before : List FWriteRecord) {r : FWriteRecord} (shown : r.visible = true)
    (after : List FWriteRecord) :
    layered (shownRecords (before ++ r :: after)) =
      (layered (shownRecords before)).writeAll updated
        (recordWrites r ++ recordsWrites (shownRecords after)) := by
  unfold shownRecords
  rw [List.filter_append, List.filter_cons_of_pos shown, layered_append]
  rfl

/-- A removed record that a later one hides leaves nothing to change. -/
theorem layered_hidden {before after : List FWriteRecord} {r : FWriteRecord} (shown : r.visible = true)
    (removable : Removable before r after)
    (hidden : ∃ s ∈ after, s.visible = true ∧ recordContainsPath s r.path = true) :
    layered (shownRecords (before ++ r :: after)) = layered (shownRecords (before ++ after)) := by
  have free : ¬ (layered (shownRecords before)).Above r.path := by
    rintro ⟨q, leads, different, found⟩
    obtain ⟨s, member, e, inside, rfl⟩ := exists_record_of_layered found
    obtain ⟨old, visible⟩ := List.mem_filter.mp member
    rcases removable.earlier s old visible with below | apart
    · have under : r.path <+: e.1 := below.trans (path_prefix_of_mem inside)
      exact different (leads.eq_of_length_le under.length_le)
    · exact (apart e inside).1 leads
  obtain ⟨s, member, visible, contains⟩ := hidden
  obtain ⟨e, inside, leads⟩ := (recordContainsPath_iff s r.path).mp contains
  have covered : ∃ e ∈ recordsWrites (shownRecords after), e.1 <+: r.path :=
    ⟨e, List.mem_flatMap.mpr ⟨s, List.mem_filter.mpr ⟨member, visible⟩, inside⟩, leads⟩
  rw [layered_around before shown after,
    Overlay.writeAll_hidden free (fun e inR => path_prefix_of_mem inR) covered, ← layered_append]
  unfold shownRecords
  rw [List.filter_append]

/-- A removed record that no other meets can be cut out. -/
theorem layered_cut {before after : List FWriteRecord} {r : FWriteRecord} (shown : r.visible = true)
    (earlier : ∀ s ∈ before, s.visible = true → ∀ e ∈ recordWrites s, Apart e.1 r.path)
    (later : ∀ s ∈ after, s.visible = true → ∀ e ∈ recordWrites s, Apart e.1 r.path) :
    (layered (shownRecords (before ++ r :: after))).cut ((recordWrites r).map Prod.fst) =
      layered (shownRecords (before ++ after)) := by
  have clear (q : FPath) (found : (layered (shownRecords before) q).isSome) : Apart q r.path := by
    obtain ⟨s, member, e, inside, rfl⟩ := exists_record_of_layered found
    obtain ⟨old, visible⟩ := List.mem_filter.mp member
    exact earlier s old visible e inside
  have apart : ∀ e ∈ recordsWrites (shownRecords after), Apart e.1 r.path := by
    intro e written
    obtain ⟨s, member, inside⟩ := List.mem_flatMap.mp written
    obtain ⟨new, visible⟩ := List.mem_filter.mp member
    exact later s new visible e inside
  rw [layered_around before shown after,
    Overlay.cut_writeAll clear (fun e inR => path_prefix_of_mem inR) apart, ← layered_append]
  unfold shownRecords
  rw [List.filter_append]

/-- A reset layers all records, the hidden ones with the others. -/
theorem resetTree_spec {t : FWriteTree} (records : ∀ r ∈ t.allWrites, GoodRecord r)
    (ascending : t.allWrites.Pairwise fun r s => r.writeId < s.writeId) :
    ∃ w last, t.resetTree = .ok ⟨w, t.allWrites, last⟩ ∧ GoodWrite w ∧
      overlay w = layered t.allWrites ∧ ∀ r ∈ t.allWrites, r.writeId ≤ last := by
  obtain ⟨w, layers, good, meaning⟩ := layerTreeFromWrites_root records defaultFilter
  have all : t.allWrites.filter defaultFilter = t.allWrites := List.filter_eq_self.mpr fun _ _ => rfl
  rw [all] at meaning
  unfold resetTree
  rw [layers]
  cases ends : t.allWrites.getLast? with
  | none =>
    rw [List.getLast?_eq_none_iff] at ends
    exact ⟨w, -1, rfl, good, meaning, by simp [ends]⟩
  | some r =>
    exact ⟨w, r.writeId, rfl, good, meaning, fun s member => pairwise_le_getLast ascending ends member⟩

theorem findIdx_record {t : FWriteTree} (recorded : Recorded t)
    {before after : List FWriteRecord} {r : FWriteRecord}
    (writes : t.allWrites = before ++ r :: after) :
    (t.allWrites.findIdx fun record => record.writeId = r.writeId) = before.length := by
  have ascending := recorded.ascending
  rw [writes] at ascending
  have different : ∀ s ∈ before, s.writeId ≠ r.writeId := by
    intro s member
    have less := (List.pairwise_append.mp ascending).2.2 s member r List.mem_cons_self
    omega
  rw [writes, List.findIdx_append, if_neg (by simpa using different), List.findIdx_cons]
  simp

/-- A removal, after its loop over the other records. -/
theorem removeWriteId_eq {t : FWriteTree} (recorded : Recorded t)
    {before after : List FWriteRecord} {r : FWriteRecord} (writes : t.allWrites = before ++ r :: after)
    {wasVisible overlaps : Bool}
    (loop : removeLoop (before ++ after) r before.length (before ++ after).length r.visible false =
      (wasVisible, overlaps)) :
    t.removeWriteId r.writeId =
      if wasVisible = false then .ok (false, ⟨t.visibleWrites, before ++ after, t.lastWriteId⟩)
      else if overlaps = true then
        (FWriteTree.mk t.visibleWrites (before ++ after) t.lastWriteId).resetTree.map fun self =>
          (true, self)
      else .ok (true, ⟨withoutWrite t.visibleWrites r, before ++ after, t.lastWriteId⟩) := by
  have found : t.allWrites[before.length]? = some r := by
    rw [writes, List.getElem?_append_right (by omega), Nat.sub_self]
    rfl
  have erased : t.allWrites.eraseIdx before.length = before ++ after := by
    rw [writes, List.eraseIdx_append_of_length_le (by omega), Nat.sub_self]
    rfl
  unfold removeWriteId
  rw [findIdx_record recorded writes]
  simp only [found, erased, loop]
  cases wasVisible with
  | false => rfl
  | true =>
    cases overlaps with
    | false => rfl
    | true =>
      simp only [Bool.not_true, Bool.false_eq_true, Bool.true_eq_false, if_false, if_true]
      cases (FWriteTree.mk t.visibleWrites (before ++ after) t.lastWriteId).resetTree <;> rfl

/-- What a removal can come to: the compound write stays as it is when the record
was not visible or a later one hides it, all records are layered again when
another visible one lies at its path or below, and its writes are cut out
otherwise. -/
theorem removeWriteId_cases {t : FWriteTree} (recorded : Recorded t) {before after : List FWriteRecord}
    {r : FWriteRecord} (writes : t.allWrites = before ++ r :: after) :
    ∃ answer t', t.removeWriteId r.writeId = .ok (answer, t') ∧ t'.allWrites = before ++ after ∧
      Recorded t' ∧
      (answer = false ∧ t'.visibleWrites = t.visibleWrites ∧ (r.visible = true →
          ∃ s ∈ after, s.visible = true ∧ recordContainsPath s r.path = true) ∨
        r.visible = true ∧ answer = true ∧
          (∀ s ∈ after, s.visible = true → recordContainsPath s r.path = false) ∧
          ((∃ s ∈ before ++ after, s.visible = true ∧ r.path <+: s.path) ∧
              overlay t'.visibleWrites = layered (before ++ after) ∨
            (∀ s ∈ before ++ after, s.visible = true → ¬ r.path <+: s.path) ∧
              overlay t'.visibleWrites =
                (overlay t.visibleWrites).cut ((recordWrites r).map Prod.fst))) := by
  have kept : (before ++ after).Sublist t.allWrites := sublist_of_writes writes
  have bounded : ∀ s ∈ before ++ after, s.writeId ≤ t.lastWriteId :=
    fun s member => recorded.last s (kept.subset member)
  cases shown : r.visible with
  | false =>
    have removed := removeWriteId_eq recorded writes (by rw [shown, removeLoop_false])
    exact ⟨false, _, removed, rfl, recorded.drop writes recorded.good bounded,
      .inl ⟨rfl, rfl, by simp⟩⟩
  | true =>
    obtain ⟨wasVisible, overlapping, loop, hides, overlaps⟩ := removeLoop_answer before after r
    have removed := removeWriteId_eq recorded writes (by rw [shown, loop])
    cases wasVisible with
    | false =>
      exact ⟨false, _, removed, rfl, recorded.drop writes recorded.good bounded,
        .inl ⟨rfl, rfl, fun _ => hides.mp rfl⟩⟩
    | true =>
      have notHidden : ∀ s ∈ after, s.visible = true → recordContainsPath s r.path = false := by
        intro s later visible
        rw [Bool.eq_false_iff]
        exact fun contains => absurd (hides.mpr ⟨s, later, visible, contains⟩) (by simp)
      have overlaps := overlaps rfl
      cases overlapping with
      | true =>
        obtain ⟨w, last, reset, good, meaning, above⟩ :=
          resetTree_spec (t := ⟨t.visibleWrites, before ++ after, t.lastWriteId⟩)
            (fun s member => recorded.records s (kept.subset member))
            (recorded.ascending.sublist kept)
        rw [if_neg (by simp), if_pos rfl, reset] at removed
        exact ⟨true, _, removed, rfl, recorded.drop writes good above,
          .inr ⟨rfl, rfl, notHidden, .inl ⟨overlaps.mp rfl, meaning⟩⟩⟩
      | false =>
        have goodR : GoodRecord r := recorded.records r (by simp [writes])
        obtain ⟨good, meaning⟩ := withoutWrite_spec recorded.good goodR
        refine ⟨true, _, removed, rfl, recorded.drop writes good bounded,
          .inr ⟨rfl, rfl, notHidden, .inr ⟨fun s member visible below => ?_, meaning⟩⟩⟩
        exact absurd (overlaps.mpr ⟨s, member, visible, below⟩) (by simp)

/-- A removal leaves the visible writes of the other records. -/
theorem removeWriteId_spec {t : FWriteTree} (consistent : Consistent t)
    {before after : List FWriteRecord} {r : FWriteRecord} (writes : t.allWrites = before ++ r :: after)
    (removable : r.visible = true → Removable before r after) :
    ∃ answer t', t.removeWriteId r.writeId = .ok (answer, t') ∧ Consistent t' ∧
      t'.allWrites = before ++ after := by
  obtain ⟨answer, t', removed, left, recorded, effect⟩ :=
    removeWriteId_cases consistent.toRecorded writes
  refine ⟨answer, t', removed, ⟨recorded, ?_⟩, left⟩
  rw [left]
  rcases effect with ⟨_, same, covered⟩ | ⟨shown, _, notHidden, rebuilt | cut⟩
  · rw [same, consistent.meaning, writes]
    cases shown : r.visible with
    | true => exact layered_hidden shown (removable shown) (covered shown)
    | false =>
      unfold shownRecords
      rw [List.filter_append, List.filter_append, List.filter_cons_of_neg (by simp [shown])]
  · obtain ⟨overlap, meaning⟩ := rebuilt
    have all : shownRecords (before ++ after) = before ++ after :=
      List.filter_eq_self.mpr ((removable shown).shown overlap)
    rw [meaning, all]
  · obtain ⟨apart, meaning⟩ := cut
    rw [meaning, consistent.meaning, writes]
    have removable := removable shown
    refine layered_cut shown ?_ ?_
    · intro s member visible
      exact (removable.earlier s member visible).resolve_left
        (apart s (List.mem_append_left after member) visible)
    · intro s member visible e inside
      have either := (removable.later s member visible).resolve_left
        (apart s (List.mem_append_right before member) visible)
      refine (either e inside).resolve_left fun leads => ?_
      have contains := (recordContainsPath_iff s r.path).mpr ⟨e, inside, leads⟩
      rw [notHidden s member visible] at contains
      cases contains

/-! ## Runs -/

/-- The calls that the clients of a write tree make: new records with a later id,
and removals of records that wait. -/
def Offers (t : FWriteTree) : Event → Prop
  | .overwrite path newData writeId _ => Writable path newData ∧ t.lastWriteId < writeId
  | .merge path changedChildren writeId =>
    PlainPath path ∧ GoodWrite changedChildren ∧ t.lastWriteId < writeId
  | .remove writeId => ∃ r ∈ t.allWrites, r.writeId = writeId
  | .removeAll => True

/-- All of them, with only such removals whose check sees every write that it has
to and that put the records together again only while none of them is hidden. -/
def Allowed (t : FWriteTree) : Event → Prop
  | .remove writeId => ∃ before r after, t.allWrites = before ++ r :: after ∧ r.writeId = writeId ∧
      (r.visible = true → Removable before r after)
  | e => Offers t e

theorem Allowed.offers {t : FWriteTree} {e : Event} (allowed : Allowed t e) : Offers t e := by
  cases e with
  | remove writeId =>
    obtain ⟨before, r, after, writes, same, _⟩ := allowed
    exact ⟨r, by simp [writes], same⟩
  | overwrite | merge | removeAll => exact allowed

/-- The runs with all these calls. -/
def clientWrites : Machine FWriteTree Event where
  initial := FWriteTree.new
  step t e t' := Offers t e ∧ t.next e = .ok t'

/-- The runs whose removals are all seen. -/
def pendingWrites : Machine FWriteTree Event where
  initial := FWriteTree.new
  step t e t' := Allowed t e ∧ t.next e = .ok t'

theorem recorded_next {t : FWriteTree} (recorded : Recorded t) {e : Event} (offers : Offers t e) :
    ∃ t', t.next e = .ok t' ∧ Recorded t' := by
  cases e with
  | overwrite path newData writeId visible =>
    obtain ⟨t', added, pushes⟩ := addOverwriteAtPath_spec recorded offers.1 offers.2 visible
    exact ⟨t', added, pushes.recorded⟩
  | merge path changedChildren writeId =>
    obtain ⟨plain, good, newer⟩ := offers
    obtain ⟨t', added, pushes⟩ := addMergeAtPath_spec recorded plain good newer
    exact ⟨t', added, pushes.recorded⟩
  | remove writeId =>
    obtain ⟨r, member, rfl⟩ := offers
    obtain ⟨before, after, writes⟩ := List.append_of_mem member
    obtain ⟨answer, t', removed, _, recorded', _⟩ := removeWriteId_cases recorded writes
    refine ⟨t', ?_, recorded'⟩
    rw [next, removed]
    rfl
  | removeAll => exact ⟨_, rfl, recorded_empty t.lastWriteId⟩

theorem recorded_of_client {t : FWriteTree} (reached : clientWrites.Reachable t) : Recorded t := by
  refine reached.invariant (recorded_empty (-1)) ?_
  intro s e s' recorded step
  obtain ⟨s'', ok, recorded'⟩ := recorded_next recorded step.1
  rw [step.2] at ok
  rwa [Except.ok.inj ok]

theorem pending_refines_client : pendingWrites.Refines clientWrites id where
  start := rfl
  step _ e _ step := .inr ⟨e, Allowed.offers step.1, step.2⟩

theorem next_spec {t : FWriteTree} (consistent : Consistent t) {e : Event} (allowed : Allowed t e) :
    ∃ t', t.next e = .ok t' ∧ Consistent t' := by
  cases e with
  | overwrite path newData writeId visible =>
    obtain ⟨t', added, pushes⟩ :=
      addOverwriteAtPath_spec consistent.toRecorded allowed.1 allowed.2 visible
    exact ⟨t', added, pushes.consistent consistent⟩
  | merge path changedChildren writeId =>
    obtain ⟨plain, good, newer⟩ := allowed
    obtain ⟨t', added, pushes⟩ := addMergeAtPath_spec consistent.toRecorded plain good newer
    exact ⟨t', added, pushes.consistent consistent⟩
  | remove writeId =>
    obtain ⟨before, r, after, writes, rfl, removable⟩ := allowed
    obtain ⟨answer, t', removed, consistent', _⟩ := removeWriteId_spec consistent writes removable
    refine ⟨t', ?_, consistent'⟩
    rw [next, removed]
    rfl
  | removeAll => exact ⟨_, rfl, consistent_empty t.lastWriteId⟩

theorem consistent_of_pending {t : FWriteTree} (reached : pendingWrites.Reachable t) :
    Consistent t := by
  refine reached.invariant (consistent_empty (-1)) ?_
  intro s e s' consistent step
  obtain ⟨s'', ok, consistent'⟩ := next_spec consistent step.1
  rw [step.2] at ok
  rwa [Except.ok.inj ok]

/-- A merge of direct children, and every overwrite. -/
def WritesChildren (r : FWriteRecord) : Prop :=
  ∀ e ∈ recordWrites r, e.1 = r.path ∨ ∃ k, e.1 = r.path ++ [k]

/-- The removal of the oldest record sees every write that it has to. -/
theorem removable_oldest {r : FWriteRecord} {after : List FWriteRecord}
    (shown : ∀ s ∈ after, s.visible = true) (direct : ∀ s ∈ after, WritesChildren s) :
    Removable [] r after where
  earlier s member := by cases member
  later s member _ := by
    by_cases below : r.path <+: s.path
    · exact .inl below
    · refine .inr fun e inside => ?_
      by_cases leads : e.1 <+: r.path
      · exact .inl leads
      · refine .inr ⟨leads, fun under => ?_⟩
        rcases direct s member e inside with same | ⟨k, child⟩
        · exact below (same ▸ under)
        · rw [child] at under leads
          rcases List.prefix_concat_iff.mp under with whole | inner
          · exact leads (by rw [whole])
          · exact below inner
  shown _ := shown

/-! ## A menu that waits -/

/-- A merge of one side dish. -/
def sideMerge : FCompoundWrite := ⟨.node none [("side", .node (some (textNode "Bread")) [])]⟩

theorem sideMerge_good : GoodWrite sideMerge := by
  obtain ⟨w, added, good, _⟩ := addWrite_spec goodWrite_emptyWrite (p := ["side"])
    (c := textNode "Bread")
    (.value (plain_path (by decide)) (textNode_formed (by decide)))
  have same : sideMerge = w := Except.ok.inj (added.symm.trans rfl).symm
  exact same ▸ good

def menuRecord : FWriteRecord := ⟨0, ["menu"], .overwrite newMenu.node, true⟩

def dishRecord : FWriteRecord := ⟨1, ["menu", "dish"], .overwrite stew.node, true⟩

def sideRecord : FWriteRecord := ⟨2, ["menu"], .merge sideMerge, true⟩

def priceRecord : FWriteRecord := ⟨3, ["menu", "price"], .overwrite (textNode "Cheap"), false⟩

/-- The tree that waits for a menu, a dish of it and a merge of its side dish. -/
def menuPending : FWriteTree where
  visibleWrites :=
    ⟨.node none [("menu", .node (some (pairNode "dish" stew.node "side" (textNode "Bread"))) [])]⟩
  allWrites := [menuRecord, dishRecord, sideRecord]
  lastWriteId := 2

theorem menu_reached : pendingWrites.Reachable menuPending := by
  have menu : pendingWrites.Reachable
      ⟨⟨.node none [("menu", .node (some newMenu.node) [])]⟩, [menuRecord], 0⟩ :=
    .next (.overwrite ["menu"] newMenu.node 0 true) .start
      ⟨⟨.value (plain_path (by decide)) newMenu.formed, by decide⟩, rfl⟩
  have dish : pendingWrites.Reachable
      ⟨⟨.node none [("menu", .node (some (pairNode "dish" stew.node "side" (textNode "Salad"))) [])]⟩,
        [menuRecord, dishRecord], 1⟩ :=
    .next (.overwrite ["menu", "dish"] stew.node 1 true) menu
      ⟨⟨.value (plain_path (by decide)) stew.formed, by decide⟩, rfl⟩
  exact .next (.merge ["menu"] sideMerge 2) dish
    ⟨⟨plain_path (by decide), sideMerge_good, by decide⟩, rfl⟩

/-- Beside them a price that does not show. -/
def pricePending : FWriteTree :=
  ⟨menuPending.visibleWrites, [menuRecord, dishRecord, sideRecord, priceRecord], 3⟩

theorem forall_pricePending {P : FWriteRecord → Prop} (menu : P menuRecord) (dish : P dishRecord)
    (side : P sideRecord) (price : P priceRecord) : ∀ r ∈ pricePending.allWrites, P r :=
  List.forall_mem_cons.mpr ⟨menu, List.forall_mem_cons.mpr ⟨dish, List.forall_mem_cons.mpr
    ⟨side, List.forall_mem_singleton.mpr price⟩⟩⟩

theorem price_reached : pendingWrites.Reachable pricePending :=
  .next (.overwrite ["menu", "price"] (textNode "Cheap") 3 false) menu_reached
    ⟨⟨.value (plain_path (by decide)) (textNode_formed (by decide)), by decide⟩, rfl⟩

/-- In every run of allowed calls the visible writes are the visible records layered
anew, every record is found by its id, no allowed call raises, and the oldest record
can be removed as long as no record is hidden and merges write direct children. -/
theorem visible_writes_are_pending (t : FWriteTree) (reached : pendingWrites.Reachable t) :
    layerTreeFromWrites t.allWrites (fun record => record.visible) [] = .ok t.visibleWrites ∧
      (∀ r ∈ t.allWrites, t.writeForId r.writeId = some r) ∧
      (∀ e, Allowed t e → ∃ t', t.next e = .ok t' ∧ pendingWrites.Reachable t') ∧
      ∀ r after, t.allWrites = r :: after → (∀ s ∈ after, s.visible = true ∧ WritesChildren s) →
        ∃ answer t', t.removeWriteId r.writeId = .ok (answer, t') ∧ t'.allWrites = after ∧
          pendingWrites.Reachable t' := by
  have consistent := consistent_of_pending reached
  refine ⟨?_, ?_, ?_, ?_⟩
  · obtain ⟨w, layers, good, meaning⟩ :=
      layerTreeFromWrites_root consistent.records fun record => record.visible
    rw [layers, consistent.good.ext good (consistent.meaning.trans meaning.symm)]
  · intro r member
    obtain ⟨before, after, writes⟩ := List.append_of_mem member
    unfold writeForId
    rw [List.find?_eq_some_iff_append]
    refine ⟨by simp, before, after, writes, ?_⟩
    have ascending := consistent.ascending
    rw [writes] at ascending
    intro s older
    have less := (List.pairwise_append.mp ascending).2.2 s older r List.mem_cons_self
    simp only [Bool.not_eq_true', decide_eq_false_iff_not]
    omega
  · intro e allowed
    obtain ⟨t', ok, _⟩ := next_spec consistent allowed
    exact ⟨t', ok, reached.next e ⟨allowed, ok⟩⟩
  · intro r after writes later
    have removable : Removable [] r after :=
      removable_oldest (fun s member => (later s member).1) (fun s member => (later s member).2)
    have first : t.allWrites = [] ++ r :: after := writes
    obtain ⟨answer, t', removed, consistent', left⟩ :=
      removeWriteId_spec consistent first fun _ => removable
    refine ⟨answer, t', removed, left, reached.next (.remove r.writeId) ⟨?_, ?_⟩⟩
    · exact ⟨[], r, after, writes, rfl, fun _ => removable⟩
    · rw [next, removed]
      rfl

theorem menu_writesChildren : ∀ s ∈ [dishRecord, sideRecord], s.visible = true ∧ WritesChildren s := by
  intro s member
  rcases List.mem_pair.mp member with rfl | rfl <;>
    refine ⟨rfl, fun e inside => ?_⟩ <;> rw [List.mem_singleton.mp inside]
  · exact .inl rfl
  · exact .inr ⟨"side", rfl⟩

/-- The price waits unseen beside the others, and without it the menu can be removed first. -/
theorem pending_menu_is_removed :
    layerTreeFromWrites pricePending.allWrites (fun record => record.visible) [] =
        .ok pricePending.visibleWrites ∧
      pricePending.writeForId 3 = some priceRecord ∧
      ∃ answer t', menuPending.removeWriteId 0 = .ok (answer, t') ∧
        t'.allWrites = [dishRecord, sideRecord] ∧
        layerTreeFromWrites t'.allWrites (fun record => record.visible) [] = .ok t'.visibleWrites := by
  obtain ⟨layers, found, _⟩ := visible_writes_are_pending pricePending price_reached
  obtain ⟨_, _, _, oldest⟩ := visible_writes_are_pending menuPending menu_reached
  obtain ⟨answer, t', removed, left, reached⟩ :=
    oldest menuRecord [dishRecord, sideRecord] rfl menu_writesChildren
  obtain ⟨again, _⟩ := visible_writes_are_pending t' reached
  exact ⟨layers, found priceRecord (by simp [pricePending]), answer, t', removed, left, again⟩


/-! ## Hidden records after a reset -/

/-- In every run of new records and removals, the removal of a visible record that
no later one hides, while another visible one lies at its path or below, layers
all records that are left. From then on the hidden ones among them show as well:
the data is complete where any of them writes. -/
theorem overlapping_removal_shows_hidden (t : FWriteTree) (reached : clientWrites.Reachable t)
    {before after : List FWriteRecord} {r : FWriteRecord} (writes : t.allWrites = before ++ r :: after)
    (shown : r.visible = true)
    (notHidden : ∀ s ∈ after, s.visible = true → recordContainsPath s r.path = false)
    (overlap : ∃ s ∈ before ++ after, s.visible = true ∧ FPath.contains r.path s.path = true) :
    ∃ t', t.removeWriteId r.writeId = .ok (true, t') ∧ t'.allWrites = before ++ after ∧
      layerTreeFromWrites t'.allWrites (fun _ => true) [] = .ok t'.visibleWrites ∧
      ∀ s ∈ t'.allWrites, ∀ e ∈ recordWrites s, ∃ n, t'.completeWriteDataAtPath e.1 = .ok (some n) := by
  obtain ⟨answer, t', removed, left, recorded, effect⟩ :=
    removeWriteId_cases (recorded_of_client reached) writes
  rcases effect with ⟨_, _, hidden⟩ | ⟨_, rfl, _, rebuilt | ⟨apart, _⟩⟩
  · obtain ⟨s, later, shownS, contains⟩ := hidden shown
    rw [notHidden s later shownS] at contains
    cases contains
  · rw [← left] at rebuilt
    obtain ⟨_, meaning⟩ := rebuilt
    obtain ⟨w, layers, good, layeredAll⟩ := layerTreeFromWrites_root recorded.records fun _ => true
    have all : t'.allWrites.filter (fun _ => true) = t'.allWrites := by simp
    rw [all] at layeredAll
    refine ⟨t', removed, left, ?_, fun s member e written => ?_⟩
    · rw [layers, good.ext recorded.good (layeredAll.trans meaning.symm)]
    · have covered : (overlay t'.visibleWrites).Covers e.1 := by
        rw [meaning, layered, Overlay.covers_writeAll]
        exact .inr ⟨e, List.mem_flatMap.mpr ⟨s, member, written⟩, List.prefix_refl _⟩
      have pieces := ((recorded.records s member).writable e written).pieces
      rcases completeNodeAtPath_spec recorded.good pieces with
        ⟨x, y, c, _, _, complete⟩ | ⟨free, _⟩
      · exact ⟨_, complete⟩
      · obtain ⟨x, leads, found⟩ := covered
        rw [free x leads] at found
        cases found
  · obtain ⟨s, member, shownS, contains⟩ := overlap
    exact absurd ((FPath.contains_iff _ _).mp contains) (apart s member shownS)

/-- With the price hidden beside them, the menu cannot be removed without its showing. -/
theorem hidden_price_shows : ∃ t', pricePending.removeWriteId 0 = .ok (true, t') ∧
    pricePending.completeWriteDataAtPath ["menu", "price"] = .ok (some .emptyNode) ∧
    t'.completeWriteDataAtPath ["menu", "price"] = .ok (some (textNode "Cheap")) := by
  have writes : pricePending.allWrites = [] ++ menuRecord :: [dishRecord, sideRecord, priceRecord] := rfl
  obtain ⟨t', removed, _⟩ :=
    overlapping_removal_shows_hidden pricePending (pending_refines_client.reachable price_reached)
      writes rfl (by decide) ⟨dishRecord, List.mem_cons_self, rfl, rfl⟩
  have shows : (pricePending.removeWriteId menuRecord.writeId >>= fun x =>
      x.2.completeWriteDataAtPath ["menu", "price"]) = .ok (some (textNode "Cheap")) := rfl
  rw [removed] at shows
  exact ⟨t', removed, rfl, shows⟩

end WatchAndSee.Guarantees.StoredNodes
