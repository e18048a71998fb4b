import WatchAndSee.Library.Transitions
import WatchAndSee.Source.FCompoundWrite

/-!
# Core/FWriteTree.m, Core/FWriteRecord.m

The writes that wait for the answer of the server. `visibleWrites` keeps what
they do together, so that a view need not go through all of them.
-/

set_option autoImplicit false

namespace WatchAndSee.Source
open Library

/-- What a record writes: a node, or several below its path. -/
inductive FWrite where
  | overwrite (newData : FStoredNode)
  | merge (changedChildren : FCompoundWrite)

structure FWriteRecord where
  writeId : Int
  path : FPath
  write : FWrite
  visible : Bool

structure FWriteTree where
  visibleWrites : FCompoundWrite
  allWrites : List FWriteRecord
  lastWriteId : Int

namespace FWriteTree

def new : FWriteTree := ⟨.emptyWrite, [], -1⟩

def addOverwriteAtPath (self : FWriteTree) (path : FPath) (newData : FStoredNode) (writeId : Int)
    (visible : Bool) : Except FException FWriteTree := do
  nsAssert (writeId > self.lastWriteId) "Stacking an older write on top of a newer one"
  let record : FWriteRecord := ⟨writeId, path, .overwrite newData, visible⟩
  let visibleWrites ←
    if visible then self.visibleWrites.addWrite newData path else .ok self.visibleWrites
  return ⟨visibleWrites, self.allWrites ++ [record], writeId⟩

def addMergeAtPath (self : FWriteTree) (path : FPath) (changedChildren : FCompoundWrite)
    (writeId : Int) : Except FException FWriteTree := do
  nsAssert (writeId > self.lastWriteId) "Stacking an older merge on top of newer one"
  let record : FWriteRecord := ⟨writeId, path, .merge changedChildren, true⟩
  let visibleWrites ← self.visibleWrites.addCompoundWrite changedChildren path
  return ⟨visibleWrites, self.allWrites ++ [record], writeId⟩

def writeForId (self : FWriteTree) (writeId : Int) : Option FWriteRecord :=
  self.allWrites.find? fun write => write.writeId = writeId

/-- `- record:containsPath:` -/
def recordContainsPath (record : FWriteRecord) (path : FPath) : Bool :=
  match record.write with
  | .overwrite _ => FPath.contains record.path path
  | .merge changedChildren =>
    changedChildren.enumerateWrites.any fun e => FPath.contains (record.path.child e.1) path

/-- One record in `layerTreeFromWrites:filter:treeRoot:`. -/
def layerRecord (treeRoot : FPath) (compoundWrite : FCompoundWrite) (record : FWriteRecord) :
    Except FException FCompoundWrite :=
  match record.write with
  | .overwrite newData =>
    if FPath.contains treeRoot record.path then do
      let relativePath ← FPath.relativePathFrom treeRoot record.path
      compoundWrite.addWrite newData relativePath
    else if FPath.contains record.path treeRoot then do
      let relativePath ← FPath.relativePathFrom record.path treeRoot
      compoundWrite.addWrite (newData.getChild relativePath) []
    else .ok compoundWrite
  | .merge changedChildren =>
    if FPath.contains treeRoot record.path then do
      let relativePath ← FPath.relativePathFrom treeRoot record.path
      compoundWrite.addCompoundWrite changedChildren relativePath
    else if FPath.contains record.path treeRoot then do
      let relativePath ← FPath.relativePathFrom record.path treeRoot
      if relativePath = [] then compoundWrite.addCompoundWrite changedChildren []
      else
        match ← changedChildren.completeNodeAtPath relativePath with
        | some child => compoundWrite.addWrite (child.getChild relativePath.popFront) []
        | none => .ok compoundWrite
    else .ok compoundWrite

def layerTreeFromWrites (writes : List FWriteRecord) (filter : FWriteRecord → Bool)
    (treeRoot : FPath) : Except FException FCompoundWrite :=
  writes.foldlM (fun compoundWrite record =>
    if filter record then layerRecord treeRoot compoundWrite record else .ok compoundWrite) .emptyWrite

/-- `+ defaultFilter` -/
def defaultFilter : FWriteRecord → Bool := fun _ => true

def resetTree (self : FWriteTree) : Except FException FWriteTree := do
  let visibleWrites ← layerTreeFromWrites self.allWrites defaultFilter []
  return ⟨visibleWrites, self.allWrites,
    match self.allWrites.getLast? with
    | some lastRecord => lastRecord.writeId
    | none => -1⟩

/-- The loop of `- removeWriteId:` from the record before `i` down to the first, with
`removedWriteWasVisible` and `removedWriteOverlapsWithOtherWrites`. -/
def removeLoop (allWrites : List FWriteRecord) (writeToRemove : FWriteRecord) (index : Nat) :
    Nat → Bool → Bool → Bool × Bool
  | 0, wasVisible, overlaps => (wasVisible, overlaps)
  | i + 1, wasVisible, overlaps =>
    if !wasVisible then (wasVisible, overlaps)
    else
      match allWrites[i]? with
      | some currentWrite =>
        if !currentWrite.visible then removeLoop allWrites writeToRemove index i wasVisible overlaps
        else if i ≥ index && recordContainsPath currentWrite writeToRemove.path then
          removeLoop allWrites writeToRemove index i false overlaps
        else if FPath.contains writeToRemove.path currentWrite.path then
          removeLoop allWrites writeToRemove index i wasVisible true
        else removeLoop allWrites writeToRemove index i wasVisible overlaps
      | none => (wasVisible, overlaps)

/-- `visibleWrites` without the write, where nothing overlaps it. -/
def withoutWrite (visibleWrites : FCompoundWrite) (writeToRemove : FWriteRecord) : FCompoundWrite :=
  match writeToRemove.write with
  | .overwrite _ => visibleWrites.removeWriteAtPath writeToRemove.path
  | .merge changedChildren =>
    changedChildren.enumerateWrites.foldl
      (fun (visibleWrites : FCompoundWrite) e =>
        visibleWrites.removeWriteAtPath (writeToRemove.path.child e.1)) visibleWrites

/-- `- removeWriteId:`, with the answer whether the write may have been visible. -/
def removeWriteId (self : FWriteTree) (writeId : Int) : Except FException (Bool × FWriteTree) :=
  let index := self.allWrites.findIdx fun record => record.writeId = writeId
  match self.allWrites[index]? with
  | none =>
    .error ⟨"NSInternalInconsistencyException",
      "[FWriteTree removeWriteId:] called with nonexistent writeId."⟩
  | some writeToRemove =>
    let allWrites := self.allWrites.eraseIdx index
    let self : FWriteTree := { self with allWrites := allWrites }
    let (removedWriteWasVisible, removedWriteOverlapsWithOtherWrites) :=
      removeLoop allWrites writeToRemove index allWrites.length writeToRemove.visible false
    if !removedWriteWasVisible then .ok (false, self)
    else if removedWriteOverlapsWithOtherWrites then do
      let self ← self.resetTree
      return (true, self)
    else .ok (true, { self with visibleWrites := withoutWrite self.visibleWrites writeToRemove })

def removeAllWrites (self : FWriteTree) : List FWriteRecord × FWriteTree :=
  (self.allWrites, { self with visibleWrites := .emptyWrite, allWrites := [] })

def completeWriteDataAtPath (self : FWriteTree) (path : FPath) :
    Except FException (Option FStoredNode) := self.visibleWrites.completeNodeAtPath path

/-- The records that `calculateCompleteEventCacheAtPath:…` layers. -/
def eventFilter (treePath : FPath) (writeIdsToExclude : Option (List Int))
    (includeHiddenWrites : Bool) (record : FWriteRecord) : Bool :=
  (record.visible || includeHiddenWrites) &&
    (writeIdsToExclude.all fun excluded => !(excluded.contains record.writeId)) &&
    (FPath.contains record.path treePath || FPath.contains treePath record.path)

/-- The branch of `calculateCompleteEventCacheAtPath:…` without exclusions. -/
def visibleEventCache (self : FWriteTree) (treePath : FPath)
    (completeServerCache : Option FStoredNode) : Except FException (Option FStoredNode) := do
  match ← self.visibleWrites.completeNodeAtPath treePath with
  | some shadowingNode => return some shadowingNode
  | none =>
    let subMerge ← self.visibleWrites.childCompoundWriteAtPath treePath
    if subMerge.isEmpty then return completeServerCache
    else
      let complete ← subMerge.hasCompleteWriteAtPath []
      if completeServerCache.isNone && !complete then return none
      else
        let layered ← subMerge.applyToNode (completeServerCache.getD .emptyNode)
        return some layered

/-- The other branch. -/
def layeredEventCache (self : FWriteTree) (treePath : FPath)
    (completeServerCache : Option FStoredNode) (writeIdsToExclude : Option (List Int))
    (includeHiddenWrites : Bool) : Except FException (Option FStoredNode) := do
  let merge ← self.visibleWrites.childCompoundWriteAtPath treePath
  if !includeHiddenWrites && merge.isEmpty then return completeServerCache
  else
    let complete ← merge.hasCompleteWriteAtPath []
    if !includeHiddenWrites && completeServerCache.isNone && !complete then return none
    else
      let filter := eventFilter treePath writeIdsToExclude includeHiddenWrites
      let mergeAtPath ← layerTreeFromWrites self.allWrites filter treePath
      let layered ← mergeAtPath.applyToNode (completeServerCache.getD .emptyNode)
      return some layered

def calculateCompleteEventCacheAtPath (self : FWriteTree) (treePath : FPath)
    (completeServerCache : Option FStoredNode) (writeIdsToExclude : Option (List Int))
    (includeHiddenWrites : Bool) : Except FException (Option FStoredNode) :=
  if writeIdsToExclude.isNone && !includeHiddenWrites then
    self.visibleEventCache treePath completeServerCache
  else self.layeredEventCache treePath completeServerCache writeIdsToExclude includeHiddenWrites

/-- `calculateEventCacheAfterServerOverwriteAtPath:…`, where the server data is there. -/
def calculateEventCacheAfterServerOverwriteAtPath (self : FWriteTree) (treePath childPath : FPath)
    (existingServerSnap : FStoredNode) : Except FException (Option FStoredNode) := do
  let path := treePath.child childPath
  if ← self.visibleWrites.hasCompleteWriteAtPath path then return none
  else
    let childMerge ← self.visibleWrites.childCompoundWriteAtPath path
    if childMerge.isEmpty then return some (existingServerSnap.getChild childPath)
    else
      let applied ← childMerge.applyToNode (existingServerSnap.getChild childPath)
      return some applied

/-- The calls that change the tree. -/
inductive Event where
  | overwrite (path : FPath) (newData : FStoredNode) (writeId : Int) (visible : Bool)
  | merge (path : FPath) (changedChildren : FCompoundWrite) (writeId : Int)
  | remove (writeId : Int)
  | removeAll

def next (self : FWriteTree) : Event → Except FException FWriteTree
  | .overwrite path newData writeId visible =>
    self.addOverwriteAtPath path newData writeId visible
  | .merge path changedChildren writeId => self.addMergeAtPath path changedChildren writeId
  | .remove writeId => do
    let (_, self) ← self.removeWriteId writeId
    return self
  | .removeAll => .ok self.removeAllWrites.2

end FWriteTree

end WatchAndSee.Source
