import WatchAndSee.Source.FImmutableTree
import WatchAndSee.Source.FStoredNode

/-!
# Snapshot/FCompoundWrite.m

Writes at several paths, put together in one tree. Blocks that enumerate a tree
see its values in the order of `forEach:`.
-/

set_option autoImplicit false

namespace WatchAndSee.Source

structure FCompoundWrite where
  writeTree : FImmutableTree FStoredNode

namespace FCompoundWrite

def emptyWrite : FCompoundWrite := ⟨.empty⟩

/-- `- addWrite:atPath:` -/
def addWrite (self : FCompoundWrite) (node : FStoredNode) (path : FPath) :
    Except FException FCompoundWrite :=
  if path = [] then .ok ⟨.initWithValue node⟩
  else
    match self.writeTree.findRootMostValueAndPath path with
    | some (rootMostPath, rootMostValue) => do
      let relativePath ← FPath.relativePathFrom rootMostPath path
      let value ← rootMostValue.updateChild relativePath node
      return ⟨self.writeTree.setValue value rootMostPath⟩
    | none => .ok ⟨self.writeTree.setTree (.initWithValue node) path⟩

/-- `- enumerateWrites:` -/
def enumerateWrites (self : FCompoundWrite) : List (FPath × FStoredNode) := self.writeTree.forEach

def addCompoundWrite (self compoundWrite : FCompoundWrite) (path : FPath) :
    Except FException FCompoundWrite :=
  compoundWrite.writeTree.forEach.foldlM
    (fun (newWrite : FCompoundWrite) e => newWrite.addWrite e.2 (path.child e.1)) self

def removeWriteAtPath (self : FCompoundWrite) (path : FPath) : FCompoundWrite :=
  if path = [] then emptyWrite else ⟨self.writeTree.setTree .empty path⟩

def completeNodeAtPath (self : FCompoundWrite) (path : FPath) :
    Except FException (Option FStoredNode) :=
  match self.writeTree.findRootMostValueAndPath path with
  | some (rootMostPath, rootMostValue) => do
    let relativePath ← FPath.relativePathFrom rootMostPath path
    return some (rootMostValue.getChild relativePath)
  | none => .ok none

def hasCompleteWriteAtPath (self : FCompoundWrite) (path : FPath) : Except FException Bool := do
  let node ← self.completeNodeAtPath path
  return node.isSome

def childCompoundWriteAtPath (self : FCompoundWrite) (path : FPath) :
    Except FException FCompoundWrite :=
  if path = [] then .ok self
  else do
    match ← self.completeNodeAtPath path with
    | some shadowingNode => return ⟨.initWithValue shadowingNode⟩
    | none => return ⟨self.writeTree.subtreeAtPath path⟩

/-- The end of `- applySubtreeWrite:atPath:toNode:`, after the children. -/
def applyPriority (relativePath : FPath) (priorityWrite : Option FStoredNode)
    (blockNode : FStoredNode) : Except FException FStoredNode :=
  match priorityWrite with
  | some priority =>
    if !(blockNode.getChild relativePath).isEmpty then
      blockNode.updateChild (relativePath.childFromString ".priority") priority
    else .ok blockNode
  | none => .ok blockNode

mutual

def applySubtreeWrite : FImmutableTree FStoredNode → FPath → FStoredNode →
    Except FException FStoredNode
  | .node (some value) _, relativePath, node => node.updateChild relativePath value
  | .node none children, relativePath, node => do
    let (priorityWrite, blockNode) ← applyChildren children relativePath none node
    applyPriority relativePath priorityWrite blockNode

/-- The block over the children of `subtreeWrite`, with the variables that it assigns. -/
def applyChildren : List (String × FImmutableTree FStoredNode) → FPath → Option FStoredNode →
    FStoredNode → Except FException (Option FStoredNode × FStoredNode)
  | [], _, priorityWrite, blockNode => .ok (priorityWrite, blockNode)
  | (childKey, childTree) :: rest, relativePath, priorityWrite, blockNode =>
    if childKey = ".priority" then do
      nsAssert childTree.value.isSome "Priority writes must always be leaf nodes"
      applyChildren rest relativePath childTree.value blockNode
    else do
      let blockNode ← applySubtreeWrite childTree (relativePath.childFromString childKey) blockNode
      applyChildren rest relativePath priorityWrite blockNode

end

def applyToNode (self : FCompoundWrite) (node : FStoredNode) : Except FException FStoredNode :=
  applySubtreeWrite self.writeTree [] node

def isEmpty (self : FCompoundWrite) : Bool := self.writeTree.isEmpty

end FCompoundWrite

end WatchAndSee.Source
