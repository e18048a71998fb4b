import WatchAndSee.Library.SortedListing
import WatchAndSee.Source.FPath
import WatchAndSee.Source.SwiftValues

/-!
# Snapshot/FLeafNode.m, Snapshot/FChildrenNode.m, Snapshot/FEmptyNode.m

The nodes that the database library stores, with their priorities. The children
of a node are a sorted dictionary, here the listing that such a dictionary
stands for. Of two keys that tie the listing takes the later name, as the arrays
do; a tree keeps the earlier one. A failed `NSAssert` raises like any other
exception. `FMaxNode` only bounds queries and is left out.
-/

set_option autoImplicit false

namespace WatchAndSee.Source
open Library

def nsAssert (condition : Bool) (desc : String) : Except FException Unit :=
  if condition then .ok () else .error ⟨"NSInternalInconsistencyException", desc⟩

/-- `kPayloadPriority` -/
def kPayloadPriority : String := ".priority"

/-- `kServerValueSubKey` -/
def kServerValueSubKey : String := ".sv"

/-- `kJavaScriptObject`, …, `kJavaScriptNull` -/
inductive JavascriptType where
  | object | boolean | number | string | null
  deriving DecidableEq, Repr

def getJavascriptType : AnyValue → JavascriptType
  | .dictionary _ => .object
  | .string _ => .string
  | .bool _ => .boolean
  | .int _ => .number
  | .double _ => .number
  | _ => .null

inductive FStoredNode where
  | leaf (value : AnyValue) (priorityNode : FStoredNode)
  | children (priorityNode : Option FStoredNode) (entries : List (String × FStoredNode))

namespace FStoredNode

def emptyNode : FStoredNode := .children none []

def isEmpty : FStoredNode → Bool
  | .leaf _ _ => false
  | .children _ entries => entries.isEmpty

def getPriority : FStoredNode → FStoredNode
  | .leaf _ priorityNode => priorityNode
  | .children priorityNode _ => priorityNode.getD emptyNode

/-- The first assertions of `validatePriorityNode:`; the value of a leaf is its `val`. -/
def validatePriorityType : FStoredNode → Except FException Unit
  | .leaf (.dictionary valDict) _ =>
    nsAssert (valDict.get? kServerValueSubKey).isSome
      "Priority can't be object unless it's a deferred value"
  | .leaf value _ =>
    nsAssert (getJavascriptType value = .string || getJavascriptType value = .number)
      "Priority of unexpected type."
  | .children _ entries => nsAssert entries.isEmpty "Priority of unexpected type."

/-- `+ validatePriorityNode:` of `FSnapshotUtilities` -/
def validatePriorityNode (priorityNode : FStoredNode) : Except FException Unit := do
  validatePriorityType priorityNode
  nsAssert priorityNode.getPriority.isEmpty "Priority nodes can't have a priority of their own."

/-- `- initWithValue:withPriority:` -/
def initWithValue (aValue : AnyValue) (aPriority : FStoredNode) : Except FException FStoredNode := do
  validatePriorityNode aPriority
  return .leaf aValue aPriority

/-- `- initWithPriority:children:` -/
def initWithPriority (aPriority : Option FStoredNode) (someChildren : List (String × FStoredNode)) :
    Except FException FStoredNode :=
  if someChildren.isEmpty && aPriority.any fun priority => !priority.isEmpty then
    .error ⟨"NSInvalidArgumentException", "Can't create empty node with priority!"⟩
  else .ok (.children aPriority someChildren)

def updatePriority (node aPriority : FStoredNode) : Except FException FStoredNode :=
  match node with
  | .leaf value _ => initWithValue value aPriority
  | .children _ entries =>
    if entries.isEmpty then .ok emptyNode else initWithPriority (some aPriority) entries

def getImmediateChild (node : FStoredNode) (childName : String) : FStoredNode :=
  match node with
  | .leaf _ priorityNode => if childName = ".priority" then priorityNode else emptyNode
  | .children _ entries =>
    if childName = ".priority" then node.getPriority
    else (SortedListing.lookup keyComparator childName entries).getD emptyNode

def getChild : FStoredNode → FPath → FStoredNode
  | node, [] => node
  | .leaf _ priorityNode, front :: _ => if front = ".priority" then priorityNode else emptyNode
  | .children priorityNode entries, front :: rest =>
    getChild (getImmediateChild (.children priorityNode entries) front) rest

/-- `- updateImmediateChild:withNewChild:` of `FChildrenNode`, for other names than `.priority`. -/
def updateEntries (priorityNode : FStoredNode) (entries : List (String × FStoredNode))
    (childName : String) (newChildNode : FStoredNode) : Except FException FStoredNode :=
  let newChildren :=
    if newChildNode.isEmpty then SortedListing.erase keyComparator childName entries
    else SortedListing.put keyComparator childName newChildNode entries
  if newChildren.isEmpty then .ok emptyNode else initWithPriority (some priorityNode) newChildren

def updateImmediateChild (node : FStoredNode) (childName : String) (newChildNode : FStoredNode) :
    Except FException FStoredNode :=
  if childName = ".priority" then node.updatePriority newChildNode
  else
    match node with
    | .leaf _ priorityNode =>
      if newChildNode.isEmpty then .ok node
      else do
        let childrenNode ← updateEntries emptyNode.getPriority [] childName newChildNode
        childrenNode.updatePriority priorityNode
    | .children _ entries => updateEntries node.getPriority entries childName newChildNode

/-- `- updateChild:withNewChild:`. A leaf that loses a child it does not have stays as it is. -/
def updateChild : FStoredNode → FPath → FStoredNode → Except FException FStoredNode
  | _, [], newChildNode => .ok newChildNode
  | .leaf value priorityNode, front :: rest, newChildNode =>
    if newChildNode.isEmpty && front ≠ ".priority" then .ok (.leaf value priorityNode)
    else do
      nsAssert (front ≠ ".priority" || rest.length + 1 = 1)
        ".priority must be the last token in a path."
      let child ← updateChild emptyNode rest newChildNode
      updateImmediateChild (.leaf value priorityNode) front child
  | .children priorityNode entries, front :: rest, newChildNode => do
    nsAssert (front ≠ ".priority" || rest.length + 1 = 1)
      ".priority must be the last token in a path."
    let newImmediateChild ←
      updateChild (getImmediateChild (.children priorityNode entries) front) rest newChildNode
    updateImmediateChild (.children priorityNode entries) front newImmediateChild

end FStoredNode

end WatchAndSee.Source
