import WatchAndSee.Source.FChildrenNode
import WatchAndSee.Source.FTreeSortedDictionary
import WatchAndSee.Source.FValidation

/-!
# Utilities/FSnapshotUtilities.m: nodes from values, and back by `valForExport:`

`E` is the order in which Foundation enumerates a dictionary and
`classDescription` the name that it has for the class of an object. A node is
built at a depth; the recursion counts the levels that are left.
-/

set_option autoImplicit false

namespace WatchAndSee.Source
open Library
open Library.Decimal (numeral)

namespace FSnapshotUtilities
open FStoredNode FValidation

variable (E : Enumeration String AnyValue) (classDescription : AnyValue → String)

def cannotStore (fn : String) (value : AnyValue) (path : List String) : FException :=
  invalidFirebaseData ("(" ++ fn ++ ") Cannot store object of type " ++ classDescription value ++
    " at " ++ pathString path ++
    ". Can only store objects of type NSNumber, NSString, NSDictionary, and NSArray.")

/-- `+ nodeFrom:` of a value that has passed as a priority: a null or a leaf
without a priority of its own. -/
def priorityFrom (rawPriority : AnyValue) : Except FException FStoredNode :=
  match rawPriority with
  | .null => .ok emptyNode
  | value => do
    if ← isValidLeafValue "nodeFrom:priority:" value [] then initWithValue value emptyNode
    else .error (cannotStore classDescription "nodeFrom:priority:" value [])

def validPriorityFrom (fn : String) (rawPriority : AnyValue) (path : List String) :
    Except FException FStoredNode := do
  isValidPriorityValue fn rawPriority path
  priorityFrom classDescription rawPriority

def dictionaryPriority (fn : String) (dict : AnyDictionary) (priority : FStoredNode)
    (path : List String) : Except FException FStoredNode :=
  match dict.get? kPayloadPriority with
  | some rawPriority => validPriorityFrom classDescription fn rawPriority path
  | none => .ok priority

def dictionaryValue (fn : String) (dict : AnyDictionary) (path : List String) :
    Except FException (AnyValue × Bool) :=
  match dict.get? kPayloadValue with
  | some value => do
    if ← isValidLeafValue fn value path then return (value, true)
    else
      .error ⟨"InvalidLeafValueType", "(" ++ fn ++ ") Invalid data type used with .value. " ++
        "Can only use NSString and NSNumber or be null. Found " ++ classDescription value ++
        " instead."⟩
  | none => .ok (.dictionary dict, false)

/-- The value, the priority and `isLeafNode` after the branch on dictionaries. -/
def payload (fn : String) (val : AnyValue) (priority : FStoredNode) (path : List String) :
    Except FException (AnyValue × FStoredNode × Bool) :=
  match val with
  | .dictionary dict => do
    let priority ← dictionaryPriority classDescription fn dict priority path
    let (value, isLeafNode) ← dictionaryValue classDescription fn dict path
    return (value, priority, isLeafNode)
  | val => .ok (val, priority, false)

/-- The children of a dictionary, without the empty ones; `nodeFrom` makes the node of an entry. -/
def dictionaryChildren (fn : String) (path : List String)
    (nodeFrom : AnyValue → List String → Except FException FStoredNode) :
    List (String × AnyValue) → Except FException (List (String × FStoredNode))
  | [] => .ok []
  | (key, value) :: rest => do
    validDictionaryKey fn key path
    if kPayloadMetadataPrefix.toList.isPrefixOf key.toList then
      dictionaryChildren fn path nodeFrom rest
    else
      let childNode ← nodeFrom value (path ++ [key])
      let children ← dictionaryChildren fn path nodeFrom rest
      return if childNode.isEmpty then children else (key, childNode) :: children

/-- The children of an array from its element `i` on. -/
def arrayChildren (path : List String)
    (nodeFrom : AnyValue → List String → Except FException FStoredNode) :
    Nat → List AnyValue → Except FException (List (String × FStoredNode))
  | _, [] => .ok []
  | i, value :: rest => do
    let childNode ← nodeFrom value (path ++ [numeral i])
    let children ← arrayChildren path nodeFrom (i + 1) rest
    return if childNode.isEmpty then children else (numeral i, childNode) :: children

/-- The node over `children`, which `fromDictionary:withComparator:` sorts. -/
def nodeOver (priority : FStoredNode) (children : List (String × FStoredNode)) :
    Except FException FStoredNode :=
  if children.isEmpty then .ok emptyNode
  else
    match FTreeSortedDictionary.sortedKeyList keyComparator children with
    | .ok childrenDict => initWithPriority (some priority) childrenDict
    | .error _ =>
      .error ⟨"NSInvalidArgumentException",
        "Can't create FImmutableSortedDictionary with keys with same ordering!"⟩

/-- `internalNodeFrom:priority:withValidationFrom:atDepth:path:`, at depth
`kFirebaseMaxObjectDepth + 1 - levels`. A nil priority is null. -/
def internalNodeFrom (fn : String) :
    Nat → AnyValue → AnyValue → List String → Except FException FStoredNode
  | 0, _, _, path =>
    .error (invalidFirebaseData ("(" ++ fn ++ ") Max object depth exceeded: " ++
      String.intercalate "." (path.take 100) ++ "..."))
  | _ + 1, .null, _, _ => .ok emptyNode
  | levels + 1, val, aPriority, path => do
    let priority ← validPriorityFrom classDescription fn aPriority path
    let (value, priority, isLeafNode) ← payload classDescription fn val priority path
    let isLeafValue ← isValidLeafValue fn value path
    if isLeafNode || isLeafValue then initWithValue value priority
    else
      match value with
      | .dictionary dval => do
        let children ← dictionaryChildren fn path
          (fun value path => internalNodeFrom fn levels value .null path) (E.order dval)
        nodeOver priority children
      | .array aval => do
        let children ← arrayChildren path
          (fun value path => internalNodeFrom fn levels value .null path) 0 aval
        nodeOver priority children
      | _ => .error (cannotStore classDescription fn value path)

/-- `nodeFrom:priority:withValidationFrom:` -/
def nodeFrom (fn : String) (val priority : AnyValue) : Except FException FStoredNode :=
  internalNodeFrom E classDescription fn (kFirebaseMaxObjectDepth + 1) val priority []

end FSnapshotUtilities

/-! ## `- valForExport:` -/

namespace FStoredNode

/-- The end of `- valForExport:` of `FChildrenNode`, with the children exported into `entries`. -/
def exportEntries (exp : Bool) (priority : Option AnyValue) (entries : List (String × AnyValue)) :
    AnyValue :=
  if entries.isEmpty then .null
  else
    let obj := entries.foldl (fun (obj : AnyDictionary) e => obj.set e.1 e.2) Dictionary.empty
    let scan := scanKeys (entries.map Prod.fst)
    if !exp ∧ scan.allIntegerKeys ∧ scan.maxKey < 2 * scan.numKeys then
      .array ((List.range (scan.maxKey + 1)).map fun i => (obj.get? (numeral i)).getD .null)
    else
      match priority with
      | some priority => if exp then .dictionary (obj.set kPayloadPriority priority) else .dictionary obj
      | none => .dictionary obj

mutual

def valForExport (exp : Bool) : FStoredNode → AnyValue
  | .leaf value priorityNode =>
    if exp ∧ !priorityNode.isEmpty then
      .dictionary ((Dictionary.empty.set kPayloadValue value).set kPayloadPriority
        (valForExport false priorityNode))
    else value
  | .children priorityNode entries =>
    exportEntries exp (priorityVal priorityNode) (entriesForExport exp entries)

/-- The `val` of a priority that is not empty. -/
def priorityVal : Option FStoredNode → Option AnyValue
  | none => none
  | some priorityNode => if priorityNode.isEmpty then none else some (valForExport false priorityNode)

def entriesForExport (exp : Bool) : List (String × FStoredNode) → List (String × AnyValue)
  | [] => []
  | (key, childNode) :: rest => (key, valForExport exp childNode) :: entriesForExport exp rest

end

end FStoredNode

end WatchAndSee.Source
