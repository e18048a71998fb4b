import Mathlib.Data.List.Sort
import WatchAndSee.Library.Dictionary
import WatchAndSee.Source.FLLRBValueNode

/-!
# FImmutableSortedDictionary/FTreeSortedDictionary.m and its enumerator

The tree behind a sorted dictionary of more than 25 entries. The comparator
never changes and is a parameter of the type; values are never `nil`. A key that
was enumerated from an `NSDictionary` is kept with its value, which is what
`dictionary[key]` reads later. In the range of `unsigned int` the truncated
quotient of the two logarithms is the position of the leading bit; of zero, where
the C conversion is undefined, it is taken to be zero.
-/

set_option autoImplicit false

namespace WatchAndSee.Source
open Library

universe u v w

/-- What the sorted dictionaries raise; `outOfBounds` is raised by `NSArray`. -/
inductive FSortedDictionaryException where
  | sameOrdering | nonexistentKey | outOfBounds
  deriving DecidableEq, Repr

structure FTreeSortedDictionary {K : Type u} (comparator : K → K → Ordering) (V : Type v) where
  root : FLLRBNode K V

namespace FTreeSortedDictionary

variable {K : Type u} {V : Type v} {comparator : K → K → Ordering}

/-- `initWithComparator:` -/
def new : FTreeSortedDictionary comparator V := ⟨.empty⟩

def insertKey (d : FTreeSortedDictionary comparator V) (aKey : K) (aValue : V) :
    FTreeSortedDictionary comparator V :=
  ⟨(d.root.insertKey comparator aKey aValue).copyWith none none (some .black) none none⟩

section Get

variable (comparator)

/-- The loop of `get:`. -/
def getLoop (key : K) : FLLRBNode K V → Option V
  | .empty => none
  | .node nodeKey value _ left right =>
    match comparator key nodeKey with
    | .eq => some value
    | .lt => getLoop key left
    | .gt => getLoop key right

/-- The loop of `getPredecessorKey:`. The inner loop walks to the last key on
the left. -/
def getPredecessorKeyLoop (key : K) (rightParent : Option K) :
    FLLRBNode K V → Except FSortedDictionaryException (Option K)
  | .empty => .error .nonexistentKey
  | .node nodeKey _ _ left right =>
    match comparator key nodeKey with
    | .eq => if left.isEmpty then .ok rightParent else .ok left.maxKey
    | .lt => getPredecessorKeyLoop key rightParent left
    | .gt => getPredecessorKeyLoop key (some nodeKey) right

end Get

def get (d : FTreeSortedDictionary comparator V) (key : K) : Option V :=
  getLoop comparator key d.root

def contains (d : FTreeSortedDictionary comparator V) (key : K) : Bool := (d.get key).isSome

/-- "Remove is somewhat expensive even if the key doesn't exist […]. So avoid it." -/
def removeKey (d : FTreeSortedDictionary comparator V) (aKey : K) :
    FTreeSortedDictionary comparator V :=
  if !d.contains aKey then d
  else ⟨(d.root.remove comparator aKey).copyWith none none (some .black) none none⟩

def getPredecessorKey (d : FTreeSortedDictionary comparator V) (key : K) :
    Except FSortedDictionaryException (Option K) :=
  getPredecessorKeyLoop comparator key none d.root

def isEmpty (d : FTreeSortedDictionary comparator V) : Bool := d.root.isEmpty

def count (d : FTreeSortedDictionary comparator V) : Nat := d.root.count

def minKey (d : FTreeSortedDictionary comparator V) : Option K := d.root.minKey

def maxKey (d : FTreeSortedDictionary comparator V) : Option K := d.root.maxKey

/-- `block` returns the `stop` it leaves behind. -/
def enumerateKeysAndObjects {S : Type w} (d : FTreeSortedDictionary comparator V) (reverse : Bool)
    (block : K → V → S → Bool × S) (s : S) : S :=
  if reverse then (d.root.reverseTraversal block s).2 else (d.root.inorderTraversal block s).2

end FTreeSortedDictionary

/-! ## FTreeSortedDictionaryEnumerator.m -/

/-- The last object of the array is the head of `stack`. -/
structure FTreeSortedDictionaryEnumerator (K : Type u) (V : Type v) where
  stack : List (FLLRBNode K V)
  isReverse : Bool
  deriving DecidableEq, Repr

namespace FTreeSortedDictionaryEnumerator

variable {K : Type u} {V : Type v}

section Init

variable (comparator : K → K → Ordering) (startKey : Option K) (isReverse : Bool)

/-- The comparison with the start key, flipped in reverse. Without a start key
it is `1` before the flip. -/
def startComparison (key : K) : Ordering :=
  let cmp :=
    match startKey with
    | some start => comparator key start
    | none => .gt
  if isReverse then cmp.swap else cmp

/-- The loop of `initWithImmutableSortedDictionary:startKey:isReverse:`. -/
def initLoop (stack : List (FLLRBNode K V)) : FLLRBNode K V → List (FLLRBNode K V)
  | .empty => stack
  | .node key value color left right =>
    match startComparison comparator startKey isReverse key with
    | .lt => if isReverse then initLoop stack left else initLoop stack right
    | .eq => .node key value color left right :: stack
    | .gt =>
      if isReverse then initLoop (.node key value color left right :: stack) right
      else initLoop (.node key value color left right :: stack) left

end Init

/-- `node` and all its left descendants, one below the other. -/
def pushLeft (stack : List (FLLRBNode K V)) : FLLRBNode K V → List (FLLRBNode K V)
  | .empty => stack
  | .node key value color left right => pushLeft (.node key value color left right :: stack) left

def pushRight (stack : List (FLLRBNode K V)) : FLLRBNode K V → List (FLLRBNode K V)
  | .empty => stack
  | .node key value color left right => pushRight (.node key value color left right :: stack) right

def nextObject (e : FTreeSortedDictionaryEnumerator K V) :
    Option (K × FTreeSortedDictionaryEnumerator K V) :=
  match e.stack with
  | [] => none
  | node :: rest =>
    node.key.map fun result =>
      (result, ⟨if e.isReverse then pushRight rest node.left else pushLeft rest node.right,
        e.isReverse⟩)

end FTreeSortedDictionaryEnumerator

namespace FTreeSortedDictionary

variable {K : Type u} {V : Type v} {comparator : K → K → Ordering}

/-- `initWithImmutableSortedDictionary:startKey:isReverse:` -/
def enumerator (d : FTreeSortedDictionary comparator V) (startKey : Option K) (isReverse : Bool) :
    FTreeSortedDictionaryEnumerator K V :=
  ⟨FTreeSortedDictionaryEnumerator.initLoop comparator startKey isReverse [] d.root, isReverse⟩

def keyEnumerator (d : FTreeSortedDictionary comparator V) : FTreeSortedDictionaryEnumerator K V :=
  d.enumerator none false

def keyEnumeratorFrom (d : FTreeSortedDictionary comparator V) (startKey : K) :
    FTreeSortedDictionaryEnumerator K V :=
  d.enumerator (some startKey) false

def reverseKeyEnumerator (d : FTreeSortedDictionary comparator V) :
    FTreeSortedDictionaryEnumerator K V :=
  d.enumerator none true

def reverseKeyEnumeratorFrom (d : FTreeSortedDictionary comparator V) (startKey : K) :
    FTreeSortedDictionaryEnumerator K V :=
  d.enumerator (some startKey) true

end FTreeSortedDictionary

/-! ## Tree builder -/

/-- `count` and `current` are `unsigned short`. -/
structure Base1_2List where
  bits : Nat
  count : Nat
  current : Nat
  deriving DecidableEq, Repr

/-- `(unsigned int)(log(num) / log(2))` -/
def log_base2 (num : Nat) : Nat := Nat.log2 num

def bit_mask (x : Nat) : Nat := if 32 ≤ x then 2 ^ 32 - 1 else 2 ^ x - 1

/-- The receiver after `current--`. -/
def base1_2List_next (list : Base1_2List) : Bool × Base1_2List :=
  (!list.bits.testBit list.current, { list with current := (list.current + 65535) % 65536 })

/-- `length` is an `unsigned int`, and so is its successor: both wrap. -/
def base1_2List_new (length : Nat) : Base1_2List :=
  let next := (length + 1) % 2 ^ 32
  let count := log_base2 next
  { bits := next &&& bit_mask count
    count := count
    current := (count + 65535) % 65536 }

namespace FTreeSortedDictionary

variable {K : Type u} {V : Type v}

/-- `keyList[index]` with its value. -/
def entryAt (keyList : List (K × V)) (index : Nat) : Except FSortedDictionaryException (K × V) :=
  match keyList[index]? with
  | some entry => .ok entry
  | none => .error .outOfBounds

def buildBalancedTree (keys : List (K × V)) (startIndex length : Nat) :
    Except FSortedDictionaryException (FLLRBNode K V) :=
  -- `keys.count - startIndex` is unsigned and wraps when the start is beyond the end
  let bounded := if startIndex ≤ keys.length then min (keys.length - startIndex) length else length
  if bounded = 0 then .ok .empty
  else if bounded = 1 then do
    let entry ← entryAt keys startIndex
    return .node entry.1 entry.2 .black .empty .empty
  else do
    let middle := bounded / 2
    let left ← buildBalancedTree keys startIndex middle
    let right ← buildBalancedTree keys (startIndex + middle + 1) middle
    let entry ← entryAt keys (startIndex + middle)
    return .node entry.1 entry.2 .black left right
termination_by length
decreasing_by
  all_goals
    have atMost : bounded ≤ length := by
      simp only [bounded]
      split <;> omega
    omega

/-- A node of `buildPennant`, whose left child is attached by the next one. -/
structure Pennant (K : Type u) (V : Type v) where
  entry : K × V
  color : FLLRBColor
  childTree : FLLRBNode K V

/-- The block `buildPennant` with its variable `index`. -/
def buildPennant (keyList : List (K × V)) (color : FLLRBColor) (chunkSize index : Nat) :
    Except FSortedDictionaryException (Pennant K V × Nat) := do
  -- an unsigned `index` below `chunkSize` wraps and is then out of bounds
  if index < chunkSize then throw .outOfBounds
  let startIndex := index - chunkSize + 1
  let index := index - chunkSize
  let entry ← entryAt keyList index
  let childTree ← buildBalancedTree keyList startIndex (chunkSize - 1)
  return (⟨entry, color, childTree⟩, index)

/-- The loop of `rootFrom12List:` with `remaining` iterations to go: the chunk
size is `2 ^ (count - (i + 1))`. -/
def pennants (keyList : List (K × V)) :
    Nat → Base1_2List → Nat → Except FSortedDictionaryException (List (Pennant K V))
  | 0, _, _ => .ok []
  | remaining + 1, base1_2List, index => do
    let (isOne, base1_2List) := base1_2List_next base1_2List
    let chunkSize := 2 ^ remaining
    if isOne then
      let (pennant, index) ← buildPennant keyList .black chunkSize index
      let later ← pennants keyList remaining base1_2List index
      return pennant :: later
    else
      let (black, index) ← buildPennant keyList .black chunkSize index
      let (red, index) ← buildPennant keyList .red chunkSize index
      let later ← pennants keyList remaining base1_2List index
      return black :: red :: later

/-- Each pennant becomes the left child of the one before. -/
def attachPennants : List (Pennant K V) → FLLRBNode K V
  | [] => .empty
  | pennant :: later =>
    .node pennant.entry.1 pennant.entry.2 pennant.color (attachPennants later) pennant.childTree

def rootFrom12List (base1_2List : Base1_2List) (keyList : List (K × V)) :
    Except FSortedDictionaryException (FLLRBNode K V) := do
  let built ← pennants keyList base1_2List.count base1_2List keyList.length
  return attachPennants built

variable (comparator : K → K → Ordering)

/-- The sorted keys of `fromDictionary:withComparator:`, which raises when two
neighbours do not ascend. -/
def sortedKeyList (enumerated : List (K × V)) :
    Except FSortedDictionaryException (List (K × V)) :=
  let sorted := enumerated.mergeSort fun a b => (comparator a.1 b.1).isLE
  if (sorted.zip sorted.tail).all fun pair => comparator pair.1.1 pair.2.1 = .lt then .ok sorted
  else .error .sameOrdering

/-- `E` is the order in which `NSDictionary` enumerates. -/
def fromDictionary [DecidableEq K] (E : Enumeration K V) (dictionary : Dictionary K V) :
    Except FSortedDictionaryException (FTreeSortedDictionary comparator V) := do
  let sortedKeyList ← sortedKeyList comparator (E.order dictionary)
  let root ← rootFrom12List (base1_2List_new sortedKeyList.length) sortedKeyList
  return ⟨root⟩

end FTreeSortedDictionary

end WatchAndSee.Source
