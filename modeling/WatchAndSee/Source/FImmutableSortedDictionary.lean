import WatchAndSee.Library.Enumerators
import WatchAndSee.Source.FTreeSortedDictionary

/-!
# FImmutableSortedDictionary/FArraySortedDictionary.m and FImmutableSortedDictionary.m

A sorted dictionary keeps up to 25 entries in two parallel arrays and more of
them in a tree. The class is abstract; its methods are the ones of the two
subclasses. An array dictionary that outgrows the limit becomes a tree, and a
tree never goes back.
-/

set_option autoImplicit false

namespace WatchAndSee.Source
open Library

universe u v w

/-- `SORTED_DICTIONARY_ARRAY_TO_RB_TREE_SIZE_THRESHOLD` -/
def sortedDictionaryArrayToRbTreeSizeThreshold : Nat := 25

/-- "We added as many keys as values". -/
structure FArraySortedDictionary {K : Type u} (comparator : K → K → Ordering) (V : Type v) where
  keys : List K
  values : List V
  sameCount : values.length = keys.length

/-- Also stands for the enumerators of `NSArray`, which hand out the same objects. -/
structure FArraySortedDictionaryEnumerator (K : Type u) where
  keys : List K
  pos : Int
  reverse : Bool
  deriving DecidableEq, Repr

def FArraySortedDictionaryEnumerator.nextObject {K : Type u}
    (e : FArraySortedDictionaryEnumerator K) : Option (K × FArraySortedDictionaryEnumerator K) :=
  if 0 ≤ e.pos ∧ e.pos < e.keys.length then
    e.keys[e.pos.toNat]?.map fun key =>
      (key, { e with pos := if e.reverse then e.pos - 1 else e.pos + 1 })
  else none

namespace FArraySortedDictionary

variable {K : Type u} {V : Type v} (comparator : K → K → Ordering)

/-- The loop of `findInsertPositionForKey:`. -/
def findInsertPositionForKey (key : K) : List K → Nat
  | [] => 0
  | k :: rest => if comparator k key = .lt then findInsertPositionForKey key rest + 1 else 0

/-- The loop of `findKey:`; `none` is `NSNotFound`. -/
def findKey (key : K) : List K → Option Nat
  | [] => none
  | k :: rest =>
    match comparator key k with
    | .eq => some 0
    | .lt => none
    | .gt => (findKey key rest).map (· + 1)

/-- `initWithComparator:` -/
def new : FArraySortedDictionary comparator V := ⟨[], [], rfl⟩

/-- `fromDictionary:withComparator:` -/
def fromDictionary [DecidableEq K] (E : Enumeration K V) (dictionary : Dictionary K V) :
    Except FSortedDictionaryException (FArraySortedDictionary comparator V) := do
  let keys ← FTreeSortedDictionary.sortedKeyList comparator (E.order dictionary)
  return ⟨keys.map Prod.fst, keys.map Prod.snd, by simp⟩

variable {comparator} (d : FArraySortedDictionary comparator V)

def count : Nat := d.keys.length

def isEmpty : Bool := d.keys.length = 0

def contains (key : K) : Bool := (findKey comparator key d.keys).isSome

def get (key : K) : Option V := (findKey comparator key d.keys).bind fun pos => d.values[pos]?

def getPredecessorKey (key : K) : Except FSortedDictionaryException (Option K) :=
  match findKey comparator key d.keys with
  | none => .error .nonexistentKey
  | some 0 => .ok none
  | some (pos + 1) => .ok d.keys[pos]?

def minKey : Option K := d.keys.head?

def maxKey : Option K := d.keys.getLast?

def enumerateKeysAndObjects {S : Type w} (reverse : Bool) (block : K → V → S → Bool × S) (s : S) :
    S :=
  let objects := if reverse then (d.keys.zip d.values).reverse else d.keys.zip d.values
  (visit (fun object => block object.1 object.2) objects s).2

def keyEnumerator : FArraySortedDictionaryEnumerator K := ⟨d.keys, 0, false⟩

def keyEnumeratorFrom (startKey : K) : FArraySortedDictionaryEnumerator K :=
  ⟨d.keys, findInsertPositionForKey comparator startKey d.keys, false⟩

def reverseKeyEnumerator : FArraySortedDictionaryEnumerator K :=
  ⟨d.keys, (d.keys.length : Int) - 1, true⟩

def reverseKeyEnumeratorFrom (startKey : K) : FArraySortedDictionaryEnumerator K :=
  let startPos := findInsertPositionForKey comparator startKey d.keys
  let exact := d.keys[startPos]?.any fun key => comparator key startKey = .eq
  -- without an exact match the position is the one after the closest match
  ⟨d.keys, if exact then (startPos : Int) else (startPos : Int) - 1, true⟩

/-- `newKeys[pos] = key` -/
def replaced (pos : Nat) (key : K) (value : V) : FArraySortedDictionary comparator V :=
  ⟨d.keys.set pos key, d.values.set pos value, by simp [d.sameCount]⟩

/-- `insertObject:atIndex:` in both arrays. -/
def inserted (newPos : Nat) (key : K) (value : V) : FArraySortedDictionary comparator V :=
  ⟨d.keys.insertIdx newPos key, d.values.insertIdx newPos value, by
    simp [List.length_insertIdx, d.sameCount]⟩

def removeKey (key : K) : FArraySortedDictionary comparator V :=
  match findKey comparator key d.keys with
  | none => d
  | some pos => ⟨d.keys.eraseIdx pos, d.values.eraseIdx pos, by
      simp [List.length_eraseIdx, d.sameCount]⟩

end FArraySortedDictionary

inductive FImmutableSortedDictionary {K : Type u} (comparator : K → K → Ordering) (V : Type v) where
  | array (d : FArraySortedDictionary comparator V)
  | tree (d : FTreeSortedDictionary comparator V)

/-- `insertKey:withValue:` of the array dictionary. -/
def FArraySortedDictionary.insertKey {K : Type u} {V : Type v} {comparator : K → K → Ordering}
    [DecidableEq K] (E : Enumeration K V) (d : FArraySortedDictionary comparator V) (key : K)
    (value : V) : Except FSortedDictionaryException (FImmutableSortedDictionary comparator V) :=
  match findKey comparator key d.keys with
  | none =>
    if sortedDictionaryArrayToRbTreeSizeThreshold ≤ d.count then do
      let dict := (d.keys.zip d.values).foldl
        (fun (dict : Dictionary K V) object => dict.set object.1 object.2) Dictionary.empty
      let dict := dict.set key value
      let result ← FTreeSortedDictionary.fromDictionary comparator E dict
      return .tree result
    else .ok (.array (d.inserted (findInsertPositionForKey comparator key d.keys) key value))
  | some pos => .ok (.array (d.replaced pos key value))

namespace FImmutableSortedDictionary

variable {K : Type u} {V : Type v} {comparator : K → K → Ordering}

/-- The enumerators of the two subclasses. -/
inductive KeyEnumerator (K : Type u) (V : Type v) where
  | array (e : FArraySortedDictionaryEnumerator K)
  | tree (e : FTreeSortedDictionaryEnumerator K V)

def KeyEnumerator.nextObject : KeyEnumerator K V → Option (K × KeyEnumerator K V)
  | .array e => e.nextObject.map fun answer => (answer.1, .array answer.2)
  | .tree e => e.nextObject.map fun answer => (answer.1, .tree answer.2)

def dictionaryWithComparator (comparator : K → K → Ordering) :
    FImmutableSortedDictionary comparator V := .array (.new comparator)

def fromDictionary (comparator : K → K → Ordering) [DecidableEq K] (E : Enumeration K V)
    (dictionary : Dictionary K V) :
    Except FSortedDictionaryException (FImmutableSortedDictionary comparator V) :=
  if dictionary.keys.card ≤ sortedDictionaryArrayToRbTreeSizeThreshold then do
    let d ← FArraySortedDictionary.fromDictionary comparator E dictionary
    return .array d
  else do
    let d ← FTreeSortedDictionary.fromDictionary comparator E dictionary
    return .tree d

def insertKey [DecidableEq K] (E : Enumeration K V) (d : FImmutableSortedDictionary comparator V)
    (aKey : K) (aValue : V) :
    Except FSortedDictionaryException (FImmutableSortedDictionary comparator V) :=
  match d with
  | array d => d.insertKey E aKey aValue
  | tree d => .ok (.tree (d.insertKey aKey aValue))

def removeKey (d : FImmutableSortedDictionary comparator V) (aKey : K) :
    FImmutableSortedDictionary comparator V :=
  match d with
  | array d => .array (d.removeKey aKey)
  | tree d => .tree (d.removeKey aKey)

def get : FImmutableSortedDictionary comparator V → K → Option V
  | array d => d.get
  | tree d => d.get

def contains : FImmutableSortedDictionary comparator V → K → Bool
  | array d => d.contains
  | tree d => d.contains

def getPredecessorKey :
    FImmutableSortedDictionary comparator V → K → Except FSortedDictionaryException (Option K)
  | array d => d.getPredecessorKey
  | tree d => d.getPredecessorKey

def isEmpty : FImmutableSortedDictionary comparator V → Bool
  | array d => d.isEmpty
  | tree d => d.isEmpty

def count : FImmutableSortedDictionary comparator V → Nat
  | array d => d.count
  | tree d => d.count

def minKey : FImmutableSortedDictionary comparator V → Option K
  | array d => d.minKey
  | tree d => d.minKey

def maxKey : FImmutableSortedDictionary comparator V → Option K
  | array d => d.maxKey
  | tree d => d.maxKey

def enumerateKeysAndObjects {S : Type w} (d : FImmutableSortedDictionary comparator V)
    (reverse : Bool) (block : K → V → S → Bool × S) (s : S) : S :=
  match d with
  | array d => d.enumerateKeysAndObjects reverse block s
  | tree d => d.enumerateKeysAndObjects reverse block s

def keyEnumerator : FImmutableSortedDictionary comparator V → KeyEnumerator K V
  | array d => .array d.keyEnumerator
  | tree d => .tree d.keyEnumerator

def keyEnumeratorFrom (d : FImmutableSortedDictionary comparator V) (startKey : K) :
    KeyEnumerator K V :=
  match d with
  | array d => .array (d.keyEnumeratorFrom startKey)
  | tree d => .tree (d.keyEnumeratorFrom startKey)

def reverseKeyEnumerator : FImmutableSortedDictionary comparator V → KeyEnumerator K V
  | array d => .array d.reverseKeyEnumerator
  | tree d => .tree d.reverseKeyEnumerator

def reverseKeyEnumeratorFrom (d : FImmutableSortedDictionary comparator V) (startKey : K) :
    KeyEnumerator K V :=
  match d with
  | array d => .array (d.reverseKeyEnumeratorFrom startKey)
  | tree d => .tree (d.reverseKeyEnumeratorFrom startKey)

/-- `isEqual:` for another sorted dictionary, whose values compare with `same`. -/
def isEqual (same : V → V → Bool) (d other : FImmutableSortedDictionary comparator V) : Bool :=
  if d.count ≠ other.count then false
  else
    d.enumerateKeysAndObjects false
      (fun key value isEqual =>
        let isEqual := isEqual && (other.get key).any (same value)
        (!isEqual, isEqual))
      true

end FImmutableSortedDictionary

end WatchAndSee.Source
