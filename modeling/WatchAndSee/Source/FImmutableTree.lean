import WatchAndSee.Library.SortedListing
import WatchAndSee.Source.FPath

/-!
# Core/Utilities/FImmutableTree.m

A tree of values addressed by paths. The children of a tree are a sorted
dictionary under `stringComparator`, here the listing that such a dictionary
stands for.
-/

set_option autoImplicit false

namespace WatchAndSee.Source
open Library

inductive FImmutableTree (α : Type) where
  | node (value : Option α) (children : List (String × FImmutableTree α))

namespace FImmutableTree

variable {α : Type}

def value : FImmutableTree α → Option α
  | .node value _ => value

def children : FImmutableTree α → List (String × FImmutableTree α)
  | .node _ children => children

def empty : FImmutableTree α := .node none []

def initWithValue (aValue : α) : FImmutableTree α := .node (some aValue) []

def isEmpty (t : FImmutableTree α) : Bool := t.value.isNone && t.children.isEmpty

/-- `[self.children get:front]` -/
def child (t : FImmutableTree α) (front : String) : Option (FImmutableTree α) :=
  SortedListing.lookup stringComparator front t.children

def findRootMostMatchingPath (predicate : α → Bool) :
    FImmutableTree α → FPath → Option (FPath × α)
  | t, relativePath =>
    match t.value.filter predicate with
    | some value => some ([], value)
    | none =>
      match relativePath with
      | [] => none
      | front :: rest =>
        match t.child front with
        | some child =>
          match findRootMostMatchingPath predicate child rest with
          | some (path, value) => some ((FPath.pathWithString front).child path, value)
          | none => none
        | none => none

def findRootMostValueAndPath (t : FImmutableTree α) (relativePath : FPath) : Option (FPath × α) :=
  t.findRootMostMatchingPath (fun _ => true) relativePath

def subtreeAtPath : FImmutableTree α → FPath → FImmutableTree α
  | t, [] => t
  | t, front :: rest =>
    match t.child front with
    | some childTree => subtreeAtPath childTree rest
    | none => empty

def setValue (newValue : α) : FImmutableTree α → FPath → FImmutableTree α
  | t, [] => .node (some newValue) t.children
  | t, front :: rest =>
    let child := (t.child front).getD empty
    let newChild := setValue newValue child rest
    .node t.value (SortedListing.put stringComparator front newChild t.children)

def valueAtPath : FImmutableTree α → FPath → Option α
  | t, [] => t.value
  | t, front :: rest =>
    match t.child front with
    | some child => valueAtPath child rest
    | none => none

def setTree : FImmutableTree α → FImmutableTree α → FPath → FImmutableTree α
  | _, newTree, [] => newTree
  | t, newTree, front :: rest =>
    let child := (t.child front).getD empty
    let newChild := setTree child newTree rest
    let newChildren :=
      if newChild.isEmpty then SortedListing.erase stringComparator front t.children
      else SortedListing.put stringComparator front newChild t.children
    .node t.value newChildren

mutual

/-- The calls of the block of `forEach:`, in their order. -/
def forEachPathSoFar : FImmutableTree α → FPath → List (FPath × α)
  | .node value children, pathSoFar =>
    forEachChildren children pathSoFar ++
      match value with
      | some value => [(pathSoFar, value)]
      | none => []

def forEachChildren : List (String × FImmutableTree α) → FPath → List (FPath × α)
  | [], _ => []
  | (childKey, childTree) :: rest, pathSoFar =>
    forEachPathSoFar childTree (pathSoFar.childFromString childKey) ++
      forEachChildren rest pathSoFar

end

def forEach (t : FImmutableTree α) : List (FPath × α) := t.forEachPathSoFar []

end FImmutableTree

end WatchAndSee.Source
