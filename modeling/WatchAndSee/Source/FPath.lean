import Mathlib.Data.List.Infix
import WatchAndSee.Source.FUtilities

/-!
# Core/Utilities/FPath.m

A path keeps an array of pieces and the number of the first piece that counts;
here it is the list of the pieces from there on, on which every method depends.
-/

set_option autoImplicit false

namespace WatchAndSee.Source

/-- `NSException` -/
structure FException where
  name : String
  reason : String
  deriving DecidableEq, Repr

abbrev FPath := List String

namespace FPath

/-- `componentsSeparatedByString:` without the empty pieces. -/
def piecesOf (path : String) : List String :=
  ((path.toList.splitOn '/').map String.ofList).filter fun piece => piece ≠ ""

def pathWithString (string : String) : FPath := piecesOf string

def popFront (path : FPath) : FPath := path.tail

def child (path childPathObj : FPath) : FPath := path ++ childPathObj

def childFromString (path : FPath) (childPath : String) : FPath := path ++ piecesOf childPath

def toStringWithTrailingSlash (path : FPath) (trailingSlash : Bool) : String :=
  let pathString := String.join (path.map fun piece => "/" ++ piece)
  if pathString = "" then "/" else if trailingSlash then pathString ++ "/" else pathString

def wireFormat (path : FPath) : String :=
  if path = [] then "/" else String.intercalate "/" path

/-- The loop of `contains:` over both paths. -/
def containsLoop : FPath → FPath → Bool
  | [], _ => true
  | thisSeg :: rest, otherSeg :: others => thisSeg = otherSeg && containsLoop rest others
  | _ :: _, [] => false

def contains (path other : FPath) : Bool :=
  if path.length > other.length then false else containsLoop path other

/-- The pieces one after the other, then the lengths. -/
def compare (path other : FPath) : Ordering :=
  match path, other with
  | piece :: rest, piece' :: others =>
    match keyComparator piece piece' with
    | .eq => compare rest others
    | comparison => comparison
  | [], [] => .eq
  | [], _ :: _ => .lt
  | _ :: _, [] => .gt

/-- `+ relativePathFrom:to:`, with its exception. -/
def relativePathFrom : FPath → FPath → Except FException FPath
  | [], inner => .ok inner
  | outerFront :: outer, innerFront :: inner =>
    if outerFront = innerFront then relativePathFrom outer inner
    else .error ⟨"FirebaseDatabaseInternalError",
      "innerPath (" ++ toStringWithTrailingSlash (innerFront :: inner) false ++
        ") is not within outerPath (" ++
        toStringWithTrailingSlash (outerFront :: outer) false ++ ")"⟩
  | outerFront :: outer, [] =>
    .error ⟨"FirebaseDatabaseInternalError",
      "innerPath (" ++ toStringWithTrailingSlash [] false ++ ") is not within outerPath (" ++
        toStringWithTrailingSlash (outerFront :: outer) false ++ ")"⟩

theorem containsLoop_iff (path other : FPath) : containsLoop path other = true ↔ path <+: other := by
  induction path generalizing other with
  | nil => simp [containsLoop]
  | cons thisSeg rest ih =>
    cases other with
    | nil => simp [containsLoop]
    | cons otherSeg others =>
      simp only [containsLoop, Bool.and_eq_true, decide_eq_true_eq, List.cons_prefix_cons, ih]

/-- A path contains the paths that it is a prefix of. -/
theorem contains_iff (path other : FPath) : FPath.contains path other = true ↔ path <+: other := by
  unfold contains
  split
  · next longer =>
    refine iff_of_false Bool.false_ne_true (fun prefixed => ?_)
    have := prefixed.length_le
    omega
  · exact containsLoop_iff path other

theorem relativePathFrom_append (outer rest : FPath) :
    relativePathFrom outer (outer ++ rest) = .ok rest := by
  induction outer with
  | nil => rfl
  | cons outerFront outer ih =>
    rw [List.cons_append, relativePathFrom, if_pos rfl]
    exact ih

/-! ## Paths as text -/

/-- A piece that a path can be written with. -/
def IsPiece (piece : String) : Prop := piece ≠ "" ∧ '/' ∉ piece.toList

theorem map_ofList_toList (path : FPath) : (path.map String.toList).map String.ofList = path := by
  simp

theorem piecesOf_intercalate {path : FPath} (pieces : ∀ piece ∈ path, IsPiece piece)
    (nonempty : path ≠ []) : piecesOf (String.intercalate "/" path) = path := by
  have slash : ("/" : String).toList = ['/'] := rfl
  have split : (String.intercalate "/" path).toList.splitOn '/' = path.map String.toList := by
    rw [String.toList_intercalate, slash]
    apply List.splitOn_intercalate
    · intro chars member
      obtain ⟨piece, inside, rfl⟩ := List.mem_map.mp member
      exact (pieces piece inside).2
    · simpa using nonempty
  rw [piecesOf, split, map_ofList_toList, List.filter_eq_self]
  intro piece member
  simpa using (pieces piece member).1

/-- A path is read back from its wire format. -/
theorem pathWithString_wireFormat {path : FPath} (pieces : ∀ piece ∈ path, IsPiece piece) :
    pathWithString (wireFormat path) = path := by
  unfold pathWithString wireFormat
  split
  · next empty =>
    rw [empty]
    decide
  · next nonempty => exact piecesOf_intercalate pieces nonempty

end FPath

end WatchAndSee.Source
