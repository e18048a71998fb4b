import Mathlib.Data.Int.Basic
import WatchAndSee.Library.CodeUnits

/-!
# Utilities/FUtilities.m: `compareKey:toKey:`

The order in which the database library keeps the children of a node. A key is
an `NSString`, read by UTF-16 code units; `minName` and `maxName` are two
strings of their own, compared by address. The digits of a key are added up in a
`long long`, which eleven of them do not fill.
-/

set_option autoImplicit false

namespace WatchAndSee.Source
open Library.CodeUnits

/-- A name in a key comparison. -/
inductive FName where
  | minName
  | maxName
  | key (string : String)
  deriving DecidableEq, Repr

def INTEGER_32_MIN : Int := -2147483648
def INTEGER_32_MAX : Int := 2147483647

/-- The loop over the characters; `none` is its `return NO`. -/
def parseDigits (value : Nat) : List Nat → Option Nat
  | [] => some value
  | c :: rest => if c < 48 ∨ c > 57 then none else parseDigits (value * 10 + (c - 48)) rest

/-- `tryParseStringToInt`, on the code units of `str`; 45 is `-`. -/
def tryParseUnits (str : List Nat) : Option Int :=
  if str.length > 11 ∨ str.length = 0 then none
  else
    let negative := str.head? = some 45
    if negative ∧ str.length = 1 then none
    else
      match parseDigits 0 (if negative then str.drop 1 else str) with
      | none => none
      | some digits =>
        let value : Int := if negative then -digits else digits
        if value < INTEGER_32_MIN ∨ value > INTEGER_32_MAX then none else some value

def tryParseStringToInt (str : String) : Option Int := tryParseUnits (unichars str)

/-- `[a compare:b options:NSLiteralSearch]` -/
def literalCompare (a b : String) : Ordering := List.compareLex compare (unichars a) (unichars b)

/-- `+ compareKey:toKey:`. A string at one address compares equal; so does an equal
string at another address, by the branches below. -/
def compareKey : FName → FName → Ordering
  | .minName, .minName => .eq
  | .maxName, .maxName => .eq
  | .minName, _ => .lt
  | _, .maxName => .lt
  | _, .minName => .gt
  | .maxName, _ => .gt
  | .key a, .key b =>
    match tryParseStringToInt a, tryParseStringToInt b with
    | some aAsInt, some bAsInt =>
      if aAsInt > bAsInt then .gt
      else if aAsInt < bAsInt then .lt
      else if (unichars a).length > (unichars b).length then .gt
      else if (unichars a).length < (unichars b).length then .lt
      else .eq
    | some _, none => .lt
    | none, some _ => .gt
    | none, none => literalCompare a b

/-- `+ keyComparator` -/
def keyComparator (a b : String) : Ordering := compareKey (.key a) (.key b)

/-- `+ stringComparator`. Its `[a compare:b]` is not literal: it ties keys that are
canonically equivalent. Keys are taken to be in one normal form, where these are
equal and the order is the literal one. -/
def stringComparator (a b : String) : Ordering := literalCompare a b

end WatchAndSee.Source
