import WatchAndSee.Library.Decimal
import WatchAndSee.Source.FStoredNode

/-!
# Utilities/FValidation.m: keys, leaf values and priorities

The keys of a dictionary are strings here and its numbers are never NaN; the
checks for other keys and for NaN have nothing to reject and are left out.
-/

set_option autoImplicit false

namespace WatchAndSee.Source
open Library.Decimal (numeral)

def kPayloadValue : String := ".value"

def kPayloadMetadataPrefix : String := "."

def kFirebaseMaxObjectDepth : Nat := 1000

/-- 10 MB -/
def kFirebaseMaxLeafSize : Nat := 10485760

namespace FValidation

def kInvalidKeyCharacters : List Char := ['[', ']', '.', '#', '$', '/']

def isValidKey (key : String) : Bool :=
  key ≠ "" && key.toList.all fun c => c ∉ kInvalidKeyCharacters

/-- The pieces of a path that an error names. -/
def pathString (path : List String) : String := String.intercalate "." (path.take 50)

def invalidFirebaseData (reason : String) : FException := ⟨"InvalidFirebaseData", reason⟩

/-- `validateFrom:isValidLeafValue:withPath:` -/
def isValidLeafValue (fn : String) (value : AnyValue) (path : List String) :
    Except FException Bool :=
  match value with
  | .string theString =>
    if theString.utf8ByteSize > kFirebaseMaxLeafSize then
      .error (invalidFirebaseData ("(" ++ fn ++ ") String exceeds max size of " ++
        numeral kFirebaseMaxLeafSize ++ " utf8 bytes: " ++ pathString path))
    else .ok true
  | .bool _ => .ok true
  | .int _ => .ok true
  | .double _ => .ok true
  | .dictionary dval =>
    if (dval.get? kServerValueSubKey).isSome then
      if dval.keys.card > 1 then
        .error (invalidFirebaseData ("(" ++ fn ++ ") Cannot store other keys with server value keys." ++
          pathString path ++ "."))
      else .ok true
    else .ok false
  | .null => .ok true
  | _ => .ok false

/-- `validateFrom:validDictionaryKey:withPath:` -/
def validDictionaryKey (fn key : String) (path : List String) : Except FException Unit :=
  if key ≠ kPayloadPriority ∧ key ≠ kPayloadValue ∧ key ≠ kServerValueSubKey ∧
      isValidKey key = false then
    .error (invalidFirebaseData ("(" ++ fn ++ ") Invalid key in object at path: " ++ pathString path ++
      ". Keys must be non-empty and cannot contain '/' '.' '#' '$' '[' or ']'"))
  else .ok ()

/-- `validateFrom:isValidPriorityValue:withPath:`, with `throwError`. -/
def isValidPriorityValue (fn : String) (value : AnyValue) (path : List String) :
    Except FException Unit :=
  match value with
  | .bool _ =>
    .error (invalidFirebaseData ("(" ++ fn ++ ") Cannot store true/false as priority at path: " ++
      pathString path ++ "."))
  | .dictionary dval =>
    if (dval.get? kServerValueSubKey).isSome then
      if dval.keys.card > 1 then
        .error (invalidFirebaseData ("(" ++ fn ++
          ") Cannot store other keys with server value keys as priority at path: " ++
          pathString path ++ "."))
      else .ok ()
    else
      .error (invalidFirebaseData ("(" ++ fn ++ ") Cannot store an NSDictionary as priority at path: " ++
        pathString path ++ "."))
  | .array _ =>
    .error (invalidFirebaseData ("(" ++ fn ++ ") Cannot store an NSArray as priority at path: " ++
      pathString path ++ "."))
  | _ => .ok ()

/-- The block of `validateFrom:validUpdateDictionaryKey:withValue:`, once for each component. -/
def validUpdateComponents (fn : String) (value : AnyValue) (length : Nat) :
    Nat → FPath → Except FException Unit
  | _, [] => .ok ()
  | keyNum, key :: rest => do
    if key = kPayloadPriority ∧ keyNum = length - 1 then
      isValidPriorityValue fn value []
      validUpdateComponents fn value length keyNum rest
    else if isValidKey key then validUpdateComponents fn value length (keyNum + 1) rest
    else
      .error (invalidFirebaseData ("(" ++ fn ++ ") Invalid key in object. " ++
        "Keys must be non-empty and cannot contain '.' '#' '$' '[' or ']'"))

def validUpdateDictionaryKey (fn keyId : String) (value : AnyValue) : Except FException Unit :=
  let path := FPath.pathWithString keyId
  validUpdateComponents fn value path.length 0 path

end FValidation

end WatchAndSee.Source
