import WatchAndSee.Source.FCompoundWrite
import WatchAndSee.Source.FSnapshotUtilities

/-!
# Utilities/FSnapshotUtilities.m: the compound write of an update

An update names several paths at once. Each key is validated and its value made a
node and written, in the order of enumeration; then the sorted paths are compared
with their neighbours.
-/

set_option autoImplicit false

namespace WatchAndSee.Source
open Library

namespace FSnapshotUtilities
open FValidation

variable (E : Enumeration String AnyValue) (classDescription : AnyValue → String)

/-- The loop over `values`, with `updatePaths`. -/
def addUpdates (fn : String) :
    List (String × AnyValue) → List FPath → FCompoundWrite → Except FException (List FPath × FCompoundWrite)
  | [], updatePaths, compoundWrite => .ok (updatePaths, compoundWrite)
  | (keyId, value) :: rest, updatePaths, compoundWrite => do
    validUpdateDictionaryKey fn keyId value
    let path := FPath.pathWithString keyId
    let node ← nodeFrom E classDescription fn value .null
    let compoundWrite ← compoundWrite.addWrite node path
    addUpdates fn rest (updatePaths ++ [path]) compoundWrite

/-- The loop over the sorted `updatePaths`, with `prevPath`. -/
def checkUpdatePaths (fn : String) : Option FPath → List FPath → Except FException Unit
  | _, [] => .ok ()
  | none, path :: rest => checkUpdatePaths fn (some path) rest
  | some prevPath, path :: rest =>
    if FPath.contains prevPath path then
      .error (invalidFirebaseData ("(" ++ fn ++ ") Invalid path in object. Path (" ++
        FPath.toStringWithTrailingSlash prevPath false ++ ") is an ancestor of (" ++
        FPath.toStringWithTrailingSlash path false ++ ")."))
    else checkUpdatePaths fn (some path) rest

/-- `+ compoundWriteFromDictionary:withValidationFrom:` -/
def compoundWriteFromDictionary (fn : String) (values : AnyDictionary) :
    Except FException FCompoundWrite := do
  let (updatePaths, compoundWrite) ← addUpdates E classDescription fn (E.order values) [] .emptyWrite
  checkUpdatePaths fn none (updatePaths.mergeSort fun left right => (FPath.compare left right).isLE)
  return compoundWrite

end FSnapshotUtilities

end WatchAndSee.Source
