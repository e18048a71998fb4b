import Mathlib.Algebra.Field.Rat
import Mathlib.Algebra.Order.Group.Unbundled.Int
import Mathlib.Data.String.Basic
import WatchAndSee.Library.Dictionary
import WatchAndSee.Library.TrappingLoop

/-!
# Untyped values, casts and traps

The app moves its data through `[String: Any]` dictionaries: the database
snapshot on the phone and the application context between the devices. The
elements are Foundation objects, so the conditional casts below are the ones
of the Objective-C bridge. A trap ends the process; what the objects held
before it is not observable any more.

Strings are their Unicode scalars in normal form, on which Swift compares and
orders them: two keys that are canonically equivalent are taken to be spelled
alike. `Int` carries no arithmetic in the app. Its word counts where a value
arrives: a cast to `Int` fails on an integer that the device cannot hold.
-/

set_option autoImplicit false

namespace WatchAndSee.Source
open Library

inductive Trap where
  | unwrappedNil | indexOutOfRange | invalidRange | tryFailed
  deriving DecidableEq, Repr

/-- Postfix `!`. -/
def forceUnwrap {α : Type} : Option α → Except Trap α
  | some value => .ok value
  | none => .error .unwrappedNil

@[simp] theorem forceUnwrap_some {α : Type} (value : α) : forceUnwrap (some value) = .ok value := rfl

@[simp] theorem forceUnwrap_none {α : Type} :
    forceUnwrap (none : Option α) = .error .unwrappedNil := rfl

theorem forceUnwrap_success_iff {α : Type} (optional : Option α) (value : α) :
    forceUnwrap optional = .ok value ↔ optional = some value := by
  cases optional <;> simp [forceUnwrap]

@[simp] theorem succeeds_forceUnwrap {α : Type} (optional : Option α) :
    Succeeds (forceUnwrap optional) ↔ ∃ value, optional = some value := by
  cases optional <;> simp

/-- `array[index]` -/
def elementAt {α : Type} (array : List α) (index : Int) : Except Trap α :=
  if index < 0 then .error .indexOutOfRange
  else
    match array[index.toNat]? with
    | some element => .ok element
    | none => .error .indexOutOfRange

theorem elementAt_natCast {α : Type} (array : List α) (index : Nat) :
    elementAt array (index : Int) = (array[index]?).elim (.error .indexOutOfRange) .ok := by
  have natural : ¬ ((index : Int) < 0) := by omega
  rw [elementAt, if_neg natural, Int.toNat_natCast]
  cases array[index]? <;> rfl

/-- `lower...upper` -/
def closedRange (lower upper : Int) : Except Trap (List Int) :=
  if lower ≤ upper then .ok ((List.range (upper - lower + 1).toNat).map fun (k : Nat) => lower + (k : Int))
  else .error .invalidRange

/-- The two targets of the project. -/
inductive Device where
  | phone | watch
  deriving DecidableEq, Repr

namespace Device

/-- iOS 11 runs 64-bit processes only; on watchOS `Int` has 32 bits. -/
def intBits : Device → Nat
  | phone => 64
  | watch => 32

/-- The integers of the device's `Int`. -/
def HoldsInt (device : Device) (value : Int) : Prop :=
  -2 ^ (device.intBits - 1) ≤ value ∧ value < 2 ^ (device.intBits - 1)

instance (device : Device) (value : Int) : Decidable (device.HoldsInt value) :=
  inferInstanceAs (Decidable (_ ∧ _))

/-- The phone holds what the watch holds. -/
theorem HoldsInt.on_phone {value : Int} (held : watch.HoldsInt value) : phone.HoldsInt value := by
  simp only [HoldsInt, intBits] at held ⊢
  omega

/-- A watch's `Int` is far inside the integers that `Double` holds exactly. -/
theorem HoldsInt.exact {value : Int} (held : watch.HoldsInt value) : |value| < 2 ^ 53 := by
  simp only [HoldsInt, intBits] at held
  rw [abs_lt]
  omega

end Device

/-- `Any`. `object` is any other object (a date, raw data), opaque to every
cast of the app. -/
inductive AnyValue where
  | null
  | bool (value : Bool)
  | int (value : Int)
  | double (value : ℚ)
  | string (text : String)
  | array (elements : List AnyValue)
  | dictionary (entries : Dictionary String AnyValue)
  | object (identity : Nat)

/-- `[String: Any]` -/
abbrev AnyDictionary := Dictionary String AnyValue

/-- `NSNull()`, which collection types hold in place of a missing value. -/
instance : Inhabited AnyValue := ⟨.null⟩

namespace AnyValue

/-- `as? String` -/
def asString : AnyValue → Option String
  | .string text => some text
  | _ => none

/-- `as? Int`. Numbers are `NSNumber`: one casts exactly when some `Int` of the
device equals it, whatever type it was made of. -/
def asInt (device : Device) : AnyValue → Option Int
  | .int value => if device.HoldsInt value then some value else none
  | .bool value => some (if value then 1 else 0)
  | .double value =>
    if value.den = 1 ∧ device.HoldsInt value.num then some value.num else none
  | _ => none

/-- `as? [String: Any]` -/
def asDictionary : AnyValue → Option AnyDictionary
  | .dictionary entries => some entries
  | _ => none

/-- `as? [[String: Any]]`: the cast of an array fails as a whole. -/
def asDictionaryArray : AnyValue → Option (List AnyDictionary)
  | .array elements => elements.mapM asDictionary
  | _ => none

@[simp] theorem asString_string (text : String) : (AnyValue.string text).asString = some text := rfl

@[simp] theorem asInt_int (device : Device) (value : Int) :
    (AnyValue.int value).asInt device = if device.HoldsInt value then some value else none := rfl

theorem asInt_holds {device : Device} {value : AnyValue} {t : Int}
    (cast : value.asInt device = some t) : device.HoldsInt t := by
  cases value with
  | int n =>
    by_cases held : device.HoldsInt n
    · simp only [asInt_int, held, if_true, Option.some.injEq] at cast
      exact cast ▸ held
    · simp [held] at cast
  | bool b =>
    simp only [asInt, Option.some.injEq] at cast
    cases device <;> cases b <;> subst cast <;> decide
  | double q =>
    by_cases held : q.den = 1 ∧ device.HoldsInt q.num
    · simp only [asInt, held, and_self, if_true, Option.some.injEq] at cast
      exact cast ▸ held.2
    · simp [asInt, held] at cast
  | _ => simp [asInt] at cast

/-- The watch's cast keeps of the phone's what 32 bits hold. -/
theorem asInt_watch (value : AnyValue) :
    value.asInt .watch = (value.asInt .phone).filter fun t => Device.watch.HoldsInt t := by
  cases value with
  | int n =>
    by_cases held : Device.watch.HoldsInt n
    · simp [Option.filter, held, held.on_phone]
    · by_cases phone : Device.phone.HoldsInt n <;> simp [Option.filter, held, phone]
  | bool b => cases b <;> rfl
  | double q =>
    by_cases whole : q.den = 1
    · by_cases held : Device.watch.HoldsInt q.num
      · simp [asInt, Option.filter, whole, held, held.on_phone]
      · by_cases phone : Device.phone.HoldsInt q.num <;> simp [asInt, Option.filter, whole, held, phone]
    · simp [asInt, whole]
  | _ => rfl

@[simp] theorem asDictionary_dictionary (entries : AnyDictionary) :
    (AnyValue.dictionary entries).asDictionary = some entries := rfl

theorem asString_eq_some_iff (value : AnyValue) (text : String) :
    value.asString = some text ↔ value = .string text := by
  cases value <;> simp [asString]

theorem asDictionary_eq_some_iff (value : AnyValue) (entries : AnyDictionary) :
    value.asDictionary = some entries ↔ value = .dictionary entries := by
  cases value <;> simp [asDictionary]

theorem string_injective : Function.Injective AnyValue.string := fun _ _ same => string.inj same

theorem mapM_asDictionary (entries : List AnyDictionary) :
    (entries.map AnyValue.dictionary).mapM asDictionary = some entries := by
  induction entries with
  | nil => rfl
  | cons head tail ih => simp [List.mapM_cons, ih]

/-- The whole-array cast succeeds exactly on arrays of dictionaries. -/
theorem asDictionaryArray_eq_some_iff (value : AnyValue) (entries : List AnyDictionary) :
    value.asDictionaryArray = some entries ↔
      value = .array (entries.map AnyValue.dictionary) := by
  constructor
  · intro cast
    cases value with
    | array elements =>
      simp only [asDictionaryArray] at cast
      induction elements generalizing entries with
      | nil =>
        cases entries with
        | nil => rfl
        | cons head tail => simp at cast
      | cons element rest ih =>
        simp only [List.mapM_cons, bind, Option.bind_eq_some_iff, pure, Option.some.injEq] at cast
        obtain ⟨head, isDictionary, tail, others, rfl⟩ := cast
        have same := ih tail others
        simp only [AnyValue.array.injEq] at same
        simp [(asDictionary_eq_some_iff element head).mp isDictionary, same]
    | _ => simp [asDictionaryArray] at cast
  · rintro rfl
    exact mapM_asDictionary entries

end AnyValue

/-- `dictionary[key] as? String` -/
def stringAt (d : AnyDictionary) (key : String) : Option String := (d.get? key).bind AnyValue.asString

/-- `dictionary[key] as? Int` -/
def intAt (device : Device) (d : AnyDictionary) (key : String) : Option Int :=
  (d.get? key).bind (AnyValue.asInt device)

/-- `dictionary[key] as? [String: Any]` -/
def dictionaryAt (d : AnyDictionary) (key : String) : Option AnyDictionary :=
  (d.get? key).bind AnyValue.asDictionary

theorem stringAt_eq_some_iff (d : AnyDictionary) (key text : String) :
    stringAt d key = some text ↔ d.get? key = some (.string text) := by
  simp [stringAt, Option.bind_eq_some_iff, AnyValue.asString_eq_some_iff]

theorem intAt_watch (d : AnyDictionary) (key : String) :
    intAt .watch d key = (intAt .phone d key).filter fun t => Device.watch.HoldsInt t := by
  unfold intAt
  cases d.get? key with
  | none => rfl
  | some value => exact AnyValue.asInt_watch value

theorem dictionaryAt_eq_some_iff (d e : AnyDictionary) (key : String) :
    dictionaryAt d key = some e ↔ d.get? key = some (.dictionary e) := by
  simp [dictionaryAt, Option.bind_eq_some_iff, AnyValue.asDictionary_eq_some_iff]

end WatchAndSee.Source
