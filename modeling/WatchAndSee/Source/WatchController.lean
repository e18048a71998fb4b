import WatchAndSee.Source.ParseWatch

/-!
# Controllers/WatchController.swift and `sendValue` of AppDelegate.swift

The phone's side of the connection. `WCSession` keeps one application context
that waits for delivery; a later one replaces it.
-/

set_option autoImplicit false

namespace WatchAndSee.Source
open Library

/-- What the phone finds when it sends: `updateApplicationContext` throws on the
contexts that it does not accept. -/
structure Connectivity where
  isSupported : Bool
  isWatchAppInstalled : Bool
  accepts : AnyDictionary → Bool

/-- `WCSession.updateApplicationContext(_:)`; without a value where it throws. -/
def updateApplicationContext (connectivity : Connectivity) (applicationContext : AnyDictionary) :
    Option (Option AnyDictionary) :=
  if connectivity.accepts applicationContext then some (some applicationContext) else none

/-- `AppDelegate.sendValue(data:)`, with the context that waits afterwards. -/
def sendValue (connectivity : Connectivity) (waiting : Option AnyDictionary)
    (data : OptionalDictionary) : Option AnyDictionary × Bool :=
  if connectivity.isSupported then
    if connectivity.isWatchAppInstalled then
      match updateApplicationContext connectivity data.bridged with
      | some waiting => (waiting, true)
      | none => (waiting, false)
    else (waiting, false)
  else (waiting, false)

/-- `WatchController.prepareToSendValue(recipe:)` -/
def prepareToSendValue (connectivity : Connectivity) (waiting : Option AnyDictionary)
    (recipe : Recipes) : Option AnyDictionary × Bool :=
  let data := sendToWatch recipe
  sendValue connectivity waiting data

/-- A send stores its context and returns true, or stores nothing and returns false. -/
theorem prepareToSendValue_cases (connectivity : Connectivity) (waiting : Option AnyDictionary)
    (recipe : Recipes) :
    prepareToSendValue connectivity waiting recipe = (some (sendToWatch recipe).bridged, true) ∨
      prepareToSendValue connectivity waiting recipe = (waiting, false) := by
  unfold prepareToSendValue sendValue updateApplicationContext
  split
  · split
    · by_cases accepted : connectivity.accepts (sendToWatch recipe).bridged = true
      · left
        simp [accepted]
      · right
        simp [accepted]
    · exact Or.inr rfl
  · exact Or.inr rfl

end WatchAndSee.Source
