import WatchAndSee.Source.DatabaseService
import WatchAndSee.Source.PhoneScreens
import WatchAndSee.Source.WatchSystem

/-!
# Phone and watch as one system

The app from its launch on: the database answers its one request or does not,
the tables ask for rows and items, the user touches what is on the screen, and
the connection to the watch goes on beside it, in any order. UIKit asks for
index paths inside the numbers that it was given, and hands touches to the
uppermost screen, not to a view without interaction and not past an alert. Each
event finds its own state of the network. An event that traps ends the process.
At launch no context waits in the channel, and the watch app is new.
-/

set_option autoImplicit false

namespace WatchAndSee.Source
open Library

structure PhoneApp (UIImage : Type) where
  service : DatabaseService
  /-- The request of `observeSingleEvent` still waits for its answer. -/
  requested : Bool
  home : HomeView UIImage
  /-- The rows of the home screen's table, by section. -/
  cells : List (Nat × CategoryCell)
  details : Option (RecipesDetailsViewController UIImage)
  alert : Option Alert
  system : WatchSystem

inductive PhoneEvent where
  | dataReceived (snapshot : List DataSnapshot)
  | showRow (dequeued : CategoryCell) (section' : Nat)
  | showItem (section' row : Nat)
  | highlightPressed
  | selectItem (section' row : Nat)
  | showDetailsRow (section' row : Nat)
  | startRecipe (connectivity : Connectivity)
  | dismissAlert
  | back
  | deliver
  | runBlock

/-- An event, and what the network has for each photo when it happens. -/
structure Occurrence (URL Data : Type) where
  event : PhoneEvent
  contents : URL → Option Data

namespace PhoneApp

variable {URL Data UIImage : Type}

/-- The app after launch, when its home screen has loaded its view. -/
def launched (checkCconnection : Bool) : PhoneApp UIImage where
  service := .shared
  requested := (HomeView.new.viewDidLoad checkCconnection : HomeView UIImage × Bool).2
  home := (HomeView.new.viewDidLoad checkCconnection).1
  cells := []
  details := none
  alert := none
  system := .initial

/-- Touches reach the home screen. -/
def homeTouchable (s : PhoneApp UIImage) : Bool :=
  s.home.isUserInteractionEnabled && s.details.isNone

/-- The details screen opens. -/
def opening (s : PhoneApp UIImage)
    (opened : Except Trap (HomeView UIImage × RecipesDetailsViewController UIImage)) :
    Except Trap (PhoneApp UIImage) :=
  opened.map fun screens => { s with home := screens.1, details := some screens.2 }

section Next

variable (E : Enumeration String AnyValue) (T : StringSearch)
  (images : ImageLoading URL Data UIImage) (noData : Data) (search : String)

/-- The callback of the request and the completion call that it makes. -/
def dataReceived (s : PhoneApp UIImage) (snapshot : List DataSnapshot) :
    Except Trap (PhoneApp UIImage) := do
  let (service, completions) ← createRecipeObject E s.service snapshot
  let home ← completions.foldlM (HomeView.completion T images search) s.home
  -- `reloadData()` drops the rows that were made of the empty categories
  pure { s with service := service, requested := false, home := home, cells := [] }

/-- An item of a row, if the row is there and has so many items. -/
def atItem (s : PhoneApp UIImage) (section' row : Nat)
    (answer : CategoryCell → Except Trap (PhoneApp UIImage)) :
    Option (Except Trap (PhoneApp UIImage)) :=
  match s.cells.lookup section' with
  | none => none
  | some cell =>
    match cell.numberOfItemsInSection with
    | .error trap => some (.error trap)
    | .ok count => if row < count then some (answer cell) else none

/-- The outcome of an event, where it can happen. -/
def next (s : PhoneApp UIImage) : PhoneEvent → Option (Except Trap (PhoneApp UIImage))
  | .dataReceived snapshot =>
    if s.requested then some (s.dataReceived E T images search snapshot) else none
  | .showRow dequeued section' =>
    if section' < s.home.numberOfSections then
      some ((s.home.cellForRowAt dequeued section').map fun cell =>
        { s with cells := (section', cell) :: s.cells })
    else none
  | .showItem section' row =>
    s.atItem section' row fun cell => (cell.cellForItemAt images noData row).map fun _ => s
  | .highlightPressed =>
    if s.homeTouchable then some (s.opening (s.home.highlightPressed images)) else none
  | .selectItem section' row =>
    if s.homeTouchable then
      s.atItem section' row fun cell => do
        match ← cell.didSelectItemAt row with
        | some recipe => s.opening (s.home.presentData images recipe)
        | none => pure s
    else none
  | .showDetailsRow section' row =>
    match s.details with
    | none => none
    | some details =>
      if section' < RecipesDetailsViewController.numberOfSections then
        match details.numberOfRowsInSection section' with
        | .error trap => some (.error trap)
        | .ok count =>
          if row < count then some ((details.cellForRowAt section' row).map fun _ => s) else none
      else none
  | .startRecipe connectivity =>
    match s.details, s.alert with
    | some details, none =>
      let (waiting, alert) :=
        details.startRecipeButtonPressed connectivity s.system.applicationContext
      let sent := if alert = some RecipesDetailsViewController.sucesso
        then s.system.sent ++ details.recipe.toList else s.system.sent
      some (.ok { s with
        alert := alert
        system := { s.system with applicationContext := waiting, sent := sent } })
    | _, _ => none
  | .dismissAlert => if s.alert.isSome then some (.ok { s with alert := none }) else none
  | .back =>
    if s.details.isSome ∧ s.alert.isNone then some (.ok { s with details := none }) else none
  | .deliver => (s.system.next .deliver).map fun system => .ok { s with system := system }
  | .runBlock => (s.system.next .runBlock).map fun system => .ok { s with system := system }

def machine (checkCconnection : Bool) : Machine (PhoneApp UIImage) (Occurrence URL Data) where
  initial := launched checkCconnection
  step s e s' := s.next E T (images.answered e.contents) noData search e.event = some (.ok s')

end Next

end PhoneApp

end WatchAndSee.Source
