import WatchAndSee.Library.Transitions
import WatchAndSee.Source.InterfaceController
import WatchAndSee.Source.WatchController

/-!
# Phone, channel and watch

The phone sends recipes, the channel delivers the context that waits in it, and
the watch's main queue runs the blocks that the deliveries enqueued, in any
interleaving. `sent` and `shown` record the history: the recipes whose send
returned true, and what the blocks assigned to the watch's `steps`.
-/

set_option autoImplicit false

namespace WatchAndSee.Source
open Library

structure WatchSystem where
  applicationContext : Option AnyDictionary
  /-- The blocks of the main queue, each by the context that it captured. -/
  mainQueue : List AnyDictionary
  watch : InterfaceController
  sent : List Recipes
  shown : List (List Step)

inductive WatchEvent where
  | send (connectivity : Connectivity) (recipe : Recipes)
  | deliver
  | runBlock

/-- `session(_:didReceiveApplicationContext:)`: `DispatchQueue.main.async`. -/
def didReceiveApplicationContext (mainQueue : List AnyDictionary)
    (applicationContext : AnyDictionary) : List AnyDictionary :=
  mainQueue ++ [applicationContext]

namespace WatchSystem

def initial : WatchSystem := ⟨none, [], .new, [], []⟩

/-- The outcome of an event, where it can happen. -/
def next (s : WatchSystem) : WatchEvent → Option WatchSystem
  | .send connectivity recipe =>
    let (waiting, success) := prepareToSendValue connectivity s.applicationContext recipe
    some { s with
      applicationContext := waiting
      sent := if success then s.sent ++ [recipe] else s.sent }
  | .deliver =>
    match s.applicationContext with
    | none => none
    | some applicationContext =>
      some { s with
        applicationContext := none
        mainQueue := didReceiveApplicationContext s.mainQueue applicationContext }
  | .runBlock =>
    match s.mainQueue with
    | [] => none
    | applicationContext :: rest =>
      let (watch, _) := receiveBlock s.watch applicationContext
      some { s with mainQueue := rest, watch := watch, shown := s.shown ++ [watch.steps] }

def machine : Machine WatchSystem WatchEvent where
  initial := initial
  step s e s' := s.next e = some s'

/-- Everything that an event can do. -/
theorem next_cases {s s' : WatchSystem} {e : WatchEvent} (step : s.next e = some s') :
    (∃ recipe, s' = { s with
        applicationContext := some (sendToWatch recipe).bridged, sent := s.sent ++ [recipe] }) ∨
    s' = s ∨
    (∃ context, s.applicationContext = some context ∧
      s' = { s with applicationContext := none, mainQueue := s.mainQueue ++ [context] }) ∨
    ∃ context rest, s.mainQueue = context :: rest ∧
      s' = { s with
        mainQueue := rest
        watch := ⟨decodeInWatch (optionals context)⟩
        shown := s.shown ++ [decodeInWatch (optionals context)] } := by
  cases e with
  | send connectivity recipe =>
    rcases prepareToSendValue_cases connectivity s.applicationContext recipe with stored | failed
    · left
      simp only [next, stored, if_true, Option.some.injEq] at step
      exact ⟨recipe, step.symm⟩
    · right
      left
      simp only [next, failed, Bool.false_eq_true, if_false, Option.some.injEq] at step
      exact step.symm
  | deliver =>
    right
    right
    left
    cases waiting : s.applicationContext with
    | none => simp [next, waiting] at step
    | some context =>
      simp only [next, waiting, Option.some.injEq] at step
      exact ⟨context, rfl, step.symm⟩
  | runBlock =>
    right
    right
    right
    cases queued : s.mainQueue with
    | nil => simp [next, queued] at step
    | cons context rest =>
      simp only [next, queued, receiveBlock, Option.some.injEq] at step
      exact ⟨context, rest, rfl, step.symm⟩

end WatchSystem

end WatchAndSee.Source
