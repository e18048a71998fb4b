import WatchAndSee.Library.Binary64
import WatchAndSee.Library.DecimalText
import WatchAndSee.Source.SwiftValues

/-!
# WatchAndSee Watch Extension/TimerInterfaceController.swift

Instants and intervals are seconds. `rnd` rounds the result of an operation on
`Double`: `Binary64.round` is the hardware's, the identity computes exactly.
Hexadecimal texts, infinities and NaN are left out of `Double(_:)`. The haptic
feedback is left out.
-/

set_option autoImplicit false

namespace WatchAndSee.Source
open Library

/-- `WKInterfaceTimer` -/
structure WKInterfaceTimer where
  date : Option ℚ
  running : Bool
  deriving DecidableEq

def WKInterfaceTimer.setDate (self : WKInterfaceTimer) (date : ℚ) : WKInterfaceTimer :=
  { self with date := some date }

def WKInterfaceTimer.start (self : WKInterfaceTimer) : WKInterfaceTimer :=
  { self with running := true }

def WKInterfaceTimer.stop (self : WKInterfaceTimer) : WKInterfaceTimer :=
  { self with running := false }

structure TimerInterfaceController where
  timer : WKInterfaceTimer
  interactiveButton : Option String
  timeLeft : ℚ
  isRuning : Bool
  deriving DecidableEq

/-- `TimerInterfaceController()` -/
def TimerInterfaceController.new : TimerInterfaceController := ⟨⟨none, false⟩, none, 0, false⟩

section Arithmetic

variable (rnd : ℚ → ℚ)

/-- `Double(text)` -/
def double (text : String) : Option ℚ := (DecimalText.value text).map rnd

/-- `Date(timeIntervalSinceNow: interval)` -/
def dateSince (now interval : ℚ) : ℚ := rnd (now + interval)

/-- `awake(withContext:)` -/
def TimerInterfaceController.awake (self : TimerInterfaceController) (now : ℚ)
    (context : Option AnyValue) : TimerInterfaceController :=
  match context.bind AnyValue.asString with
  | none => self
  | some context =>
    match double rnd context with
    | none => self
    | some timeDouble =>
      -- one more second so that the hour can appear completely
      let interval := rnd (timeDouble + 1)
      { self with
        timeLeft := interval
        timer := self.timer.setDate (dateSince rnd now interval) }

/-- `startTimer()` -/
def TimerInterfaceController.startTimer (self : TimerInterfaceController) (now : ℚ) :
    TimerInterfaceController :=
  if self.isRuning then
    { self with
      interactiveButton := some "Start"
      isRuning := false
      timer := (self.timer.setDate (dateSince rnd now self.timeLeft)).stop }
  else
    { self with
      interactiveButton := some "Stop"
      isRuning := true
      timer := (self.timer.setDate (dateSince rnd now self.timeLeft)).start }

end Arithmetic

/-- An integer text of up to 53 bits is read back exactly. -/
theorem double_integer (t : ℤ) (exact : |t| < 2 ^ 53) :
    double Binary64.round (DecimalText.integer t) = some (t : ℚ) := by
  rw [double, DecimalText.value_integer, Option.map_some, Binary64.round_int t (le_of_lt exact)]

theorem awake_integer (self : TimerInterfaceController) (now : ℚ) (t : ℤ) (exact : |t| < 2 ^ 53) :
    self.awake Binary64.round now (some (.string (DecimalText.integer t))) =
      { self with
        timeLeft := t + 1
        timer := self.timer.setDate (dateSince Binary64.round now (t + 1)) } := by
  have next : |t + 1| ≤ 2 ^ 53 := by
    rw [abs_lt] at exact
    rw [abs_le]
    omega
  have sum : Binary64.round ((t : ℚ) + 1) = t + 1 := by
    have rounded := Binary64.round_int (t + 1) next
    push_cast at rounded
    exact rounded
  unfold TimerInterfaceController.awake
  simp only [Option.bind_some, AnyValue.asString_string, double_integer t exact, sum]

end WatchAndSee.Source
