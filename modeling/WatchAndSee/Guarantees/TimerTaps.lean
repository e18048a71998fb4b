import WatchAndSee.Source.TimerInterfaceController

/-!
# Taps on the watch timer

Each tap sets the countdown to end a whole interval after the tap; no tap
touches `timeLeft`. A stop is therefore a reset and not a pause, and what the
timer shows is what would be left of the interval exactly when the timer has not
yet run for any time (`tap_resets`). Instants are computed exactly here.
-/

set_option autoImplicit false

namespace WatchAndSee.Guarantees.TimerTaps
open WatchAndSee.Library WatchAndSee.Source

/-- A new controller, awakened with the text of `s` seconds. -/
def awakened (s : ℤ) (instant : ℚ) : TimerInterfaceController :=
  TimerInterfaceController.new.awake id instant (some (.string (DecimalText.integer s)))

/-- The controller after taps of its button at the given instants. -/
def afterTaps (self : TimerInterfaceController) (taps : List ℚ) : TimerInterfaceController :=
  taps.foldl (TimerInterfaceController.startTimer id) self

/-- The time that a timer stopped at first spends running between the taps:
they start and stop it in turn. -/
def timeRun : List ℚ → ℚ
  | start :: stop :: rest => stop - start + timeRun rest
  | _ => 0

/-- What is then left of the interval that starts at `s` seconds. -/
def remaining (s : ℤ) (taps : List ℚ) : ℚ := max 0 (s + 1 - timeRun taps)

/-- The last of the taps, at `now`, starts or stops the timer in turn and gives
it the whole interval again. -/
structure ResetByTap (s : ℤ) (taps : List ℚ) (now : ℚ) (after : TimerInterfaceController) : Prop where
  timeLeft : after.timeLeft = s + 1
  timer : after.timer = ⟨some (now + (s + 1)), after.isRuning⟩
  inTurn : after.isRuning = true ↔ taps.length % 2 = 0

/-- A pause instead of a reset: the last of the taps, at `now`, shows what is
left, and `timeLeft` holds it. -/
structure KeepsTimeLeft (s : ℤ) (taps : List ℚ) (now : ℚ) (after : TimerInterfaceController) :
    Prop where
  date : after.timer.date = some (now + remaining s (taps ++ [now]))
  timeLeft : after.timeLeft = remaining s (taps ++ [now])

theorem awakened_eq (s : ℤ) (instant : ℚ) :
    awakened s instant = ⟨⟨some (instant + (s + 1)), false⟩, none, s + 1, false⟩ := by
  have text : double id (DecimalText.integer s) = some (s : ℚ) := by
    rw [double, DecimalText.value_integer, Option.map_id_fun, id]
  unfold awakened TimerInterfaceController.awake
  simp only [Option.bind_some, AnyValue.asString_string, text]
  rfl

/-- Both branches of a tap set the same date; only the button and the running
state tell them apart. -/
theorem startTimer_eq (self : TimerInterfaceController) (now : ℚ) :
    self.startTimer id now =
      { self with
        interactiveButton := some (if self.isRuning then "Start" else "Stop")
        isRuning := !self.isRuning
        timer := ⟨some (now + self.timeLeft), !self.isRuning⟩ } := by
  unfold TimerInterfaceController.startTimer
  cases running : self.isRuning <;> rfl

theorem afterTaps_snoc (self : TimerInterfaceController) (taps : List ℚ) (now : ℚ) :
    afterTaps self (taps ++ [now]) = (afterTaps self taps).startTimer id now := by
  unfold afterTaps
  rw [List.foldl_append, List.foldl_cons, List.foldl_nil]

/-- A run of taps leaves `timeLeft` alone and switches the timer once for each. -/
theorem afterTaps_state (self : TimerInterfaceController) (taps : List ℚ) :
    (afterTaps self taps).timeLeft = self.timeLeft ∧
      (afterTaps self taps).isRuning = (self.isRuning != decide (taps.length % 2 = 1)) := by
  induction taps using List.reverseRecOn with
  | nil => simp [afterTaps]
  | append_singleton taps now ih =>
    obtain ⟨timeLeft, isRuning⟩ := ih
    rw [afterTaps_snoc, startTimer_eq]
    refine ⟨timeLeft, ?_⟩
    have parity : decide ((taps ++ [now]).length % 2 = 1) = !decide (taps.length % 2 = 1) := by
      rw [List.length_append, List.length_singleton, Bool.eq_not, ne_eq, decide_eq_decide]
      omega
    change (!(afterTaps self taps).isRuning) = _
    rw [isRuning, parity]
    cases self.isRuning <;> simp

/-- The controller after its last tap. -/
theorem lastTap_eq (s : ℤ) (instant : ℚ) (taps : List ℚ) (now : ℚ) :
    let started := decide (taps.length % 2 = 0)
    afterTaps (awakened s instant) (taps ++ [now]) =
      ⟨⟨some (now + (s + 1)), started⟩, some (if started then "Stop" else "Start"), s + 1, started⟩ := by
  obtain ⟨timeLeft, isRuning⟩ := afterTaps_state (awakened s instant) taps
  rw [awakened_eq] at timeLeft isRuning
  rw [afterTaps_snoc, startTimer_eq, awakened_eq, timeLeft, isRuning]
  rcases Nat.mod_two_eq_zero_or_one taps.length with even | odd
  · simp [even]
  · simp [odd]

/-- Nothing is gone from the interval exactly while the timer has run for no time. -/
theorem remaining_eq_full_iff (s : ℤ) (nonneg : 0 ≤ s) (taps : List ℚ) :
    remaining s taps = s + 1 ↔ timeRun taps = 0 := by
  have positive : (0 : ℚ) < s + 1 := by
    have cast : (0 : ℚ) ≤ s := Int.cast_nonneg nonneg
    linarith
  unfold remaining
  constructor
  · intro full
    rcases max_choice 0 ((s : ℚ) + 1 - timeRun taps) with gone | left
    · rw [gone] at full
      linarith
    · rw [left] at full
      linarith
  · intro none
    rw [none, sub_zero]
    exact max_eq_right (le_of_lt positive)

/-- After every run of taps the last tap has set the countdown to end a whole
interval later and `timeLeft` is the whole interval, however long the timer has
run. It is the time left exactly if that is for no time. -/
theorem tap_resets (s : ℤ) (nonneg : 0 ≤ s) (instant : ℚ) (taps : List ℚ) (now : ℚ) :
    ResetByTap s taps now (afterTaps (awakened s instant) (taps ++ [now])) ∧
      (KeepsTimeLeft s taps now (afterTaps (awakened s instant) (taps ++ [now])) ↔
        timeRun (taps ++ [now]) = 0) := by
  rw [lastTap_eq, ← remaining_eq_full_iff s nonneg]
  refine ⟨⟨rfl, rfl, decide_eq_true_iff⟩, ?_⟩
  constructor
  · intro keeps
    exact keeps.timeLeft.symm
  · intro full
    constructor
    · rw [full]
    · exact full.symm

/-- The first start, and a start after one that was stopped in the same instant,
keep the minute; a start after half of the minute only resets it. -/
theorem first_start_shows_the_minute :
    KeepsTimeLeft 59 [] 0 (afterTaps (awakened 59 0) ([] ++ [0])) ∧
      KeepsTimeLeft 59 [5, 5] 9 (afterTaps (awakened 59 0) ([5, 5] ++ [9])) ∧
      ResetByTap 59 [0, 30] 40 (afterTaps (awakened 59 0) ([0, 30] ++ [40])) := by
  refine ⟨(tap_resets 59 (by decide) 0 [] 0).2.mpr rfl,
    (tap_resets 59 (by decide) 0 [5, 5] 9).2.mpr ?_, (tap_resets 59 (by decide) 0 [0, 30] 40).1⟩
  norm_num [timeRun]

/-- Stopped after half of its minute and started again, the timer runs for a whole one. -/
theorem restart_gives_the_minute_back :
    ([0, 30, 40] : List ℚ).Pairwise (· ≤ ·) ∧
      ¬ KeepsTimeLeft 59 [0] 30 (afterTaps (awakened 59 0) ([0] ++ [30])) ∧
      ¬ KeepsTimeLeft 59 [0, 30] 40 (afterTaps (awakened 59 0) ([0, 30] ++ [40])) := by
  rw [lastTap_eq, lastTap_eq]
  refine ⟨by decide, ?_, ?_⟩
  · intro keeps
    have same := keeps.timeLeft
    norm_num [remaining, timeRun] at same
  · intro keeps
    have same := keeps.timeLeft
    norm_num [remaining, timeRun] at same

end WatchAndSee.Guarantees.TimerTaps
