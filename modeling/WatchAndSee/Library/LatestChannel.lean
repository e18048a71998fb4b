import Mathlib.Data.List.Basic
import WatchAndSee.Library.Transitions

/-!
# A channel that keeps the latest value

A sender overwrites one slot; a delivery moves the slot to a queue, and the
queue is shown in order. Values can be overtaken in the slot but never
reordered: what is shown, queued or waiting is a subsequence of what was sent
and ends with the last value sent (`LatestChannel.Sound`).
-/

set_option autoImplicit false

namespace WatchAndSee.Library

universe u

structure LatestChannel (α : Type u) where
  sent : List α
  slot : Option α
  queue : List α
  shown : List α

namespace LatestChannel

variable {α : Type u}

inductive Event (α : Type u) where
  | send (a : α)
  | deliver
  | present

inductive Step : LatestChannel α → Event α → LatestChannel α → Prop where
  | send (c : LatestChannel α) (a : α) :
      Step c (.send a) { c with sent := c.sent ++ [a], slot := some a }
  | deliver (c : LatestChannel α) (a : α) (waiting : c.slot = some a) :
      Step c .deliver { c with slot := none, queue := c.queue ++ [a] }
  | present (c : LatestChannel α) (a : α) (rest : List α) (first : c.queue = a :: rest) :
      Step c .present { c with queue := rest, shown := c.shown ++ [a] }

def machine (α : Type u) : Machine (LatestChannel α) (Event α) := ⟨⟨[], none, [], []⟩, Step⟩

@[simp] theorem machine_step (c c' : LatestChannel α) (e : Event α) :
    (machine α).step c e c' ↔ Step c e c' := Iff.rfl

/-- What was shown, is queued and is waiting, from the oldest to the latest. -/
def live (c : LatestChannel α) : List α := c.shown ++ c.queue ++ c.slot.toList

structure Sound (c : LatestChannel α) : Prop where
  sublist : c.live.Sublist c.sent
  last : c.live.getLast? = c.sent.getLast?

/-- Only a send changes the live values, and it replaces the waiting one. -/
theorem step_live {c c' : LatestChannel α} {e : Event α} (step : Step c e c') :
    (c'.live = c.live ∧ c'.sent = c.sent) ∨
      ∃ a, c'.live = c.shown ++ c.queue ++ [a] ∧ c'.sent = c.sent ++ [a] := by
  cases step with
  | send a => exact Or.inr ⟨a, rfl, rfl⟩
  | deliver a waiting =>
    left
    simp [live, waiting]
  | present a rest first =>
    left
    simp [live, first]

theorem step_sound {c c' : LatestChannel α} {e : Event α} (sound : c.Sound) (step : Step c e c') :
    c'.Sound := by
  rcases step_live step with ⟨sameLive, sameSent⟩ | ⟨a, live, sent⟩
  · constructor
    · rw [sameLive, sameSent]
      exact sound.sublist
    · rw [sameLive, sameSent]
      exact sound.last
  · have older : (c.shown ++ c.queue).Sublist c.sent :=
      (List.sublist_append_left _ _).trans sound.sublist
    constructor
    · rw [live, sent]
      exact older.append (List.Sublist.refl [a])
    · rw [live, sent, List.getLast?_concat, List.getLast?_concat]

theorem sound_of_reachable {c : LatestChannel α} (reached : (machine α).Reachable c) : c.Sound := by
  have start : (machine α).initial.Sound := ⟨List.Sublist.refl [], rfl⟩
  exact reached.invariant start (fun _ _ _ sound step => step_sound sound step)

/-- What is shown is a subsequence of what was sent. -/
theorem Sound.shown_sublist {c : LatestChannel α} (sound : c.Sound) : c.shown.Sublist c.sent := by
  have prefixed : c.shown.Sublist c.live := by
    rw [live, List.append_assoc]
    exact List.sublist_append_left _ _
  exact prefixed.trans sound.sublist

/-- With nothing waiting and nothing queued, the last value sent is shown last. -/
theorem Sound.quiescent {c : LatestChannel α} (sound : c.Sound) (slot : c.slot = none)
    (queue : c.queue = []) : c.shown.getLast? = c.sent.getLast? := by
  have all : c.live = c.shown := by simp [live, slot, queue]
  rw [← all]
  exact sound.last

end LatestChannel

end WatchAndSee.Library
