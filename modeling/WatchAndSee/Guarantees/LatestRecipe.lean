import WatchAndSee.Library.LatestChannel
import WatchAndSee.Source.WatchSystem

/-!
# The watch shows sent recipes, in order, and ends on the last

The system of phone, channel and watch refines a channel that keeps the latest
value, with the step list that a context decodes to as its value
(`system_refines_channel`). What that channel guarantees in every reachable
state is what the watch shows (`watch_shows_sent_recipes`): the steps of the
recipe that was sent, with the times that the watch can hold.
-/

set_option autoImplicit false

namespace WatchAndSee.Guarantees.LatestRecipe
open WatchAndSee.Library WatchAndSee.Source

/-- The step list that a context stands for. -/
def decoded (context : AnyDictionary) : List Step := decodeInWatch (optionals context)

def asChannel (s : WatchSystem) : LatestChannel (List Step) where
  sent := s.sent.map (Recipes.stepsOn · .watch)
  slot := s.applicationContext.map decoded
  queue := s.mainQueue.map decoded
  shown := s.shown

theorem decoded_send (recipe : Recipes) : decoded (sendToWatch recipe).bridged = recipe.stepsOn .watch := by
  rw [decoded, optionals_bridged_send, decode_send]

/-- Sends, deliveries and blocks are the channel's events; a failed send is none. -/
theorem system_refines_channel :
    WatchSystem.machine.Refines (LatestChannel.machine (List Step)) asChannel where
  start := rfl
  step s e s' step := by
    rcases WatchSystem.next_cases step with ⟨recipe, rfl⟩ | rfl | ⟨context, waiting, rfl⟩ |
      ⟨context, rest, queued, rfl⟩
    · right
      refine ⟨.send (recipe.stepsOn .watch), ?_⟩
      have sent := LatestChannel.Step.send (asChannel s) (recipe.stepsOn .watch)
      simpa [asChannel, decoded_send] using sent
    · exact Or.inl rfl
    · right
      refine ⟨.deliver, ?_⟩
      have delivered := LatestChannel.Step.deliver (asChannel s) (decoded context)
        (by simp [asChannel, waiting])
      simpa [asChannel] using delivered
    · right
      refine ⟨.present, ?_⟩
      have presented := LatestChannel.Step.present (asChannel s) (decoded context)
        (rest.map decoded) (by simp [asChannel, queued])
      simpa [asChannel, decoded] using presented

/-- The watch's steps are the last ones that a block assigned. -/
theorem watch_steps_last {s : WatchSystem} (reached : WatchSystem.machine.Reachable s) :
    s.watch.steps = s.shown.getLast?.getD [] := by
  refine reached.invariant (I := fun s => s.watch.steps = s.shown.getLast?.getD []) rfl ?_
  intro s e s' same step
  rcases WatchSystem.next_cases step with ⟨_, rfl⟩ | rfl | ⟨_, _, rfl⟩ | ⟨context, _, _, rfl⟩
  · exact same
  · exact same
  · exact same
  · simp

/-- In every reachable state the watch's steps are the initial empty list or
those of a recipe whose send returned true, as the watch holds them, what it has
shown is a subsequence of the successful sends, and with nothing in the channel
and no block queued it shows the last of them. Of a recipe whose times the watch
can hold these are exactly its steps. -/
theorem watch_shows_sent_recipes (s : WatchSystem) (reached : WatchSystem.machine.Reachable s) :
    ((s.shown = [] ∧ s.watch.steps = []) ∨
      ∃ recipe ∈ s.sent, s.watch.steps = recipe.stepsOn .watch) ∧
    s.shown.Sublist (s.sent.map (Recipes.stepsOn · .watch)) ∧
    (s.applicationContext = none → s.mainQueue = [] →
      s.watch.steps = (s.sent.getLast?.map (Recipes.stepsOn · .watch)).getD []) ∧
    ∀ recipe ∈ s.sent, recipe.stepsOn .watch = recipe.steps ↔
      ∀ step ∈ recipe.steps, step.HeldBy .watch := by
  have sound := LatestChannel.sound_of_reachable (system_refines_channel.reachable reached)
  have current := watch_steps_last reached
  have sublist : s.shown.Sublist (s.sent.map (Recipes.stepsOn · .watch)) := sound.shown_sublist
  refine ⟨?_, sublist, ?_, fun recipe _ => recipe.stepsOn_eq_iff .watch⟩
  · cases last : s.shown.getLast? with
    | none =>
      left
      rw [last] at current
      exact ⟨List.getLast?_eq_none_iff.mp last, current⟩
    | some steps =>
      right
      rw [last] at current
      have member : steps ∈ s.sent.map (Recipes.stepsOn · .watch) :=
        sublist.subset (List.mem_of_getLast? last)
      obtain ⟨recipe, inside, same⟩ := List.mem_map.mp member
      exact ⟨recipe, inside, current.trans same.symm⟩
  · intro slot queue
    have last := sound.quiescent (by simp [asChannel, slot]) (by simp [asChannel, queue])
    have shown : s.shown.getLast? = s.sent.getLast?.map (Recipes.stepsOn · .watch) := by
      simpa [asChannel, List.getLast?_map] using last
    rw [current, shown]

/-- A phone whose sends succeed. -/
def connected : Connectivity := ⟨true, true, fun _ => true⟩

/-- A phone without the watch app. -/
def unpaired : Connectivity := ⟨true, false, fun _ => true⟩

def soup : Recipes := { Recipes.blank with steps := [⟨"Ferva", some 60⟩] }

def salad : Recipes := { Recipes.blank with steps := [⟨"Lave", none⟩, ⟨"Sirva", none⟩] }

/-- The state after a delivered send that overtook another one in the channel,
with a failed send between them. -/
def overtaken : WatchSystem := ⟨none, [], ⟨salad.steps⟩, [soup, salad], [salad.steps]⟩

theorem overtaken_reachable : WatchSystem.machine.Reachable overtaken := by
  let first : WatchSystem := ⟨some (sendToWatch soup).bridged, [], .new, [soup], []⟩
  let second : WatchSystem := ⟨some (sendToWatch salad).bridged, [], .new, [soup, salad], []⟩
  let queued : WatchSystem := ⟨none, [(sendToWatch salad).bridged], .new, [soup, salad], []⟩
  have start : WatchSystem.initial.next (.send connected soup) = some first := rfl
  have failed : first.next (.send unpaired salad) = some first := rfl
  have overtakes : first.next (.send connected salad) = some second := rfl
  have delivered : second.next .deliver = some queued := rfl
  have run : queued.next .runBlock = some overtaken := by
    have read := decoded_send salad
    unfold decoded at read
    simp only [WatchSystem.next, queued, receiveBlock, read]
    rfl
  exact .next _ (.next _ (.next _ (.next _ (.next _ .start start) failed) overtakes) delivered) run

theorem overtaken_shows_last_send :
    overtaken.watch.steps = (overtaken.sent.getLast?.map (Recipes.stepsOn · .watch)).getD [] :=
  (watch_shows_sent_recipes overtaken overtaken_reachable).2.2.1 rfl rfl

/-- A step of 2^31 minutes. -/
def ham : Recipes := { Recipes.blank with steps := [⟨"Cure", some (2 ^ 31)⟩] }

/-- The state after the ham was sent and shown. -/
def cured : WatchSystem := ⟨none, [], ⟨[⟨"Cure", none⟩]⟩, [ham], [[⟨"Cure", none⟩]]⟩

theorem cured_reachable : WatchSystem.machine.Reachable cured := by
  let waiting : WatchSystem := ⟨some (sendToWatch ham).bridged, [], .new, [ham], []⟩
  let queued : WatchSystem := ⟨none, [(sendToWatch ham).bridged], .new, [ham], []⟩
  have sends : WatchSystem.initial.next (.send connected ham) = some waiting := rfl
  have delivered : waiting.next .deliver = some queued := rfl
  have run : queued.next .runBlock = some cured := by
    have read := decoded_send ham
    unfold decoded at read
    simp only [WatchSystem.next, queued, receiveBlock, read]
    rfl
  exact .next _ (.next _ (.next _ .start sends) delivered) run

/-- The watch shows a step without a time, which no recipe that was sent has. -/
theorem cured_shows_no_sent_steps :
    WatchSystem.machine.Reachable cured ∧ cured.watch.steps ≠ [] ∧
      ∀ recipe ∈ cured.sent, cured.watch.steps ≠ recipe.steps := by
  refine ⟨cured_reachable, ?_, ?_⟩
  · simp [cured]
  · simp [cured, ham]

end WatchAndSee.Guarantees.LatestRecipe
