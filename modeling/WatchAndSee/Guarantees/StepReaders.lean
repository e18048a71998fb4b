import WatchAndSee.Guarantees.FeedSafety
import WatchAndSee.Library.PartialReads
import WatchAndSee.Source.ParseWatch

/-!
# The two readers of the step format

The phone reads the entries of 'Passos' and skips one without a text; the watch
reads the entries of its context and stops there, and its `Int` holds fewer
times. On the same entries the watch therefore has the first of the phone's
steps, and exactly the phone's steps when no entry with a text comes after one
without and the watch holds every time that the phone reads
(`readers_agree_iff`).
-/

set_option autoImplicit false

namespace WatchAndSee.Guarantees.StepReaders
open WatchAndSee.Library WatchAndSee.Source
open WatchAndSee.Guarantees.FeedSafety (dish completeRecord)

/-- The values of 'Passos' in ascending key order are the given dictionaries. -/
def InKeyOrder (stp : AnyDictionary) (entries : List AnyDictionary) : Prop :=
  ∃ listing, stp.Lists listing ∧ listing.Pairwise (fun a b => a.1 < b.1) ∧
    listing.map Prod.snd = entries.map AnyValue.dictionary

/-- The step that a reader on the device makes of an entry with a text. -/
def stepOfEntry (device : Device) (entry : AnyDictionary) : Option Step :=
  (stringAt entry "Texto").map fun text => ⟨text, intAt device entry "Tempo"⟩

theorem stepOfEntry_watch (entry : AnyDictionary) :
    stepOfEntry .watch entry = (stepOfEntry .phone entry).map (Step.on .watch) := by
  simp only [stepOfEntry, intAt_watch, Option.map_map]
  rfl

/-- The watch stops at the first entry without a text. -/
theorem decodeSteps_eq (before : List Step) (entries : List AnyDictionary) :
    decodeSteps before entries = before ++ readUntil (stepOfEntry .watch) entries := by
  induction entries generalizing before with
  | nil => simp [decodeSteps, readUntil]
  | cons entry rest ih =>
    have step : stepOfEntry .watch entry =
        (stringAt entry "Texto").map fun text => ⟨text, intAt .watch entry "Tempo"⟩ := rfl
    cases found : stringAt entry "Texto" with
    | none => simp [decodeSteps, readUntil, step, found]
    | some text => simp [decodeSteps, readUntil, step, found, ih]

theorem decodeInWatch_eq (context : OptionalDictionary) (entries : List AnyDictionary)
    (sent : context.get? "steps" = some (some (.array (entries.map .dictionary)))) :
    decodeInWatch context = (readUntil (stepOfEntry .phone) entries).map (Step.on .watch) := by
  rw [decodeInWatch_array context entries sent, decodeSteps_eq, List.nil_append, ← readUntil_map]
  congr 1
  exact funext stepOfEntry_watch

/-- The phone skips the entries without a text. -/
theorem steps_in_key_order (E : Enumeration String AnyValue) (stp : AnyDictionary)
    (entries : List AnyDictionary) (order : InKeyOrder stp entries) :
    (Dictionary.sortByKey (E.order stp)).filterMap (fun e => stepOf e.2) =
      entries.filterMap (stepOfEntry .phone) := by
  obtain ⟨listing, lists, ascending, values⟩ := order
  have sorted : Dictionary.sortByKey (E.order stp) = listing :=
    (E.lists stp).sortByKey_eq_ascending lists ascending
  have entry (e : AnyDictionary) : stepOf (.dictionary e) = stepOfEntry .phone e := rfl
  calc
    (Dictionary.sortByKey (E.order stp)).filterMap (fun e => stepOf e.2) =
        (listing.map Prod.snd).filterMap stepOf := by
      rw [sorted, List.filterMap_map]
      rfl
    _ = entries.filterMap (stepOfEntry .phone) := by
      rw [values, List.filterMap_map]
      exact List.filterMap_congr fun e _ => entry e

theorem stepOfEntry_none_iff (device : Device) (entry : AnyDictionary) :
    stepOfEntry device entry = none ↔ stringAt entry "Texto" = none := by
  simp [stepOfEntry]

/-- The watch holds every time that the phone reads beside a text. -/
def TimesFit (entries : List AnyDictionary) : Prop :=
  ∀ entry ∈ entries, ∀ t, stringAt entry "Texto" ≠ none → intAt .phone entry "Tempo" = some t →
    Device.watch.HoldsInt t

theorem timesFit_iff (entries : List AnyDictionary) :
    TimesFit entries ↔ ∀ step ∈ entries.filterMap (stepOfEntry .phone), step.HeldBy .watch := by
  simp only [List.mem_filterMap, forall_exists_index, and_imp]
  constructor
  · intro fit step entry member read t timed
    obtain ⟨text, found, rfl⟩ := Option.map_eq_some_iff.mp read
    exact fit entry member t (by simp [found]) timed
  · intro held entry member t hasText timed
    obtain ⟨text, found⟩ := Option.ne_none_iff_exists'.mp hasText
    have read : stepOfEntry .phone entry = some ⟨text, some t⟩ := by simp [stepOfEntry, found, timed]
    exact held _ entry member read t rfl

/-- Entries in key order are all dictionaries, so none of them abandons the record. -/
theorem all_dictionaries (stp : AnyDictionary) (entries : List AnyDictionary)
    (order : InKeyOrder stp entries) : stp.All IsDictionary := by
  obtain ⟨listing, lists, _, values⟩ := order
  refine (lists.all_iff IsDictionary).mpr ?_
  intro e member
  have inside : e.2 ∈ entries.map AnyValue.dictionary := values ▸ List.mem_map_of_mem member
  obtain ⟨entry, _, same⟩ := List.mem_map.mp inside
  rw [← same]
  rfl

/-- On the same entries the watch reads the first steps of the phone as it holds
them, and exactly the phone's steps when no entry with a text comes after one
without and the times fit. -/
theorem readers_agree_iff (E : Enumeration String AnyValue) (self after : ParseManager)
    (d ing stp : AnyDictionary) (r : Recipes) (success : parseRecipe E self d = .ok (after, r))
    (ingredientes : dictionaryAt d "Ingredientes" = some ing)
    (passos : dictionaryAt d "Passos" = some stp)
    (entries : List AnyDictionary) (order : InKeyOrder stp entries) (context : OptionalDictionary)
    (sent : context.get? "steps" = some (some (.array (entries.map .dictionary)))) :
    decodeInWatch context <+: r.stepsOn .watch ∧
      (decodeInWatch context = r.steps ↔
        (entries.Pairwise fun earlier later =>
          stringAt earlier "Texto" = none → stringAt later "Texto" = none) ∧ TimesFit entries) := by
  have accepted : Accepted d ing stp := ⟨ingredientes, passos, all_dictionaries stp entries order⟩
  have reads := parseRecipe_accepted E self d after r success ing stp accepted
  rw [Recipes.stepsOn, reads.steps, steps_in_key_order E stp entries order,
    decodeInWatch_eq context entries sent]
  have first := readUntil_prefix (stepOfEntry .phone) entries
  have defects : DefectsLast (stepOfEntry .phone) entries ↔ entries.Pairwise fun earlier later =>
      stringAt earlier "Texto" = none → stringAt later "Texto" = none := by
    simp only [DefectsLast, stepOfEntry_none_iff]
  refine ⟨first.map (Step.on .watch), ?_⟩
  rw [← defects, ← readUntil_eq_filterMap_iff, timesFit_iff]
  have held : (entries.filterMap (stepOfEntry .phone)).map (Step.on .watch) =
      entries.filterMap (stepOfEntry .phone) ↔
        ∀ step ∈ entries.filterMap (stepOfEntry .phone), step.HeldBy .watch :=
    map_on_eq_iff .watch _
  constructor
  · intro same
    -- holding a time changes no length, so nothing is lost before the last entry
    have lengths := congrArg List.length same
    rw [List.length_map] at lengths
    have all := first.eq_of_length lengths
    exact ⟨all, held.mp (all ▸ same)⟩
  · rintro ⟨all, fit⟩
    rw [all]
    exact held.mpr fit

/-- An entry with nothing but a text. -/
def textEntry (text : String) : AnyDictionary := Dictionary.empty.set "Texto" (.string text)

/-- An entry with nothing but a time. -/
def timeEntry (minutes : Int) : AnyDictionary := Dictionary.empty.set "Tempo" (.int minutes)

def contextOf (entries : List AnyDictionary) : OptionalDictionary :=
  Dictionary.empty.set "steps" (some (.array (entries.map .dictionary)))

/-- Two entries under ascending keys. -/
def twoEntries (first second : AnyDictionary) : AnyDictionary :=
  (Dictionary.empty.set "1" (.dictionary first)).set "2" (.dictionary second)

theorem twoEntries_inKeyOrder (first second : AnyDictionary) :
    InKeyOrder (twoEntries first second) [first, second] := by
  have less : "1" < "2" := by decide
  have lists : (twoEntries first second).Lists
      [("1", .dictionary first), ("2", .dictionary second)] := by
    constructor
    · simp
    · intro k v
      simp only [twoEntries, Dictionary.get?_set, Dictionary.get?_empty]
      by_cases one : k = "1"
      · simp [one, eq_comm]
      · by_cases two : k = "2" <;> simp [one, two, eq_comm]
  exact ⟨_, lists, List.pairwise_pair.mpr less, rfl⟩

def twoStepRecord (first second : AnyDictionary) : AnyDictionary :=
  dish (Dictionary.empty.set "i1" (.string "Berinjela")) (twoEntries first second)

theorem corte_fits : TimesFit [textEntry "Corte", timeEntry 5] := by
  intro entry member t hasText timed
  simp only [List.mem_cons, List.not_mem_nil, or_false] at member
  rcases member with rfl | rfl
  · cases timed
  · exact absurd rfl hasText

/-- An entry without a text at the end is skipped by both readers. -/
theorem defect_at_the_end :
    decodeInWatch (contextOf [textEntry "Corte", timeEntry 5]) = [⟨"Corte", none⟩] :=
  (readers_agree_iff Enumeration.ascending .new
    ⟨["Berinjela"], [⟨"Corte", none⟩]⟩ (twoStepRecord (textEntry "Corte") (timeEntry 5)) _ _
    ⟨"Ratatouille", ["Berinjela"], "40 min", "4", "http://foto", [⟨"Corte", none⟩]⟩ rfl rfl rfl
    [textEntry "Corte", timeEntry 5] (twoEntries_inKeyOrder _ _)
    (contextOf [textEntry "Corte", timeEntry 5]) rfl).2.mpr
      ⟨List.pairwise_pair.mpr fun _ => rfl, corte_fits⟩

/-- Before a text it ends the watch's list and not the phone's. -/
theorem defect_before_a_step :
    ∃ after r, parseRecipe Enumeration.ascending .new
        (twoStepRecord (timeEntry 5) (textEntry "Corte")) = .ok (after, r) ∧
      dictionaryAt (twoStepRecord (timeEntry 5) (textEntry "Corte")) "Passos" =
        some (twoEntries (timeEntry 5) (textEntry "Corte")) ∧
      InKeyOrder (twoEntries (timeEntry 5) (textEntry "Corte")) [timeEntry 5, textEntry "Corte"] ∧
      r.steps = [⟨"Corte", none⟩] ∧
      decodeInWatch (contextOf [timeEntry 5, textEntry "Corte"]) = [] ∧
      decodeInWatch (contextOf [timeEntry 5, textEntry "Corte"]) ≠ r.steps := by
  have watch : decodeInWatch (contextOf [timeEntry 5, textEntry "Corte"]) = [] := rfl
  refine ⟨_, ⟨"Ratatouille", ["Berinjela"], "40 min", "4", "http://foto", [⟨"Corte", none⟩]⟩, rfl, rfl,
    twoEntries_inKeyOrder _ _, rfl, watch, ?_⟩
  rw [watch]
  simp

end WatchAndSee.Guarantees.StepReaders
