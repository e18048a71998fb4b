import WatchAndSee.Library.DecimalText
import WatchAndSee.Library.MarkedBlocks
import WatchAndSee.Source.ParseWatch

/-!
# WatchAndSee Watch Extension/InterfaceController.swift

The block that `session(_:didReceiveApplicationContext:)` hands to the main
queue: it decodes the context and presents one page or two for each step.
-/

set_option autoImplicit false

namespace WatchAndSee.Source
open Library

structure InterfaceController where
  steps : List Step
  deriving DecidableEq, Repr

/-- `InterfaceController()` -/
def InterfaceController.new : InterfaceController := ⟨[]⟩

/-- The arguments of `presentController(withNames:contexts:)`. -/
structure Pages where
  controllers : List String
  context : List String
  deriving DecidableEq, Repr

/-- Body of the page loop. -/
def appendPages (pages : Pages) (currentStep : Step) : Pages :=
  let text := currentStep.text
  let context := pages.context ++ [text]
  let stepControl := "StepInterfaceController"
  let controllers := pages.controllers ++ [stepControl]
  match currentStep.time with
  | some time =>
    let timeValue := DecimalText.integer time
    let control := "TimerInterfaceController"
    ⟨controllers ++ [control], context ++ [timeValue]⟩
  | none => ⟨controllers, context⟩

/-- The block of `session(_:didReceiveApplicationContext:)`, with the pages
that it presents. -/
def receiveBlock (self : InterfaceController) (applicationContext : AnyDictionary) :
    InterfaceController × Pages :=
  let self := { self with steps := decodeInWatch (optionals applicationContext) }
  (self, self.steps.foldl appendPages ⟨[], []⟩)

/-! ## The pages of a step list -/

/-- A step is one page with its text, and a timed step one more. -/
def stepBlocks : MarkedBlocks Step (String × String) where
  head step := ("StepInterfaceController", step.text)
  tail step := (step.time.map fun t => ("TimerInterfaceController", DecimalText.integer t)).toList
  marked page := page.1 == "StepInterfaceController"
  head_marked _ := rfl
  tail_unmarked step page member := by
    simp only [Option.mem_toList, Option.map_eq_some_iff] at member
    obtain ⟨t, _, rfl⟩ := member
    rfl

/-- The loop keeps the two arrays parallel. -/
theorem page_loop (steps : List Step) (pages : List (String × String)) :
    steps.foldl appendPages ⟨pages.map Prod.fst, pages.map Prod.snd⟩ =
      ⟨(pages ++ stepBlocks.write steps).map Prod.fst,
        (pages ++ stepBlocks.write steps).map Prod.snd⟩ := by
  induction steps generalizing pages with
  | nil => simp
  | cons step rest ih =>
    have body : appendPages ⟨pages.map Prod.fst, pages.map Prod.snd⟩ step =
        ⟨(pages ++ stepBlocks.head step :: stepBlocks.tail step).map Prod.fst,
          (pages ++ stepBlocks.head step :: stepBlocks.tail step).map Prod.snd⟩ := by
      unfold appendPages
      cases timed : step.time <;> simp [stepBlocks, timed]
    rw [List.foldl_cons, body, ih, MarkedBlocks.write_cons]
    simp only [List.append_assoc, List.cons_append]

theorem page_arrays (steps : List Step) :
    steps.foldl appendPages ⟨[], []⟩ =
      ⟨(stepBlocks.write steps).map Prod.fst, (stepBlocks.write steps).map Prod.snd⟩ :=
  page_loop steps []

theorem steps_of_blocks (steps others : List Step)
    (same : stepBlocks.write steps = stepBlocks.write others) : steps = others := by
  refine stepBlocks.write_injective ?_ same
  intro a b heads tails
  have texts : a.text = b.text := (Prod.mk.inj heads).2
  have times : a.time = b.time := by
    obtain ⟨_, timeA⟩ := a
    obtain ⟨_, timeB⟩ := b
    cases timeA <;> cases timeB <;> simp [stepBlocks] at tails ⊢
    exact DecimalText.integer_injective tails
  cases a
  cases b
  simp_all

end WatchAndSee.Source
