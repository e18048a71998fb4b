import Mathlib.Logic.Function.Basic

/-!
# Flat lists of marked blocks

A list of items is written as one flat list: each item becomes a marked head
followed by unmarked entries. The marks alone recover where each item begins,
so the flat list determines the items as soon as each block determines its own.
-/

set_option autoImplicit false

namespace WatchAndSee.Library

universe u v

structure MarkedBlocks (α : Type u) (β : Type v) where
  head : α → β
  tail : α → List β
  marked : β → Bool
  head_marked : ∀ a, marked (head a) = true
  tail_unmarked : ∀ a, ∀ b ∈ tail a, marked b = false

namespace MarkedBlocks

variable {α : Type u} {β : Type v} (M : MarkedBlocks α β)

def write (items : List α) : List β := items.flatMap fun a => M.head a :: M.tail a

@[simp] theorem write_nil : M.write [] = [] := rfl

theorem write_cons (a : α) (rest : List α) :
    M.write (a :: rest) = M.head a :: (M.tail a ++ M.write rest) := rfl

/-- The marked entries are the heads, in order. -/
theorem filter_write (items : List α) : (M.write items).filter M.marked = items.map M.head := by
  induction items with
  | nil => rfl
  | cons a rest ih =>
    have tail : (M.tail a).filter M.marked = [] := by
      rw [List.filter_eq_nil_iff]
      intro b member
      simp [M.tail_unmarked a b member]
    rw [write_cons, List.filter_cons_of_pos (M.head_marked a), List.filter_append, tail, ih]
    rfl

/-- The entries up to the next mark are the tail of the block. -/
theorem takeWhile_tail (a : α) (rest : List α) :
    (M.tail a ++ M.write rest).takeWhile (fun b => !M.marked b) = M.tail a := by
  rw [List.takeWhile_append_of_pos]
  · cases rest with
    | nil => simp
    | cons b others => simp [write_cons, M.head_marked]
  · intro b member
    simp [M.tail_unmarked a b member]

/-- Blocks that determine their items make the flat list determine the list. -/
theorem write_injective
    (determined : ∀ a b, M.head a = M.head b → M.tail a = M.tail b → a = b) :
    Function.Injective M.write := by
  intro left
  induction left with
  | nil =>
    intro right same
    cases right with
    | nil => rfl
    | cons b others => simp [write_cons] at same
  | cons a rest ih =>
    intro right same
    cases right with
    | nil => simp [write_cons] at same
    | cons b others =>
      rw [write_cons, write_cons, List.cons.injEq] at same
      obtain ⟨heads, flat⟩ := same
      have tails : M.tail a = M.tail b := by
        rw [← M.takeWhile_tail a rest, flat, M.takeWhile_tail]
      rw [tails, List.append_cancel_left_eq] at flat
      rw [determined a b heads tails, ih flat]

end MarkedBlocks

end WatchAndSee.Library
