import Mathlib.Data.List.Basic

/-! # A text with a caret in it

A `Zipper` keeps a list apart at a caret: the elements before it, the nearest first, and those from it
on. Inserting, deleting and moving at the caret are steps on the heads of the two lists.

A program keeps the whole text and the caret as a number instead. `text` and `caret` are that view of
a zipper, and the lemmas say what each operation does to it, in terms of `take`, `drop` and indices. -/

namespace MeetixOS.Lib

/-- The elements before the caret, from the caret to the start, and those behind it. -/
structure Zipper (α : Type) where
  before : List α
  after : List α
  deriving DecidableEq

namespace Zipper

variable {α : Type}

def text (z : Zipper α) : List α := z.before.reverse ++ z.after

/-- How many elements are before the caret. -/
def caret (z : Zipper α) : Nat := z.before.length

/-- The caret in front of a text. -/
def atStart (text : List α) : Zipper α := ⟨[], text⟩

/-- The caret behind a text. -/
def atEnd (text : List α) : Zipper α := ⟨text.reverse, []⟩

def insert (z : Zipper α) (a : α) : Zipper α := ⟨a :: z.before, z.after⟩

def deleteLeft (z : Zipper α) : Zipper α := ⟨z.before.tail, z.after⟩

/-- One element to the left, if there is one. -/
def left (z : Zipper α) : Zipper α :=
  match z.before with
  | [] => z
  | a :: before => ⟨before, a :: z.after⟩

/-- One element to the right, if there is one. -/
def right (z : Zipper α) : Zipper α :=
  match z.after with
  | [] => z
  | a :: after => ⟨a :: z.before, after⟩

/-! ## The operations on the text and the number -/

variable (z : Zipper α)

theorem caret_le : z.caret ≤ z.text.length := by
  simp [caret, text]

theorem take_caret : z.text.take z.caret = z.before.reverse := by
  simp [caret, text]

theorem drop_caret : z.text.drop z.caret = z.after := by
  simp [caret, text]

@[simp] theorem caret_insert (a : α) : (z.insert a).caret = z.caret + 1 := rfl

theorem text_insert (a : α) :
    (z.insert a).text = z.text.take z.caret ++ a :: z.text.drop z.caret := by
  rw [take_caret, drop_caret]
  simp [insert, text]

@[simp] theorem caret_deleteLeft : z.deleteLeft.caret = z.caret - 1 := by
  simp [deleteLeft, caret]

theorem text_deleteLeft :
    z.deleteLeft.text = z.text.take (z.caret - 1) ++ z.text.drop z.caret := by
  rw [drop_caret]
  obtain ⟨before, after⟩ := z
  cases before with
  | nil | cons a before => simp [deleteLeft, text, caret]

@[simp] theorem text_left : z.left.text = z.text := by
  obtain ⟨before, after⟩ := z
  cases before with
  | nil => rfl
  | cons a before => simp [left, text]

@[simp] theorem caret_left : z.left.caret = z.caret - 1 := by
  obtain ⟨before, after⟩ := z
  cases before with
  | nil => rfl
  | cons a before => simp [left, caret]

@[simp] theorem text_right : z.right.text = z.text := by
  obtain ⟨before, after⟩ := z
  cases after with
  | nil => rfl
  | cons a after => simp [right, text]

theorem caret_right :
    z.right.caret = if z.caret < z.text.length then z.caret + 1 else z.caret := by
  obtain ⟨before, after⟩ := z
  cases after with
  | nil | cons a after => simp [right, caret, text]

end Zipper

end MeetixOS.Lib
