import Mathlib.Data.List.Induction

/-! # Slots of raw memory and objects

An array of slots that hold an object or raw memory. Objects are constructed into slots, destroyed and
moved from one slot to another, one by one or all at once with `memmove`. An access outside of the
array, or to raw memory where an object has to be, is a fault, and so are an assertion that fails and a
division by zero. -/

open List (append_assoc cons_append length_append length_cons length_eq_zero_iff)

namespace Slots

/-- Why a program is stopped. -/
inductive Fault
  | verify
  | access
  | divide
  deriving DecidableEq, Repr

/-- `none` is raw memory. -/
abbrev Storage (α : Type) := List (Option α)

abbrev Checked (β : Type) := Except Fault β

variable {α : Type}

/-! ## Single slots -/

/-- An assertion of a debug build, which stops the program. -/
def verify (p : Prop) [Decidable p] : Checked Unit :=
  if p then .ok () else .error .verify

/-- Reads the object in a slot. -/
def read (slots : Storage α) (i : Nat) : Checked α :=
  match slots[i]? with
  | some (some x) => .ok x
  | _ => .error .access

/-- Writes an object into a slot. -/
def construct (slots : Storage α) (i : Nat) (x : α) : Checked (Storage α) :=
  if i < slots.length then .ok (slots.set i (some x)) else .error .access

/-- Leaves raw memory behind in the slot of an object. -/
def destroy (slots : Storage α) (i : Nat) : Checked (Storage α) := do
  let _ ← read slots i
  return slots.set i none

/-- Moves an object into another slot and destroys what is left of it. -/
def relocate (slots : Storage α) (target source : Nat) : Checked (Storage α) := do
  let x ← read slots source
  let slots ← construct slots target x
  return slots.set source none

/-- Copies `n` slots as they were before the copy; nothing is accessed where `n` is zero. -/
def memmove (slots : Storage α) (target source n : Nat) : Checked (Storage α) :=
  if n = 0 then
    .ok slots
  else if source + n ≤ slots.length ∧ target + n ≤ slots.length then
    .ok (slots.take target ++ ((slots.drop source).take n ++ slots.drop (target + n)))
  else
    .error .access

@[simp] theorem ok_bind {β γ : Type} (x : β) (f : β → Checked γ) : (Except.ok x >>= f) = f x := rfl

@[simp] theorem pure_eq_ok {β : Type} (x : β) : (pure x : Checked β) = .ok x := rfl

theorem verify_of {p : Prop} [Decidable p] (h : p) : verify p = .ok () := if_pos h

variable (front rest : Storage α) {i : Nat}

section

variable (hi : i = front.length)
include hi

theorem read_append (x : α) : read (front ++ some x :: rest) i = .ok x := by
  rw [hi, read, List.getElem?_append_right (Nat.le_refl _), Nat.sub_self]
  rfl

theorem construct_append (y : Option α) (x : α) :
    construct (front ++ y :: rest) i x = .ok (front ++ some x :: rest) := by
  rw [hi, construct, if_pos (by simp), List.set_append_right _ _ (Nat.le_refl _), Nat.sub_self]
  rfl

theorem destroy_append (x : α) :
    destroy (front ++ some x :: rest) i = .ok (front ++ none :: rest) := by
  rw [destroy, read_append front _ hi, hi, ok_bind, List.set_append_right _ _ (Nat.le_refl _), Nat.sub_self]
  rfl

theorem relocate_up (x : α) (y : Option α) :
    relocate (front ++ some x :: y :: rest) (i + 1) i = .ok (front ++ none :: some x :: rest) := by
  have hconstruct : construct (front ++ some x :: y :: rest) (i + 1) x =
      .ok (front ++ some x :: some x :: rest) := by
    have hat := construct_append (front ++ [some x]) rest (i := i + 1)
      (by rw [length_append, hi]; rfl) y x
    rwa [append_assoc, append_assoc] at hat
  rw [relocate, read_append front _ hi, ok_bind, hconstruct, hi, ok_bind,
    List.set_append_right _ _ (Nat.le_refl _), Nat.sub_self]
  rfl

theorem relocate_down (x : α) (y : Option α) :
    relocate (front ++ y :: some x :: rest) i (i + 1) = .ok (front ++ some x :: none :: rest) := by
  have hread : read (front ++ y :: some x :: rest) (i + 1) = .ok x := by
    have hat := read_append (front ++ [y]) rest (i := i + 1)
      (by rw [length_append, hi]; rfl) x
    rwa [append_assoc] at hat
  rw [relocate, hread, ok_bind, construct_append front _ hi, hi, ok_bind,
    List.set_append_right _ _ (Nat.le_succ _), Nat.succ_sub (Nat.le_refl _), Nat.sub_self]
  rfl

end

/-! ## Loops -/

/-- `for ( i = count; i > index; --i )`: the objects from `index` on go one slot up, the last one first. -/
def relocateUp (count index : Nat) : Nat → Storage α → Checked (Storage α)
  | 0, slots => .ok slots
  | i + 1, slots =>
    if index < i + 1 then do
      verify (i < count)
      let slots ← relocate slots (i + 1) i
      relocateUp count index i slots
    else
      .ok slots

/-- `for ( ; i < count; ++i )` with `n` rounds: the objects from `i` on go one slot down. -/
def relocateDown : (n : Nat) → (i : Nat) → Storage α → Checked (Storage α)
  | 0, _, slots => .ok slots
  | n + 1, i, slots => do
      let slots ← relocate slots (i - 1) i
      relocateDown n (i + 1) slots

/-- `n` objects are destroyed, from `i` on. -/
def destroyFrom : (n : Nat) → (i : Nat) → Storage α → Checked (Storage α)
  | 0, _, slots => .ok slots
  | n + 1, i, slots => do
      let slots ← destroy slots i
      destroyFrom n (i + 1) slots

/-- `n` objects are constructed with one value, from `i` on. -/
def constructFrom (x : α) : (n : Nat) → (i : Nat) → Storage α → Checked (Storage α)
  | 0, _, slots => .ok slots
  | n + 1, i, slots => do
      let slots ← construct slots i x
      constructFrom x n (i + 1) slots

/-- `n` objects are moved into other slots of the same indices, from `i` on. -/
def relocateInto (slots : Storage α) (count : Nat) :
    (n : Nat) → (i : Nat) → Storage α → Checked (Storage α)
  | 0, _, target => .ok target
  | n + 1, i, target => do
      verify (i < count)
      let x ← read slots i
      let target ← construct target i x
      relocateInto slots count n (i + 1) target

/-- `n` slots are copied to the start of another array. -/
def memmoveInto (slots : Storage α) (n : Nat) (target : Storage α) : Checked (Storage α) :=
  if n = 0 then
    .ok target
  else if n ≤ slots.length ∧ n ≤ target.length then
    .ok (slots.take n ++ target.drop n)
  else
    .error .access

section

variable (block : List α) (y : Option α) (hi : i = front.length)
include hi

theorem relocateUp_append {count : Nat} (hcount : i + block.length ≤ count) :
    ∃ y', relocateUp count i (i + block.length) (front ++ (block.map some ++ y :: rest)) =
      .ok (front ++ y' :: (block.map some ++ rest)) := by
  induction block using List.reverseRecOn generalizing y rest with
  | nil =>
    refine ⟨y, ?_⟩
    cases i with
    | zero => rfl
    | succ i => exact if_neg (Nat.lt_irrefl _)
  | append_singleton block x ih =>
    rw [length_append, List.length_singleton] at hcount
    obtain ⟨y', hrest⟩ := ih (some x :: rest) none (by omega)
    refine ⟨y', ?_⟩
    have hmove := relocate_up (front ++ block.map some) rest
      (i := i + block.length) (by rw [length_append, List.length_map, hi]) x y
    rw [length_append, List.length_singleton, ← Nat.add_assoc, relocateUp, if_pos (by omega),
      verify_of (by omega), ok_bind, List.map_append, List.map_singleton, append_assoc,
      ← append_assoc, List.singleton_append, hmove, ok_bind, append_assoc, hrest,
      append_assoc]
    rfl

theorem memmove_up :
    ∃ y', memmove (front ++ (block.map some ++ y :: rest)) (i + 1) i block.length =
      .ok (front ++ y' :: (block.map some ++ rest)) := by
  by_cases hempty : block.length = 0
  · rw [length_eq_zero_iff.1 hempty]
    exact ⟨y, if_pos rfl⟩
  · obtain ⟨x, block, rfl⟩ := List.exists_cons_of_ne_nil (mt length_eq_zero_iff.2 hempty)
    refine ⟨some x, ?_⟩
    rw [memmove, if_neg hempty, if_pos (by simp; omega), hi]
    simp [List.take_append, List.drop_append, List.take_of_length_le, List.drop_of_length_le,
      Nat.add_assoc, Nat.add_comm 1]

/-- The slot in front of a block of objects is filled with the first of them, and so on. -/
theorem relocateDown_append :
    ∃ y', relocateDown block.length (i + 1) (front ++ y :: (block.map some ++ rest)) =
      .ok (front ++ (block.map some ++ y' :: rest)) := by
  induction block generalizing front i y with
  | nil => exact ⟨y, rfl⟩
  | cons x block ih =>
    obtain ⟨y', hrest⟩ := ih (front ++ [some x]) (i := i + 1) none
      (by rw [length_append, hi]; rfl)
    refine ⟨y', ?_⟩
    rw [append_assoc, append_assoc] at hrest
    rw [length_cons, relocateDown, Nat.add_sub_cancel, List.map_cons, cons_append,
      relocate_down front _ hi, ok_bind]
    exact hrest

theorem memmove_down :
    ∃ y', memmove (front ++ y :: (block.map some ++ rest)) i (i + 1) block.length =
      .ok (front ++ (block.map some ++ y' :: rest)) := by
  by_cases hempty : block.length = 0
  · rw [length_eq_zero_iff.1 hempty]
    exact ⟨y, if_pos rfl⟩
  · obtain ⟨y', hlast⟩ : ∃ y', (y :: (block.map some ++ rest)).drop block.length = y' :: rest := by
      obtain ⟨block, x, rfl⟩ := List.eq_nil_or_concat block |>.resolve_left
        (mt length_eq_zero_iff.2 hempty)
      exact ⟨some x, by simp⟩
    refine ⟨y', ?_⟩
    rw [memmove, if_neg hempty, if_pos (by simp; omega), hi]
    have hdrop : (front ++ y :: (block.map some ++ rest)).drop (front.length + block.length) =
        y' :: rest := by
      rw [← List.drop_drop, List.drop_left, hlast]
    rw [hdrop, List.take_left]
    simp [List.drop_append, List.take_append]

end

theorem destroyFrom_append (block : List α) (hi : i = front.length) :
    destroyFrom block.length i (front ++ (block.map some ++ rest)) =
      .ok (front ++ (List.replicate block.length none ++ rest)) := by
  induction block generalizing front i with
  | nil => rfl
  | cons x block ih =>
    have hrest := ih (front ++ [none]) (i := i + 1) (by rw [length_append, hi]; rfl)
    rw [append_assoc, append_assoc] at hrest
    rw [length_cons, destroyFrom, List.map_cons, cons_append, destroy_append front _ hi, ok_bind]
    exact hrest

theorem constructFrom_append (x : α) (raw : Storage α) (hi : i = front.length) :
    constructFrom x raw.length i (front ++ (raw ++ rest)) =
      .ok (front ++ (List.replicate raw.length (some x) ++ rest)) := by
  induction raw generalizing front i with
  | nil => rfl
  | cons y raw ih =>
    have hrest := ih (front ++ [some x]) (i := i + 1) (by rw [length_append, hi]; rfl)
    rw [append_assoc, append_assoc] at hrest
    rw [length_cons, constructFrom, cons_append, construct_append front _ hi, ok_bind]
    exact hrest

theorem relocateInto_append (target : Storage α) (block : List α) {raw after : Storage α} {count : Nat}
    (hi : i = front.length) (htarget : i = target.length) (hraw : raw.length = block.length)
    (hcount : i + block.length ≤ count) :
    relocateInto (front ++ (block.map some ++ rest)) count block.length i (target ++ (raw ++ after)) =
      .ok (target ++ (block.map some ++ after)) := by
  induction block generalizing front target raw i with
  | nil =>
    rw [length_eq_zero_iff.1 hraw]
    rfl
  | cons x block ih =>
    obtain ⟨y, raw, rfl⟩ := List.exists_cons_of_length_eq_add_one hraw
    rw [length_cons] at hcount
    have hrest := ih (front ++ [some x]) (target ++ [some x]) (i := i + 1)
      (by rw [length_append, hi]; rfl) (by rw [length_append, htarget]; rfl)
      (Nat.succ.inj hraw) (by omega)
    simp only [append_assoc, List.singleton_append] at hrest
    rw [length_cons, relocateInto, verify_of (by omega), ok_bind, List.map_cons, cons_append,
      read_append front _ hi, ok_bind, cons_append, construct_append target _ htarget, ok_bind]
    exact hrest

theorem memmoveInto_append (block : List α) {raw after : Storage α} (hraw : raw.length = block.length) :
    memmoveInto (block.map some ++ rest) block.length (raw ++ after) =
      .ok (block.map some ++ after) := by
  rw [memmoveInto]
  split
  next hempty =>
    rw [length_eq_zero_iff.1 hempty] at hraw ⊢
    rw [length_eq_zero_iff.1 hraw]
    rfl
  next =>
    rw [if_pos (by simp [hraw]), List.take_left' (List.length_map _), List.drop_left' hraw]

end Slots
