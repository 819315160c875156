import Mathlib.Tactic

/-! # Buffers behind a lock

A buffer that threads fill at the back and one thread empties from the back, with the lock that they
take for it. The buffer also records what was pushed and what was taken so far. Nothing gets lost or
doubled (`Conserved`); the order is that of pushing (`InOrder`) where no two elements of one kind
are in the buffer when one of them is taken (`InOrder.takeBack`). -/

namespace MeetixOS.Lib

/-- A buffer of `α` behind a lock that threads of type `ω` hold, and its history. -/
structure LockedBuffer (α ω : Type) where
  items : List α
  lock : Option ω
  pushed : List α
  taken : List α

namespace LockedBuffer

variable {α ω κ : Type}

/-- The empty buffer. -/
def empty : LockedBuffer α ω := ⟨[], none, [], []⟩

/-- Take the lock; `none` while it is held. -/
def acquire (self : ω) (b : LockedBuffer α ω) : Option (LockedBuffer α ω) :=
  match b.lock with
  | none => some { b with lock := some self }
  | some _ => none

/-- Give the lock back. -/
def release (b : LockedBuffer α ω) : LockedBuffer α ω := { b with lock := none }

/-- Put an element at the back. -/
def push (a : α) (b : LockedBuffer α ω) : LockedBuffer α ω :=
  { b with items := b.items ++ [a], pushed := b.pushed ++ [a] }

/-- Take the element at the back. -/
def takeBack (b : LockedBuffer α ω) : Option (α × LockedBuffer α ω) :=
  b.items.getLast?.map fun a =>
    (a, { b with items := b.items.dropLast, taken := b.taken ++ [a] })

variable {b b' : LockedBuffer α ω}

theorem acquire_eq_some_iff {self : ω} :
    b.acquire self = some b' ↔ b.lock = none ∧ b' = { b with lock := some self } := by
  unfold acquire
  cases h : b.lock with
  | none => simp [eq_comm]
  | some t => simp

variable {b : LockedBuffer α ω}

theorem acquire_eq_none_iff {self : ω} :
    b.acquire self = none ↔ ∃ t, b.lock = some t := by
  unfold acquire
  cases h : b.lock <;> simp

theorem takeBack_eq_some_iff {a : α} :
    b.takeBack = some (a, b') ↔
      ∃ front, b.items = front ++ [a] ∧ b' = { b with items := front, taken := b.taken ++ [a] } := by
  unfold takeBack
  constructor
  · intro h
    obtain ⟨c, hc, heq⟩ := Option.map_eq_some_iff.mp h
    obtain ⟨rfl, rfl⟩ := Prod.mk.inj heq
    obtain ⟨front, hfront⟩ := List.getLast?_eq_some_iff.mp hc
    exact ⟨front, hfront, by simp [hfront]⟩
  · rintro ⟨front, hfront, rfl⟩
    simp [hfront]

theorem takeBack_eq_none_iff : b.takeBack = none ↔ b.items = [] := by
  simp [takeBack]

/-! ## Nothing gets lost -/

/-- What was pushed was taken or is still there. -/
def Conserved (b : LockedBuffer α ω) : Prop := b.pushed.Perm (b.taken ++ b.items)

theorem Conserved.push (h : b.Conserved) (a : α) : (b.push a).Conserved := by
  unfold Conserved LockedBuffer.push
  rw [← List.append_assoc]
  exact List.Perm.append_right [a] h

theorem Conserved.takeBack {a : α} (h : b.Conserved)
    (htake : b.takeBack = some (a, b')) : b'.Conserved := by
  obtain ⟨front, hfront, rfl⟩ := takeBack_eq_some_iff.mp htake
  unfold Conserved at h ⊢
  rw [hfront] at h
  refine h.trans ?_
  rw [List.append_assoc]
  exact List.Perm.append_left _ List.perm_append_comm

/-! ## The order -/

variable [DecidableEq κ]

/-- The elements of each kind were taken in the order they were pushed in, and those still there follow
them in this order. -/
def InOrder (kind : α → κ) (b : LockedBuffer α ω) : Prop :=
  ∀ k, b.pushed.filter (kind · = k) =
    b.taken.filter (kind · = k) ++ b.items.filter (kind · = k)

section

variable {kind : α → κ} {b : LockedBuffer α ω} (h : b.InOrder kind)
include h

theorem InOrder.push (a : α) : (b.push a).InOrder kind := by
  intro k
  simp [LockedBuffer.push, h k]

/-- Taking from the back keeps the order where no element of the same kind is before it. -/
theorem InOrder.takeBack {a : α} {b' : LockedBuffer α ω} (hnodup : (b.items.map kind).Nodup)
    (htake : b.takeBack = some (a, b')) : b'.InOrder kind := by
  obtain ⟨front, hfront, rfl⟩ := takeBack_eq_some_iff.mp htake
  intro k
  have hk := h k
  rw [hfront, List.filter_append] at hk
  simp only [List.filter_append]
  rw [hk, List.append_assoc]
  congr 1
  by_cases hkind : kind a = k
  · have hnone : front.filter (kind · = k) = [] := by
      rw [List.filter_eq_nil_iff]
      intro c hc hck
      rw [hfront, List.map_append, List.nodup_append] at hnodup
      refine hnodup.2.2 (kind c) (List.mem_map_of_mem hc) (kind a) (by simp) ?_
      rw [hkind]
      simpa using hck
    rw [hnone]
    simp
  · simp [hkind]

theorem InOrder.taken_first (k : κ) :
    b.taken.filter (kind · = k) <+: b.pushed.filter (kind · = k) := by
  rw [h k]
  exact List.prefix_append _ _

end

end LockedBuffer

end MeetixOS.Lib
