import Mathlib.Logic.Function.Basic

/-! # Memory behind pages

Bytes lie in pages, `contents page offset`; a program sees them through a `view`, which says which
page is behind a number, if any. `writeThrough` writes a run of addresses, one after the other. Where
no page is behind two numbers, every address of the run has its byte afterwards
(`writeThrough_value`), and what the run does not come to is as it was (`writeThrough_frame`). -/

namespace MeetixOS.Lib

variable {κ β : Type} [DecidableEq κ] {size : Nat} {view : Nat → Option κ} {byte : Nat → β}
  {n address x : Nat} {c c' : κ → Nat → β} {q : κ} {o : Nat}

/-- One byte is written. -/
def setByte (c : κ → Nat → β) (page : κ) (offset : Nat) (b : β) : κ → Nat → β :=
  fun q o => if q = page ∧ o = offset then b else c q o

/-- `n` bytes from `address` on are written, each as `byte` gives it for its address; `none` if no page
is behind one of them. -/
def writeThrough (size : Nat) (view : Nat → Option κ) (byte : Nat → β) :
    Nat → Nat → (κ → Nat → β) → Option (κ → Nat → β)
  | 0, _, c => some c
  | n + 1, address, c =>
    match view (address / size) with
    | none => none
    | some page =>
      writeThrough size view byte n (address + 1)
        (setByte c page (address % size) (byte address))

/-- There is no page behind two numbers. -/
def Apart (view : Nat → Option κ) : Prop :=
  ∀ v w q, view v = some q → view w = some q → v = w

theorem writeThrough_succ (h : writeThrough size view byte (n + 1) address c = some c') :
    ∃ page, view (address / size) = some page ∧
      writeThrough size view byte n (address + 1)
        (setByte c page (address % size) (byte address)) = some c' := by
  rw [writeThrough] at h
  split at h
  · cases h
  next page hpage => exact ⟨page, hpage, h⟩

section

variable (h : writeThrough size view byte n address c = some c')
include h

theorem writeThrough_frame
    (hother : ∀ x, address ≤ x → x < address + n → view (x / size) = some q → x % size ≠ o) :
    c' q o = c q o := by
  induction n generalizing address c with
  | zero =>
    cases h
    rfl
  | succ n ih =>
    obtain ⟨page, hpage, h⟩ := writeThrough_succ h
    rw [ih h fun x hle hlt => hother x (by omega) (by omega), setByte, if_neg]
    rintro ⟨rfl, rfl⟩
    exact hother address (Nat.le_refl _) (by omega) hpage rfl

/-- Where no page is behind two numbers, an address outside of the run keeps its byte. -/
theorem writeThrough_outside (hapart : Apart view) (hout : x < address ∨ address + n ≤ x)
    (hq : view (x / size) = some q) : c' q (x % size) = c q (x % size) := by
  refine writeThrough_frame h fun y hle hlt hy hmod => ?_
  have hdiv := hapart _ _ _ hy hq
  have hy' := Nat.div_add_mod y size
  have hx' := Nat.div_add_mod x size
  rw [hdiv, hmod] at hy'
  omega

theorem writeThrough_value (hapart : Apart view) (hle : address ≤ x) (hlt : x < address + n)
    (hq : view (x / size) = some q) : c' q (x % size) = byte x := by
  induction n generalizing address c with
  | zero => omega
  | succ n ih =>
    obtain ⟨page, hpage, h⟩ := writeThrough_succ h
    by_cases hx : x = address
    · -- it is written first, and no later address of the run is behind the same byte
      subst hx
      cases hq.symm.trans hpage
      rw [writeThrough_outside h hapart (Or.inl (Nat.lt_succ_self x)) hq, setByte,
        if_pos ⟨rfl, rfl⟩]
    · exact ih h (by omega) (by omega)

theorem writeThrough_mapped (hle : address ≤ x) (hlt : x < address + n) :
    ∃ q, view (x / size) = some q := by
  induction n generalizing address c with
  | zero => omega
  | succ n ih =>
    obtain ⟨page, hpage, h⟩ := writeThrough_succ h
    by_cases hx : x = address
    · exact ⟨page, hx ▸ hpage⟩
    · exact ih h (by omega) (by omega)

end

end MeetixOS.Lib
