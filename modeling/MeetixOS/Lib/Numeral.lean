import Mathlib.Data.Nat.Digits.Defs

/-! # Numerals

What a list of digits denotes in a base, the most significant digit first, and Horner's scheme for it:
the scan reads one character after the other and gives up at the first that is no digit, and where the
value leaves a range. A range that has the values below its values can be tested at any step. -/

namespace Numeral

variable {α : Type*} {base acc n : Nat} {digit : α → Option Nat} {cs : List α}

/-- The characters are digits, and `n` is what they denote. -/
def Denotes (base : Nat) (digit : α → Option Nat) (cs : List α) (n : Nat) : Prop :=
  ∃ ds : List Nat, cs.map digit = ds.map some ∧ n = Nat.ofDigits base ds.reverse

/-- Horner's scheme with a test of each value. -/
def scan (base : Nat) (digit : α → Option Nat) (fits : Nat → Bool) : List α → Nat → Option Nat
  | [], acc => some acc
  | c :: cs, acc =>
    match digit c with
    | none => none
    | some d => if fits (acc * base + d) then scan base digit fits cs (acc * base + d) else none

/-- The value of digits behind a value that was read before. -/
def after (base acc : Nat) (ds : List Nat) : Nat :=
  acc * base ^ ds.length + Nat.ofDigits base ds.reverse

@[simp] theorem after_nil : after base acc [] = acc := by
  simp [after]

theorem after_cons (d : Nat) (ds : List Nat) :
    after base acc (d :: ds) = after base (acc * base + d) ds := by
  rw [after, after, Nat.ofDigits_reverse_cons, List.length_cons, Nat.pow_succ]
  ring

theorem le_after (hbase : 1 ≤ base) (acc : Nat) (ds : List Nat) : acc ≤ after base acc ds := by
  have hpow : 1 ≤ base ^ ds.length := Nat.one_le_pow _ _ hbase
  exact Nat.le_trans (Nat.le_mul_of_pos_right acc hpow) (Nat.le_add_right _ _)

section

variable {fits : Nat → Bool} (hbase : 1 ≤ base)
  (hfits : ∀ n m, n ≤ m → fits m = true → fits n = true)
include hbase hfits

theorem scan_eq_some_iff (hacc : fits acc = true) :
    scan base digit fits cs acc = some n ↔
      ∃ ds : List Nat, cs.map digit = ds.map some ∧ n = after base acc ds ∧ fits n = true := by
  induction cs generalizing acc with
  | nil =>
    rw [scan, Option.some.injEq]
    constructor
    · rintro rfl
      exact ⟨[], rfl, after_nil.symm, hacc⟩
    · rintro ⟨ds, hds, rfl, -⟩
      obtain rfl := List.map_eq_nil_iff.1 hds.symm
      exact after_nil.symm
  | cons c cs ih =>
    rw [scan]
    cases hc : digit c with
    | none =>
      refine iff_of_false nofun ?_
      rintro ⟨ds, hds, -⟩
      cases ds <;> simp [hc] at hds
    | some d =>
      dsimp only
      constructor
      · intro hscan
        split at hscan
        · next hnext =>
            obtain ⟨ds, hds, rfl, hn⟩ := (ih hnext).1 hscan
            exact ⟨d :: ds, by rw [List.map_cons, List.map_cons, hc, hds], (after_cons d ds).symm, hn⟩
        · cases hscan
      · rintro ⟨ds, hds, hvalue, hn⟩
        obtain ⟨d', ds, rfl⟩ : ∃ d' ds', ds = d' :: ds' := by
          cases ds with
          | nil => cases hds
          | cons d' ds => exact ⟨d', ds, rfl⟩
        rw [List.map_cons, List.map_cons, hc, List.cons.injEq, Option.some.injEq] at hds
        obtain ⟨rfl, hds⟩ := hds
        rw [after_cons] at hvalue
        have hnext : fits (acc * base + d) = true :=
          hfits _ _ (hvalue ▸ le_after hbase _ ds) hn
        rw [if_pos hnext]
        exact (ih hnext).2 ⟨ds, hds, hvalue, hn⟩

theorem scan_zero_eq_some_iff (hzero : fits 0 = true) :
    scan base digit fits cs 0 = some n ↔ Denotes base digit cs n ∧ fits n = true := by
  rw [scan_eq_some_iff hbase hfits hzero, Denotes, ← exists_and_right]
  refine exists_congr fun ds => ?_
  rw [after, Nat.zero_mul, Nat.zero_add, and_assoc]

end

end Numeral
