import MeetixOS.Kernel.Types
import MeetixOS.LibC.Ctype
import Mathlib.Data.List.TakeWhile
import Mathlib.Data.Nat.Digits.Defs

/-! # `strtol`

A string is the list of its characters in front of the terminating zero, a pointer into it what is left of
it. A `long` has 32 bits, and what is read wraps around. -/

open MeetixOS.Kernel (s32)

namespace LibC

/-- The loop of `strtol`: the number and the end of the digits. -/
def strtolFrom (base : Int) : List UInt8 → Int → Int × List UInt8
  | [], i => (i, [])
  | c :: str, i =>
    let lowC := tolower (charInt c)
    if base ≤ 10 ∧ (isdigit c = false ∨ base ≤ charInt c - 48) then
      (i, c :: str)
    else if 10 < base ∧ (isalnum c = false ∨ (isdigit c = false ∧ base - 10 ≤ lowC - 97)) then
      (i, c :: str)
    else if 97 ≤ lowC then
      strtolFrom base str (s32 (i * base + (lowC - 97) + 10))
    else
      strtolFrom base str (s32 (i * base + charInt c - 48))

/-- `strtol`, with the end pointer. -/
def strtol (str : List UInt8) (base : Int) : Int × List UInt8 :=
  let str := str.dropWhile isspace
  let isNegative := str.head? = some 45
  let str := if str.head? = some 45 ∨ str.head? = some 43 then str.tail else str
  let hexadecimal := (base = 16 ∨ base = 0) ∧ str[0]? = some 48 ∧ str[1]? = some 120
  let octal := base = 0 ∧ str[0]? = some 48
  let str := if hexadecimal then str.drop 2 else if octal then str.tail else str
  let base := if hexadecimal then 16 else if octal then 8 else if base = 0 then 10 else base
  let (i, str) := strtolFrom base str 0
  (if isNegative then s32 (-i) else i, str)

/-! ## Decimal numbers -/

/-- The value of decimal digits behind a value that was read before. -/
def decimalValue (digits : List UInt8) (acc : Nat) : Nat :=
  digits.foldl (fun acc c => acc * 10 + (c.toNat - 48)) acc

theorem s32_s32_add (x y : Int) : s32 (s32 x + y) = s32 (x + y) := by
  rw [s32, s32, s32, Int.bmod_add_bmod]

theorem s32_s32_mul (x y z : Int) : s32 (s32 x * y + z) = s32 (x * y + z) := by
  rw [s32, s32, s32, ← Int.bmod_add_bmod, Int.bmod_mul_bmod, Int.bmod_add_bmod]

variable {digits rest : List UInt8}

theorem strtolFrom_decimal (hdigits : ∀ c ∈ digits, isdigit c = true)
    (hrest : ∀ c, rest.head? = some c → isdigit c = false) (acc : Nat) :
    strtolFrom 10 (digits ++ rest) (s32 acc) = (s32 (decimalValue digits acc), rest) := by
  induction digits generalizing acc with
  | nil =>
    cases rest with
    | nil => rfl
    | cons c rest => simp [strtolFrom, decimalValue, hrest c rfl]
  | cons c digits ih =>
    have hc : isdigit c = true := hdigits c List.mem_cons_self
    obtain ⟨hlo, hhi⟩ := isdigit_iff.1 hc
    have hint : charInt c = c.toNat := charInt_of_le (by omega)
    have hlower : tolower (charInt c) = c.toNat := by
      rw [hint, tolower, if_neg (by omega)]
    have hnext := ih (fun b hb => hdigits b (List.mem_cons_of_mem c hb)) (acc * 10 + (c.toNat - 48))
    rw [List.cons_append, strtolFrom, if_neg (by rw [hc, hint]; simp; omega), if_neg (by simp),
      if_neg (by rw [hlower]; omega), hint]
    rw [show s32 (s32 acc * 10 + c.toNat - 48) = s32 ((acc * 10 + (c.toNat - 48) : Nat) : Int) by
      rw [Int.add_sub_assoc, s32_s32_mul]
      congr 1
      omega, hnext]
    rfl

theorem strtol_decimal (hne : digits ≠ []) (hdigits : ∀ c ∈ digits, isdigit c = true)
    (hrest : ∀ c, rest.head? = some c → isdigit c = false) :
    strtol (digits ++ rest) 10 = (s32 (decimalValue digits 0), rest) := by
  obtain ⟨c, digits, rfl⟩ := List.exists_cons_of_ne_nil hne
  have hc : isdigit c = true := hdigits c List.mem_cons_self
  obtain ⟨hlo, hhi⟩ := isdigit_iff.1 hc
  have hspace : isspace c = false := by
    rw [isspace, Bool.or_eq_false_iff, Bool.and_eq_false_iff]
    refine ⟨.inr (decide_eq_false fun hle => ?_), beq_eq_false_iff_ne.2 ?_⟩
    · have hle' : c.toNat ≤ 13 := hle
      omega
    · rintro rfl
      exact absurd hc (by decide)
  have hzero : s32 ((0 : Nat) : Int) = 0 := by rw [s32]; rfl
  have hfrom := strtolFrom_decimal hdigits hrest 0
  rw [hzero, List.cons_append] at hfrom
  have h45 : c ≠ 45 := by
    rintro rfl
    exact absurd hc (by decide)
  have h43 : c ≠ 43 := by
    rintro rfl
    exact absurd hc (by decide)
  simp [strtol, hspace, h45, h43, hfrom]

end LibC
