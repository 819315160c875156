import MeetixOS.LibTC.StringView
import MeetixOS.LibC.Memmem
import MeetixOS.Lib.Numeral

/-! # Numbers in string views

`as_int`, `as_uint`, `as_uint_from_hex` and `as_uint_from_octal`, for the types that they are instantiated
with. The builtins that test for an overflow hand the result back where it fits; their operands are
exact. -/

open Slots
open LibC (charInt charInt_mem_iff)

namespace LibTC

/-- `i8` and `u8` to `i64` and `u64`. -/
inductive Width
  | w8
  | w16
  | w32
  | w64
  deriving DecidableEq, Repr

namespace Width

def bits : Width → Nat
  | w8 => 8
  | w16 => 16
  | w32 => 32
  | w64 => 64

/-- `NumericLimits<T>::max()`, of the unsigned type. -/
def maxValue (w : Width) : Nat :=
  2 ^ w.bits - 1

/-- What is stored by a builtin of the signed type that does not overflow. -/
def checkedInt (w : Width) (x : Int) : Option Int :=
  if -(2 ^ (w.bits - 1)) ≤ x ∧ x < 2 ^ (w.bits - 1) then some x else none

def checkedUint (w : Width) (x : Int) : Option Nat :=
  if 0 ≤ x ∧ x ≤ w.maxValue then some x.toNat else none

/-- A value stored in the unsigned type. -/
def wrap (w : Width) (n : Nat) : Nat :=
  n % 2 ^ w.bits

end Width

namespace StringView

/-- The loop of `starts_with`, with `n` rounds left. -/
def startsWithFrom (v rhs : StringView) : (n i : Nat) → Checked Bool
  | 0, _ => return true
  | n + 1, i => do
      if LibC.tolower (charInt (← v.charAt i)) ≠ LibC.tolower (charInt (← rhs.charAt i)) then
        return false
      else
        startsWithFrom v rhs n (i + 1)

def startsWith (v rhs : StringView) (caseSensitivity : CaseSensitivity) : Checked Bool := do
  if v.isNullOrEmpty then
    return false
  else if rhs.isNullOrEmpty then
    return false
  else if v.len < rhs.len then
    return false
  else
    match caseSensitivity with
    | .sensitive => return LibC.memcmp (v.chars.take rhs.len) rhs.chars = 0
    | .insensitive => v.startsWithFrom rhs rhs.len 0

/-- The view that is converted. -/
def converted (v : StringView) (trimWhitespace : TrimWhitespace) : Checked StringView :=
  match trimWhitespace with
  | .yes => v.trimWhitespaces .both
  | .no => pure v

/-- The loop of `as_int`. -/
def asIntFrom (w : Width) (sign : Int) : List UInt8 → Int → Option Int
  | [], intValue => some intValue
  | c :: chars, intValue => do
      if charInt c < 48 ∨ 57 < charInt c then
        none
      else
        let intValue ← w.checkedInt (intValue * 10)
        let intValue ← w.checkedInt (intValue + sign * (charInt c - 48))
        asIntFrom w sign chars intValue

def asInt (w : Width) (v : StringView) (trimWhitespace : TrimWhitespace) : Checked (Option Int) := do
  let stringView ← v.converted trimWhitespace
  if stringView.isEmpty then
    return none
  else
    let first ← stringView.charAt 0
    if first = 45 ∨ first = 43 then
      if stringView.len = 1 then
        return none
      else
        return asIntFrom w (if first = 45 then -1 else 1) (stringView.chars.drop 1) 0
    else
      return asIntFrom w 1 stringView.chars 0

/-- The loop of `as_uint`. -/
def asUintFrom (w : Width) : List UInt8 → Nat → Option Nat
  | [], uintValue => some uintValue
  | c :: chars, uintValue => do
      if charInt c < 48 ∨ 57 < charInt c then
        none
      else
        let uintValue ← w.checkedUint (uintValue * 10)
        let uintValue ← w.checkedUint (uintValue + (charInt c - 48))
        asUintFrom w chars uintValue

def asUint (w : Width) (v : StringView) (trimWhitespace : TrimWhitespace) : Checked (Option Nat) := do
  let stringView ← v.converted trimWhitespace
  if stringView.isEmpty then
    return none
  else
    return asUintFrom w stringView.chars 0

/-- The value of a hexadecimal digit, a `u8`. -/
def hexValue (c : UInt8) : Option Nat :=
  if 48 ≤ charInt c ∧ charInt c ≤ 57 then some (charInt c - 48).toNat
  else if 97 ≤ charInt c ∧ charInt c ≤ 102 then some (10 + (charInt c - 97)).toNat
  else if 65 ≤ charInt c ∧ charInt c ≤ 70 then some (10 + (charInt c - 65)).toNat
  else none

def octalValue (c : UInt8) : Option Nat :=
  if 48 ≤ charInt c ∧ charInt c ≤ 55 then some (charInt c - 48).toNat else none

/-- The loops of `as_uint_from_hex` and `as_uint_from_octal`, with digits of `shift` bits. -/
def asUintByShift (w : Width) (shift : Nat) (valueOf : UInt8 → Option Nat) :
    List UInt8 → Nat → Option Nat
  | [], uintValue => some uintValue
  | c :: chars, uintValue =>
    if w.maxValue >>> shift < uintValue then
      none
    else
      match valueOf c with
      | none => none
      | some value => asUintByShift w shift valueOf chars (w.wrap ((uintValue <<< shift) + value))

/-- `"0x"`. -/
def hexPrefix : StringView :=
  literal [48, 120] (by decide)

def asUintFromHex (w : Width) (v : StringView) (trimWhitespace : TrimWhitespace) :
    Checked (Option Nat) := do
  let stringView ← v.converted trimWhitespace
  if stringView.isEmpty then
    return none
  else if ← stringView.startsWith hexPrefix .insensitive then
    if stringView.len ≤ 2 then
      return none
    else
      let stringView ← stringView.subString 2 (stringView.len - 2)
      return asUintByShift w 4 hexValue stringView.chars 0
  else
    return asUintByShift w 4 hexValue stringView.chars 0

def asUintFromOctal (w : Width) (v : StringView) (trimWhitespace : TrimWhitespace) :
    Checked (Option Nat) := do
  let stringView ← v.converted trimWhitespace
  if stringView.isEmpty then
    return none
  else
    return asUintByShift w 3 octalValue stringView.chars 0

/-! ## The texts that denote numbers -/

def decimal (c : UInt8) : Option Nat :=
  if 48 ≤ c.toNat ∧ c.toNat ≤ 57 then some (c.toNat - 48) else none

def octal (c : UInt8) : Option Nat :=
  if 48 ≤ c.toNat ∧ c.toNat ≤ 55 then some (c.toNat - 48) else none

def hexadecimal (c : UInt8) : Option Nat :=
  if 48 ≤ c.toNat ∧ c.toNat ≤ 57 then some (c.toNat - 48)
  else if 97 ≤ c.toNat ∧ c.toNat ≤ 102 then some (c.toNat - 97 + 10)
  else if 65 ≤ c.toNat ∧ c.toNat ≤ 70 then some (c.toNat - 65 + 10)
  else none

/-- One digit at least, and nothing else. -/
def Numeric (base : Nat) (digit : UInt8 → Option Nat) (text : List UInt8) (n : Nat) : Prop :=
  text ≠ [] ∧ Numeral.Denotes base digit text n

/-- `[+-]?[0-9]+` -/
def SignedNumeric (text : List UInt8) (x : Int) : Prop :=
  ∃ n : Nat,
    (Numeric 10 decimal text n ∨ ∃ digits, text = 43 :: digits ∧ Numeric 10 decimal digits n) ∧ x = n ∨
      ∃ digits, text = 45 :: digits ∧ Numeric 10 decimal digits n ∧ x = -n

/-- `(0x|0X)?[0-9a-fA-F]+` -/
def HexNumeric (text : List UInt8) (n : Nat) : Prop :=
  Numeric 16 hexadecimal text n ∨
    ∃ digits, (text = 48 :: 120 :: digits ∨ text = 48 :: 88 :: digits) ∧ Numeric 16 hexadecimal digits n

/-- The text that is converted. -/
def convertedText (trimWhitespace : TrimWhitespace) (chars : List UInt8) : List UInt8 :=
  match trimWhitespace with
  | .yes => trimmed whitespaces.chars .both chars
  | .no => chars

/-! ## The loops are scans -/

section

variable {w : Width} {cs : List UInt8} {acc : Nat}

theorem decimal_of {c : UInt8} (h : ¬ (charInt c < 48 ∨ 57 < charInt c)) :
    ∃ d : Nat, decimal c = some d ∧ charInt c - 48 = d := by
  have hrange := (charInt_mem_iff (c := c) (show 0 < 48 by decide) (show 57 < 128 by decide)).1
    (by simp only [Nat.cast_ofNat]; omega)
  refine ⟨c.toNat - 48, if_pos hrange, ?_⟩
  rw [LibC.charInt_of_le (by omega)]
  omega

theorem decimal_of_not {c : UInt8} (h : charInt c < 48 ∨ 57 < charInt c) : decimal c = none := by
  have hrange := mt (charInt_mem_iff (c := c) (show 0 < 48 by decide) (show 57 < 128 by decide)).2
    (by simp only [Nat.cast_ofNat]; omega)
  exact if_neg hrange

/-- The values of one sign that a signed type has. -/
def signedFits (w : Width) (sign : Int) (n : Nat) : Bool :=
  -(2 ^ (w.bits - 1)) ≤ sign * n ∧ sign * n < 2 ^ (w.bits - 1)

theorem checked_round {sign : Int} (hsign : sign = 1 ∨ sign = -1) (acc d : Nat) :
    ((w.checkedInt (sign * acc * 10)).bind fun intValue => w.checkedInt (intValue + sign * d)) =
      if signedFits w sign (acc * 10 + d) then some (sign * ((acc * 10 + d : Nat) : Int)) else none := by
  have hpos : (0 : Int) < 2 ^ (w.bits - 1) := by positivity
  have hnext : sign * acc * 10 + sign * (d : Int) = sign * ((acc * 10 + d : Nat) : Int) := by
    push_cast
    ring
  unfold Width.checkedInt signedFits
  simp only [decide_eq_true_iff]
  generalize (2 : Int) ^ (w.bits - 1) = limit at hpos
  by_cases hlast : -limit ≤ sign * ((acc * 10 + d : Nat) : Int) ∧
      sign * ((acc * 10 + d : Nat) : Int) < limit
  · have hfirst : -limit ≤ sign * acc * 10 ∧ sign * acc * 10 < limit := by
      rcases hsign with rfl | rfl <;> push_cast at hlast <;> omega
    rw [if_pos hfirst, Option.bind_some, hnext]
  · rw [if_neg hlast]
    split
    · rw [Option.bind_some, hnext, if_neg hlast]
    · rfl

theorem asIntFrom_eq_scan {sign : Int} (hsign : sign = 1 ∨ sign = -1) (cs : List UInt8) (acc : Nat) :
    asIntFrom w sign cs (sign * acc) =
      (Numeral.scan 10 decimal (signedFits w sign) cs acc).map fun n : Nat => sign * (n : Int) := by
  induction cs generalizing acc with
  | nil => rfl
  | cons c cs ih =>
    rw [asIntFrom, Numeral.scan]
    by_cases hc : charInt c < 48 ∨ 57 < charInt c
    · rw [if_pos hc, decimal_of_not hc]
      rfl
    · obtain ⟨d, hd, hvalue⟩ := decimal_of hc
      have hround := checked_round (w := w) hsign acc d
      rw [if_neg hc, hd, hvalue]
      simp only [Option.bind_eq_bind, ← Option.bind_assoc, hround]
      split
      · exact ih (acc * 10 + d)
      · rfl

/-- The values of an unsigned type. -/
def unsignedFits (w : Width) (n : Nat) : Bool :=
  n ≤ w.maxValue

theorem asUintFrom_eq_scan (cs : List UInt8) (acc : Nat) :
    asUintFrom w cs acc = Numeral.scan 10 decimal (unsignedFits w) cs acc := by
  induction cs generalizing acc with
  | nil => rfl
  | cons c cs ih =>
    rw [asUintFrom, Numeral.scan]
    by_cases hc : charInt c < 48 ∨ 57 < charInt c
    · rw [if_pos hc, decimal_of_not hc]
    · obtain ⟨d, hd, hvalue⟩ := decimal_of hc
      rw [if_neg hc, hd, hvalue]
      simp only [Option.bind_eq_bind, Width.checkedUint, unsignedFits, decide_eq_true_iff]
      by_cases hlast : acc * 10 + d ≤ w.maxValue
      · rw [if_pos (by omega), Option.bind_some, if_pos (by omega), if_pos hlast, Option.bind_some,
          ← ih]
        congr 1
      · rw [if_neg hlast]
        split
        · rw [Option.bind_some, if_neg (by omega), Option.bind_none]
        · rfl

theorem maxValue_shift {shift : Nat} (hshift : shift = 3 ∨ shift = 4) (w : Width) :
    (w.maxValue >>> shift + 1) * 2 ^ shift = 2 ^ w.bits := by
  rcases hshift with rfl | rfl <;> cases w <;> decide

theorem asUintByShift_eq_scan {shift : Nat} (hshift : shift = 3 ∨ shift = 4)
    {valueOf : UInt8 → Option Nat} (hvalue : ∀ c d, valueOf c = some d → d < 2 ^ shift)
    (cs : List UInt8) (acc : Nat) :
    asUintByShift w shift valueOf cs acc =
      Numeral.scan (2 ^ shift) valueOf (unsignedFits w) cs acc := by
  have hlimit := maxValue_shift hshift w
  rw [Nat.add_mul, Nat.one_mul] at hlimit
  induction cs generalizing acc with
  | nil => rfl
  | cons c cs ih =>
    rw [asUintByShift, Numeral.scan]
    cases hc : valueOf c with
    | none => split <;> rfl
    | some d =>
      have hd := hvalue c d hc
      dsimp only
      by_cases hroom : w.maxValue >>> shift < acc
      · have hlast : ¬ acc * 2 ^ shift + d ≤ w.maxValue := by
          have hmul := Nat.mul_le_mul_right (2 ^ shift) (Nat.succ_le_of_lt hroom)
          rw [Nat.succ_mul] at hmul
          unfold Width.maxValue at *
          omega
        rw [if_pos hroom, if_neg (by simpa [unsignedFits] using hlast)]
      · have hmul := Nat.mul_le_mul_right (2 ^ shift) (Nat.le_of_not_lt hroom)
        have hlast : acc * 2 ^ shift + d < 2 ^ w.bits := by omega
        rw [if_neg hroom, if_pos (by rw [unsignedFits, Width.maxValue, decide_eq_true_iff]; omega),
          ← ih, Width.wrap, Nat.shiftLeft_eq, Nat.mod_eq_of_lt hlast]

end

/-! ## The digits -/

theorem octalValue_eq (c : UInt8) : octalValue c = octal c := by
  have hc := c.toNat_lt
  unfold octalValue octal charInt
  split_ifs <;> first | omega | rfl | (congr 1; omega)

theorem hexValue_eq (c : UInt8) : hexValue c = hexadecimal c := by
  have hc := c.toNat_lt
  unfold hexValue hexadecimal charInt
  split_ifs <;> first | omega | rfl | (congr 1; omega)

theorem octal_lt (c : UInt8) (d : Nat) (h : octal c = some d) : d < 2 ^ 3 := by
  unfold octal at h
  split at h <;> cases h
  omega

theorem hexadecimal_lt (c : UInt8) (d : Nat) (h : hexadecimal c = some d) : d < 2 ^ 4 := by
  unfold hexadecimal at h
  split_ifs at h <;> cases h <;> omega

/-! ## `"0x"` -/

theorem or_32 : ∀ n < 91, 65 ≤ n → n ||| 32 = n + 32 := by
  decide

theorem tolower_eq_iff {c : UInt8} {low : Nat} (hlo : 97 ≤ low) (hhi : low ≤ 122) :
    LibC.tolower (charInt c) = low ↔ c.toNat = low ∨ c.toNat + 32 = low := by
  have hc := c.toNat_lt
  unfold LibC.tolower charInt
  split_ifs
  · next hlow hupper =>
      rw [Int.toNat_natCast, or_32 _ (by omega) (by omega)]
      omega
  all_goals omega

theorem tolower_eq_zero_digit_iff {c : UInt8} : LibC.tolower (charInt c) = 48 ↔ c.toNat = 48 := by
  have hc := c.toNat_lt
  unfold LibC.tolower charInt
  split_ifs
  · next hlow hupper =>
      rw [Int.toNat_natCast, or_32 _ (by omega) (by omega)]
      omega
  all_goals omega

/-- The text starts with `"0x"` or `"0X"`. -/
def HexMarked (text : List UInt8) : Prop :=
  ∃ digits, text = 48 :: 120 :: digits ∨ text = 48 :: 88 :: digits

theorem startsWith_hexPrefix (v : StringView) :
    ∃ b, v.startsWith hexPrefix .insensitive = .ok b ∧ (b = true ↔ HexMarked v.chars) := by
  rw [startsWith]
  by_cases hempty : v.isNullOrEmpty = true
  · refine ⟨false, by rw [if_pos hempty]; rfl, ?_⟩
    simp [HexMarked, (isNullOrEmpty_iff v).1 hempty]
  · rw [if_neg hempty, if_neg (by decide)]
    by_cases hshort : v.len < hexPrefix.len
    · refine ⟨false, by rw [if_pos hshort]; rfl, iff_of_false Bool.false_ne_true ?_⟩
      change v.chars.length < 2 at hshort
      rintro ⟨digits, hcs | hcs⟩ <;> simp only [hcs, List.length_cons] at hshort <;> omega
    · rw [if_neg hshort]
      obtain ⟨c, d, digits, hcs⟩ : ∃ c d digits, v.chars = c :: d :: digits := by
        change ¬ v.chars.length < 2 at hshort
        obtain ⟨c, cs, hcs⟩ := List.exists_cons_of_length_pos (show 0 < v.chars.length by omega)
        rw [hcs, List.length_cons] at hshort
        obtain ⟨d, digits, rfl⟩ := List.exists_cons_of_length_pos (show 0 < cs.length by omega)
        exact ⟨c, d, digits, hcs⟩
      have hfirst : v.charAt 0 = .ok c := charAt_append (show _ = [] ++ c :: d :: digits from hcs) rfl
      have hsecond : v.charAt 1 = .ok d := charAt_append (show _ = [c] ++ d :: digits from hcs) rfl
      have hzero : LibC.tolower (charInt c) = 48 ↔ c = 48 := by
        rw [tolower_eq_zero_digit_iff, ← UInt8.toNat_inj]
        rfl
      have hx : LibC.tolower (charInt d) = 120 ↔ d = 120 ∨ d = 88 := by
        have hiff := tolower_eq_iff (c := d) (show 97 ≤ 120 by decide) (by decide)
        rw [← UInt8.toNat_inj, ← UInt8.toNat_inj]
        change _ ↔ d.toNat = 120 ∨ d.toNat = 88
        omega
      refine ⟨decide (c = 48 ∧ (d = 120 ∨ d = 88)), ?_, ?_⟩
      · change v.startsWithFrom hexPrefix 2 0 = _
        have hzero' : LibC.tolower (charInt 48) = 48 := by decide
        have hx' : LibC.tolower (charInt 120) = 120 := by decide
        rw [startsWithFrom, hfirst, ok_bind, show hexPrefix.charAt 0 = .ok 48 from rfl, ok_bind, hzero']
        by_cases hc : c = 48
        · rw [if_neg (not_not_intro (hzero.2 hc)), startsWithFrom, hsecond, ok_bind,
            show hexPrefix.charAt 1 = .ok 120 from rfl, ok_bind, hx']
          by_cases hd : d = 120 ∨ d = 88
          · rw [if_neg (not_not_intro (hx.2 hd)), decide_eq_true ⟨hc, hd⟩]
            rfl
          · rw [if_pos (mt hx.1 hd), decide_eq_false (fun h => hd h.2)]
            rfl
        · rw [if_pos (mt hzero.1 hc), decide_eq_false (fun h => hc h.1)]
          rfl
      · rw [decide_eq_true_iff, HexMarked, hcs]
        simp only [List.cons.injEq]
        constructor
        · rintro ⟨rfl, rfl | rfl⟩
          · exact ⟨digits, Or.inl ⟨rfl, rfl, rfl⟩⟩
          · exact ⟨digits, Or.inr ⟨rfl, rfl, rfl⟩⟩
        · rintro ⟨_, ⟨rfl, rfl, -⟩ | ⟨rfl, rfl, -⟩⟩
          · exact ⟨rfl, Or.inl rfl⟩
          · exact ⟨rfl, Or.inr rfl⟩

/-! ## What is converted -/

theorem converted_eq (v : StringView) (trimWhitespace : TrimWhitespace) :
    ∃ r, v.converted trimWhitespace = .ok r ∧ r.chars = convertedText trimWhitespace v.chars := by
  cases trimWhitespace with
  | yes => exact trim_both v whitespaces
  | no => exact ⟨v, rfl, rfl⟩

section

variable {w : Width} {text : List UInt8}

variable {n base : Nat} {digit : UInt8 → Option Nat}

theorem scan_iff {fits : Nat → Bool} (hbase : 1 ≤ base)
    (hfits : ∀ n m, n ≤ m → fits m = true → fits n = true) (hzero : fits 0 = true) (htext : text ≠ []) :
    Numeral.scan base digit fits text 0 = some n ↔ Numeric base digit text n ∧ fits n = true := by
  rw [Numeral.scan_zero_eq_some_iff hbase hfits hzero, Numeric, and_iff_right htext]

theorem scan_unsigned_iff (hbase : 1 ≤ base) (htext : text ≠ []) :
    Numeral.scan base digit (unsignedFits w) text 0 = some n ↔
      Numeric base digit text n ∧ n < 2 ^ w.bits := by
  have hpos : 0 < 2 ^ w.bits := Nat.two_pow_pos _
  have hiff : ∀ m, unsignedFits w m = true ↔ m < 2 ^ w.bits := by
    intro m
    rw [unsignedFits, Width.maxValue, decide_eq_true_iff]
    omega
  rw [scan_iff hbase ?_ ((hiff 0).2 hpos) htext, hiff]
  intro n m hle hm
  exact (hiff n).2 (Nat.lt_of_le_of_lt hle ((hiff m).1 hm))

theorem asIntFrom_iff {sign : Int} (hsign : sign = 1 ∨ sign = -1) (htext : text ≠ []) {x : Int} :
    asIntFrom w sign text 0 = some x ↔
      (∃ n : Nat, Numeric 10 decimal text n ∧ sign * n = x) ∧
        -(2 ^ (w.bits - 1)) ≤ x ∧ x < 2 ^ (w.bits - 1) := by
  have hpos : (0 : Int) < 2 ^ (w.bits - 1) := by positivity
  have hscan := asIntFrom_eq_scan (w := w) hsign text 0
  rw [Nat.cast_zero, Int.mul_zero] at hscan
  have hfits : ∀ n m, n ≤ m → signedFits w sign m = true → signedFits w sign n = true := by
    intro n m hle hm
    unfold signedFits at *
    rw [decide_eq_true_iff] at *
    generalize (2 : Int) ^ (w.bits - 1) = limit at *
    rcases hsign with rfl | rfl <;> omega
  have hzero : signedFits w sign 0 = true := by
    simp [signedFits, hpos, Int.le_of_lt hpos]
  rw [hscan, Option.map_eq_some_iff, ← exists_and_right]
  refine exists_congr fun n => ?_
  rw [scan_iff (by decide) hfits hzero htext, signedFits, decide_eq_true_iff]
  constructor
  · rintro ⟨⟨hn, hrange⟩, rfl⟩
    exact ⟨⟨hn, rfl⟩, hrange⟩
  · rintro ⟨⟨hn, rfl⟩, hrange⟩
    exact ⟨⟨hn, hrange⟩, rfl⟩

theorem not_numeric_cons {c : UInt8} (hc : digit c = none) :
    ¬ Numeric base digit (c :: text) n := by
  rintro ⟨-, ds, hds, -⟩
  cases ds with
  | nil => cases hds
  | cons d ds =>
    rw [List.map_cons, hc, List.map_cons] at hds
    cases hds

theorem not_numeric_nil : ¬ Numeric base digit [] n :=
  fun h => h.1 rfl

theorem signedNumeric_iff {c : UInt8} {x : Int} :
    SignedNumeric (c :: text) x ↔
      if c = 45 then ∃ n : Nat, Numeric 10 decimal text n ∧ -1 * (n : Int) = x
      else if c = 43 then ∃ n : Nat, Numeric 10 decimal text n ∧ 1 * (n : Int) = x
      else ∃ n : Nat, Numeric 10 decimal (c :: text) n ∧ 1 * (n : Int) = x := by
  split
  · next hc =>
      subst hc
      have hnone : ∀ n, ¬ Numeric 10 decimal (45 :: text) n := fun n => not_numeric_cons rfl
      refine exists_congr fun n => ?_
      simp [hnone, eq_comm]
  · next hminus =>
      split
      · next hc =>
          subst hc
          have hnone : ∀ n, ¬ Numeric 10 decimal (43 :: text) n := fun n => not_numeric_cons rfl
          refine exists_congr fun n => ?_
          simp [hnone, eq_comm]
      · next hplus =>
          refine exists_congr fun n => ?_
          simp [hminus, hplus, eq_comm]

theorem hexNumeric_iff (h : ¬ HexMarked text) :
    HexNumeric text n ↔ Numeric 16 hexadecimal text n := by
  refine or_iff_left ?_
  rintro ⟨digits, hmarked, -⟩
  exact h ⟨digits, hmarked⟩

theorem hexNumeric_marked_iff {digits : List UInt8}
    (h : text = 48 :: 120 :: digits ∨ text = 48 :: 88 :: digits) :
    HexNumeric text n ↔ Numeric 16 hexadecimal digits n := by
  have hnone : ¬ Numeric 16 hexadecimal text n := by
    rintro ⟨-, ds, hds, -⟩
    rcases ds with _ | ⟨d, _ | ⟨d', ds⟩⟩ <;> rcases h with rfl | rfl <;> simp [hexadecimal] at hds
  constructor
  · rintro (hn | ⟨digits', hmarked, hn⟩)
    · exact absurd hn hnone
    · obtain rfl : digits' = digits := by
        rcases h with rfl | rfl <;> simpa [eq_comm] using hmarked
      exact hn
  · intro hn
    exact Or.inr ⟨digits, h, hn⟩

end

/-- What the four conversions return, for a view whose text is converted with or without the blanks
around it. -/
structure Converts (w : Width) (v : StringView) (trimWhitespace : TrimWhitespace) : Prop where
  int : ∃ r, v.asInt w trimWhitespace = .ok r ∧ ∀ x : Int,
    r = some x ↔ SignedNumeric (convertedText trimWhitespace v.chars) x ∧
      -(2 ^ (w.bits - 1)) ≤ x ∧ x < 2 ^ (w.bits - 1)
  uint : ∃ r, v.asUint w trimWhitespace = .ok r ∧ ∀ n,
    r = some n ↔ Numeric 10 decimal (convertedText trimWhitespace v.chars) n ∧ n < 2 ^ w.bits
  hex : ∃ r, v.asUintFromHex w trimWhitespace = .ok r ∧ ∀ n,
    r = some n ↔ HexNumeric (convertedText trimWhitespace v.chars) n ∧ n < 2 ^ w.bits
  octal : ∃ r, v.asUintFromOctal w trimWhitespace = .ok r ∧ ∀ n,
    r = some n ↔ Numeric 8 octal (convertedText trimWhitespace v.chars) n ∧ n < 2 ^ w.bits

section

variable (w : Width) (v : StringView) (trimWhitespace : TrimWhitespace)

theorem asInt_converts : ∃ r, v.asInt w trimWhitespace = .ok r ∧ ∀ x : Int,
    r = some x ↔ SignedNumeric (convertedText trimWhitespace v.chars) x ∧
      -(2 ^ (w.bits - 1)) ≤ x ∧ x < 2 ^ (w.bits - 1) := by
  obtain ⟨converted, hconverted, htext⟩ := converted_eq v trimWhitespace
  rw [asInt, hconverted, ok_bind, ← htext]
  cases hcs : converted.chars with
  | nil =>
    refine ⟨none, by rw [if_pos ((isEmpty_iff converted).2 hcs)]; rfl, ?_⟩
    intro x
    refine iff_of_false nofun ?_
    rintro ⟨⟨n, ⟨hn | ⟨digits, hn, -⟩, -⟩ | ⟨digits, hn, -⟩⟩, -⟩
    · exact not_numeric_nil hn
    · cases hn
    · cases hn
  | cons c cs =>
    have hempty : ¬ converted.isEmpty = true := by simp [isEmpty_iff, hcs]
    have hfirst : converted.charAt 0 = .ok c := charAt_append (show _ = [] ++ c :: cs from hcs) rfl
    rw [if_neg hempty, hfirst, ok_bind, List.drop_one, List.tail_cons]
    by_cases hsign : c = 45 ∨ c = 43
    · rw [if_pos hsign]
      by_cases hlone : converted.len = 1
      · obtain rfl : cs = [] := by
          rw [len, hcs, List.length_cons] at hlone
          exact List.length_eq_zero_iff.1 (Nat.succ.inj hlone)
        refine ⟨none, by rw [if_pos hlone]; rfl, ?_⟩
        intro x
        rw [signedNumeric_iff]
        refine iff_of_false nofun ?_
        rcases hsign with rfl | rfl <;> simp [not_numeric_nil]
      · have htext : cs ≠ [] := by
          rintro rfl
          exact hlone (by rw [len, hcs]; rfl)
        refine ⟨_, by rw [if_neg hlone]; rfl, ?_⟩
        intro x
        rw [asIntFrom_iff (by split <;> simp) htext, signedNumeric_iff]
        rcases hsign with rfl | rfl <;> simp
    · refine ⟨_, by rw [if_neg hsign]; rfl, ?_⟩
      intro x
      rw [asIntFrom_iff (Or.inl rfl) (List.cons_ne_nil c cs), signedNumeric_iff,
        if_neg (fun hc => hsign (Or.inl hc)), if_neg (fun hc => hsign (Or.inr hc))]

theorem asUint_converts : ∃ r, v.asUint w trimWhitespace = .ok r ∧ ∀ n,
    r = some n ↔ Numeric 10 decimal (convertedText trimWhitespace v.chars) n ∧ n < 2 ^ w.bits := by
  obtain ⟨converted, hconverted, htext⟩ := converted_eq v trimWhitespace
  rw [asUint, hconverted, ok_bind, ← htext]
  by_cases hempty : converted.chars = []
  · refine ⟨none, by rw [if_pos ((isEmpty_iff converted).2 hempty)]; rfl, ?_⟩
    intro n
    rw [hempty]
    exact iff_of_false nofun fun h => not_numeric_nil h.1
  · refine ⟨_, by rw [if_neg (mt (isEmpty_iff converted).1 hempty)]; rfl, ?_⟩
    intro n
    rw [asUintFrom_eq_scan, scan_unsigned_iff (by decide) hempty]

theorem asUintFromOctal_converts : ∃ r, v.asUintFromOctal w trimWhitespace = .ok r ∧ ∀ n,
    r = some n ↔ Numeric 8 octal (convertedText trimWhitespace v.chars) n ∧ n < 2 ^ w.bits := by
  obtain ⟨converted, hconverted, htext⟩ := converted_eq v trimWhitespace
  have hoctal : octalValue = octal := funext octalValue_eq
  rw [asUintFromOctal, hconverted, ok_bind, ← htext, hoctal]
  by_cases hempty : converted.chars = []
  · refine ⟨none, by rw [if_pos ((isEmpty_iff converted).2 hempty)]; rfl, ?_⟩
    intro n
    rw [hempty]
    exact iff_of_false nofun fun h => not_numeric_nil h.1
  · refine ⟨_, by rw [if_neg (mt (isEmpty_iff converted).1 hempty)]; rfl, ?_⟩
    intro n
    rw [asUintByShift_eq_scan (Or.inl rfl) octal_lt]
    exact scan_unsigned_iff (by decide) hempty

theorem asUintFromHex_converts : ∃ r, v.asUintFromHex w trimWhitespace = .ok r ∧ ∀ n,
    r = some n ↔ HexNumeric (convertedText trimWhitespace v.chars) n ∧ n < 2 ^ w.bits := by
  obtain ⟨converted, hconverted, htext⟩ := converted_eq v trimWhitespace
  obtain ⟨marked, hmarked, hiff⟩ := startsWith_hexPrefix converted
  have hhex : hexValue = hexadecimal := funext hexValue_eq
  rw [asUintFromHex, hconverted, ok_bind, ← htext, hhex]
  by_cases hempty : converted.chars = []
  · refine ⟨none, by rw [if_pos ((isEmpty_iff converted).2 hempty)]; rfl, ?_⟩
    intro n
    rw [hempty, hexNumeric_iff (by simp [HexMarked])]
    exact iff_of_false nofun fun h => not_numeric_nil h.1
  · rw [if_neg (mt (isEmpty_iff converted).1 hempty), hmarked, ok_bind]
    cases marked with
    | false =>
      refine ⟨_, rfl, ?_⟩
      intro n
      rw [asUintByShift_eq_scan (Or.inr rfl) hexadecimal_lt,
        hexNumeric_iff (mt hiff.2 Bool.false_ne_true)]
      exact scan_unsigned_iff (by decide) hempty
    | true =>
      obtain ⟨digits, hdigits⟩ := hiff.1 rfl
      have hlen : converted.len = digits.length + 2 := by
        rw [len]
        rcases hdigits with hcs | hcs <;> rw [hcs] <;> rfl
      have hdrop : converted.chars.drop 2 = digits := by
        rcases hdigits with hcs | hcs <;> rw [hcs] <;> rfl
      by_cases hlone : converted.len ≤ 2
      · obtain rfl : digits = [] := List.length_eq_zero_iff.1 (by omega)
        refine ⟨none, by rw [if_pos hlone]; rfl, ?_⟩
        intro n
        rw [hexNumeric_marked_iff hdigits]
        exact iff_of_false nofun fun h => not_numeric_nil h.1
      · obtain ⟨rest, hrest, hchars⟩ := subString_eq (show 2 + (converted.len - 2) ≤ converted.len by omega)
        have htext : digits ≠ [] := by
          rintro rfl
          exact hlone (by rw [hlen]; rfl)
        rw [hdrop, hlen, Nat.add_sub_cancel, List.take_length] at hchars
        refine ⟨_, by rw [if_neg hlone, hrest, ok_bind]; rfl, ?_⟩
        intro n
        rw [asUintByShift_eq_scan (Or.inr rfl) hexadecimal_lt, hexNumeric_marked_iff hdigits, hchars]
        exact scan_unsigned_iff (by decide) htext

/-- Each conversion returns the number that the text denotes where the type has it, and nothing
otherwise. -/
theorem converts : Converts w v trimWhitespace :=
  ⟨asInt_converts w v trimWhitespace, asUint_converts w v trimWhitespace,
    asUintFromHex_converts w v trimWhitespace, asUintFromOctal_converts w v trimWhitespace⟩

end

end StringView

end LibTC
