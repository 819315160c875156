import MeetixOS.LibC.Strtol
import MeetixOS.Lib.Numeral
import Mathlib.Tactic.IntervalCases

/-! # The numerals that `strtol` has to read

White space, a sign, a prefix of hexadecimal numbers and digits of the base: the longest start of the
string that has this form is the number, and the end pointer stands behind it. `strtol` differs from this
at the prefix, and in where the end pointer stands when there is no number. -/

open List (append_assoc length_append map_cons takeWhile_cons take_append_drop)
open MeetixOS.Kernel (s32 s32_of_range)

namespace LibC

/-! ## Digits -/

/-- The value of a digit. -/
def digitValue (c : UInt8) : Option Nat :=
  if isdigit c then some (c.toNat - 48)
  else if 97 ≤ c.toNat ∧ c.toNat ≤ 122 then some (c.toNat - 87)
  else if 65 ≤ c.toNat ∧ c.toNat ≤ 90 then some (c.toNat - 55)
  else none

/-- The value of a digit of a base. -/
def digitIn (base : Nat) (c : UInt8) : Option Nat :=
  (digitValue c).filter fun d => d < base

def IsDigitIn (base : Nat) (c : UInt8) : Prop := (digitIn base c).isSome = true

instance (base : Nat) (c : UInt8) : Decidable (IsDigitIn base c) :=
  inferInstanceAs (Decidable (_ = _))

variable {base : Nat} {c : UInt8} {d : Nat}

variable {n : Nat} {ds : List Nat} {digits magnitude : List UInt8}

theorem tolower_upper (hlo : 65 ≤ n) (hhi : n ≤ 90) : tolower n = n + 32 := by
  rw [tolower, if_pos (by omega), Int.toNat_natCast]
  have hbit : n ||| 32 = n + 32 := by
    interval_cases n <;> rfl
  rw [show (0x20 : Nat) = 32 from rfl, hbit, Int.natCast_add]
  rfl

theorem tolower_of_not {n : Int} (h : n < 65 ∨ 90 < n) : tolower n = n := by
  rw [tolower, if_neg (by omega)]

theorem isalnum_iff : isalnum c = true ↔ isdigit c = true ∨ (65 ≤ c.toNat ∧ c.toNat ≤ 90) ∨
    (97 ≤ c.toNat ∧ c.toNat ≤ 122) := by
  simp only [isalnum, Bool.or_eq_true, Bool.and_eq_true, decide_eq_true_eq, UInt8.le_iff_toNat_le,
    or_assoc]
  exact Iff.rfl

theorem digitValue_cases (h : digitValue c = some d) :
    (isdigit c = true ∧ charInt c = d + 48 ∧ tolower (charInt c) = d + 48 ∧ d < 10) ∨
      (isdigit c = false ∧ tolower (charInt c) = d + 87 ∧ 10 ≤ d) := by
  unfold digitValue at h
  split at h
  · next hdigit =>
      obtain ⟨hlo, hhi⟩ := isdigit_iff.1 hdigit
      obtain rfl := Option.some.inj h
      have hint : charInt c = c.toNat := charInt_of_le (by omega)
      refine .inl ⟨hdigit, by omega, ?_, by omega⟩
      rw [hint, tolower_of_not (by omega)]
      omega
  · next hdigit =>
      have hdigit : isdigit c = false := by simpa using hdigit
      split at h
      · next hlower =>
          obtain rfl := Option.some.inj h
          refine .inr ⟨hdigit, ?_, by omega⟩
          rw [charInt_of_le (by omega), tolower_of_not (by omega)]
          omega
      · split at h
        · next hupper =>
            obtain rfl := Option.some.inj h
            refine .inr ⟨hdigit, ?_, by omega⟩
            rw [charInt_of_le (by omega), tolower_upper hupper.1 hupper.2]
            omega
        · exact absurd h (by simp)

theorem isalnum_iff_digitValue : isalnum c = true ↔ (digitValue c).isSome = true := by
  rw [isalnum_iff]
  unfold digitValue
  split_ifs <;> simp_all

theorem strtolFrom_digit (h : digitIn base c = some d) (str : List UInt8) (i : Int) :
    strtolFrom base (c :: str) i = strtolFrom base str (s32 (i * base + d)) := by
  obtain ⟨hvalue, hlt⟩ := Option.filter_eq_some_iff.1 h
  rw [decide_eq_true_eq] at hlt
  have halnum : isalnum c = true := isalnum_iff_digitValue.2 (by rw [hvalue]; rfl)
  rw [strtolFrom]
  rcases digitValue_cases hvalue with ⟨hdigit, hint, hlow, hten⟩ | ⟨hdigit, hlow, hten⟩
  · simp only [hdigit, halnum, hlow, Bool.true_eq_false, false_or, false_and, and_false, if_false]
    simp only [hint]
    rw [if_neg (by omega), if_neg (by omega), Int.add_sub_assoc, Int.add_sub_cancel]
  · simp only [hdigit, halnum, hlow, Bool.true_eq_false, false_or, true_or, true_and, and_true]
    rw [if_neg (by omega), if_neg (by omega), if_pos (by omega)]
    congr 2
    omega

theorem strtolFrom_stop (h : digitIn base c = none) (str : List UInt8) (i : Int) :
    strtolFrom base (c :: str) i = (i, c :: str) := by
  rw [strtolFrom]
  cases hvalue : digitValue c with
  | none =>
    have halnum : isalnum c = false := by
      rw [← Bool.not_eq_true, isalnum_iff_digitValue, hvalue]
      simp
    have hdigit : isdigit c = false := by
      rw [← Bool.not_eq_true]
      intro hdigit
      rw [isalnum, hdigit] at halnum
      exact absurd halnum (by simp)
    by_cases hten : (base : Int) ≤ 10
    · rw [if_pos ⟨hten, .inl hdigit⟩]
    · rw [if_neg (fun hle => hten hle.1)]
      exact if_pos ⟨by omega, .inl halnum⟩
  | some d =>
    have hle : base ≤ d := by
      rw [digitIn, hvalue, Option.filter_some] at h
      simpa using h
    rcases digitValue_cases hvalue with ⟨hdigit, hint, -, hten⟩ | ⟨hdigit, hlow, hten⟩
    · rw [if_pos ⟨by omega, .inr (by omega)⟩]
    · by_cases hsmall : (base : Int) ≤ 10
      · rw [if_pos ⟨hsmall, .inl hdigit⟩]
      · rw [if_neg (fun hle => hsmall hle.1)]
        exact if_pos ⟨by omega, .inr ⟨hdigit, by omega⟩⟩

theorem s32_zero : s32 0 = 0 := by
  rw [s32]
  rfl

theorem strtolFrom_digits {digits rest : List UInt8} (hds : digits.map (digitIn base) = ds.map some)
    (hrest : ∀ c, rest.head? = some c → digitIn base c = none) (acc : Nat) :
    strtolFrom base (digits ++ rest) (s32 acc) = (s32 (Numeral.after base acc ds : Nat), rest) := by
  induction digits generalizing ds acc with
  | nil =>
    obtain rfl : ds = [] := by simpa using hds.symm
    rw [List.nil_append, Numeral.after_nil]
    cases rest with
    | nil => rfl
    | cons c rest => exact strtolFrom_stop (hrest c rfl) _ _
  | cons c digits ih =>
    obtain ⟨d, ds, rfl⟩ : ∃ d ds', ds = d :: ds' := by
      cases ds with
      | nil => simp at hds
      | cons d ds => exact ⟨d, ds, rfl⟩
    rw [map_cons, map_cons, List.cons.injEq] at hds
    rw [List.cons_append, strtolFrom_digit hds.1, s32_s32_mul, Numeral.after_cons,
      ← ih hds.2 (acc * base + d)]
    rfl

/-! ## Numerals -/

/-- The prefix of a hexadecimal number. -/
def IsHexPrefix (base : Nat) (pre : List UInt8) : Prop :=
  (base = 16 ∨ base = 0) ∧ (pre = [48, 120] ∨ pre = [48, 88])

/-- The base that the digits are of: where none is given, a prefix or a zero in front tells it. -/
def radix (base : Nat) (pre digits : List UInt8) : Nat :=
  if base ≠ 0 then base else if pre ≠ [] then 16 else if digits.head? = some 48 then 8 else 10

/-- A prefix, or none, and digits of the base with the value `n`. -/
def IsMagnitude (base : Nat) (text : List UInt8) (n : Nat) : Prop :=
  ∃ pre digits, text = pre ++ digits ∧ (pre = [] ∨ IsHexPrefix base pre) ∧ digits ≠ [] ∧
    Numeral.Denotes (radix base pre digits) (digitIn (radix base pre digits)) digits n

/-- White space, a sign or none, and a magnitude. -/
def IsNumeral (base : Nat) (text : List UInt8) (value : Int) : Prop :=
  ∃ spaces sign magnitude n, text = spaces ++ (sign ++ magnitude) ∧
    (∀ c ∈ spaces, isspace c = true) ∧ (sign = [] ∨ sign = [43] ∨ sign = [45]) ∧
    IsMagnitude base magnitude n ∧ value = if sign = [45] then -(n : Int) else n

/-- The longest start of the string that is a numeral. -/
def LongestNumeral (base : Nat) (str text : List UInt8) (value : Int) : Prop :=
  (IsNumeral base text value ∧ text <+: str) ∧
    ∀ other value', IsNumeral base other value' ∧ other <+: str → other.length ≤ text.length

/-- What is to be read from a string: the longest numeral, with the end pointer behind it, and without
one nothing at all. -/
def ReadsNumeral (base : Nat) (str : List UInt8) (read : Int × List UInt8) : Prop :=
  (∃ text value, LongestNumeral base str text value ∧ read.1 = value ∧ str = text ++ read.2) ∨
    (∀ text value, ¬ (IsNumeral base text value ∧ text <+: str)) ∧ read = (0, str)

/-! ## In front of the magnitude -/

/-- What is left of the string behind white space. -/
def trimmed (str : List UInt8) : List UInt8 := str.dropWhile isspace

/-- The sign that a text starts with. -/
def signOf (text : List UInt8) : List UInt8 :=
  if text.head? = some 45 ∨ text.head? = some 43 then text.take 1 else []

/-- What is left of the string behind white space and a sign. -/
def unsignedPart (str : List UInt8) : List UInt8 :=
  if (trimmed str).head? = some 45 ∨ (trimmed str).head? = some 43 then (trimmed str).tail
  else trimmed str

/-- The white space and the sign. -/
def leading (str : List UInt8) : List UInt8 :=
  str.takeWhile isspace ++ signOf (trimmed str)

theorem leading_append (str : List UInt8) : leading str ++ unsignedPart str = str := by
  have hsign : signOf (trimmed str) ++ unsignedPart str = trimmed str := by
    unfold signOf unsignedPart
    split_ifs
    · rw [← List.drop_one, take_append_drop]
    · rfl
  rw [leading, append_assoc, hsign]
  exact List.takeWhile_append_dropWhile

theorem signOf_cases (text : List UInt8) :
    (signOf text = [] ∧ text.head? ≠ some 45) ∨ (signOf text = [43] ∧ text.head? ≠ some 45) ∨
      (signOf text = [45] ∧ text.head? = some 45) := by
  cases text with
  | nil => exact .inl ⟨rfl, by simp⟩
  | cons c text =>
    by_cases h45 : c = 45
    · exact .inr (.inr ⟨by simp [signOf, h45], by simp [h45]⟩)
    · by_cases h43 : c = 43
      · exact .inr (.inl ⟨by simp [signOf, h43], by simp [h43]⟩)
      · exact .inl ⟨by simp [signOf, h45, h43], by simp [h45]⟩

theorem IsMagnitude.head {text : List UInt8} (h : IsMagnitude base text n) :
    ∃ c rest, text = c :: rest ∧ isalnum c = true := by
  obtain ⟨pre, digits, rfl, hpre, hne, ds, hds, -⟩ := h
  rcases hpre with rfl | ⟨-, rfl | rfl⟩
  · obtain ⟨c, digits, rfl⟩ := List.exists_cons_of_ne_nil hne
    refine ⟨c, digits, rfl, isalnum_iff_digitValue.2 ?_⟩
    cases hds' : ds with
    | nil => simp [hds'] at hds
    | cons d ds =>
      rw [hds', map_cons, map_cons, List.cons.injEq] at hds
      rw [(Option.filter_eq_some_iff.1 hds.1).1]
      rfl
  · exact ⟨48, _, rfl, by decide⟩
  · exact ⟨48, _, rfl, by decide⟩

theorem isspace_of_isalnum (h : isalnum c = true) : isspace c = false := by
  rw [isspace, Bool.or_eq_false_iff, Bool.and_eq_false_iff]
  rw [isalnum_iff, isdigit_iff] at h
  refine ⟨.inr (decide_eq_false fun hle => ?_), beq_eq_false_iff_ne.2 ?_⟩
  · have hle' : c.toNat ≤ 13 := hle
    omega
  · rintro rfl
    exact absurd h (by decide)

theorem isNumeral_prefix_iff {str text : List UInt8} {value : Int} :
    IsNumeral base text value ∧ text <+: str ↔
      ∃ magnitude n, IsMagnitude base magnitude n ∧ magnitude <+: unsignedPart str ∧
        text = leading str ++ magnitude ∧
        value = if (trimmed str).head? = some 45 then -(n : Int) else n := by
  constructor
  · rintro ⟨⟨spaces, sign, magnitude, n, rfl, hspaces, hsign, hmagnitude, rfl⟩, rest, rfl⟩
    obtain ⟨c, more, rfl, hc⟩ := hmagnitude.head
    have hspace := isspace_of_isalnum hc
    have h45 : c ≠ 45 := by
      rintro rfl
      exact absurd hc (by decide)
    have h43 : c ≠ 43 := by
      rintro rfl
      exact absurd hc (by decide)
    -- the first character behind the white space is the sign or starts the magnitude
    have htrim : trimmed (spaces ++ (sign ++ c :: more ++ rest)) = sign ++ c :: (more ++ rest) := by
      rw [trimmed, List.dropWhile_append_of_pos hspaces]
      rcases hsign with rfl | rfl | rfl
      · simp [hspace]
      · simp [show isspace 43 = false by decide]
      · simp [show isspace 45 = false by decide]
    have htake : (spaces ++ (sign ++ c :: more ++ rest)).takeWhile isspace = spaces := by
      rw [List.takeWhile_append_of_pos hspaces]
      rcases hsign with rfl | rfl | rfl
      · simp [hspace]
      · simp [show isspace 43 = false by decide]
      · simp [show isspace 45 = false by decide]
    refine ⟨c :: more, n, hmagnitude, ?_⟩
    rw [append_assoc, unsignedPart, leading, htrim, htake]
    rcases hsign with rfl | rfl | rfl
    · simp [signOf, h45, h43]
    · simp [signOf]
    · simp [signOf]
  · rintro ⟨magnitude, n, hmagnitude, hpre, rfl, rfl⟩
    refine ⟨⟨str.takeWhile isspace, signOf (trimmed str), magnitude, n, ?_, ?_, ?_, hmagnitude, ?_⟩, ?_⟩
    · rw [leading, append_assoc]
    · intro d hd
      exact List.mem_takeWhile_imp hd
    · rcases signOf_cases (trimmed str) with ⟨hsign, -⟩ | ⟨hsign, -⟩ | ⟨hsign, -⟩ <;> simp [hsign]
    · rcases signOf_cases (trimmed str) with ⟨hsign, hhead⟩ | ⟨hsign, hhead⟩ | ⟨hsign, hhead⟩ <;>
        simp [hsign, hhead]
    · conv_rhs => rw [← leading_append str]
      exact (List.prefix_append_right_inj _).2 hpre

/-! ## The longest numeral -/

/-- The digits of the base that a text starts with. -/
def digitsIn (base : Nat) (text : List UInt8) : List UInt8 :=
  text.takeWhile fun c => (digitIn base c).isSome

/-- Behind two characters there is a digit of a hexadecimal number. -/
def HexDigitBehind (text : List UInt8) : Prop :=
  ∃ c, text[2]? = some c ∧ IsDigitIn 16 c

/-- The text starts with a prefix and a digit behind it. -/
def StartsHex (base : Nat) (text : List UInt8) : Prop :=
  IsHexPrefix base (text.take 2) ∧ HexDigitBehind text

variable {text str : List UInt8}

theorem digitsIn_split (base : Nat) (text : List UInt8) : digitsIn base text <+: text :=
  List.takeWhile_prefix _

theorem exists_digits (base : Nat) (text : List UInt8) :
    ∃ ds : List Nat, (digitsIn base text).map (digitIn base) = ds.map some := by
  refine ⟨(digitsIn base text).map fun c => (digitIn base c).getD 0, ?_⟩
  rw [List.map_map]
  apply List.map_congr_left
  intro c hc
  have hsome := List.mem_takeWhile_imp hc
  obtain ⟨d, hd⟩ := Option.isSome_iff_exists.1 hsome
  simp [hd]

theorem prefix_digitsIn (hpre : digits <+: text)
    (hds : digits.map (digitIn base) = ds.map some) : digits.length ≤ (digitsIn base text).length := by
  obtain ⟨rest, rfl⟩ := hpre
  have hall : ∀ c ∈ digits, (digitIn base c).isSome = true := by
    intro c hc
    have hmem : digitIn base c ∈ ds.map some := by
      rw [← hds]
      exact List.mem_map_of_mem hc
    obtain ⟨d, -, hd⟩ := List.mem_map.1 hmem
    rw [← hd]
    rfl
  rw [digitsIn, List.takeWhile_append_of_pos hall, length_append]
  exact Nat.le_add_right _ _

theorem strtolFrom_digitsIn (base : Nat) (text : List UInt8) :
    ∃ ds : List Nat, (digitsIn base text).map (digitIn base) = ds.map some ∧
      strtolFrom base text 0 =
        (s32 (Nat.ofDigits base ds.reverse : Nat), text.drop (digitsIn base text).length) := by
  obtain ⟨ds, hds⟩ := exists_digits base text
  refine ⟨ds, hds, ?_⟩
  have hsplit : digitsIn base text ++ text.dropWhile (fun c => (digitIn base c).isSome) = text :=
    List.takeWhile_append_dropWhile
  have hrest : text.drop (digitsIn base text).length =
      text.dropWhile fun c => (digitIn base c).isSome := by
    conv_lhs =>
      arg 2
      rw [← hsplit]
    exact List.drop_left
  have hstop : ∀ c, (text.dropWhile fun c => (digitIn base c).isSome).head? = some c →
      digitIn base c = none := by
    intro c hc
    have hnot := List.head?_dropWhile_not (fun c => (digitIn base c).isSome) text
    rw [hc] at hnot
    simpa using hnot
  have hloop := strtolFrom_digits hds hstop 0
  rw [hsplit] at hloop
  rw [hrest, ← s32_zero]
  rw [show ((0 : Nat) : Int) = 0 from rfl] at hloop
  rw [hloop, Numeral.after, Nat.zero_mul, Nat.zero_add]

/-- The base of digits without a prefix. -/
def plainRadix (base : Nat) (text : List UInt8) : Nat :=
  if base ≠ 0 then base else if text.head? = some 48 then 8 else 10

theorem radix_plain (hne : digits ≠ []) (hpre : digits <+: text) :
    radix base [] digits = plainRadix base text := by
  obtain ⟨c, digits, rfl⟩ := List.exists_cons_of_ne_nil hne
  obtain ⟨rest, rfl⟩ := hpre
  simp [radix, plainRadix]

theorem radix_hex {pre digits : List UInt8} (h : IsHexPrefix base pre) : radix base pre digits = 16 := by
  have hpos : pre ≠ [] := by
    rcases h.2 with rfl | rfl <;> simp
  rcases h.1 with rfl | rfl <;> simp [radix, hpos]

theorem digitsIn_of_hexPrefix (h : IsHexPrefix base (text.take 2)) :
    (digitsIn (plainRadix base text) text).length ≤ 1 := by
  obtain ⟨x, rest, rfl, hx⟩ : ∃ x rest, text = 48 :: x :: rest ∧ (x = 120 ∨ x = 88) := by
    rcases h.2 with htake | htake
    · exact ⟨120, text.drop 2, by rw [← take_append_drop 2 text, htake]; rfl, .inl rfl⟩
    · exact ⟨88, text.drop 2, by rw [← take_append_drop 2 text, htake]; rfl, .inr rfl⟩
  have hstop : digitIn (plainRadix base (48 :: x :: rest)) x = none := by
    have hradix : plainRadix base (48 :: x :: rest) = 16 ∨ plainRadix base (48 :: x :: rest) = 8 := by
      rcases h.1 with rfl | rfl
      · exact .inl rfl
      · exact .inr rfl
    rcases hradix with hradix | hradix <;> rw [hradix] <;> rcases hx with rfl | rfl <;> decide
  rw [digitsIn, takeWhile_cons, takeWhile_cons, hstop]
  split <;> simp

theorem IsMagnitude.le_of_plain (h : IsMagnitude base magnitude n)
    (hpre : magnitude <+: text) (hplain : ¬ StartsHex base text) :
    magnitude.length ≤ (digitsIn (plainRadix base text) text).length := by
  obtain ⟨pre, digits, rfl, hform, hne, ds, hds, -⟩ := h
  rcases hform with rfl | hhex
  · rw [List.nil_append] at hpre ⊢
    rw [radix_plain hne hpre] at hds
    exact prefix_digitsIn hpre hds
  · -- a magnitude with a prefix has a digit behind it
    exfalso
    obtain ⟨rest, rfl⟩ := hpre
    obtain ⟨c, digits, rfl⟩ := List.exists_cons_of_ne_nil hne
    have hlen : pre.length = 2 := by rcases hhex.2 with rfl | rfl <;> rfl
    rw [radix_hex hhex] at hds
    obtain ⟨d, ds, rfl⟩ : ∃ d ds', ds = d :: ds' := by
      cases ds with
      | nil => simp at hds
      | cons d ds => exact ⟨d, ds, rfl⟩
    rw [map_cons, map_cons, List.cons.injEq] at hds
    refine hplain ⟨?_, c, ?_, by rw [IsDigitIn, hds.1]; rfl⟩
    · rwa [append_assoc, List.take_left' hlen]
    · rw [append_assoc, List.getElem?_append_right (by omega), hlen]
      rfl

theorem IsMagnitude.le_of_hex (h : IsMagnitude base magnitude n) (hpre : magnitude <+: text)
    (hhex : StartsHex base text) : magnitude.length ≤ 2 + (digitsIn 16 (text.drop 2)).length := by
  obtain ⟨pre, digits, rfl, hform, hne, ds, hds, -⟩ := h
  rcases hform with rfl | hpre'
  · -- without the prefix the digits end at its second character
    rw [radix_plain hne hpre] at hds
    have hle := prefix_digitsIn hpre hds
    have hone := digitsIn_of_hexPrefix hhex.1
    omega
  · obtain ⟨rest, rfl⟩ := hpre
    have hlen : pre.length = 2 := by rcases hpre'.2 with rfl | rfl <;> rfl
    rw [radix_hex hpre'] at hds
    rw [append_assoc, List.drop_left' hlen, length_append, hlen]
    exact Nat.add_le_add_left (prefix_digitsIn (List.prefix_append _ _) hds) 2

theorem isMagnitude_plain
    (hds : (digitsIn (plainRadix base text) text).map (digitIn (plainRadix base text)) = ds.map some)
    (hne : digitsIn (plainRadix base text) text ≠ []) :
    IsMagnitude base (digitsIn (plainRadix base text) text)
      (Nat.ofDigits (plainRadix base text) ds.reverse) := by
  refine ⟨[], digitsIn (plainRadix base text) text, rfl, .inl rfl, hne, ?_⟩
  rw [radix_plain hne (digitsIn_split _ _)]
  exact ⟨ds, hds, rfl⟩

theorem isMagnitude_hex (hhex : StartsHex base text)
    (hds : (digitsIn 16 (text.drop 2)).map (digitIn 16) = ds.map some) :
    IsMagnitude base (text.take 2 ++ digitsIn 16 (text.drop 2)) (Nat.ofDigits 16 ds.reverse) := by
  obtain ⟨hpre, c, hc, hdigit⟩ := hhex
  have hne : digitsIn 16 (text.drop 2) ≠ [] := by
    have hhead : (text.drop 2).head? = some c := by rw [List.head?_drop, hc]
    obtain ⟨rest, hrest⟩ := List.head?_eq_some_iff.1 hhead
    have hdigit : (digitIn 16 c).isSome = true := hdigit
    rw [hrest, digitsIn, takeWhile_cons, if_pos hdigit]
    simp
  refine ⟨_, _, rfl, .inr hpre, hne, ?_⟩
  rw [radix_hex hpre]
  exact ⟨ds, hds, rfl⟩

theorem longestNumeral_of (h : IsMagnitude base magnitude n)
    (hpre : magnitude <+: unsignedPart str)
    (hmost : ∀ other k, IsMagnitude base other k → other <+: unsignedPart str →
      other.length ≤ magnitude.length) :
    LongestNumeral base str (leading str ++ magnitude)
      (if (trimmed str).head? = some 45 then -(n : Int) else n) := by
  refine ⟨isNumeral_prefix_iff.2 ⟨magnitude, n, h, hpre, rfl, rfl⟩, ?_⟩
  intro other value hother
  obtain ⟨m, k, hm, hmpre, rfl, -⟩ := isNumeral_prefix_iff.1 hother
  rw [length_append, length_append]
  exact Nat.add_le_add_left (hmost m k hm hmpre) _

theorem ReadsNumeral.end_eq {value : Int} {read : Int × List UInt8} (h : ReadsNumeral base str read)
    (hlongest : LongestNumeral base str text value) : str = text ++ read.2 := by
  rcases h with ⟨other, value', hother, -, heq⟩ | ⟨hnone, -⟩
  · have hlen : other.length = text.length :=
      Nat.le_antisymm (hlongest.2 _ _ hother.1) (hother.2 _ _ hlongest.1)
    obtain ⟨rest, hrest⟩ := hlongest.1.2
    have hsame := heq.symm.trans hrest.symm
    rw [heq, (List.append_inj hsame hlen).1]
  · exact absurd hlongest.1 (hnone _ _)

/-! ## What `strtol` reads -/

/-- `strtol` behind white space and a sign. -/
def strtolUnsigned (base : Nat) (text : List UInt8) : Int × List UInt8 :=
  if (base = 16 ∨ base = 0) ∧ text.take 2 = [48, 120] then strtolFrom 16 (text.drop 2) 0
  else if base = 0 ∧ text.head? = some 48 then strtolFrom 8 text.tail 0
  else strtolFrom (if base = 0 then 10 else base) text 0

theorem strtol_eq (str : List UInt8) (base : Nat) :
    strtol str base =
      (if (trimmed str).head? = some 45 then s32 (-(strtolUnsigned base (unsignedPart str)).1)
        else (strtolUnsigned base (unsignedPart str)).1,
        (strtolUnsigned base (unsignedPart str)).2) := by
  have hstart (u : List UInt8) : (u[0]? = some 48 ∧ u[1]? = some 120) ↔ u.take 2 = [48, 120] := by
    rcases u with _ | ⟨a, _ | ⟨b, u⟩⟩ <;> simp
  have hsixteen : (base : Int) = 16 ↔ base = 16 := by omega
  have hzero : (base : Int) = 0 ↔ base = 0 := by omega
  have hhead (u : List UInt8) : u[0]? = u.head? := by cases u <;> rfl
  unfold strtol unsignedPart trimmed
  dsimp only
  generalize str.dropWhile isspace = t
  generalize (if t.head? = some 45 ∨ t.head? = some 43 then t.tail else t) = u
  simp only [hstart, hsixteen, hzero]
  simp only [hhead]
  unfold strtolUnsigned
  by_cases hhex : (base = 16 ∨ base = 0) ∧ u.take 2 = [48, 120]
  · simp [if_pos hhex]
  · by_cases hoctal : base = 0 ∧ u.head? = some 48
    · simp [if_neg hhex, if_pos hoctal]
    · simp [if_neg hhex, if_neg hoctal]

theorem strtolUnsigned_plain (h : ¬ ((base = 16 ∨ base = 0) ∧ text.take 2 = [48, 120])) :
    ∃ ds : List Nat,
      (digitsIn (plainRadix base text) text).map (digitIn (plainRadix base text)) = ds.map some ∧
      strtolUnsigned base text = (s32 (Nat.ofDigits (plainRadix base text) ds.reverse : Nat),
        text.drop (digitsIn (plainRadix base text) text).length) := by
  rw [strtolUnsigned, if_neg h]
  by_cases hoctal : base = 0 ∧ text.head? = some 48
  · -- the zero in front is a digit too
    obtain ⟨rfl, hhead⟩ := hoctal
    obtain ⟨rest, rfl⟩ := List.head?_eq_some_iff.1 hhead
    obtain ⟨ds, hds, hread⟩ := strtolFrom_digitsIn 8 rest
    have hradix : plainRadix 0 (48 :: rest) = 8 := by simp [plainRadix]
    have hdigits : digitsIn 8 (48 :: rest) = 48 :: digitsIn 8 rest := by
      rfl
    refine ⟨0 :: ds, ?_, ?_⟩
    · rw [hradix, hdigits, map_cons, hds]
      rfl
    · rw [if_pos ⟨rfl, hhead⟩, hradix, hdigits, List.tail_cons, List.length_cons, List.drop_succ_cons,
        Nat.ofDigits_reverse_cons, Nat.mul_zero, Nat.add_zero]
      exact hread
  · have hradix : plainRadix base text = if base = 0 then 10 else base := by
      unfold plainRadix
      by_cases hzero : base = 0
      · have hhead : text.head? ≠ some 48 := fun h => hoctal ⟨hzero, h⟩
        simp [hzero, hhead]
      · simp [hzero]
    obtain ⟨ds, hds, hread⟩ := strtolFrom_digitsIn (plainRadix base text) text
    refine ⟨ds, hds, ?_⟩
    rw [if_neg hoctal, ← hread, hradix]
    congr 1
    split_ifs <;> rfl

theorem strtolUnsigned_hex (h : (base = 16 ∨ base = 0) ∧ text.take 2 = [48, 120]) :
    ∃ ds : List Nat, (digitsIn 16 (text.drop 2)).map (digitIn 16) = ds.map some ∧
      strtolUnsigned base text = (s32 (Nat.ofDigits 16 ds.reverse : Nat),
        (text.drop 2).drop (digitsIn 16 (text.drop 2)).length) := by
  rw [strtolUnsigned, if_pos h]
  exact strtolFrom_digitsIn 16 (text.drop 2)

/-- The value of the number fits a `long`. -/
def FitsLong (base : Nat) (str : List UInt8) : Prop :=
  ∀ text value, LongestNumeral base str text value → -2 ^ 31 ≤ value ∧ value < 2 ^ 31

/-- There is a digit behind the prefix "0x", none behind the prefix "0X", and where there is no number
there is no white space and no sign either. -/
def StrtolReads (base : Nat) (str : List UInt8) : Prop :=
  ((base = 16 ∨ base = 0) ∧ (unsignedPart str).take 2 = [48, 120] → HexDigitBehind (unsignedPart str)) ∧
  ((base = 16 ∨ base = 0) ∧ (unsignedPart str).take 2 = [48, 88] → ¬ HexDigitBehind (unsignedPart str)) ∧
  ((∃ c, (unsignedPart str).head? = some c ∧ IsDigitIn (if base = 0 then 10 else base) c) ∨
    unsignedPart str = str)

theorem signed_eq (hfits : FitsLong base str)
    (h : LongestNumeral base str (leading str ++ magnitude)
      (if (trimmed str).head? = some 45 then -(n : Int) else n)) :
    (if (trimmed str).head? = some 45 then s32 (-(s32 n)) else s32 n) =
      if (trimmed str).head? = some 45 then -(n : Int) else n := by
  have hrange := hfits _ _ h
  have hneg := s32_s32_mul n (-1) 0
  rw [Int.add_zero, Int.add_zero, Int.mul_neg_one, Int.mul_neg_one] at hneg
  split_ifs at hrange ⊢
  · rw [hneg]
    exact s32_of_range (by omega) (by omega)
  · exact s32_of_range (by omega) (by omega)

theorem digitsIn_ne_nil_iff :
    digitsIn (plainRadix base text) text ≠ [] ↔
      ∃ c, text.head? = some c ∧ IsDigitIn (if base = 0 then 10 else base) c := by
  cases text with
  | nil => simp [digitsIn]
  | cons c rest =>
    rw [digitsIn, takeWhile_cons]
    have hsame : (digitIn (plainRadix base (c :: rest)) c).isSome = true ↔
        IsDigitIn (if base = 0 then 10 else base) c := by
      unfold plainRadix IsDigitIn
      by_cases hbase : base = 0
      · by_cases hc : c = 48
        · subst hc
          simp only [hbase, ne_eq, not_true_eq_false, if_false, List.head?_cons, if_true]
          decide
        · simp [hbase, hc]
      · simp [hbase]
    split
    · next h => simp [← hsame, h]
    · next h => simp [← hsame, h]

theorem longestNumeral_plain (hplain : ¬ StartsHex base (unsignedPart str))
    (hds : (digitsIn (plainRadix base (unsignedPart str)) (unsignedPart str)).map
      (digitIn (plainRadix base (unsignedPart str))) = ds.map some)
    (hne : digitsIn (plainRadix base (unsignedPart str)) (unsignedPart str) ≠ []) :
    LongestNumeral base str
      (leading str ++ digitsIn (plainRadix base (unsignedPart str)) (unsignedPart str))
      (if (trimmed str).head? = some 45 then
        -((Nat.ofDigits (plainRadix base (unsignedPart str)) ds.reverse : Nat) : Int)
      else (Nat.ofDigits (plainRadix base (unsignedPart str)) ds.reverse : Nat)) :=
  longestNumeral_of (isMagnitude_plain hds hne) (digitsIn_split _ _)
    fun _ _ hother hpre => hother.le_of_plain hpre hplain

theorem longestNumeral_hex (hhex : StartsHex base (unsignedPart str))
    (hds : (digitsIn 16 ((unsignedPart str).drop 2)).map (digitIn 16) = ds.map some) :
    LongestNumeral base str
      (leading str ++ ((unsignedPart str).take 2 ++ digitsIn 16 ((unsignedPart str).drop 2)))
      (if (trimmed str).head? = some 45 then -((Nat.ofDigits 16 ds.reverse : Nat) : Int)
      else (Nat.ofDigits 16 ds.reverse : Nat)) := by
  refine longestNumeral_of (isMagnitude_hex hhex hds) ?_ ?_
  · conv_rhs => rw [← take_append_drop 2 (unsignedPart str)]
    exact (List.prefix_append_right_inj _).2 (digitsIn_split _ _)
  · intro other k hother hpre
    have hlen : ((unsignedPart str).take 2).length = 2 := by
      rcases hhex.1.2 with heq | heq <;> rw [heq] <;> rfl
    rw [length_append, hlen]
    exact hother.le_of_hex hpre hhex

theorem drop_leading (h : magnitude <+: unsignedPart str) (hn : n ≤ (unsignedPart str).length) :
    str = leading str ++ magnitude ++ (unsignedPart str).drop n ↔ n = magnitude.length := by
  obtain ⟨rest, hrest⟩ := h
  constructor
  · intro heq
    have hall := congrArg List.length (leading_append str)
    have hsum := congrArg List.length heq
    rw [length_append] at hall
    simp only [length_append, List.length_drop] at hsum
    omega
  · rintro rfl
    conv_lhs => rw [← leading_append str]
    rw [append_assoc]
    congr 1
    rw [← hrest, List.drop_left]

theorem IsHexPrefix.length (h : IsHexPrefix base (text.take 2)) :
    (text.take 2).length = 2 ∧ 2 ≤ text.length := by
  have hlen : (text.take 2).length = 2 := by rcases h.2 with heq | heq <;> rw [heq] <;> rfl
  rw [List.length_take] at hlen
  rw [List.length_take]
  omega

theorem digit_of_hexPrefix (h : IsHexPrefix base (text.take 2)) :
    ∃ c, text.head? = some c ∧ IsDigitIn (if base = 0 then 10 else base) c := by
  refine ⟨48, ?_, ?_⟩
  · have hlen := (IsHexPrefix.length h).2
    rcases h.2 with heq | heq
    · have hhead := congrArg List.head? heq
      rwa [List.head?_take, if_neg (by omega)] at hhead
    · have hhead := congrArg List.head? heq
      rwa [List.head?_take, if_neg (by omega)] at hhead
  · rcases h.1 with rfl | rfl <;> decide

theorem strtol_reads_lower (hfits : FitsLong base str)
    (hlower : (base = 16 ∨ base = 0) ∧ (unsignedPart str).take 2 = [48, 120]) :
    ReadsNumeral base str (strtol str base) ↔ HexDigitBehind (unsignedPart str) := by
  have hstart : IsHexPrefix base ((unsignedPart str).take 2) := ⟨hlower.1, .inl hlower.2⟩
  obtain ⟨hlen, hlow⟩ := IsHexPrefix.length hstart
  obtain ⟨ds, hds, hread⟩ := strtolUnsigned_hex hlower
  have hle := (digitsIn_split 16 ((unsignedPart str).drop 2)).length_le
  rw [List.length_drop] at hle
  rw [strtol_eq, hread, List.drop_drop]
  constructor
  · intro hreads
    by_contra hbehind
    -- the number is the zero alone, but the end pointer is behind the prefix
    obtain ⟨zs, hzs⟩ := exists_digits (plainRadix base (unsignedPart str)) (unsignedPart str)
    have hlongest := longestNumeral_plain (fun h => hbehind h.2) hzs
      (digitsIn_ne_nil_iff.2 (digit_of_hexPrefix hstart))
    have hend := hreads.end_eq hlongest
    rw [drop_leading (digitsIn_split _ _) (by omega)] at hend
    have hone := digitsIn_of_hexPrefix hstart
    omega
  · intro hbehind
    have hlongest := longestNumeral_hex ⟨hstart, hbehind⟩ hds
    refine .inl ⟨_, _, hlongest, signed_eq hfits hlongest, ?_⟩
    rw [drop_leading _ (by omega), length_append, hlen]
    conv_rhs => rw [← take_append_drop 2 (unsignedPart str)]
    exact (List.prefix_append_right_inj _).2 (digitsIn_split _ _)

theorem strtol_reads_plain (hfits : FitsLong base str)
    (hlower : ¬ ((base = 16 ∨ base = 0) ∧ (unsignedPart str).take 2 = [48, 120])) :
    ReadsNumeral base str (strtol str base) ↔ ¬ StartsHex base (unsignedPart str) ∧
      ((∃ c, (unsignedPart str).head? = some c ∧ IsDigitIn (if base = 0 then 10 else base) c) ∨
        unsignedPart str = str) := by
  obtain ⟨ds, hds, hread⟩ := strtolUnsigned_plain hlower
  have hpre := digitsIn_split (plainRadix base (unsignedPart str)) (unsignedPart str)
  rw [strtol_eq, hread, ← digitsIn_ne_nil_iff]
  by_cases hhex : StartsHex base (unsignedPart str)
  · -- the prefix "0X" is not read, and the end pointer is behind the zero
    refine iff_of_false ?_ fun h => h.1 hhex
    intro hreads
    obtain ⟨zs, hzs⟩ := exists_digits 16 ((unsignedPart str).drop 2)
    have hend := hreads.end_eq (longestNumeral_hex hhex hzs)
    obtain ⟨hlen, -⟩ := IsHexPrefix.length hhex.1
    rw [drop_leading _ hpre.length_le, length_append, hlen] at hend
    · have hone := digitsIn_of_hexPrefix hhex.1
      omega
    · conv_rhs => rw [← take_append_drop 2 (unsignedPart str)]
      exact (List.prefix_append_right_inj _).2 (digitsIn_split _ _)
  · rw [and_iff_right hhex]
    by_cases hne : digitsIn (plainRadix base (unsignedPart str)) (unsignedPart str) = []
    · -- there is no number
      have hnone : ∀ text value, ¬ (IsNumeral base text value ∧ text <+: str) := by
        intro text value hnumeral
        obtain ⟨magnitude, n, hmagnitude, hmpre, -, -⟩ := isNumeral_prefix_iff.1 hnumeral
        have hle := hmagnitude.le_of_plain hmpre hhex
        obtain ⟨c, rest, rfl, -⟩ := hmagnitude.head
        rw [hne] at hle
        exact absurd hle (by simp)
      obtain rfl : ds = [] := by
        rw [hne] at hds
        simpa using hds.symm
      have hzero :
          s32 (Nat.ofDigits (plainRadix base (unsignedPart str)) ([] : List Nat).reverse : Nat) = 0 :=
        s32_zero
      rw [hne, hzero, List.length_nil, List.drop_zero, Int.neg_zero, s32_zero, ite_self]
      constructor
      · rintro (⟨text, value, hlongest, -⟩ | ⟨-, heq⟩)
        · exact absurd hlongest.1 (hnone _ _)
        · exact .inr (Prod.mk.inj heq).2
      · rintro (hsome | hsame)
        · exact absurd rfl hsome
        · exact .inr ⟨hnone, by rw [hsame]⟩
    · have hlongest := longestNumeral_plain hhex hds hne
      refine iff_of_true (.inl ⟨_, _, hlongest, signed_eq hfits hlongest, ?_⟩) (.inl hne)
      rw [drop_leading hpre hpre.length_le]

/-- `strtol` reads the longest numeral, when its value fits a `long`, exactly of these strings. -/
theorem strtol_reads_iff (base : Nat) (str : List UInt8) (hfits : FitsLong base str) :
    ReadsNumeral base str (strtol str base) ↔ StrtolReads base str := by
  by_cases hlower : (base = 16 ∨ base = 0) ∧ (unsignedPart str).take 2 = [48, 120]
  · have hupper : ¬ ((base = 16 ∨ base = 0) ∧ (unsignedPart str).take 2 = [48, 88]) := by
      rintro ⟨-, heq⟩
      exact absurd (heq.symm.trans hlower.2) (by decide)
    have hstart : IsHexPrefix base ((unsignedPart str).take 2) := ⟨hlower.1, .inl hlower.2⟩
    have hdigit := digit_of_hexPrefix hstart
    rw [strtol_reads_lower hfits hlower]
    exact ⟨fun h => ⟨fun _ => h, fun hx => absurd hx hupper, .inl hdigit⟩, fun h => h.1 hlower⟩
  · rw [strtol_reads_plain hfits hlower]
    constructor
    · rintro ⟨hplain, hnumber⟩
      refine ⟨fun h => absurd h hlower, ?_, hnumber⟩
      intro hupper hbehind
      exact hplain ⟨⟨hupper.1, .inr hupper.2⟩, hbehind⟩
    · rintro ⟨-, hupper, hnumber⟩
      refine ⟨?_, hnumber⟩
      rintro ⟨⟨hbase, hlow | hup⟩, hbehind⟩
      · exact hlower ⟨hbase, hlow⟩
      · exact hupper ⟨hbase, hup⟩ hbehind

theorem fitsLong_of_length (hlen : (unsignedPart str).length ≤ 9) : FitsLong 10 str := by
  intro text value hlongest
  obtain ⟨magnitude, n, ⟨pre, digits, rfl, hpre, -, ds, hds, rfl⟩, hmpre, -, rfl⟩ :=
    isNumeral_prefix_iff.1 hlongest.1
  obtain rfl : pre = [] := hpre.resolve_right fun hhex => absurd hhex.1 (by decide)
  have hlt : ∀ d ∈ ds.reverse, d < 10 := by
    intro d hd
    have hmem : some d ∈ digits.map (digitIn 10) := hds ▸ List.mem_map_of_mem (List.mem_reverse.1 hd)
    obtain ⟨c, -, hc⟩ := List.mem_map.1 hmem
    exact of_decide_eq_true (Option.filter_eq_some_iff.1 hc).2
  have hdigits : ds.length ≤ 9 := by
    have hcount := congrArg List.length hds
    rw [List.length_map, List.length_map] at hcount
    exact hcount ▸ hmpre.length_le.trans hlen
  have hbound : Nat.ofDigits 10 ds.reverse < 10 ^ 9 :=
    (Nat.ofDigits_lt_base_pow_length (by decide) hlt).trans_le
      (Nat.pow_le_pow_right (by decide) (by rwa [List.length_reverse]))
  have hradix : radix 10 [] digits = 10 := rfl
  rw [hradix]
  split <;> omega

/-- `" -42;"`. -/
theorem strtol_reads_signed : ReadsNumeral 10 [32, 45, 52, 50, 59]
    (strtol [32, 45, 52, 50, 59] (10 : Nat)) :=
  (strtol_reads_iff 10 _ (fitsLong_of_length (by decide))).2
    ⟨fun h => absurd h.1 (by decide), fun h => absurd h.1 (by decide), .inl ⟨52, by decide⟩⟩

/-- Of a sign without digits the end pointer is behind the sign. -/
theorem strtol_sign_alone : FitsLong 10 [45] ∧ ¬ ReadsNumeral 10 [45] (strtol [45] (10 : Nat)) := by
  have hfits : FitsLong 10 [45] := fitsLong_of_length (by decide)
  refine ⟨hfits, fun hreads => ?_⟩
  have hplain := (strtol_reads_plain hfits (by decide)).1 hreads
  rcases hplain.2 with ⟨c, hc, -⟩ | hsame
  · exact absurd hc (by simp [unsignedPart, trimmed, isspace])
  · exact absurd hsame (by decide)

end LibC
