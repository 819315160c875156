import MeetixOS.LibC.PrintfIntegers

/-! # Where `vcbprintf` conforms

The conversions that `vcbprintf` prints as the C standard prescribes them: those of integers, characters
and strings. -/

open MeetixOS.Kernel (s32 s32_of_range)
open Padding (padded padded_eq_iff)

namespace LibC

open Conversion

/-! ## Characters -/

/-- The widths of a character, which is printed with a padding that is an `int`. -/
def Conversion.CharacterFits (c : Conversion) (value : BitVec 32) : Prop :=
  (-1 ≤ c.width.value ∧ c.width.value ≤ 2 ^ 31) ∨
    (c.width.value = -2 ^ 31 ∧ (ch '-' ∈ c.flags ∨ UInt8.ofNat value.toNat = ch ' '))

theorem Conversion.character_padding (c : Conversion) :
    s32 (c.directive.width - 1) = s32 (c.width.value - 1) := by
  rw [directive, Int.sub_eq_add_neg, s32_s32_add, Int.sub_eq_add_neg]

theorem padding_eq_iff {width : Int} (hwidth : -2 ^ 31 ≤ width) :
    (s32 (width - 1)).toNat = width.natAbs - 1 ↔
      (-1 ≤ width ∧ width ≤ 2 ^ 31) ∨ width = -2 ^ 31 := by
  rw [s32, Int.bmod_def]
  split <;> omega

theorem replicate_append_eq_iff (value : UInt8) (n k : Nat) :
    List.replicate n (ch ' ') ++ [value] = value :: List.replicate k (ch ' ') ↔
      n = k ∧ (k = 0 ∨ value = ch ' ') := by
  constructor
  · intro heq
    have hlength := congrArg List.length heq
    simp only [List.length_append, List.length_replicate, List.length_cons, List.length_nil] at hlength
    obtain rfl : n = k := by omega
    refine ⟨rfl, ?_⟩
    cases n with
    | zero => exact .inl rfl
    | succ n =>
      exact .inr (List.cons.inj heq).1.symm
  · rintro ⟨rfl, rfl | rfl⟩
    · rfl
    · rw [← List.replicate_succ', List.replicate_succ]

theorem Conversion.character_iff {c : Conversion} {value : BitVec 32}
    (h : c.operand = .character value) :
    (∀ bytes, c.standard = some bytes → c.item.output = bytes) ↔
      (ch '#' ∈ c.flags ∨ ch '0' ∈ c.flags) ∨ c.CharacterFits value := by
  have hstandard : c.standard = if ch '#' ∈ c.flags ∨ ch '0' ∈ c.flags then none
      else some (justified c.leftJustified c.width.value.natAbs [UInt8.ofNat value.toNat]) := by
    rw [standard, h]
  have hitem : c.item = .character c.directive (UInt8.ofNat value.toNat) := by rw [item, h]
  by_cases hundefined : ch '#' ∈ c.flags ∨ ch '0' ∈ c.flags
  · rw [hstandard, if_pos hundefined]
    exact iff_of_true (fun _ h => by cases h) (.inl hundefined)
  · have hflag : c.directive.flags.leftJustify = decide (ch '-' ∈ c.flags) := rfl
    have hpadding := padding_eq_iff c.width.value_ge
    rw [hstandard, if_neg hundefined, or_iff_right hundefined, hitem]
    simp only [Option.some.injEq, forall_eq', Item.output, Directive.characterOutput, justified,
      c.character_padding, hflag, decide_eq_true_eq, CharacterFits, List.length_singleton,
      List.singleton_append]
    by_cases hleft : ch '-' ∈ c.flags
    · have hleft' : c.leftJustified = true := by simp [leftJustified, hleft]
      rw [if_pos hleft, hleft', if_pos rfl, List.cons_inj_right, List.replicate_left_inj, hpadding]
      simp [hleft]
    · by_cases hneg : c.width.value < 0
      · have hleft' : c.leftJustified = true := by simp [leftJustified, hneg]
        rw [if_neg hleft, hleft', if_pos rfl, replicate_append_eq_iff, hpadding]
        simp only [hleft, false_or]
        constructor
        · rintro ⟨hsmall | hleast, hone | hblank⟩
          · exact .inl hsmall
          · exact .inl hsmall
          · omega
          · exact .inr ⟨hleast, hblank⟩
        · rintro (hsmall | ⟨hleast, hblank⟩)
          · exact ⟨.inl hsmall, .inl (by omega)⟩
          · exact ⟨.inr hleast, .inr hblank⟩
      · have hleft' : c.leftJustified = false := by simp [leftJustified, hleft, hneg]
        rw [if_neg hleft, hleft', if_neg Bool.false_ne_true, List.append_cancel_right_eq,
          List.replicate_left_inj, hpadding]
        omega

/-! ## Strings -/

/-- The characters that `vcbprintf` prints of a string and the blanks behind it: its length, or the
precision as an `usize`, which is 6 for a period alone. -/
def Precision.used (len : Nat) : Precision → Nat
  | .none => len
  | .digits text => if text = [] then 6 else decimalValue text 0 % 2 ^ 32
  | .star value => value.toNat

/-- How many characters of a string the standard prints. -/
def Precision.kept (precision : Precision) (len : Nat) : Nat :=
  match precision.limit with
  | .none => len
  | .some limit => min limit len

/-- Between two places of a string are only blanks. -/
def BlankBetween (bytes : List UInt8) (i j : Nat) : Prop :=
  ∀ k, min i j ≤ k → k < max i j → bytes.getD k (ch ' ') = ch ' '

/-- The strings that are printed as the standard says, by the precision that is used and the characters
that the standard prints. -/
def StringFits (left : Bool) (width : Int) (used kept : Nat) (bytes : List UInt8) : Prop :=
  if 0 ≤ width then
    width < 2 ^ 32 ∧
      if left then
        used ≤ bytes.length ∧ (kept = bytes.length ∨ bytes.length ≤ width) ∧ BlankBetween bytes kept used
      else
        (width ≤ kept ∧ used = kept) ∨
          (kept < width ∧ (used : Int) = min width bytes.length ∧
            (kept = bytes.length ∨ BlankBetween bytes 0 used))
  else if left then
    used ≤ bytes.length ∧ ((width = -2 ^ 31 ∧ bytes.length ≤ 2 ^ 31) ∨
      (2 ^ 32 + width ≤ bytes.length ∧ kept = bytes.length)) ∧ BlankBetween bytes kept used
  else
    (2 ^ 32 + width ≤ bytes.length ∧ (used : Int) = max (-width) kept ∧ BlankBetween bytes kept used) ∨
      (bytes.length < 2 ^ 32 + width ∧ used + (2 ^ 32 + width) = max (-width) kept + bytes.length ∧
        BlankBetween bytes 0 (max kept used))

section

variable {width : Int} {used kept : Nat} {bytes : List UInt8}

theorem BlankBetween.refl (bytes : List UInt8) (i : Nat) : BlankBetween bytes i i := by
  intro k hlo hhi
  omega

theorem BlankBetween.mono {i j i' j' : Nat} (h : BlankBetween bytes i j) (hlo : min i j ≤ min i' j')
    (hhi : max i' j' ≤ max i j) : BlankBetween bytes i' j' :=
  fun k hk hk' => h k (hlo.trans hk) (Nat.lt_of_lt_of_le hk' hhi)

theorem padded_text_eq_iff {a b a' b' : Nat} (hused : used ≤ bytes.length) (hkept : kept ≤ bytes.length) :
    padded (ch ' ') bytes a used b = padded (ch ' ') bytes a' kept b' ↔
      a + used + b = a' + kept + b' ∧
        ((a = a' ∧ BlankBetween bytes kept used) ∨ BlankBetween bytes 0 (max kept used)) := by
  rw [padded_eq_iff, Nat.min_eq_left hused, Nat.min_eq_left hkept]
  unfold BlankBetween
  rw [Nat.min_comm used, Nat.max_comm used]
  simp

section

variable (hused : used < 2 ^ 32) (hlength : bytes.length < 2 ^ 32) (hkept : kept ≤ bytes.length)

include hused hlength hkept

theorem right_iff (hwidth : 0 ≤ width) :
    padded (ch ' ') bytes (unsigned width - bytes.length) (min bytes.length used) (used - bytes.length) =
        padded (ch ' ') bytes (width.natAbs - kept) kept 0 ↔
      StringFits false width used kept bytes := by
  rw [StringFits, if_pos hwidth, if_neg Bool.false_ne_true]
  by_cases hle : used ≤ bytes.length
  · rw [Nat.min_eq_right hle, padded_text_eq_iff hle hkept]
    unfold unsigned
    constructor
    · rintro ⟨htotal, hplace⟩
      refine ⟨by omega, ?_⟩
      by_cases hwide : width ≤ kept
      · exact .inl ⟨hwide, by omega⟩
      · refine .inr ⟨by omega, by omega, ?_⟩
        rcases hplace with ⟨hfront, -⟩ | hblank
        · exact .inl (by omega)
        · exact .inr (hblank.mono (by omega) (by omega))
    · rintro ⟨hlt, ⟨hwide, rfl⟩ | ⟨hwide, hshort, hplace⟩⟩
      · exact ⟨by omega, .inl ⟨by omega, .refl _ _⟩⟩
      · refine ⟨by omega, ?_⟩
        rcases hplace with hall | hblank
        · obtain rfl : used = kept := by omega
          exact .inl ⟨by omega, .refl _ _⟩
        · exact .inr (hblank.mono (by omega) (by omega))
  · refine iff_of_false (fun heq => ?_) (fun hfits => ?_)
    · have htotal := congrArg List.length heq
      simp only [Padding.padded_length] at htotal
      unfold unsigned at htotal
      omega
    · omega

theorem left_iff (hwidth : -2 ^ 31 ≤ width) :
    padded (ch ' ') bytes 0 (min bytes.length used) ((used - bytes.length) +
          (max (unsigned width) bytes.length - min bytes.length used)) =
        padded (ch ' ') bytes 0 kept (width.natAbs - kept) ↔
      StringFits true width used kept bytes := by
  rw [StringFits, if_pos rfl, if_pos rfl]
  by_cases hle : used ≤ bytes.length
  · rw [Nat.min_eq_right hle, padded_text_eq_iff hle hkept]
    have hblank : (((0 = 0 ∧ BlankBetween bytes kept used) ∨ BlankBetween bytes 0 (max kept used)) ↔
        BlankBetween bytes kept used) := by
      refine ⟨fun h => ?_, fun h => .inl ⟨rfl, h⟩⟩
      rcases h with ⟨-, h⟩ | h
      · exact h
      · exact h.mono (by omega) (by omega)
    rw [hblank]
    unfold unsigned
    split
    next hnonneg =>
      constructor
      · rintro ⟨htotal, h⟩
        exact ⟨by omega, hle, by omega, h⟩
      · rintro ⟨hlt, -, hwide, h⟩
        exact ⟨by omega, h⟩
    next hneg =>
      constructor
      · rintro ⟨htotal, h⟩
        exact ⟨hle, by omega, h⟩
      · rintro ⟨-, hwide, h⟩
        exact ⟨by omega, h⟩
  · refine iff_of_false (fun heq => ?_) (fun hfits => ?_)
    · have htotal := congrArg List.length heq
      simp only [Padding.padded_length] at htotal
      unfold unsigned at htotal
      omega
    · split at hfits <;> omega

theorem negative_iff (hwidth : -2 ^ 31 ≤ width) (hneg : width < 0) :
    padded (ch ' ') bytes (unsigned width - bytes.length) (min bytes.length used) (used - bytes.length) =
        padded (ch ' ') bytes 0 kept (width.natAbs - kept) ↔
      StringFits false width used kept bytes := by
  rw [StringFits, if_neg (by omega), if_neg Bool.false_ne_true]
  by_cases hle : used ≤ bytes.length
  · rw [Nat.min_eq_right hle, padded_text_eq_iff hle hkept]
    unfold unsigned
    constructor
    · rintro ⟨htotal, hplace⟩
      by_cases hlong : 2 ^ 32 + width ≤ bytes.length
      · refine .inl ⟨hlong, by omega, ?_⟩
        rcases hplace with ⟨-, hblank⟩ | hblank
        · exact hblank
        · exact hblank.mono (by omega) (by omega)
      · refine .inr ⟨by omega, by omega, ?_⟩
        rcases hplace with ⟨hfront, -⟩ | hblank
        · omega
        · exact hblank
    · rintro (⟨hlong, hshort, hblank⟩ | ⟨hlong, hshort, hblank⟩)
      · exact ⟨by omega, .inl ⟨by omega, hblank⟩⟩
      · exact ⟨by omega, .inr hblank⟩
  · refine iff_of_false (fun heq => ?_) (fun hfits => ?_)
    · have htotal := congrArg List.length heq
      simp only [Padding.padded_length] at htotal
      unfold unsigned at htotal
      omega
    · omega

end

end

section

variable {c : Conversion} {precision : Precision} {value : CString}

theorem Precision.used_lt {len : Nat} (precision : Precision) (hlen : len < 2 ^ 32) :
    precision.used len < 2 ^ 32 := by
  cases precision with
  | none => exact hlen
  | digits text =>
    rw [Precision.used]
    split
    next => decide
    next => exact Nat.mod_lt _ (by decide)
  | star value => exact value.isLt

theorem Precision.kept_le (precision : Precision) (len : Nat) : precision.kept len ≤ len := by
  unfold Precision.kept
  split
  next => exact Nat.le_refl _
  next limit _ => exact Nat.min_le_right limit len

theorem unsigned_toInt (value : BitVec 32) : unsigned value.toInt = value.toNat := by
  rw [unsigned, BitVec.toInt_eq_toNat_bmod, Int.bmod_def]
  omega

theorem Conversion.taken_filled (h : c.operand = .string precision value) (len : Nat) :
    c.directive.taken len = min len (precision.used len) ∧
      c.directive.filled len = precision.used len - len := by
  have hexplicit : c.directive.explicitPrecision = precision.read.2 := by
    rw [directive, h]
    rfl
  have hprecision : c.directive.precision = precision.read.1 := by
    rw [directive, h]
    rfl
  rw [Directive.taken, Directive.filled, hexplicit, hprecision]
  cases precision with
  | none => exact ⟨(Nat.min_self len).symm, (Nat.sub_self len).symm⟩
  | star value =>
    have hread := unsigned_toInt value
    exact ⟨congrArg (min len) hread, congrArg (· - len) hread⟩
  | digits text =>
    have hread : unsigned (if text = [] then 6 else s32 (decimalValue text 0)) =
        (Precision.digits text).used len := by
      rw [Precision.used]
      split
      next => rfl
      next =>
        rw [unsigned_s32, unsigned]
        omega
    exact ⟨congrArg (min len) hread, congrArg (· - len) hread⟩

theorem Conversion.string_iff (h : c.operand = .string precision value) :
    (∀ bytes, c.standard = some bytes → c.item.output = bytes) ↔
      (ch '#' ∈ c.flags ∨ ch '0' ∈ c.flags) ∨
        StringFits (ch '-' ∈ c.flags) c.width.value (precision.used value.bytes.length)
          (precision.kept value.bytes.length) value.bytes := by
  have hkept := precision.kept_le value.bytes.length
  have hstandard : c.standard = if ch '#' ∈ c.flags ∨ ch '0' ∈ c.flags then none
      else some (justified c.leftJustified c.width.value.natAbs
        (value.bytes.take (precision.kept value.bytes.length))) := by
    cases hlimit : precision.limit with
    | none => simp [standard, h, Precision.kept, hlimit]
    | some limit => simp [standard, h, Precision.kept, hlimit, ← List.take_eq_take_min]
  have hitem : c.item = .string c.directive value := by rw [item, h]
  by_cases hundefined : ch '#' ∈ c.flags ∨ ch '0' ∈ c.flags
  · rw [hstandard, if_pos hundefined]
    exact iff_of_true (fun _ h => by cases h) (.inl hundefined)
  · have hflag : c.directive.flags.leftJustify = decide (ch '-' ∈ c.flags) := rfl
    obtain ⟨htaken, hfilled⟩ := taken_filled h value.bytes.length
    have hused := precision.used_lt value.length_lt
    rw [hstandard, if_neg hundefined, or_iff_right hundefined, hitem]
    simp only [Option.some.injEq, forall_eq', Item.output, Directive.stringOutput, justified, hflag,
      htaken, hfilled, c.unsigned_width, List.length_take, Nat.min_eq_left hkept, decide_eq_true_eq]
    by_cases hleft : ch '-' ∈ c.flags
    · have hleft' : c.leftJustified = true := by simp [leftJustified, hleft]
      rw [if_pos hleft, hleft', if_pos rfl, decide_eq_true hleft,
        ← left_iff hused value.length_lt hkept c.width.value_ge]
      simp [padded, List.append_assoc]
    · rw [if_neg hleft, decide_eq_false hleft]
      by_cases hneg : c.width.value < 0
      · have hleft' : c.leftJustified = true := by simp [leftJustified, hneg]
        rw [hleft', if_pos rfl, ← negative_iff hused value.length_lt hkept c.width.value_ge hneg]
        simp [padded]
      · have hleft' : c.leftJustified = false := by simp [leftJustified, hleft, hneg]
        rw [hleft', if_neg Bool.false_ne_true,
          ← right_iff hused value.length_lt hkept (by omega)]
        simp [padded]

end

/-! ## All conversions -/

/-- The conversions that are printed as the standard says, or for which it says nothing. -/
def Conversion.Fits (c : Conversion) : Prop :=
  match c.operand with
  | .integer specifier value => c.IntegerFits specifier value
  | .character value => (ch '#' ∈ c.flags ∨ ch '0' ∈ c.flags) ∨ c.CharacterFits value
  | .string precision value => (ch '#' ∈ c.flags ∨ ch '0' ∈ c.flags) ∨
      StringFits (ch '-' ∈ c.flags) c.width.value (precision.used value.bytes.length)
        (precision.kept value.bytes.length) value.bytes

/-- `vcbprintf` prints a conversion as the standard prescribes it exactly where it fits. -/
theorem conforms_iff_fits {format : CString} {c : Conversion} (hformat : format.bytes = c.text) :
    Conforms format c ↔ c.Fits := by
  rw [c.conforms_iff hformat, Fits]
  cases hoperand : c.operand with
  | integer specifier value => exact integer_iff hoperand
  | character value => exact character_iff hoperand
  | string precision value => exact string_iff hoperand

/-- `%-4d`. -/
def leftDecimal (value : BitVec 32) : Conversion where
  flags := [ch '-']
  width := .digits [ch '4']
  operand := .integer (ch 'd') value
  flags_valid := forall_mem_of_all (by decide)
  width_valid := ⟨by decide, by decide, forall_mem_of_all (by decide)⟩
  operand_valid := by
    show ch 'd' ∈ integerSpecifiers
    decide

def leftDecimalFormat : CString where
  bytes := [37, 45, 52, 100]
  ne_zero := forall_mem_of_all (by decide)
  length_lt := by simp

theorem leftDecimal_conforms : Conforms leftDecimalFormat (leftDecimal 42) := by
  refine (conforms_iff_fits rfl).2 (.inr ⟨.inl ?_, fun h => nomatch h⟩)
  decide

/-- `%#06x`. -/
def zeroPaddedHexadecimal (value : BitVec 32) : Conversion where
  flags := [ch '#', ch '0']
  width := .digits [ch '6']
  operand := .integer (ch 'x') value
  flags_valid := forall_mem_of_all (by decide)
  width_valid := ⟨by decide, by decide, forall_mem_of_all (by decide)⟩
  operand_valid := by
    show ch 'x' ∈ integerSpecifiers
    decide

def zeroPaddedHexadecimalFormat : CString where
  bytes := [37, 35, 48, 54, 120]
  ne_zero := forall_mem_of_all (by decide)
  length_lt := by simp

/-- `%#06x` prints `000xff` for 255 instead of `0x00ff`. -/
theorem zero_padding_before_marker :
    zeroPaddedHexadecimalFormat.bytes = (zeroPaddedHexadecimal 255).text ∧
      vcbprintf zeroPaddedHexadecimalFormat (zeroPaddedHexadecimal 255).arguments =
        .ok (6, [48, 48, 48, 120, 102, 102]) ∧
      (zeroPaddedHexadecimal 255).standard = some [48, 120, 48, 48, 102, 102] ∧
      ¬Conforms zeroPaddedHexadecimalFormat (zeroPaddedHexadecimal 255) := by
  have hprinted : vcbprintf zeroPaddedHexadecimalFormat
      (zeroPaddedHexadecimal 255).arguments = .ok (6, [48, 48, 48, 120, 102, 102]) := by
    decide +kernel
  have hstandard : (zeroPaddedHexadecimal 255).standard = some [48, 120, 48, 48, 102, 102] := by
    have hdigits : standardDigits (ch 'x') 255 = [102, 102] := by
      rfl
    decide
  refine ⟨rfl, hprinted, hstandard, fun h => ?_⟩
  obtain ⟨n, hn⟩ := h _ hstandard
  rw [hprinted] at hn
  have houtput : ([48, 48, 48, 120, 102, 102] : List UInt8) = [48, 120, 48, 48, 102, 102] :=
    congrArg Prod.snd (Except.ok.inj hn)
  exact absurd houtput (by decide)

end LibC
