import MeetixOS.LibC.PrintfStandard

/-! # Integers and the C standard

The conversions of integers that `vcbprintf` prints as the C standard prescribes them. It prints the zero
padding in front of the marker, prints a sign and a marker for more values than the standard does, and
compares the width as a `usize`. -/

open List (append_assoc cons_append nil_append)
open MeetixOS.Kernel (s32 s32_of_range)

namespace LibC

/-! ## Widths -/

theorem Width.value_ge (width : Width) : -2 ^ 31 ≤ width.value := by
  cases width with
  | none => decide
  | digits text => exact Int.le_trans (by decide) (Int.natCast_nonneg _)
  | star value => simpa [Width.value] using value.le_toInt

theorem unsigned_s32 (n : Int) : unsigned (s32 n) = unsigned n := by
  rw [s32, Int.bmod_def, unsigned, unsigned]
  omega

section

variable (c : Conversion)

/-- The widths that survive as a `usize`; of the negative ones this is only the least, which then has to
be accompanied by a `-` flag. -/
def Conversion.WidthFits : Prop :=
  (0 ≤ c.width.value ∧ c.width.value < 2 ^ 32) ∨ (c.width.value = -2 ^ 31 ∧ ch '-' ∈ c.flags)

theorem Conversion.unsigned_width : unsigned c.directive.width = unsigned c.width.value :=
  unsigned_s32 _

variable {c}

theorem Conversion.width_of_length {a b : Nat} (ha : a < 2 ^ 31) (hb : b < 2 ^ 31)
    (h : max (unsigned c.width.value) a = max c.width.value.natAbs b) :
    (0 ≤ c.width.value ∧ c.width.value < 2 ^ 32) ∨ c.width.value = -2 ^ 31 := by
  unfold unsigned at h
  omega

theorem Conversion.WidthFits.leftJustified (h : c.WidthFits) :
    c.leftJustified = decide (ch '-' ∈ c.flags) := by
  unfold Conversion.leftJustified
  rcases h with ⟨hge, -⟩ | ⟨hleast, hleft⟩
  · simp [not_lt.2 hge]
  · simp [hleft]

theorem Conversion.WidthFits.unsigned_eq (h : c.WidthFits) :
    unsigned c.width.value = c.width.value.natAbs := by
  unfold unsigned
  rcases h with ⟨hge, hlt⟩ | ⟨hleast, -⟩
  · omega
  · omega

end

/-! ## Layouts -/

section

variable (left zeroes : Bool) (width : Nat) (sign marker digits : List UInt8)

/-- The layout of `vcbprintf`: zero padding comes before the marker. -/
def printedLayout : List UInt8 :=
  let padding := width - (sign.length + marker.length + digits.length)
  if left then sign ++ marker ++ digits ++ List.replicate padding (ch ' ')
  else if zeroes then sign ++ List.replicate padding (ch '0') ++ marker ++ digits
  else List.replicate padding (ch ' ') ++ sign ++ marker ++ digits

theorem layout_length : (layout left zeroes width sign marker digits).length =
    max width (sign.length + marker.length + digits.length) := by
  unfold layout
  cases left <;> cases zeroes <;> simp <;> omega

theorem printedLayout_length : (printedLayout left zeroes width sign marker digits).length =
    max width (sign.length + marker.length + digits.length) := by
  unfold printedLayout
  cases left <;> cases zeroes <;> simp <;> omega

theorem printedLayout_nil : printedLayout left zeroes width sign [] digits =
    layout left zeroes width sign [] digits := by
  simp [printedLayout, layout]

theorem mem_layout {c : UInt8} (h : c ∈ layout left zeroes width sign marker digits) :
    c ∈ sign ∨ c ∈ marker ∨ c ∈ digits ∨ c = ch ' ' ∨ c = ch '0' := by
  unfold layout at h
  cases left <;> cases zeroes <;> simp at h <;> tauto

theorem mem_printedLayout {c : UInt8} (h : c ∈ sign ∨ c ∈ marker) :
    c ∈ printedLayout left zeroes width sign marker digits := by
  unfold printedLayout
  cases left <;> cases zeroes <;> simp <;> tauto

theorem printedLayout_getLast (hleft : left = false) (hdigits : digits ≠ []) :
    (printedLayout left zeroes width sign marker digits).getLast? = digits.getLast? := by
  unfold printedLayout
  rw [hleft]
  cases zeroes <;> simp [List.getLast?_append, List.getLast?_eq_some_getLast hdigits]

theorem layout_getLast (hleft : left = true)
    (hpadding : sign.length + marker.length + digits.length < width) :
    (layout left zeroes width sign marker digits).getLast? = some (ch ' ') := by
  obtain ⟨n, hn⟩ : ∃ n, width - (sign.length + marker.length + digits.length) = n + 1 :=
    ⟨_, (Nat.sub_add_cancel (by omega)).symm⟩
  unfold layout
  rw [hleft, hn]
  simp [List.replicate_succ', ← append_assoc]

theorem printedLayout_blank_iff (hblank : ch ' ' ∉ marker ++ digits) (hdigits : digits ≠ []) :
    printedLayout left zeroes width [ch ' '] marker digits = layout left zeroes width [] marker digits ↔
      left = false ∧ zeroes = false ∧ marker.length + digits.length < width := by
  -- a text that starts with a blank is none that starts with the marker or the digits
  have hhead : ∀ text rest rest' : List UInt8, text ≠ [] → ch ' ' ∉ text →
      ch ' ' :: rest ≠ text ++ rest' := by
    intro text rest rest' hne hnot heq
    obtain ⟨c, text, rfl⟩ := List.exists_cons_of_ne_nil hne
    exact hnot (by simp [(List.cons.inj heq).1])
  have hne : marker ++ digits ≠ [] := by simp [hdigits]
  cases left with
  | true =>
    simp only [printedLayout, layout, if_true, nil_append, Bool.true_eq_false, false_and, iff_false]
    exact hhead _ _ _ hne hblank
  | false =>
    cases zeroes with
    | true =>
      simp only [printedLayout, layout, if_true, Bool.false_eq_true, if_false, nil_append,
        Bool.true_eq_false, false_and, and_false, iff_false, append_assoc, cons_append]
      intro heq
      refine hhead (marker ++ (List.replicate _ (ch '0') ++ digits)) _ [] (by simp [hdigits]) ?_
        (heq.trans (List.append_nil _).symm)
      simp only [List.mem_append, not_or] at hblank ⊢
      refine ⟨hblank.1, fun hmem => ?_, hblank.2⟩
      exact absurd (List.eq_of_mem_replicate hmem) (by decide)
    | false =>
      have hone : ∀ n, List.replicate n (ch ' ') ++ [ch ' '] = List.replicate (n + 1) (ch ' ') :=
        fun n => List.replicate_succ'.symm
      simp only [printedLayout, layout, Bool.false_eq_true, if_false, nil_append,
        append_assoc, List.append_nil, true_and]
      rw [← append_assoc, hone, List.append_cancel_right_eq]
      constructor
      · intro heq
        have := congrArg List.length heq
        simp at this
        omega
      · intro hlt
        congr 1
        simp
        omega

theorem replicate_append_cons (c : UInt8) (n : Nat) (rest : List UInt8) :
    List.replicate n c ++ c :: rest = c :: (List.replicate n c ++ rest) := by
  rw [List.append_cons, ← List.replicate_succ', List.replicate_succ, cons_append]

theorem printedLayout_marker_iff {x : UInt8} (hx : x ≠ ch '0') :
    printedLayout left zeroes width [] [ch '0', x] digits =
        layout left zeroes width [] [ch '0', x] digits ↔
      (zeroes = true → left = false → width ≤ 2 + digits.length) := by
  cases left with
  | true => simp [printedLayout, layout]
  | false =>
    cases zeroes with
    | false => simp [printedLayout, layout]
    | true =>
      simp only [printedLayout, layout, if_true, Bool.false_eq_true, if_false, nil_append,
        List.length_nil, List.length_cons, true_implies, Nat.zero_add]
      constructor
      · intro heq
        by_contra hlt
        obtain ⟨n, hn⟩ : ∃ n, width - (0 + 1 + 1 + digits.length) = n + 1 :=
          ⟨_, (Nat.sub_add_cancel (by omega)).symm⟩
        rw [hn, append_assoc, cons_append, replicate_append_cons, cons_append,
          cons_append, cons_append, cons_append] at heq
        have hrest := (List.cons.inj heq).2
        exact hx (List.cons.inj hrest).1.symm
      · intro hle
        rw [Nat.sub_eq_zero_of_le (by omega)]
        simp

theorem printedLayout_zero : printedLayout left zeroes width [] [ch '0'] digits =
    layout left zeroes width [] [ch '0'] digits := by
  cases left with
  | true => simp [printedLayout, layout]
  | false =>
    cases zeroes with
    | false => simp [printedLayout, layout]
    | true =>
      simp only [printedLayout, layout, if_true, Bool.false_eq_true, if_false, nil_append,
        append_assoc, cons_append]
      exact replicate_append_cons _ _ _

theorem printedLayout_double_zero_iff (hsign : sign = [] ∨ sign = [ch ' ']) :
    printedLayout left zeroes width sign [ch '0'] [ch '0'] = layout left zeroes width [] [] [ch '0'] ↔
      sign = [] ∧ zeroes = true ∧ left = false ∧ 2 ≤ width := by
  have hcount : (left = true ∨ zeroes = false) →
      printedLayout left zeroes width sign [ch '0'] [ch '0'] ≠
        layout left zeroes width [] [] [ch '0'] := by
    intro hplace heq
    have hzeroes := congrArg (List.count (ch '0')) heq
    rcases hsign with rfl | rfl <;> cases left <;> cases zeroes <;>
      simp [printedLayout, layout, List.count_append, List.count_replicate, ch] at hplace hzeroes
  cases left with
  | true => simpa using hcount (.inl rfl)
  | false =>
    cases zeroes with
    | false => simpa using hcount (.inr rfl)
    | true =>
      rcases hsign with rfl | rfl
      · constructor
        · intro heq
          have hlength := congrArg List.length heq
          rw [printedLayout_length, layout_length] at hlength
          simp at hlength
          simp
          omega
        · rintro ⟨-, -, -, htwo⟩
          obtain ⟨n, rfl⟩ := Nat.exists_eq_add_of_le' htwo
          simp [printedLayout, layout, List.replicate_succ']
      · refine ⟨fun heq => ?_, fun h => absurd h.1 (List.cons_ne_nil _ _)⟩
        have hmem := mem_printedLayout false true width [ch ' '] [ch '0'] [ch '0']
          (.inl (List.mem_singleton.2 rfl))
        rw [heq] at hmem
        simp [layout, ch] at hmem

end

theorem Conversion.widthFits_of_eq {c : Conversion} {zeroes zeroes' : Bool}
    {sign marker sign' marker' digits : List UInt8} (hdigits : digits ≠ []) (hblank : ch ' ' ∉ digits)
    (hlength : sign.length + marker.length + digits.length < 2 ^ 31)
    (hlength' : sign'.length + marker'.length + digits.length < 2 ^ 31)
    (h : printedLayout (ch '-' ∈ c.flags) zeroes (unsigned c.width.value) sign marker digits =
      layout c.leftJustified zeroes' c.width.value.natAbs sign' marker' digits) : c.WidthFits := by
  have hlengths := congrArg List.length h
  rw [printedLayout_length, layout_length] at hlengths
  rcases Conversion.width_of_length hlength hlength' hlengths with hfits | hleast
  · exact .inl hfits
  · refine .inr ⟨hleast, ?_⟩
    by_contra hleft
    have hlast := congrArg List.getLast? h
    rw [printedLayout_getLast _ _ _ _ _ _ (by simpa using hleft) hdigits,
      layout_getLast _ _ _ _ _ _ (by simp [Conversion.leftJustified, hleast]) (by omega)] at hlast
    exact hblank (List.mem_of_getLast? hlast)

/-! ## Integers -/

/-- The sign of `vcbprintf`. -/
def printedSign (flags : List UInt8) (specifier : UInt8) (value : BitVec 32) : List UInt8 :=
  if signedSpecifier specifier ∧ value.toInt < 0 then [ch '-']
  else if ch '+' ∈ flags then [ch '+']
  else if ch ' ' ∈ flags then [ch ' ']
  else []

/-- The marker of `vcbprintf`, also for the value zero. -/
def printedMarker (flags : List UInt8) (specifier : UInt8) : List UInt8 :=
  if ch '#' ∈ flags then
    if specifier = ch 'o' then [ch '0']
    else if specifier = ch 'x' ∨ specifier = ch 'X' then [ch '0', specifier]
    else []
  else []

theorem numeral_mem {base value : Nat} {digits : List UInt8} (hbase : 1 < base)
    (hdigits : base ≤ digits.length) {c : UInt8} (h : c ∈ numeral base digits value) : c ∈ digits := by
  have hget : ∀ d < base, digits.getD d 0 ∈ digits := by
    intro d hd
    rw [List.getD_eq_getElem _ _ (Nat.lt_of_lt_of_le hd hdigits)]
    exact List.getElem_mem _
  unfold numeral at h
  split at h
  next =>
    rw [List.mem_singleton.1 h]
    exact hget 0 (by omega)
  next =>
    obtain ⟨d, hd, rfl⟩ := List.mem_map.1 h
    exact hget d (Nat.digits_lt_base hbase (List.mem_reverse.1 hd))

section

variable (specifier : UInt8) (value : BitVec 32)

theorem standardDigits_eq : ∃ base digits n, 8 ≤ base ∧ base ≤ 16 ∧ n < 2 ^ 32 ∧
    (digits = lowerDigits ∨ digits = upperDigits) ∧
    standardDigits specifier value = numeral base digits n := by
  have habs : value.toInt.natAbs < 2 ^ 32 := by
    have := value.le_toInt
    have := value.toInt_lt
    omega
  unfold standardDigits
  split_ifs
  · exact ⟨10, _, _, by decide, by decide, habs, .inl rfl, rfl⟩
  · exact ⟨10, _, _, by decide, by decide, value.isLt, .inl rfl, rfl⟩
  · exact ⟨8, _, _, by decide, by decide, value.isLt, .inl rfl, rfl⟩
  · exact ⟨16, _, _, by decide, by decide, value.isLt, .inl rfl, rfl⟩
  · exact ⟨16, _, _, by decide, by decide, value.isLt, .inr rfl, rfl⟩

theorem standardDigits_length_pos : 0 < (standardDigits specifier value).length := by
  obtain ⟨base, digits, n, -, -, -, -, h⟩ := standardDigits_eq specifier value
  rw [h]
  exact numeral_length_pos

theorem standardDigits_length_le : (standardDigits specifier value).length ≤ 32 := by
  obtain ⟨base, digits, n, hbase, -, hn, -, h⟩ := standardDigits_eq specifier value
  rw [h]
  refine numeral_length_le (by omega) (by omega) (Nat.lt_of_lt_of_le hn ?_)
  exact Nat.le_trans (by norm_num) (Nat.pow_le_pow_left hbase 32)

theorem standardDigits_mem {c : UInt8} (h : c ∈ standardDigits specifier value) :
    c ≠ ch ' ' ∧ c ≠ ch '+' ∧ c ≠ ch 'x' ∧ c ≠ ch 'X' := by
  obtain ⟨base, digits, n, hbase, hle, -, hdigits, heq⟩ := standardDigits_eq specifier value
  rw [heq] at h
  have hlength : digits.length = 16 := by
    rcases hdigits with rfl | rfl <;> rfl
  have hmem := numeral_mem (by omega) (by omega) h
  have hlower : ∀ c ∈ lowerDigits, c ≠ ch ' ' ∧ c ≠ ch '+' ∧ c ≠ ch 'x' ∧ c ≠ ch 'X' :=
    forall_mem_of_all (by decide)
  have hupper : ∀ c ∈ upperDigits, c ≠ ch ' ' ∧ c ≠ ch '+' ∧ c ≠ ch 'x' ∧ c ≠ ch 'X' :=
    forall_mem_of_all (by decide)
  rcases hdigits with rfl | rfl
  · exact hlower c hmem
  · exact hupper c hmem

theorem standardDigits_zero : standardDigits specifier 0 = [ch '0'] := by
  unfold standardDigits
  split_ifs <;> rfl

end

section

variable {c : Conversion} {specifier : UInt8} {value : BitVec 32}

theorem signExtend_msb (value : BitVec 32) : (value.signExtend 64).msb = decide (value.toInt < 0) := by
  rw [BitVec.msb_eq_toInt, BitVec.toInt_signExtend_of_le (by omega)]

theorem signExtend_abs (value : BitVec 32) :
    (if (value.signExtend 64).msb then -(value.signExtend 64) else value.signExtend 64).toNat =
      value.toInt.natAbs := by
  rw [← BitVec.toInt_signExtend_of_le (show 32 ≤ 64 by omega)]
  split
  next hneg => rw [BitVec.toInt_eq_neg_toNat_neg_of_msb_true hneg, Int.natAbs_neg, Int.natAbs_natCast]
  next hnonneg =>
    rw [BitVec.toInt_eq_toNat_of_msb (Bool.eq_false_iff.2 hnonneg), Int.natAbs_natCast]

theorem Conversion.integer_output (h : c.operand = .integer specifier value) :
    c.item.output = printedLayout (ch '-' ∈ c.flags) (ch '0' ∈ c.flags) (unsigned c.width.value)
      (printedSign c.flags specifier value) (printedMarker c.flags specifier)
      (standardDigits specifier value) := by
  have hvalid := c.operand_valid
  rw [h] at hvalid
  simp only [Operand.Valid, integerSpecifiers, List.mem_cons, List.not_mem_nil, or_false] at hvalid
  have hspecifier : c.directive.specifier = specifier := by
    rw [Conversion.directive, h]
    rfl
  have hprinted : c.directive.printed = c.directive := by
    rw [Directive.printed, if_neg]
    rw [hspecifier]
    rcases hvalid with rfl | rfl | rfl | rfl | rfl | rfl <;> decide
  have hsigned : c.directive.isSigned = signedSpecifier specifier := by
    rw [Directive.isSigned, hspecifier]
    rfl
  have hmarker : c.directive.marker = printedMarker c.flags specifier := by
    have hforce : c.directive.flags.force0xOrDec = decide (ch '#' ∈ c.flags) := rfl
    rw [Directive.marker, printedMarker, Directive.isHexadecimal, hspecifier, hforce]
    by_cases hmark : ch '#' ∈ c.flags
    · rw [decide_eq_true hmark, if_pos hmark]
      rcases hvalid with rfl | rfl | rfl | rfl | rfl | rfl <;> rfl
    · rw [decide_eq_false hmark, if_neg hmark]
      rfl
  have hitem : c.item = .number c.directive
      (if signedSpecifier specifier then value.signExtend 64 else value.setWidth 64) := by
    rw [Conversion.item, h]
  have hsign : ∀ negative : Bool, (negative = true ↔ signedSpecifier specifier ∧ value.toInt < 0) →
      c.directive.sign negative = printedSign c.flags specifier value := by
    intro negative hnegative
    have hplus : c.directive.flags.alwaysPrependSign = decide (ch '+' ∈ c.flags) := rfl
    have hspace : c.directive.flags.alwaysPrependSpacePlusSign = decide (ch ' ' ∈ c.flags) := rfl
    simp [Directive.sign, printedSign, hnegative, hplus, hspace]
  have hdigits : ∀ n, n = (if signedSpecifier specifier then value.toInt.natAbs else value.toNat) →
      c.directive.numeral n = standardDigits specifier value := by
    intro n hn
    rw [hn, Directive.numeral, Directive.base, Directive.digits, Directive.isHexadecimal, hspecifier]
    rcases hvalid with rfl | rfl | rfl | rfl | rfl | rfl <;> rfl
  rw [hitem, Item.output, hprinted, hsigned]
  cases hkind : signedSpecifier specifier with
  | true =>
    rw [hkind] at hsign hdigits
    simp only [if_true, Bool.true_and]
    show printedLayout _ _ (unsigned c.directive.width) _ _ _ = _
    rw [hmarker, hsign _ (by simp [signExtend_msb]), hdigits _ (signExtend_abs value),
      c.unsigned_width]
    rfl
  | false =>
    have hwide : (value.setWidth 64).toNat = value.toNat := BitVec.toNat_setWidth_of_le (by omega)
    rw [hkind] at hsign hdigits
    show printedLayout _ _ (unsigned c.directive.width) _ _ _ = _
    rw [hmarker, hsign _ (by simp), hdigits _ (by simpa using hwide), c.unsigned_width]
    rfl

/-- The characters of an unsigned number without its padding. -/
def unsignedLength (flags : List UInt8) (specifier : UInt8) (value : BitVec 32) : Nat :=
  (standardMarker flags specifier value).length + (standardDigits specifier value).length

/-- `+` and a blank are not to be printed, zero has no marker, and the marker stands in front of zero
padding. -/
structure UnsignedFits (flags : List UInt8) (specifier : UInt8) (value : BitVec 32) (width : Nat) :
    Prop where
  plus : ch '+' ∉ flags
  space : ch ' ' ∈ flags →
    ch '-' ∉ flags ∧ ch '0' ∉ flags ∧ unsignedLength flags specifier value < width
  hexadecimal : ch '#' ∈ flags → specifier = ch 'x' ∨ specifier = ch 'X' →
    value ≠ 0 ∧ (ch '0' ∈ flags → ch '-' ∉ flags → width ≤ unsignedLength flags specifier value)
  octal : ch '#' ∈ flags → specifier = ch 'o' → value = 0 →
    ch '0' ∈ flags ∧ ch '-' ∉ flags ∧ 2 ≤ width

/-- The integers that are printed as the standard says, where it says anything. -/
def Conversion.IntegerFits (c : Conversion) (specifier : UInt8) (value : BitVec 32) : Prop :=
  (ch '#' ∈ c.flags ∧ (signedSpecifier specifier ∨ specifier = ch 'u')) ∨
    (c.WidthFits ∧ (signedSpecifier specifier = false →
      UnsignedFits c.flags specifier value c.width.value.natAbs))

section

variable (flags : List UInt8) (specifier : UInt8) (value : BitVec 32) (width : Nat)

/-- An unsigned number is printed as the standard says. -/
def UnsignedAgrees : Prop :=
  printedLayout (ch '-' ∈ flags) (ch '0' ∈ flags) width (printedSign flags specifier value)
      (printedMarker flags specifier) (standardDigits specifier value) =
    layout (ch '-' ∈ flags) (ch '0' ∈ flags) width [] (standardMarker flags specifier value)
      (standardDigits specifier value)

theorem standardMarker_eq : standardMarker flags specifier value =
    if value = 0 then [] else printedMarker flags specifier := by
  unfold standardMarker printedMarker
  by_cases hzero : value = 0
  · simp [hzero]
  · simp only [and_iff_left hzero, if_neg hzero]

theorem printedMarker_cases :
    (printedMarker flags specifier = [] ∧
      (ch '#' ∈ flags → specifier ≠ ch 'o' ∧ ¬(specifier = ch 'x' ∨ specifier = ch 'X'))) ∨
    (printedMarker flags specifier = [ch '0'] ∧ ch '#' ∈ flags ∧ specifier = ch 'o') ∨
    (printedMarker flags specifier = [ch '0', specifier] ∧ ch '#' ∈ flags ∧
      (specifier = ch 'x' ∨ specifier = ch 'X')) := by
  unfold printedMarker
  split_ifs with hmark hoctal hhex
  · exact .inr (.inl ⟨rfl, hmark, hoctal⟩)
  · exact .inr (.inr ⟨rfl, hmark, hhex⟩)
  · exact .inl ⟨rfl, fun _ => ⟨hoctal, hhex⟩⟩
  · exact .inl ⟨rfl, fun h => absurd h hmark⟩

variable {flags specifier value width}

theorem printedMarker_no_blank : ch ' ' ∉ printedMarker flags specifier := by
  rcases printedMarker_cases flags specifier with ⟨h, -⟩ | ⟨h, -⟩ | ⟨h, -, rfl | rfl⟩ <;> rw [h] <;> decide

theorem standardDigits_ne_nil : standardDigits specifier value ≠ [] :=
  List.ne_nil_of_length_pos (standardDigits_length_pos specifier value)

theorem UnsignedAgrees.no_plus (hsigned : signedSpecifier specifier = false)
    (h : UnsignedAgrees flags specifier value width) : ch '+' ∉ flags := by
  intro hplus
  have hsign : printedSign flags specifier value = [ch '+'] := by
    simp [printedSign, hsigned, hplus]
  have hmem : ch '+' ∈ layout (ch '-' ∈ flags) (ch '0' ∈ flags) width []
      (standardMarker flags specifier value) (standardDigits specifier value) := by
    rw [← h, hsign]
    exact mem_printedLayout _ _ _ _ _ _ (.inl (List.mem_singleton.2 rfl))
  rcases mem_layout _ _ _ _ _ _ hmem with hnil | hmarker | hdigits | hblank | hzero
  · exact List.not_mem_nil hnil
  · rw [standardMarker_eq] at hmarker
    split at hmarker
    next => exact List.not_mem_nil hmarker
    next =>
      rcases printedMarker_cases flags specifier with ⟨hm, -⟩ | ⟨hm, -⟩ | ⟨hm, -, rfl | rfl⟩ <;>
        rw [hm] at hmarker <;> exact absurd hmarker (by decide)
  · exact (standardDigits_mem _ _ hdigits).2.1 rfl
  · exact absurd hblank (by decide)
  · exact absurd hzero (by decide)

theorem not_unsignedAgrees_hexadecimal_zero (hmark : ch '#' ∈ flags)
    (hx : specifier = ch 'x' ∨ specifier = ch 'X') : ¬UnsignedAgrees flags specifier 0 width := by
  intro h
  have hmarker : specifier ∈ printedMarker flags specifier := by
    unfold printedMarker
    rw [if_pos hmark]
    rcases hx with rfl | rfl <;> decide
  have hmem : specifier ∈ layout (ch '-' ∈ flags) (ch '0' ∈ flags) width []
      (standardMarker flags specifier 0) (standardDigits specifier 0) := by
    rw [← h]
    exact mem_printedLayout _ _ _ _ _ _ (.inr hmarker)
  rw [standardMarker_eq, if_pos rfl, standardDigits_zero] at hmem
  have := mem_layout _ _ _ _ _ _ hmem
  rcases hx with rfl | rfl <;> exact absurd this (by decide)

section

variable (hsigned : signedSpecifier specifier = false) (hplus : ch '+' ∉ flags)

include hsigned hplus

theorem unsignedAgrees_iff_of_space (hspace : ch ' ' ∈ flags)
    (hvalue : ch '#' ∈ flags → specifier = ch 'o' ∨ specifier = ch 'x' ∨ specifier = ch 'X' → value ≠ 0) :
    UnsignedAgrees flags specifier value width ↔ UnsignedFits flags specifier value width := by
  have hsign : printedSign flags specifier value = [ch ' '] := by
    simp [printedSign, hsigned, hplus, hspace]
  have hmarker : printedMarker flags specifier = standardMarker flags specifier value := by
    rw [standardMarker_eq]
    split
    next hzero =>
      rcases printedMarker_cases flags specifier with ⟨hm, -⟩ | ⟨-, hmark, ho⟩ | ⟨-, hmark, hx⟩
      · exact hm
      · exact absurd hzero (hvalue hmark (.inl ho))
      · exact absurd hzero (hvalue hmark (.inr hx))
    next => rfl
  have hblank : ch ' ' ∉ standardMarker flags specifier value ++ standardDigits specifier value := by
    rw [← hmarker, List.mem_append, not_or]
    exact ⟨printedMarker_no_blank, fun hmem => (standardDigits_mem _ _ hmem).1 rfl⟩
  rw [UnsignedAgrees, hsign, hmarker, printedLayout_blank_iff _ _ _ _ _ hblank standardDigits_ne_nil]
  constructor
  · rintro ⟨hleft, hzeroes, hlt⟩
    have hleft' : ch '-' ∉ flags := by simpa using hleft
    have hzeroes' : ch '0' ∉ flags := by simpa using hzeroes
    exact { plus := hplus, space := fun _ => ⟨hleft', hzeroes', hlt⟩,
            hexadecimal := fun hmark hx => ⟨hvalue hmark (.inr hx), fun h => absurd h hzeroes'⟩,
            octal := fun hmark ho hzero => absurd hzero (hvalue hmark (.inl ho)) }
  · intro h
    obtain ⟨hleft, hzeroes, hlt⟩ := h.space hspace
    exact ⟨by simpa using hleft, by simpa using hzeroes, hlt⟩

theorem unsignedAgrees_of_no_marker (hspace : ch ' ' ∉ flags)
    (hmarker : printedMarker flags specifier = []) :
    UnsignedAgrees flags specifier value width := by
  have hsign : printedSign flags specifier value = [] := by
    simp [printedSign, hsigned, hplus, hspace]
  have hstandard : standardMarker flags specifier value = [] := by
    simp [standardMarker_eq, hmarker]
  rw [UnsignedAgrees, hsign, hmarker, hstandard, printedLayout_nil]

theorem unsignedAgrees_octal_zero_iff (hmark : ch '#' ∈ flags) (ho : specifier = ch 'o') :
    UnsignedAgrees flags specifier 0 width ↔
      ch ' ' ∉ flags ∧ ch '0' ∈ flags ∧ ch '-' ∉ flags ∧ 2 ≤ width := by
  have hsign : printedSign flags specifier 0 = if ch ' ' ∈ flags then [ch ' '] else [] := by
    simp [printedSign, hsigned, hplus]
  have hmarker : printedMarker flags specifier = [ch '0'] := by simp [printedMarker, hmark, ho]
  have hstandard : standardMarker flags specifier 0 = [] := by simp [standardMarker_eq]
  rw [UnsignedAgrees, hsign, hmarker, hstandard, standardDigits_zero,
    printedLayout_double_zero_iff _ _ _ _ (by split_ifs <;> simp)]
  by_cases hspace : ch ' ' ∈ flags <;> simp [hspace]

theorem unsignedAgrees_iff :
    UnsignedAgrees flags specifier value width ↔ UnsignedFits flags specifier value width := by
  rcases printedMarker_cases flags specifier with ⟨hmarker, hnone⟩ | ⟨hmarker, hmark, ho⟩ |
    ⟨hmarker, hmark, hx⟩
  · by_cases hspace : ch ' ' ∈ flags
    · refine unsignedAgrees_iff_of_space hsigned hplus hspace fun hmark hor => ?_
      exact absurd hor (not_or.2 (hnone hmark))
    · refine iff_of_true (unsignedAgrees_of_no_marker hsigned hplus hspace hmarker) ?_
      exact { plus := hplus, space := fun h => absurd h hspace,
              hexadecimal := fun hmark hx => absurd hx (hnone hmark).2,
              octal := fun hmark ho => absurd ho (hnone hmark).1 }
  · have hx : ¬(specifier = ch 'x' ∨ specifier = ch 'X') := by rw [ho]; decide
    by_cases hzero : value = 0
    · subst hzero
      rw [unsignedAgrees_octal_zero_iff hsigned hplus hmark ho]
      constructor
      · rintro ⟨hspace, hrest⟩
        exact { plus := hplus, space := fun h => absurd h hspace,
                hexadecimal := fun _ h => absurd h hx, octal := fun _ _ _ => hrest }
      · intro h
        obtain ⟨hzeroes, hleft, htwo⟩ := h.octal hmark ho rfl
        exact ⟨fun hspace => (h.space hspace).2.1 hzeroes, hzeroes, hleft, htwo⟩
    · by_cases hspace : ch ' ' ∈ flags
      · exact unsignedAgrees_iff_of_space hsigned hplus hspace fun _ _ => hzero
      · refine iff_of_true ?_ { plus := hplus, space := fun h => absurd h hspace,
                                hexadecimal := fun _ h => absurd h hx,
                                octal := fun _ _ h => absurd h hzero }
        have hsign : printedSign flags specifier value = [] := by
          simp [printedSign, hsigned, hplus, hspace]
        rw [UnsignedAgrees, hsign, standardMarker_eq, if_neg hzero, hmarker]
        exact printedLayout_zero _ _ _ _
  · have ho : specifier ≠ ch 'o' := by rcases hx with rfl | rfl <;> decide
    by_cases hzero : value = 0
    · subst hzero
      exact iff_of_false (not_unsignedAgrees_hexadecimal_zero hmark hx)
        fun h => (h.hexadecimal hmark hx).1 rfl
    · by_cases hspace : ch ' ' ∈ flags
      · exact unsignedAgrees_iff_of_space hsigned hplus hspace fun _ _ => hzero
      · have hsign : printedSign flags specifier value = [] := by
          simp [printedSign, hsigned, hplus, hspace]
        have hstandard : standardMarker flags specifier value = [ch '0', specifier] := by
          rw [standardMarker_eq, if_neg hzero, hmarker]
        have hlength : unsignedLength flags specifier value =
            2 + (standardDigits specifier value).length := by
          rw [unsignedLength, hstandard]
          rfl
        have hne : specifier ≠ ch '0' := by rcases hx with rfl | rfl <;> decide
        rw [UnsignedAgrees, hsign, hstandard, hmarker, printedLayout_marker_iff _ _ _ _ hne]
        constructor
        · intro hplace
          refine { plus := hplus, space := fun h => absurd h hspace,
                   hexadecimal := fun _ _ => ⟨hzero, fun hzeroes hleft => ?_⟩,
                   octal := fun _ h => absurd h ho }
          rw [hlength]
          exact hplace (by simpa using hzeroes) (by simpa using hleft)
        · intro h hzeroes hleft
          rw [← hlength]
          exact (h.hexadecimal hmark hx).2 (by simpa using hzeroes) (by simpa using hleft)

end

end

theorem printed_length_lt (flags : List UInt8) :
    (printedSign flags specifier value).length + (printedMarker flags specifier).length +
      (standardDigits specifier value).length < 2 ^ 31 := by
  have hdigits := standardDigits_length_le specifier value
  have hsign : (printedSign flags specifier value).length ≤ 1 := by
    unfold printedSign
    split_ifs <;> simp
  have hmarker : (printedMarker flags specifier).length ≤ 2 := by
    unfold printedMarker
    split_ifs <;> simp
  omega

theorem standard_length_lt (flags : List UInt8) :
    (standardSign flags specifier value).length + (standardMarker flags specifier value).length +
      (standardDigits specifier value).length < 2 ^ 31 := by
  have hdigits := standardDigits_length_le specifier value
  have hsign : (standardSign flags specifier value).length ≤ 1 := by
    unfold standardSign
    split_ifs <;> simp
  have hmarker : (standardMarker flags specifier value).length ≤ 2 := by
    unfold standardMarker
    split_ifs <;> simp
  omega

theorem Conversion.integer_iff (h : c.operand = .integer specifier value) :
    (∀ bytes, c.standard = some bytes → c.item.output = bytes) ↔ c.IntegerFits specifier value := by
  have hstandard : c.standard =
      if ch '#' ∈ c.flags ∧ (signedSpecifier specifier ∨ specifier = ch 'u') then none
      else some (layout c.leftJustified (ch '0' ∈ c.flags) c.width.value.natAbs
        (standardSign c.flags specifier value) (standardMarker c.flags specifier value)
        (standardDigits specifier value)) := by
    rw [Conversion.standard, h]
  unfold Conversion.IntegerFits
  by_cases hundefined : ch '#' ∈ c.flags ∧ (signedSpecifier specifier ∨ specifier = ch 'u')
  · rw [hstandard, if_pos hundefined]
    exact iff_of_true (fun _ h => by cases h) (.inl hundefined)
  · rw [hstandard, if_neg hundefined, or_iff_right hundefined, c.integer_output h]
    simp only [Option.some.injEq, forall_eq']
    have hfits : printedLayout (ch '-' ∈ c.flags) (ch '0' ∈ c.flags) (unsigned c.width.value)
          (printedSign c.flags specifier value) (printedMarker c.flags specifier)
          (standardDigits specifier value) =
        layout c.leftJustified (ch '0' ∈ c.flags) c.width.value.natAbs
          (standardSign c.flags specifier value) (standardMarker c.flags specifier value)
          (standardDigits specifier value) → c.WidthFits :=
      Conversion.widthFits_of_eq standardDigits_ne_nil
        (fun hmem => (standardDigits_mem _ _ hmem).1 rfl) (printed_length_lt c.flags)
        (standard_length_lt c.flags)
    rw [← and_iff_right_of_imp hfits]
    refine and_congr_right fun hwidth => ?_
    rw [hwidth.leftJustified, hwidth.unsigned_eq]
    cases hsigned : signedSpecifier specifier with
    | false =>
      have hsign : standardSign c.flags specifier value = [] := by simp [standardSign, hsigned]
      rw [hsign, imp_iff_right rfl]
      by_cases hplus : ch '+' ∈ c.flags
      · exact iff_of_false (fun heq => UnsignedAgrees.no_plus hsigned heq hplus)
          fun hfits => hfits.plus hplus
      · exact unsignedAgrees_iff hsigned hplus
    | true =>
      have hmark : ch '#' ∉ c.flags := fun hmark => hundefined ⟨hmark, .inl hsigned⟩
      have hsign : printedSign c.flags specifier value = standardSign c.flags specifier value := by
        simp [printedSign, standardSign, hsigned]
      have hmarker : printedMarker c.flags specifier = [] := by simp [printedMarker, hmark]
      have hstandardMarker : standardMarker c.flags specifier value = [] := by
        simp [standardMarker, hmark]
      rw [hsign, hmarker, hstandardMarker]
      exact iff_of_true (printedLayout_nil _ _ _ _ _) fun h => nomatch h

end

end LibC
