import MeetixOS.LibC.PrintfOutput
import MeetixOS.Lib.Padding

/-! # `vcbprintf` and the C standard

Single conversions of integers, characters and strings, without length modifiers, and what the C standard
prescribes for them. The standard leaves some combinations of flags and conversions undefined. -/

open MeetixOS.Kernel (s32 s32_of_range)

namespace LibC

/-! ## Conversions -/

/-- A field width: none, digits, or `*` with its argument. -/
inductive Width
  | none
  | digits (text : List UInt8)
  | star (value : BitVec 32)
  deriving DecidableEq

/-- A precision: none, a period with digits or without, or a period and `*` with its argument. -/
inductive Precision
  | none
  | digits (text : List UInt8)
  | star (value : BitVec 32)
  deriving DecidableEq

/-- The conversion, with its argument. -/
inductive Operand
  | integer (specifier : UInt8) (value : BitVec 32)
  | character (value : BitVec 32)
  | string (precision : Precision) (value : CString)
  deriving DecidableEq

/-- The digits of a width do not start with a zero, which is a flag. -/
def Width.Valid : Width → Prop
  | .digits text => text ≠ [] ∧ text.head? ≠ some (ch '0') ∧ ∀ c ∈ text, isdigit c = true
  | _ => True

def Precision.Valid : Precision → Prop
  | .digits text => ∀ c ∈ text, isdigit c = true
  | _ => True

def flagCharacters : List UInt8 := [ch '-', ch '+', ch ' ', ch '#', ch '0']

def integerSpecifiers : List UInt8 := [ch 'd', ch 'i', ch 'u', ch 'o', ch 'x', ch 'X']

def Operand.Valid : Operand → Prop
  | .integer specifier _ => specifier ∈ integerSpecifiers
  | .character _ => True
  | .string precision _ => precision.Valid

/-- A conversion specification of a format, with its arguments. -/
structure Conversion where
  flags : List UInt8
  width : Width
  operand : Operand
  flags_valid : ∀ c ∈ flags, c ∈ flagCharacters
  width_valid : width.Valid
  operand_valid : operand.Valid

def Width.text : Width → List UInt8
  | .none => []
  | .digits text => text
  | .star _ => [ch '*']

def Width.arguments : Width → List Argument
  | .star value => [.word value]
  | _ => []

def Precision.text : Precision → List UInt8
  | .none => []
  | .digits text => ch '.' :: text
  | .star _ => [ch '.', ch '*']

def Precision.arguments : Precision → List Argument
  | .star value => [.word value]
  | _ => []

def Operand.text : Operand → List UInt8
  | .integer specifier _ => [specifier]
  | .character _ => [ch 'c']
  | .string precision _ => precision.text ++ [ch 's']

def Operand.arguments : Operand → List Argument
  | .integer _ value => [.word value]
  | .character value => [.word value]
  | .string precision value => precision.arguments ++ [.string value]

/-- How the conversion is written. -/
def Conversion.text (c : Conversion) : List UInt8 :=
  ch '%' :: (c.flags ++ (c.width.text ++ c.operand.text))

def Conversion.arguments (c : Conversion) : List Argument := c.width.arguments ++ c.operand.arguments

/-! ## What the standard prescribes -/

/-- The width; a negative argument is a `-` flag and a positive width. -/
def Width.value : Width → Int
  | .none => 0
  | .digits text => decimalValue text 0
  | .star value => value.toInt

/-- The most characters of a string; a negative argument is no precision. -/
def Precision.limit : Precision → Option Nat
  | .none => Option.none
  | .digits text => some (decimalValue text 0)
  | .star value => if 0 ≤ value.toInt then some value.toNat else Option.none

def Conversion.leftJustified (c : Conversion) : Bool := ch '-' ∈ c.flags ∨ c.width.value < 0

/-- Sign and marker come before zero padding, and the padding is on the side that the flags say. -/
def layout (left zeroes : Bool) (width : Nat) (sign marker digits : List UInt8) : List UInt8 :=
  let padding := width - (sign.length + marker.length + digits.length)
  if left then sign ++ marker ++ digits ++ List.replicate padding (ch ' ')
  else if zeroes then sign ++ marker ++ List.replicate padding (ch '0') ++ digits
  else List.replicate padding (ch ' ') ++ sign ++ marker ++ digits

/-- A text with blanks on the side that the flags say. -/
def justified (left : Bool) (width : Nat) (text : List UInt8) : List UInt8 :=
  if left then text ++ List.replicate (width - text.length) (ch ' ')
  else List.replicate (width - text.length) (ch ' ') ++ text

/-- `d` and `i`. -/
def signedSpecifier (specifier : UInt8) : Bool := specifier = ch 'd' ∨ specifier = ch 'i'

/-- The sign of a signed conversion. -/
def standardSign (flags : List UInt8) (specifier : UInt8) (value : BitVec 32) : List UInt8 :=
  if signedSpecifier specifier then
    if value.toInt < 0 then [ch '-']
    else if ch '+' ∈ flags then [ch '+']
    else if ch ' ' ∈ flags then [ch ' ']
    else []
  else []

/-- The alternative form: `0x` or `0X` for a value that is not zero, and a first digit that is zero for
`o`. -/
def standardMarker (flags : List UInt8) (specifier : UInt8) (value : BitVec 32) : List UInt8 :=
  if ch '#' ∈ flags ∧ value ≠ 0 then
    if specifier = ch 'o' then [ch '0']
    else if specifier = ch 'x' ∨ specifier = ch 'X' then [ch '0', specifier]
    else []
  else []

def standardDigits (specifier : UInt8) (value : BitVec 32) : List UInt8 :=
  if signedSpecifier specifier then numeral 10 lowerDigits value.toInt.natAbs
  else if specifier = ch 'u' then numeral 10 lowerDigits value.toNat
  else if specifier = ch 'o' then numeral 8 lowerDigits value.toNat
  else if specifier = ch 'x' then numeral 16 lowerDigits value.toNat
  else numeral 16 upperDigits value.toNat

/-- The bytes of the conversion, where the standard defines them: `#` is defined for `o`, `x` and `X`,
and `0` for integers. -/
def Conversion.standard (c : Conversion) : Option (List UInt8) :=
  match c.operand with
  | .integer specifier value =>
    if ch '#' ∈ c.flags ∧ (signedSpecifier specifier ∨ specifier = ch 'u') then none
    else some (layout c.leftJustified (ch '0' ∈ c.flags) c.width.value.natAbs
      (standardSign c.flags specifier value) (standardMarker c.flags specifier value)
      (standardDigits specifier value))
  | .character value =>
    if ch '#' ∈ c.flags ∨ ch '0' ∈ c.flags then none
    else some (justified c.leftJustified c.width.value.natAbs [UInt8.ofNat value.toNat])
  | .string precision value =>
    if ch '#' ∈ c.flags ∨ ch '0' ∈ c.flags then none
    else some (justified c.leftJustified c.width.value.natAbs
      (match precision.limit with
        | none => value.bytes
        | some limit => value.bytes.take limit))

/-- `vcbprintf` prints what the standard prescribes. -/
def Conforms (format : CString) (c : Conversion) : Prop :=
  ∀ bytes, c.standard = some bytes → ∃ n, vcbprintf format c.arguments = .ok (n, bytes)

/-! ## The directive -/

/-- The flags as `vcbprintf` keeps them. -/
def flagsOf (flags : List UInt8) : Flags where
  leftJustify := ch '-' ∈ flags
  alwaysPrependSign := ch '+' ∈ flags
  alwaysPrependSpacePlusSign := ch ' ' ∈ flags
  force0xOrDec := ch '#' ∈ flags
  leftPadZeroes := ch '0' ∈ flags

theorem Flags.set_of_mem {c : UInt8} (flags : Flags) (hc : c ∈ flagCharacters) (rest : List UInt8) :
    ∃ flags' : Flags, flags.set c = some flags' ∧
      (flags'.leftJustify || decide (ch '-' ∈ rest)) =
        (flags.leftJustify || decide (ch '-' ∈ c :: rest)) ∧
      (flags'.alwaysPrependSign || decide (ch '+' ∈ rest)) =
        (flags.alwaysPrependSign || decide (ch '+' ∈ c :: rest)) ∧
      (flags'.alwaysPrependSpacePlusSign || decide (ch ' ' ∈ rest)) =
        (flags.alwaysPrependSpacePlusSign || decide (ch ' ' ∈ c :: rest)) ∧
      (flags'.force0xOrDec || decide (ch '#' ∈ rest)) =
        (flags.force0xOrDec || decide (ch '#' ∈ c :: rest)) ∧
      (flags'.leftPadZeroes || decide (ch '0' ∈ rest)) =
        (flags.leftPadZeroes || decide (ch '0' ∈ c :: rest)) := by
  simp only [flagCharacters, List.mem_cons, List.not_mem_nil, or_false] at hc
  rcases hc with rfl | rfl | rfl | rfl | rfl
  · refine ⟨{ flags with leftJustify := true }, rfl, ?_, ?_, ?_, ?_, ?_⟩ <;> simp [ch] <;> congr
  · refine ⟨{ flags with alwaysPrependSign := true }, rfl, ?_, ?_, ?_, ?_, ?_⟩ <;> simp [ch] <;> congr
  · refine ⟨{ flags with alwaysPrependSpacePlusSign := true }, rfl, ?_, ?_, ?_, ?_,
      ?_⟩ <;> simp [ch] <;> congr
  · refine ⟨{ flags with force0xOrDec := true }, rfl, ?_, ?_, ?_, ?_, ?_⟩ <;> simp [ch] <;> congr
  · refine ⟨{ flags with leftPadZeroes := true }, rfl, ?_, ?_, ?_, ?_, ?_⟩ <;> simp [ch] <;> congr

theorem Flags.set_of_not_mem {c : UInt8} (flags : Flags) (hc : c ∉ flagCharacters) :
    flags.set c = none := by
  simp only [flagCharacters, List.mem_cons, List.not_mem_nil, or_false, not_or] at hc
  simp [Flags.set, hc]

theorem scanFlags_append (before : Flags) {flags rest : List UInt8}
    (hflags : ∀ c ∈ flags, c ∈ flagCharacters) (hrest : ∃ c s, rest = c :: s ∧ c ∉ flagCharacters) :
    scanFlags before (flags ++ rest) = .ok
      (⟨before.leftJustify || decide (ch '-' ∈ flags), before.alwaysPrependSign || decide (ch '+' ∈ flags),
        before.alwaysPrependSpacePlusSign || decide (ch ' ' ∈ flags),
        before.force0xOrDec || decide (ch '#' ∈ flags),
        before.leftPadZeroes || decide (ch '0' ∈ flags)⟩, rest) := by
  induction flags generalizing before with
  | nil =>
    obtain ⟨c, s, rfl, hc⟩ := hrest
    rw [List.nil_append, scanFlags, before.set_of_not_mem hc]
    simp
  | cons c flags ih =>
    obtain ⟨flags', hset, hleft, hplus, hspace, hforce, hzero⟩ :=
      before.set_of_mem (hflags c List.mem_cons_self) flags
    have hchomp : ∃ s, chomp (c :: (flags ++ rest)) = .ok s := by
      obtain ⟨d, s, rfl, -⟩ := hrest
      cases flags with
      | nil | cons e flags => exact ⟨_, rfl⟩
    obtain ⟨s, hchomp⟩ := hchomp
    rw [List.cons_append, scanFlags, hset]
    rw [hchomp]
    show scanFlags flags' (flags ++ rest) = _
    rw [ih flags' fun d hd => hflags d (List.mem_cons_of_mem c hd), hleft, hplus, hspace, hforce, hzero]

theorem scanFlags_eq {flags rest : List UInt8} (hflags : ∀ c ∈ flags, c ∈ flagCharacters)
    (hrest : ∃ c s, rest = c :: s ∧ c ∉ flagCharacters) :
    scanFlags {} (flags ++ rest) = .ok (flagsOf flags, rest) := by
  rw [scanFlags_append {} hflags hrest]
  simp [flagsOf]

/-- What a format has behind a number: a character that neither is a digit nor starts a number. -/
def Ends (rest : List UInt8) : Prop := ∃ c s, rest = c :: s ∧ isdigit c = false ∧ c ≠ ch '*'

theorem scanNumber_digits (otherwise : Int) (args : List Argument) {digits rest : List UInt8}
    (hne : digits ≠ []) (hdigits : ∀ c ∈ digits, isdigit c = true) (hrest : Ends rest) :
    scanNumber otherwise args (digits ++ rest) = .ok (s32 (decimalValue digits 0), args, rest) := by
  obtain ⟨c, s, rfl, hc, -⟩ := hrest
  have hread : strtol (digits ++ c :: s) 10 = (s32 (decimalValue digits 0), c :: s) :=
    strtol_decimal hne hdigits (by simpa using hc)
  obtain ⟨d, digits, rfl⟩ := List.exists_cons_of_ne_nil hne
  have hd : isdigit d = true := hdigits d List.mem_cons_self
  have hstar : d ≠ ch '*' := by
    rintro rfl
    exact absurd hd (by decide)
  rw [scanNumber, if_neg (by simpa [current] using hstar), if_pos (by simpa [current] using hd), hread]

variable {rest : List UInt8}

theorem scanNumber_star (otherwise : Int) (value : BitVec 32) (args : List Argument)
    (hrest : Ends rest) :
    scanNumber otherwise (.word value :: args) (ch '*' :: rest) = .ok (value.toInt, args, rest) := by
  obtain ⟨c, s, rfl, -, -⟩ := hrest
  rfl

theorem scanNumber_none (otherwise : Int) (args : List Argument)
    (hrest : Ends rest) : scanNumber otherwise args rest = .ok (otherwise, args, rest) := by
  obtain ⟨c, s, rfl, hc, hstar⟩ := hrest
  rw [scanNumber, if_neg (by simpa [current] using hstar), if_neg (by simp [current, hc])]

theorem s32_toInt (value : BitVec 32) : s32 value.toInt = value.toInt := by
  refine s32_of_range ?_ ?_
  · have := value.le_toInt
    omega
  · have := value.toInt_lt
    omega

theorem scanNumber_width {width : Width} (hvalid : width.Valid) (args : List Argument)
    (hrest : Ends rest) :
    scanNumber 0 (width.arguments ++ args) (width.text ++ rest) =
      .ok (s32 width.value, args, rest) := by
  cases width with
  | none =>
    have hzero : s32 Width.none.value = 0 := s32_of_range (by decide) (by decide)
    rw [hzero]
    exact scanNumber_none 0 args hrest
  | digits text => exact scanNumber_digits 0 args hvalid.1 hvalid.2.2 hrest
  | star value =>
    rw [Width.value, s32_toInt]
    exact scanNumber_star 0 value args hrest

/-- The precision as `vcbprintf` keeps it. -/
def Precision.read : Precision → Int × Bool
  | .none => (6, false)
  | .digits text => (if text = [] then 6 else s32 (decimalValue text 0), true)
  | .star value => (value.toInt, true)

theorem scanPrecision_eq {precision : Precision} (hvalid : precision.Valid) (args : List Argument)
    (hrest : Ends rest) (hperiod : rest.head? ≠ some (ch '.')) :
    scanPrecision (precision.arguments ++ args) (precision.text ++ rest) =
      .ok (precision.read, args, rest) := by
  have hperiod' : ∀ s, chomp (ch '.' :: (s ++ rest)) = .ok (s ++ rest) := by
    intro s
    obtain ⟨c, t, rfl, -⟩ := hrest
    cases s with
    | nil | cons d s => rfl
  have hsome : ∀ s args number args', scanNumber 6 args (s ++ rest) = .ok (number, args', rest) →
      scanPrecision args (ch '.' :: (s ++ rest)) = .ok ((number, true), args', rest) := by
    intro s args number args' hnumber
    rw [scanPrecision, if_pos (by simp [current]), hperiod' s]
    show (scanNumber 6 args (s ++ rest) >>= _) = _
    rw [hnumber]
    rfl
  cases precision with
  | none =>
    obtain ⟨c, s, rfl, -⟩ := hrest
    have hc : c ≠ ch '.' := by simpa using hperiod
    simp [Precision.text, Precision.arguments, scanPrecision, current, hc, Precision.read]
  | digits text =>
    by_cases hempty : text = []
    · subst hempty
      exact hsome [] args 6 args (scanNumber_none 6 args hrest)
    · rw [Precision.read, if_neg hempty]
      exact hsome text args _ args (scanNumber_digits 6 args hempty hvalid hrest)
  | star value => exact hsome [ch '*'] _ _ args (scanNumber_star 6 value args hrest)

def Operand.specifier : Operand → UInt8
  | .integer specifier _ => specifier
  | .character _ => ch 'c'
  | .string _ _ => ch 's'

def Operand.precision : Operand → Precision
  | .string precision _ => precision
  | _ => .none

def Operand.argument : Operand → Argument
  | .integer _ value => .word value
  | .character value => .word value
  | .string _ value => .string value

theorem Operand.text_eq (operand : Operand) :
    operand.text = operand.precision.text ++ [operand.specifier] := by
  cases operand <;> rfl

theorem Operand.arguments_eq (operand : Operand) :
    operand.arguments = operand.precision.arguments ++ [operand.argument] := by
  cases operand <;> rfl

/-- What `vcbprintf` finds between `%` and the end of the conversion. -/
def Conversion.directive (c : Conversion) : Directive where
  flags := flagsOf c.flags
  width := s32 c.width.value
  precision := c.operand.precision.read.1
  explicitPrecision := c.operand.precision.read.2
  length := .default
  specifier := c.operand.specifier

/-- What is printed for the conversion. -/
def Conversion.item (c : Conversion) : Item :=
  match c.operand with
  | .integer specifier value =>
    .number c.directive (if signedSpecifier specifier then value.signExtend 64 else value.setWidth 64)
  | .character value => .character c.directive (UInt8.ofNat value.toNat)
  | .string _ value => .string c.directive value

/-- The characters that end a conversion. -/
def specifiers : List UInt8 := ch 'c' :: ch 's' :: integerSpecifiers

theorem Conversion.specifier_mem (c : Conversion) : c.operand.specifier ∈ specifiers := by
  have hvalid := c.operand_valid
  cases hoperand : c.operand with
  | integer specifier value =>
    rw [hoperand] at hvalid
    exact List.mem_cons_of_mem _ (List.mem_cons_of_mem _ hvalid)
  | character value => exact List.mem_cons_self
  | string precision value => exact List.mem_cons_of_mem _ List.mem_cons_self

theorem specifier_plain : ∀ c ∈ specifiers, isdigit c = false ∧ c ≠ ch '*' ∧ c ≠ ch '.' ∧ c ≠ ch '%' ∧
    c ∉ flagCharacters ∧ scanLength [c] = .ok (.default, [c]) :=
  forall_mem_of_all (by decide)

section

variable (c : Conversion)

theorem Conversion.operand_ends : ∃ d s, c.operand.text = d :: s ∧ isdigit d = false ∧ d ≠ ch '*' ∧
    d ≠ ch '%' ∧ d ∉ flagCharacters := by
  obtain ⟨hdigit, hstar, -, hpercent, hflag, -⟩ := specifier_plain _ c.specifier_mem
  rw [c.operand.text_eq]
  cases c.operand.precision with
  | none => exact ⟨_, [], rfl, hdigit, hstar, hpercent, hflag⟩
  | digits text | star value => exact ⟨ch '.', _, rfl, by decide, by decide, by decide, by decide⟩

theorem Conversion.width_ends : ∃ d s, c.width.text ++ c.operand.text = d :: s ∧ d ≠ ch '%' ∧
    d ∉ flagCharacters := by
  obtain ⟨d, s, hoperand, -, -, hpercent, hflag⟩ := c.operand_ends
  have hvalid := c.width_valid
  cases hwidth : c.width with
  | none => exact ⟨d, s, hoperand, hpercent, hflag⟩
  | star value => exact ⟨ch '*', _, rfl, by decide, by decide⟩
  | digits text =>
    rw [hwidth] at hvalid
    obtain ⟨hne, hzero, hdigits⟩ := hvalid
    obtain ⟨e, text, rfl⟩ := List.exists_cons_of_ne_nil hne
    have hdigit : isdigit e = true := hdigits e List.mem_cons_self
    refine ⟨e, text ++ c.operand.text, rfl, ?_, ?_⟩
    · rintro rfl
      exact absurd hdigit (by decide)
    · intro hmem
      simp only [flagCharacters, List.mem_cons, List.not_mem_nil, or_false] at hmem
      rcases hmem with rfl | rfl | rfl | rfl | rfl
      · exact absurd hdigit (by decide)
      · exact absurd hdigit (by decide)
      · exact absurd hdigit (by decide)
      · exact absurd hdigit (by decide)
      · exact hzero rfl

theorem Conversion.scanDirective_eq :
    scanDirective c.arguments (c.flags ++ (c.width.text ++ c.operand.text)) =
      .ok (c.directive, [c.operand.argument], [c.operand.specifier]) := by
  obtain ⟨hdigit, hstar, hperiod, -, -, hlength⟩ := specifier_plain _ c.specifier_mem
  obtain ⟨d, s, hwidth, -, hflag⟩ := c.width_ends
  obtain ⟨e, t, hoperand, hdigit', hstar', -⟩ := c.operand_ends
  have hprecision : c.operand.precision.Valid := by
    have hvalid := c.operand_valid
    cases hkind : c.operand with
    | integer specifier value => trivial
    | character value => trivial
    | string precision value =>
      rw [hkind] at hvalid
      exact hvalid
  unfold scanDirective
  rw [scanFlags_eq c.flags_valid ⟨d, s, hwidth, hflag⟩]
  show (scanNumber 0 (c.width.arguments ++ c.operand.arguments) (c.width.text ++ c.operand.text) >>= _)
    = _
  rw [scanNumber_width c.width_valid _ ⟨e, t, hoperand, hdigit', hstar'⟩]
  show (scanPrecision c.operand.arguments c.operand.text >>= _) = _
  rw [c.operand.text_eq, c.operand.arguments_eq,
    scanPrecision_eq hprecision _ ⟨_, [], rfl, hdigit, hstar⟩ (by simpa using hperiod)]
  show (scanLength [c.operand.specifier] >>= _) = _
  rw [hlength]
  rfl

theorem Conversion.fetch_eq : fetch c.directive [c.operand.argument] = .ok (c.item, []) := by
  have hvalid := c.operand_valid
  have hspecifier : c.directive.specifier = c.operand.specifier := rfl
  have hdefault : c.directive.length = .default := rfl
  unfold fetch Conversion.item Directive.isNumber Directive.isFloating Directive.isSigned
  rw [hspecifier, hdefault]
  cases hoperand : c.operand with
  | character value | string precision value => rfl
  | integer specifier value =>
    rw [hoperand] at hvalid
    simp only [Operand.Valid, integerSpecifiers, List.mem_cons, List.not_mem_nil, or_false] at hvalid
    rcases hvalid with rfl | rfl | rfl | rfl | rfl | rfl <;> rfl

variable {format : CString}

section

variable (hformat : format.bytes = c.text)
include hformat

theorem Conversion.items_eq : items format c.arguments = .ok [c.item] := by
  obtain ⟨d, s, hrest, hpercent⟩ : ∃ d s, c.flags ++ (c.width.text ++ c.operand.text) = d :: s ∧
      d ≠ ch '%' := by
    obtain ⟨d, s, hwidth, hpercent, -⟩ := c.width_ends
    have hflags := c.flags_valid
    have hpercent' : ch '%' ∉ flagCharacters := by decide
    cases hc : c.flags with
    | nil => exact ⟨d, s, hwidth, hpercent⟩
    | cons e flags =>
      refine ⟨e, _, rfl, ?_⟩
      rintro rfl
      exact hpercent' (hflags _ (by simp [hc]))
  have hscan : scanItem c.arguments (ch '%' :: d :: s) =
      .ok (c.item, [], [c.operand.specifier]) := by
    have hdirective := c.scanDirective_eq
    rw [hrest] at hdirective
    show (if current (d :: s) = ch '%' then _ else _) = _
    rw [if_neg (by simpa [current] using hpercent)]
    rw [hdirective]
    show (fetch c.directive [c.operand.argument] >>= _) = _
    rw [c.fetch_eq]
    rfl
  unfold items
  rw [hformat, Conversion.text, hrest, List.length_cons, itemsFrom, hscan]
  rfl

theorem Conversion.vcbprintf_eq :
    vcbprintf format c.arguments = .ok (s32 c.item.output.length, c.item.output) := by
  have hprints := vcbprintf_prints format c.arguments
  rw [c.items_eq hformat] at hprints
  simpa [Prints, outputOf] using hprints

theorem Conversion.conforms_iff :
    Conforms format c ↔ ∀ bytes, c.standard = some bytes → c.item.output = bytes := by
  unfold Conforms
  rw [c.vcbprintf_eq hformat]
  constructor
  · intro h bytes hbytes
    obtain ⟨n, hn⟩ := h bytes hbytes
    simpa using congrArg Prod.snd (Except.ok.inj hn)
  · intro h bytes hbytes
    rw [h bytes hbytes]
    exact ⟨_, rfl⟩

end

end

end LibC
