import MeetixOS.LibC.Strtol

/-! # `vcbprintf`

The formatted output that all of the `printf` functions share, for integers, characters and strings and for
a callback that accepts every byte. A pointer into the format is what is left of it; a step behind the
terminating zero, an access outside of the number buffer and an argument of another type than the conversion
takes are errors of the model. -/

open MeetixOS.Kernel (s32 s32_of_range)

namespace LibC

/-- A string in memory: its characters in front of the terminating zero. -/
structure CString where
  bytes : List UInt8
  ne_zero : ∀ c ∈ bytes, c ≠ 0
  length_lt : bytes.length < 2 ^ 32
  deriving DecidableEq

/-- An argument of the list: 32 bits, 64 bits, a string, or where `%n` stores. -/
inductive Argument
  | word (value : BitVec 32)
  | wide (value : BitVec 64)
  | string (value : CString)
  | location
  deriving DecidableEq

theorem forall_mem_of_all {xs : List UInt8} {P : UInt8 → Prop} [DecidablePred P]
    (h : xs.all (fun c => decide (P c)) = true) : ∀ c ∈ xs, P c :=
  fun c hc => of_decide_eq_true (List.all_eq_true.1 h c hc)

/-- Why a format is not processed to its end. -/
inductive Stop
  /-- The format ends, or `CHOMP_CHAR` has found its end. -/
  | ended
  /-- `errno` is set to `EINVAL`. -/
  | refused
  /-- The argument list has no argument of the type. -/
  | argument
  /-- A conversion of floating point numbers. -/
  | floating
  /-- The format is read behind its terminating zero. -/
  | beyond
  /-- `number_buffer` is written outside. -/
  | buffer
  /-- More rounds than the format has characters. -/
  | endless
  deriving DecidableEq, Repr

abbrev Scan (β : Type) := Except Stop β

/-- A character constant. -/
def ch (c : Char) : UInt8 := UInt8.ofNat c.toNat

/-- An `int` that is converted to `usize`. -/
def unsigned (n : Int) : Nat := (n % 2 ^ 32).toNat

/-! ## The format -/

/-- `*s`. -/
def current (s : List UInt8) : UInt8 := s.headD 0

/-- `CHOMP_CHAR`. -/
def chomp : List UInt8 → Scan (List UInt8)
  | [] => .error .beyond
  | [_] => .error .ended
  | _ :: c :: s => .ok (c :: s)

structure Flags where
  leftJustify : Bool := false
  alwaysPrependSign : Bool := false
  alwaysPrependSpacePlusSign : Bool := false
  force0xOrDec : Bool := false
  leftPadZeroes : Bool := false
  deriving DecidableEq, Repr

/-- The flag that a character sets. -/
def Flags.set (flags : Flags) (c : UInt8) : Option Flags :=
  if c = ch '-' then some { flags with leftJustify := true }
  else if c = ch '+' then some { flags with alwaysPrependSign := true }
  else if c = ch ' ' then some { flags with alwaysPrependSpacePlusSign := true }
  else if c = ch '#' then some { flags with force0xOrDec := true }
  else if c = ch '0' then some { flags with leftPadZeroes := true }
  else none

def scanFlags : Flags → List UInt8 → Scan (Flags × List UInt8)
  | flags, [] => .ok (flags, [])
  | flags, c :: s =>
    match flags.set c with
    | none => .ok (flags, c :: s)
    | some flags => do
        let _ ← chomp (c :: s)
        scanFlags flags s

def takeWord : List Argument → Scan (BitVec 32 × List Argument)
  | .word value :: args => .ok (value, args)
  | _ => .error .argument

def takeWide : List Argument → Scan (BitVec 64 × List Argument)
  | .wide value :: args => .ok (value, args)
  | _ => .error .argument

def takeString : List Argument → Scan (CString × List Argument)
  | .string value :: args => .ok (value, args)
  | _ => .error .argument

def takeLocation : List Argument → Scan (List Argument)
  | .location :: args => .ok args
  | _ => .error .argument

/-- A number that a format may have as `*` or as digits. -/
def scanNumber (otherwise : Int) (args : List Argument) (s : List UInt8) :
    Scan (Int × List Argument × List UInt8) :=
  if current s = ch '*' then do
    let (value, args) ← takeWord args
    let s ← chomp s
    return (value.toInt, args, s)
  else if isdigit (current s) then
    -- `string_to_number` already chomps the characters
    let (value, s) := strtol s 10
    .ok (value, args, s)
  else
    .ok (otherwise, args, s)

/-- The precision, and whether it is explicit. -/
def scanPrecision (args : List Argument) (s : List UInt8) :
    Scan ((Int × Bool) × List Argument × List UInt8) :=
  if current s = ch '.' then do
    let s ← chomp s
    let (precision, args, s) ← scanNumber 6 args s
    return ((precision, true), args, s)
  else
    .ok ((6, false), args, s)

inductive Length
  | default | hh | h | l | ll | j | z | t | L
  deriving DecidableEq, Repr

def scanLength (s : List UInt8) : Scan (Length × List UInt8) :=
  if current s = ch 'h' then do
    let s ← chomp s
    if current s = ch 'h' then return (.hh, ← chomp s) else return (.h, s)
  else if current s = ch 'l' then do
    let s ← chomp s
    if current s = ch 'l' then return (.ll, ← chomp s) else return (.l, s)
  else if current s = ch 'j' then return (.j, ← chomp s)
  else if current s = ch 'z' then return (.z, ← chomp s)
  else if current s = ch 't' then return (.t, ← chomp s)
  else if current s = ch 'L' then return (.L, ← chomp s)
  else return (.default, s)

/-- What stands between `%` and the end of a conversion. -/
structure Directive where
  flags : Flags
  width : Int
  precision : Int
  explicitPrecision : Bool
  length : Length
  specifier : UInt8
  deriving DecidableEq, Repr

def scanDirective (args : List Argument) (s : List UInt8) :
    Scan (Directive × List Argument × List UInt8) := do
  let (flags, s) ← scanFlags {} s
  let (width, args, s) ← scanNumber 0 args s
  let ((precision, explicitPrecision), args, s) ← scanPrecision args s
  let (length, s) ← scanLength s
  return ({ flags, width, precision, explicitPrecision, length, specifier := current s }, args, s)

/-! ## The arguments -/

/-- What is printed in one round: a character of the format or a conversion with its argument. -/
inductive Item
  | literal (c : UInt8)
  | number (directive : Directive) (value : BitVec 64)
  | character (directive : Directive) (value : UInt8)
  | string (directive : Directive) (value : CString)
  /-- `%n`. -/
  | stored
  deriving DecidableEq

def Directive.isSigned (directive : Directive) : Bool :=
  directive.specifier = ch 'd' ∨ directive.specifier = ch 'i'

def Directive.isNumber (directive : Directive) : Bool :=
  directive.isSigned ∨ directive.specifier = ch 'u' ∨ directive.specifier = ch 'o' ∨
    directive.specifier = ch 'x' ∨ directive.specifier = ch 'X' ∨ directive.specifier = ch 'p'

def Directive.isFloating (directive : Directive) : Bool :=
  directive.specifier = ch 'f' ∨ directive.specifier = ch 'F' ∨ directive.specifier = ch 'e' ∨
    directive.specifier = ch 'E' ∨ directive.specifier = ch 'g' ∨ directive.specifier = ch 'G' ∨
    directive.specifier = ch 'a' ∨ directive.specifier = ch 'A'

/-- The argument of a conversion of an integer, as an `uintmax_t`. -/
def numberValue (isSigned : Bool) (length : Length) (args : List Argument) :
    Scan (BitVec 64 × List Argument) :=
  match length with
  | .default | .l => do
      let (value, args) ← takeWord args
      return (if isSigned then value.signExtend 64 else value.setWidth 64, args)
  | .hh => do
      let (value, args) ← takeWord args
      return (if isSigned then (value.setWidth 8).signExtend 64 else (value.setWidth 8).setWidth 64, args)
  | .h => do
      let (value, args) ← takeWord args
      return (if isSigned then (value.setWidth 16).signExtend 64 else (value.setWidth 16).setWidth 64,
        args)
  | .ll | .j => takeWide args
  | .z => do
      let (value, args) ← takeWord args
      return (value.setWidth 64, args)
  | .t => do
      let (value, args) ← takeWord args
      return (value.signExtend 64, args)
  | .L => .error .refused

/-- `specifier` and `length` give the argument. -/
def fetch (directive : Directive) (args : List Argument) : Scan (Item × List Argument) :=
  if directive.isNumber then do
    let (value, args) ← numberValue directive.isSigned directive.length args
    return (.number directive value, args)
  else if directive.isFloating then
    .error .floating
  else if directive.specifier = ch 'c' then
    if directive.length = .default ∨ directive.length = .l then do
      let (value, args) ← takeWord args
      return (.character directive (UInt8.ofNat value.toNat), args)
    else
      .error .refused
  else if directive.specifier = ch 's' then
    if directive.length = .default ∨ directive.length = .l then do
      let (value, args) ← takeString args
      return (.string directive value, args)
    else
      .error .refused
  else if directive.specifier = ch 'n' then do
    return (.stored, ← takeLocation args)
  else
    .error .refused

/-- One round of the loop up to its last `CHOMP_CHAR`: what is printed, and what is left. -/
def scanItem (args : List Argument) (s : List UInt8) : Scan (Item × List Argument × List UInt8) :=
  if current s = ch '%' then do
    let s ← chomp s
    if current s = ch '%' then
      return (.literal (current s), args, s)
    else
      let (directive, args, s) ← scanDirective args s
      let (item, args) ← fetch directive args
      return (item, args, s)
  else
    .ok (.literal (current s), args, s)

/-! ## The output -/

/-- `written`, and what the callback was given. -/
structure Printed where
  written : Int := 0
  output : List UInt8 := []
  deriving DecidableEq

/-- A call of the callback, with its bytes added to `written`. -/
def Printed.emit (p : Printed) (bytes : List UInt8) : Printed :=
  ⟨s32 (p.written + bytes.length), p.output ++ bytes⟩

/-- A loop of `n` calls with one character. -/
def Printed.pad (p : Printed) (c : UInt8) : Nat → Printed
  | 0 => p
  | n + 1 => (p.emit [c]).pad c n

/-- The loop of `integer_to_string` that counts the digits, with at most `fuel` rounds. -/
def countDigits (base : Nat) : (fuel temp count : Nat) → Nat
  | 0, _, count => count
  | fuel + 1, temp, count =>
    if base ≤ temp then countDigits base fuel (temp / base) (count + 1) else count

/-- The loop that converts to digits, from the last one on. -/
def writeDigits (base : Nat) (digits : List UInt8) : (i value : Nat) → List UInt8 → Scan (List UInt8)
  | 0, _, out => .ok out
  | i + 1, value, out =>
    if i < out.length then
      writeDigits base digits i (value / base) (out.set i (digits.getD (value % base) 0))
    else
      .error .buffer

def integerToString (out : List UInt8) (value base : Nat) (digits : List UInt8) :
    Scan (Nat × List UInt8) := do
  let count := countDigits base 64 value 1
  return (count, ← writeDigits base digits count value out)

def lowerDigits : List UInt8 := [48, 49, 50, 51, 52, 53, 54, 55, 56, 57, 97, 98, 99, 100, 101, 102]

def upperDigits : List UInt8 := [48, 49, 50, 51, 52, 53, 54, 55, 56, 57, 65, 66, 67, 68, 69, 70]

/-- Pointers are printed as numbers. -/
def Directive.printed (directive : Directive) : Directive :=
  if directive.specifier = ch 'p' then
    { directive with specifier := ch 'x', flags := { directive.flags with force0xOrDec := true } }
  else
    directive

def Directive.isHexadecimal (directive : Directive) : Bool :=
  directive.specifier = ch 'x' ∨ directive.specifier = ch 'X'

def Directive.base (directive : Directive) : Nat :=
  if directive.isHexadecimal then 16 else if directive.specifier = ch 'o' then 8 else 10

def Directive.digits (directive : Directive) : List UInt8 :=
  if directive.specifier = ch 'X' then upperDigits else lowerDigits

/-- The conversion of an integer, behind the switch of `specifier` for pointers. -/
def printNumber (directive : Directive) (isNegative : Bool) (value : Nat) (p : Printed) :
    Scan Printed := do
  let flags := directive.flags
  let (len, numberBuffer) ←
    integerToString (List.replicate 24 0) value directive.base directive.digits
  let additionalLen :=
    (if flags.alwaysPrependSign ∨ flags.alwaysPrependSpacePlusSign ∨ isNegative then 1 else 0) +
      (if flags.force0xOrDec ∧ directive.isHexadecimal then 2 else 0) +
      (if flags.force0xOrDec ∧ directive.specifier = ch 'o' then 1 else 0)
  let width : Int :=
    if unsigned directive.width < len + additionalLen then ↑(len + additionalLen)
    else directive.width
  let padding := unsigned (width - len - additionalLen)
  let p := if !flags.leftJustify && !flags.leftPadZeroes then p.pad (ch ' ') padding else p
  let p :=
    if isNegative then p.emit [ch '-']
    else if flags.alwaysPrependSign then p.emit [ch '+']
    else if flags.alwaysPrependSpacePlusSign then p.emit [ch ' ']
    else p
  let p := if !flags.leftJustify && flags.leftPadZeroes then p.pad (ch '0') padding else p
  let p :=
    if flags.force0xOrDec && directive.isHexadecimal then
      (p.emit [ch '0']).emit [if directive.specifier = ch 'x' then ch 'x' else ch 'X']
    else if flags.force0xOrDec && directive.specifier = ch 'o' then p.emit [ch '0']
    else p
  let p := p.emit (numberBuffer.take len)
  return if flags.leftJustify then p.pad (ch ' ') padding else p

/-- The conversion of a character; the loops compare as `int`. -/
def printCharacter (directive : Directive) (value : UInt8) (p : Printed) : Printed :=
  let padding := (s32 (directive.width - 1)).toNat
  let p := if !directive.flags.leftJustify then p.pad (ch ' ') padding else p
  let p := p.emit [value]
  if directive.flags.leftJustify then p.pad (ch ' ') padding else p

/-- The conversion of a string; `width` and `precision` are compared with the length as `usize`. -/
def printString (directive : Directive) (value : CString) (p : Printed) : Printed :=
  let len := value.bytes.length
  let precision := unsigned directive.precision
  let width : Int := if unsigned directive.width < len then s32 len else directive.width
  let p := if !directive.flags.leftJustify then p.pad (ch ' ') (unsigned (width - len)) else p
  let len := if directive.explicitPrecision && precision < len then precision else len
  let p := p.emit (value.bytes.take len)
  let p :=
    if directive.explicitPrecision && len < precision then
      p.pad (ch ' ') (unsigned (directive.precision - len))
    else p
  if directive.flags.leftJustify then p.pad (ch ' ') (unsigned (width - len)) else p

def Item.print (p : Printed) : Item → Scan Printed
  | .literal c => .ok (p.emit [c])
  | .number directive value =>
    let isNegative := directive.isSigned && value.msb
    printNumber directive.printed isNegative (if isNegative then -value else value).toNat p
  | .character directive value => .ok (printCharacter directive value p)
  | .string directive value => .ok (printString directive value p)
  | .stored => .ok p

/-- The loop of `vcbprintf`, with at most `fuel` rounds: the value that is returned and the bytes that
the callback was given. -/
def vcbprintfFrom : (fuel : Nat) → List Argument → List UInt8 → Printed → Scan (Int × List UInt8)
  | _, _, [], p => .ok (p.written, p.output)
  | 0, _, _ :: _, _ => .error .endless
  | fuel + 1, args, c :: s, p =>
    match scanItem args (c :: s) with
    | .error .ended => .ok (p.written, p.output)
    | .error .refused => .ok (-1, p.output)
    | .error stop => .error stop
    | .ok (item, args, s) => do
        let p ← item.print p
        match chomp s with
        | .error .ended => .ok (p.written, p.output)
        | .error stop => .error stop
        | .ok s => vcbprintfFrom fuel args s p

def vcbprintf (format : CString) (args : List Argument) : Scan (Int × List UInt8) :=
  vcbprintfFrom format.bytes.length args format.bytes {}

end LibC
