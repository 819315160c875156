import MeetixOS.Kernel.Types

/-! # The shell interface

`IO::Shell` of LibIO: the calls that write control sequences for the terminal, and the functions that read
keys and answers from the standard input. `Shell::read_escaped_parameters` and
`Terminal::process_output_character` read `Parameters` by the same statements, with `none` for an index
outside of the array.

`Stdin` is what has come in and not been read. `none` is a read that waits for more. -/

namespace MeetixOS.LibIO

open Kernel (s32 s32_of_range)

/-! ## Bytes -/

def shellkeySub : UInt8 := 26

def shellkeyEsc : UInt8 := 27

def shellkeyMin : Nat := 0x101

abbrev shellStreamControlMaxParameters : Nat := 4

instance : NeZero shellStreamControlMaxParameters := ⟨by decide⟩

/-- An ASCII character. -/
def ascii (c : Char) : UInt8 := UInt8.ofNat c.toNat

/-- The bytes from '0' to '9'. -/
def isDigit (b : UInt8) : Bool := ascii '0' ≤ b && b ≤ ascii '9'

/-- A natural number, as `operator<<` writes it. -/
def decimalNat (n : Nat) : List UInt8 :=
  (if n < 10 then [] else decimalNat (n / 10)) ++ [UInt8.ofNat (48 + n % 10)]

/-- An `int`, as `operator<<` writes it. -/
def decimal (n : Int) : List UInt8 :=
  if n < 0 then ascii '-' :: decimalNat (-n).toNat else decimalNat n.toNat

/-! ## Parameters -/

/-- The parameters of a control sequence: how many there are, and the array. -/
structure Parameters where
  count : Int
  values : Fin shellStreamControlMaxParameters → Int

namespace Parameters

/-- Before the first byte. -/
def empty : Parameters := ⟨0, fun _ => 0⟩

/-- The index of the parameter that is being read, if it is one. -/
def index (count : Int) : Option (Fin shellStreamControlMaxParameters) :=
  if h : (count - 1).toNat < shellStreamControlMaxParameters ∧ 0 ≤ count - 1 then
    some ⟨(count - 1).toNat, h.1⟩
  else none

/-- A digit; a parameter behind the last one is skipped. -/
def digit (p : Parameters) (d : Nat) : Option Parameters :=
  let count := if p.count = 0 then 1 else p.count
  if count ≤ shellStreamControlMaxParameters then
    (index count).map fun i =>
      { count, values := Function.update p.values i (s32 (s32 (p.values i * 10) + d)) }
  else some { p with count }

/-- A semicolon. -/
def separator (p : Parameters) : Parameters := { p with count := s32 (p.count + 1) }

end Parameters

/-- A byte that belongs to the parameters. -/
def isParameterByte (b : UInt8) : Bool := isDigit b || b == ascii ';'

/-- A byte of the parameters. -/
def Parameters.byte (p : Parameters) (b : UInt8) : Option Parameters :=
  if isDigit b then p.digit (b.toNat - 48) else some p.separator

/-- Several bytes of the parameters. -/
def Parameters.read (p : Parameters) (body : List UInt8) : Option Parameters :=
  body.foldlM Parameters.byte p

/-! ## Calls that write -/

/-- `Shell::CursorPosition`. -/
structure CursorPosition where
  x : Int
  y : Int
  deriving DecidableEq

/-- `Shell::Mode`. -/
inductive Mode
  | default
  | raw
  | cbreak
  deriving DecidableEq

/-- The value of the enumeration. -/
def Mode.toInt : Mode → Int
  | .default => 0
  | .raw => 1
  | .cbreak => 2

/-- ESC and "[". -/
def vt100 (body : List UInt8) (control : Char) : List UInt8 :=
  [shellkeyEsc, ascii '['] ++ body ++ [ascii control]

/-- ESC and "{". -/
def term (body : List UInt8) (control : Char) : List UInt8 :=
  [shellkeyEsc, UInt8.ofNat 123] ++ body ++ [ascii control]

namespace Shell

def writeChar (c : Int) : List UInt8 := term (decimal c) 'p'

def moveCursorUp (n : Int) : List UInt8 := vt100 (decimal n) 'A'

def moveCursorDown (n : Int) : List UInt8 := vt100 (decimal n) 'B'

def moveCursorForward (n : Int) : List UInt8 := vt100 (decimal n) 'C'

def moveCursorBack (n : Int) : List UInt8 := vt100 (decimal n) 'D'

def clear : List UInt8 := vt100 [ascii '2'] 'J'

def scroll (value : Int) : List UInt8 :=
  if value ≥ 0 then vt100 (decimal value) 'S' else vt100 (decimal (-value)) 'T'

def setEcho (doEcho : Bool) : List UInt8 := term (decimal (if doEcho then 1 else 0)) 'e'

def setMode (mode : Mode) : List UInt8 := term (decimal mode.toInt) 'm'

def setCursor (position : CursorPosition) : List UInt8 :=
  vt100 (decimal position.y ++ [ascii ';'] ++ decimal position.x) 'f'

def setControlProcess (pid : Int) : List UInt8 := term (decimal pid) 'c'

def setScrollAreaToScreen : List UInt8 := vt100 [] 'r'

def setScrollArea (start stop : Int) : List UInt8 :=
  vt100 (decimal start ++ [ascii ';'] ++ decimal stop) 'r'

def setCursorVisible (visible : Bool) : List UInt8 :=
  term ([ascii '0', ascii ';'] ++ decimal (if visible then 1 else 0)) 'C'

end Shell

/-! ## Numbers that are written and read back -/

theorem decimal_of_nonneg {n : Int} (h : 0 ≤ n) : decimal n = decimalNat n.toNat := by
  rw [decimal, if_neg (by omega)]

theorem isDigit_ofNat {d : Nat} (h : d < 10) :
    isDigit (UInt8.ofNat (48 + d)) = true ∧ (UInt8.ofNat (48 + d)).toNat - 48 = d := by
  have htoNat : (UInt8.ofNat (48 + d)).toNat = 48 + d := by
    rw [UInt8.toNat_ofNat']
    omega
  constructor
  · rw [isDigit, Bool.and_eq_true, decide_eq_true_eq, decide_eq_true_eq, UInt8.le_iff_toNat_le,
      UInt8.le_iff_toNat_le, htoNat]
    have hzero : (ascii '0').toNat = 48 := rfl
    have hnine : (ascii '9').toNat = 57 := rfl
    omega
  · omega

theorem isDigit_of_mem_decimalNat {n : Nat} {b : UInt8} (hb : b ∈ decimalNat n) : isDigit b = true := by
  induction n using Nat.strong_induction_on with
  | _ n ih =>
    rw [decimalNat, List.mem_append, List.mem_singleton] at hb
    rcases hb with hb | rfl
    · split at hb
      · cases hb
      · exact ih (n / 10) (by omega) hb
    · exact (isDigit_ofNat (Nat.mod_lt n (by omega))).1

namespace Parameters

theorem index_of_range {count : Int} (hlo : 1 ≤ count) (hhi : count ≤ 4) :
    index count = some ⟨(count - 1).toNat, by simp only [shellStreamControlMaxParameters]; omega⟩ := by
  rw [index, dif_pos]
  simp only [shellStreamControlMaxParameters]
  omega

theorem digit_of_range {p : Parameters} {i : Fin shellStreamControlMaxParameters} {d : Nat}
    (hcount : (if p.count = 0 then 1 else p.count) = (i : Nat) + 1)
    (hvalue : 0 ≤ p.values i) (hfits : p.values i * 10 + d < 2 ^ 31) :
    p.digit d = some ⟨(i : Nat) + 1, Function.update p.values i (p.values i * 10 + d)⟩ := by
  have hi := i.isLt
  simp only [shellStreamControlMaxParameters] at hi
  have hindex : index ((i : Nat) + 1) = some i := by
    rw [index_of_range (by omega) (by omega)]
    simp only [Option.some.injEq]
    exact Fin.ext (by simp)
  rw [digit, hcount, if_pos (by simp only [shellStreamControlMaxParameters]; omega)]
  rw [hindex, Option.map_some, s32_of_range (n := p.values i * 10) (by omega) (by omega),
    s32_of_range (by omega) hfits]

theorem read_append (p : Parameters) (a b : List UInt8) :
    p.read (a ++ b) = (p.read a).bind fun p => p.read b := by
  simp only [read, List.foldlM_append]
  rfl

theorem read_decimalNat {n : Nat} (hn : n < 2 ^ 31) {p : Parameters}
    {i : Fin shellStreamControlMaxParameters}
    (hcount : (if p.count = 0 then 1 else p.count) = (i : Nat) + 1) (hvalue : p.values i = 0) :
    p.read (decimalNat n) = some ⟨(i : Nat) + 1, Function.update p.values i n⟩ := by
  induction n using Nat.strong_induction_on with
  | _ n ih =>
    have hdigit := isDigit_ofNat (Nat.mod_lt n (show 0 < 10 by omega))
    have hlast : ∀ q : Parameters, q.read [UInt8.ofNat (48 + n % 10)] = q.digit (n % 10) := by
      intro q
      rw [read, List.foldlM_cons, byte, if_pos hdigit.1, hdigit.2]
      cases q.digit (n % 10) <;> rfl
    rw [decimalNat, read_append]
    split
    next hsmall =>
      show p.read _ = _
      rw [hlast, digit_of_range hcount (by omega) (by omega), hvalue]
      congr 3
      omega
    next hlarge =>
      rw [ih (n / 10) (by omega) (by omega), Option.bind_some, hlast,
        digit_of_range (i := i) (by simp; omega) (by simp; omega) (by simp; omega)]
      simp only [Function.update_self, Function.update_idem]
      congr 3
      omega

end Parameters

end MeetixOS.LibIO
