import MeetixOS.Lib.Runs
import MeetixOS.Userspace.Terminal.ControlStream

/-! # Keys and answers in the shell's standard input

The reading part of `IO::Shell`, with `Terminal::write_shellkey_to_shell` and the terminal's answers on the
other side. A query reads up to its answer and keeps the keys in front of it in a buffer. `getc` on an
empty `Stdin` waits, which is `none`, unless the terminal is gone; then a query goes on for ever. -/

open Option (bind_some map_some)

namespace MeetixOS.TerminalApp

open Lib ShellCall
open LibIO

/-! ## The source -/

/-- The standard input. -/
structure Stdin where
  bytes : List UInt8
  ended : Bool

/-- `getc(stdin)`. -/
def getc : Stdin → Option (Int × Stdin)
  | ⟨b :: rest, ended⟩ => some (b.toNat, ⟨rest, ended⟩)
  | ⟨[], true⟩ => some (-1, ⟨[], true⟩)
  | ⟨[], false⟩ => none

/-- `Shell::read_unbuffered`. -/
def readUnbuffered (stdin : Stdin) : Option (Int × Stdin) :=
  (getc stdin).bind fun (c, stdin) =>
    if c = shellkeySub.toNat then
      (getc stdin).bind fun (b1, stdin) =>
        if b1 < 0 then some (-1, stdin)
        else
          (getc stdin).bind fun (b2, stdin) =>
            if b2 < 0 then some (-1, stdin)
            else some ((b2.toNat <<< 8 ||| b1.toNat : Nat), stdin)
    else some (c, stdin)

/-- `m_buffer_len`. -/
def bufferLen : Nat := 64

/-- `Shell::buffer_char`, on the entries of `m_buffer` that are used. -/
def bufferChar (buffer : List Int) (c : Int) : List Int :=
  if buffer.length < bufferLen then buffer ++ [c] else buffer

/-- `Shell::read_buffered_until_esc`, for so many turns. -/
def readBufferedUntilEsc : Nat → List Int → Stdin → Option (List Int × Stdin)
  | 0, _, _ => none
  | turns + 1, buffer, stdin =>
    (readUnbuffered stdin).bind fun (c, stdin) =>
      if c = shellkeyEsc.toNat then some (buffer, stdin)
      else readBufferedUntilEsc turns (bufferChar buffer c) stdin

/-- `Shell::read_escaped_parameters`, for so many turns, with the parameters. -/
def readEscapedParameters : Nat → Parameters → Stdin → Option (Int × Parameters × Stdin)
  | 0, _, _ => none
  | turns + 1, parameters, stdin =>
    (readUnbuffered stdin).bind fun (c, stdin) =>
      if 48 ≤ c ∧ c ≤ 57 then
        (parameters.digit (c - 48).toNat).bind fun parameters =>
          readEscapedParameters turns parameters stdin
      else if c = (ascii ';').toNat then readEscapedParameters turns parameters.separator stdin
      else some (c, parameters, stdin)

/-- A turn for each byte, and one more. -/
def Stdin.turns (stdin : Stdin) : Nat := stdin.bytes.length + 1

/-- The part of `cursor` and `dimension` behind the request: the last byte gives the end. -/
def readAnswer (second control : UInt8) (result : Parameters → Int × Int) (buffer : List Int)
    (stdin : Stdin) : Option ((Int × Int) × List Int × Stdin) :=
  (readBufferedUntilEsc stdin.turns buffer stdin).bind fun (buffer, stdin) =>
    (readUnbuffered stdin).bind fun (c, stdin) =>
      if c = second.toNat then
        (readEscapedParameters stdin.turns .empty stdin).bind fun (mode, parameters, stdin) =>
          if mode = control.toNat then some (result parameters, buffer, stdin)
          else some ((-1, -1), buffer, stdin)
      else some ((-1, -1), buffer, stdin)

/-- `Shell::cursor`: x and y. -/
def shellCursor : List Int → Stdin → Option ((Int × Int) × List Int × Stdin) :=
  readAnswer (ascii '[') (ascii 'R') fun p => (p.values 1, p.values 0)

/-- `Shell::dimension`: width and height. -/
def shellDimension : List Int → Stdin → Option ((Int × Int) × List Int × Stdin) :=
  readAnswer (UInt8.ofNat 123) (ascii 'i') fun p => (p.values 0, p.values 1)

/-- `Shell::read_char`. -/
def readChar : List Int → Stdin → Option (Int × List Int × Stdin)
  | c :: buffer, stdin => some (c, buffer, stdin)
  | [], stdin => (readUnbuffered stdin).map fun (c, stdin) => (c, [], stdin)

/-- A key: a byte other than SUB and ESC, or an extended key. -/
inductive Key
  | plain (b : UInt8) (h : b ≠ shellkeySub ∧ b ≠ shellkeyEsc)
  | extended (k : Nat) (h : shellkeyMin ≤ k ∧ k < 2 ^ 16)

/-- What `read_char` should return for it. -/
def Key.value : Key → Int
  | .plain b _ => b.toNat
  | .extended k _ => k

/-- What the terminal writes for it, an extended key with `write_shellkey_to_shell`. -/
def Key.bytes : Key → List UInt8
  | .plain b _ => [b]
  | .extended k _ => [shellkeySub, UInt8.ofNat (k &&& 0xFF), UInt8.ofNat (k >>> 8 &&& 0xFF)]

/-- The answer to the query for the cursor. -/
def cursorAnswer (x y : Int) : List UInt8 := vt100 (decimal y ++ [ascii ';'] ++ decimal x) 'R'

/-- The answer to the query for the dimension. -/
def dimensionAnswer (width height : Int) : List UInt8 :=
  term (decimal width ++ [ascii ';'] ++ decimal height) 'i'

/-! ## Runs -/

/-- The shell's buffer and its standard input, with what was typed and returned, and what was reported
and answered. -/
structure ShellInput where
  buffer : List Int
  stdin : Stdin
  typed : List Int
  returned : List Int
  reported : List (Int × Int)
  answered : List (Int × Int)

/-- A key is typed, the terminal goes away, a query with its answer, or a call of `read_char`. -/
inductive ShellInputStep
  | key (k : Key)
  | close
  | cursor (x y : Int)
  | dimension (width height : Int)
  | readChar

namespace ShellInput

/-- Nothing has come in. -/
def initial : ShellInput := ⟨[], ⟨[], false⟩, [], [], [], []⟩

/-- The terminal's answer comes in behind what is there. -/
def withAnswer (stdin : Stdin) (answer : List UInt8) : Stdin :=
  if stdin.ended then stdin else { stdin with bytes := stdin.bytes ++ answer }

/-- The end of a query. -/
def answer (s : ShellInput) (reported : Int × Int) (r : (Int × Int) × List Int × Stdin) :
    ShellInput :=
  { s with buffer := r.2.1
           stdin := r.2.2
           reported := s.reported ++ [reported]
           answered := s.answered ++ [r.1] }

/-- One step. A `read_char` that returns −1 has met the end of the input. -/
def step (s : ShellInput) : ShellInputStep → Option ShellInput
  | .key k =>
    if s.stdin.ended then none
    else some { s with stdin := { s.stdin with bytes := s.stdin.bytes ++ k.bytes }
                       typed := s.typed ++ [k.value] }
  | .close => some { s with stdin := { s.stdin with ended := true } }
  | .cursor x y =>
    (shellCursor s.buffer (withAnswer s.stdin (cursorAnswer x y))).map (s.answer (x, y))
  | .dimension width height =>
    (shellDimension s.buffer (withAnswer s.stdin (dimensionAnswer width height))).map
      (s.answer (width, height))
  | .readChar =>
    (TerminalApp.readChar s.buffer s.stdin).map fun (c, buffer, stdin) =>
      { s with buffer, stdin, returned := if c = -1 then s.returned else s.returned ++ [c] }

/-- A query is answered, with values that are not negative, while at most `m_buffer_len` keys are typed
and not yet returned. -/
def Answerable (s : ShellInput) : ShellInputStep → Prop
  | .cursor x y => s.stdin.ended = false ∧ s.typed.length ≤ s.returned.length + bufferLen ∧
      Natural x ∧ Natural y
  | .dimension width height => s.stdin.ended = false ∧
      s.typed.length ≤ s.returned.length + bufferLen ∧ Natural width ∧
      Natural height
  | _ => True

instance (n : Int) : Decidable (Natural n) :=
  inferInstanceAs (Decidable (0 ≤ n ∧ n < 2 ^ 31))

instance (s : ShellInput) : (a : ShellInputStep) → Decidable (s.Answerable a)
  | .cursor x y => inferInstanceAs (Decidable (s.stdin.ended = false ∧
      s.typed.length ≤ s.returned.length + bufferLen ∧ Natural x ∧ Natural y))
  | .dimension width height => inferInstanceAs (Decidable (s.stdin.ended = false ∧
      s.typed.length ≤ s.returned.length + bufferLen ∧ Natural width ∧
      Natural height))
  | .key _ | .close | .readChar => inferInstanceAs (Decidable True)

end ShellInput

/-- The shell and the terminal. -/
def shellInputSystem : System ShellInput ShellInputStep where
  init s := s = ShellInput.initial
  step := ShellInput.step

/-! ## Reading keys -/

theorem readUnbuffered_plain {b : UInt8} (hb : b ≠ shellkeySub) (rest : List UInt8) (ended : Bool) :
    readUnbuffered ⟨b :: rest, ended⟩ = some ((b.toNat : Int), ⟨rest, ended⟩) := by
  have hne : (b.toNat : Int) ≠ shellkeySub.toNat := by
    intro heq
    exact hb (UInt8.toNat_inj.mp (by omega))
  rw [readUnbuffered, getc, bind_some]
  simp [hne]

theorem readUnbuffered_key (k : Key) (rest : List UInt8) (ended : Bool) :
    readUnbuffered ⟨k.bytes ++ rest, ended⟩ = some (k.value, ⟨rest, ended⟩) := by
  cases k with
  | plain b h => exact readUnbuffered_plain h.1 rest ended
  | extended k h =>
    have hlow : (UInt8.ofNat (k &&& 0xFF)).toNat = k % 256 := by
      rw [show 0xFF = 2 ^ 8 - 1 by rfl, Nat.and_two_pow_sub_one_eq_mod, UInt8.toNat_ofNat']
      omega
    have hhigh : (UInt8.ofNat (k >>> 8 &&& 0xFF)).toNat = k / 256 := by
      rw [show 0xFF = 2 ^ 8 - 1 by rfl, Nat.and_two_pow_sub_one_eq_mod, UInt8.toNat_ofNat',
        Nat.shiftRight_eq_div_pow]
      omega
    have hvalue : (k / 256) <<< 8 ||| k % 256 = k := by
      rw [← Nat.shiftLeft_add_eq_or_of_lt (by omega), Nat.shiftLeft_eq]
      omega
    show readUnbuffered ⟨shellkeySub :: _ :: _ :: rest, ended⟩ = _
    rw [readUnbuffered, getc, bind_some]
    simp only [if_true, getc, bind_some, hlow, hhigh]
    rw [if_neg (by omega), if_neg (by omega), Int.toNat_natCast, Int.toNat_natCast, hvalue]
    rfl

theorem Key.value_ne (k : Key) : k.value ≠ shellkeyEsc.toNat ∧ k.value ≠ -1 := by
  cases k with
  | plain b h =>
    refine ⟨fun heq => h.2 (UInt8.toNat_inj.mp ?_), ?_⟩
    · simp only [Key.value] at heq
      omega
    · simp only [Key.value]
      omega
  | extended k h =>
    have hesc : shellkeyEsc.toNat = 27 := rfl
    simp only [shellkeyMin] at h
    simp only [Key.value]
    omega

theorem readBufferedUntilEsc_keys {keys : List Key} {buffer : List Int} {turns : Nat}
    (hroom : buffer.length + keys.length ≤ bufferLen) (hturns : keys.length < turns)
    (rest : List UInt8) (ended : Bool) :
    readBufferedUntilEsc turns buffer ⟨keys.flatMap Key.bytes ++ shellkeyEsc :: rest, ended⟩ =
      some (buffer ++ keys.map Key.value, ⟨rest, ended⟩) := by
  induction keys generalizing buffer turns with
  | nil =>
    obtain ⟨turns, rfl⟩ : ∃ n, turns = n + 1 := ⟨turns - 1, by omega⟩
    rw [List.flatMap_nil, List.nil_append, readBufferedUntilEsc,
      readUnbuffered_plain (by decide), bind_some]
    simp
  | cons k keys ih =>
    obtain ⟨turns, rfl⟩ : ∃ n, turns = n + 1 := ⟨turns - 1, by omega⟩
    rw [List.length_cons] at hroom hturns
    rw [List.flatMap_cons, List.append_assoc, readBufferedUntilEsc, readUnbuffered_key,
      bind_some]
    simp only [k.value_ne.1, if_false]
    rw [bufferChar, if_pos (by omega), ih (by simp; omega) (by omega), List.map_cons,
      List.append_assoc, List.singleton_append]

theorem readBufferedUntilEsc_ended (turns : Nat) (buffer : List Int) :
    readBufferedUntilEsc turns buffer ⟨[], true⟩ = none := by
  induction turns generalizing buffer with
  | zero => rfl
  | succ turns ih => exact ih (bufferChar buffer (-1))

theorem isDigit_iff (b : UInt8) : isDigit b = true ↔ (48 : Int) ≤ b.toNat ∧ (b.toNat : Int) ≤ 57 := by
  have hzero : (ascii '0').toNat = 48 := rfl
  have hnine : (ascii '9').toNat = 57 := rfl
  rw [isDigit, Bool.and_eq_true, decide_eq_true_eq, decide_eq_true_eq, UInt8.le_iff_toNat_le,
    UInt8.le_iff_toNat_le, hzero, hnine]
  omega

theorem readEscapedParameters_body {body : List UInt8} {p p' : Parameters} {turns : Nat}
    (hbody : ∀ b ∈ body, isParameterByte b = true) (hread : p.read body = some p')
    {control : UInt8} (hcontrol : isParameterByte control = false) (hsub : control ≠ shellkeySub)
    (hturns : body.length < turns) (rest : List UInt8) (ended : Bool) :
    readEscapedParameters turns p ⟨body ++ control :: rest, ended⟩ =
      some ((control.toNat : Int), p', ⟨rest, ended⟩) := by
  induction body generalizing p turns with
  | nil =>
    obtain ⟨turns, rfl⟩ : ∃ n, turns = n + 1 := ⟨turns - 1, by omega⟩
    cases hread
    rw [isParameterByte, Bool.or_eq_false_iff] at hcontrol
    have hdigit : ¬ ((48 : Int) ≤ control.toNat ∧ (control.toNat : Int) ≤ 57) := fun h => by
      rw [(isDigit_iff control).mpr h] at hcontrol
      cases hcontrol.1
    have hsemicolon : (control.toNat : Int) ≠ (ascii ';').toNat := by
      intro heq
      have : control = ascii ';' := UInt8.toNat_inj.mp (by omega)
      simp [this] at hcontrol
    rw [List.nil_append, readEscapedParameters, readUnbuffered_plain hsub, bind_some]
    simp only [hdigit, hsemicolon, if_false]
  | cons b body ih =>
    obtain ⟨turns, rfl⟩ : ∃ n, turns = n + 1 := ⟨turns - 1, by omega⟩
    rw [List.length_cons] at hturns
    have hb := hbody b List.mem_cons_self
    have hplain : b ≠ shellkeySub := by
      rintro rfl
      cases hb
    rw [Parameters.read, List.foldlM_cons, Parameters.byte] at hread
    rw [List.cons_append, readEscapedParameters, readUnbuffered_plain hplain, bind_some]
    by_cases hdigit : isDigit b = true
    · rw [if_pos hdigit] at hread
      obtain ⟨q, hq, hread⟩ := Option.bind_eq_some_iff.mp hread
      have htoNat : ((b.toNat : Int) - 48).toNat = b.toNat - 48 := by omega
      simp only [(isDigit_iff b).mp hdigit, and_self, if_true, htoNat, hq, bind_some]
      exact ih (fun b hb => hbody b (List.mem_cons_of_mem _ hb)) hread (by omega)
    · have hsemicolon : b = ascii ';' := by
        rw [isParameterByte, Bool.or_eq_true] at hb
        simpa [hdigit] using hb
      subst hsemicolon
      exact ih (fun b hb => hbody b (List.mem_cons_of_mem _ hb)) hread (by omega)

theorem length_le_bytes (keys : List Key) : keys.length ≤ (keys.flatMap Key.bytes).length := by
  induction keys with
  | nil => exact Nat.le_refl _
  | cons k keys ih =>
    have hk : 1 ≤ k.bytes.length := by
      cases k <;> simp [Key.bytes]
    rw [List.flatMap_cons, List.length_append, List.length_cons]
    omega

/-- A query behind which its answer comes in: the keys in front go to the buffer. -/
theorem readAnswer_spec (keys : List Key) (buffer : List Int) (second control : UInt8)
    (result : Parameters → Int × Int) {n m : Int} (hn : Natural n) (hm : Natural m)
    (hroom : buffer.length + keys.length ≤ bufferLen) (hsecond : second ≠ shellkeySub)
    (hcontrol : isParameterByte control = false) (hsub : control ≠ shellkeySub) (ended : Bool) :
    readAnswer second control result buffer
        ⟨keys.flatMap Key.bytes ++
          (shellkeyEsc :: second :: ((decimal n ++ [ascii ';'] ++ decimal m) ++ [control])), ended⟩ =
      some (result ⟨2, Function.update (Function.update (fun _ => 0) 0 n) 1 m⟩,
        buffer ++ keys.map Key.value, ⟨[], ended⟩) := by
  have hkeys := length_le_bytes keys
  rw [readAnswer, readBufferedUntilEsc_keys hroom (by simp only [Stdin.turns, List.length_append]; omega),
    bind_some]
  simp only [readUnbuffered_plain hsecond, bind_some, if_true]
  rw [readEscapedParameters_body (isParameterByte_of_mem_two hn hm) (read_two hn hm) hcontrol hsub
    (by simp only [Stdin.turns, List.length_append, List.length_cons]; omega), bind_some]
  simp

/-! ## No key gets lost -/

namespace ShellInput

/-- The keys typed are those returned, buffered and unread, and each query returned what the
terminal reported. -/
structure Kept (s : ShellInput) (keys : List Key) : Prop where
  stdin : s.stdin.bytes = keys.flatMap Key.bytes
  typed : s.typed = s.returned ++ s.buffer ++ keys.map Key.value
  buffer : -1 ∉ s.buffer
  answered : s.answered = s.reported

variable {s s' : ShellInput} {keys : List Key}

section

variable (h : s.Kept keys)
include h

theorem Kept.query (reported : Int × Int) :
    (s.answer reported (reported, s.buffer ++ keys.map Key.value, ⟨[], false⟩)).Kept [] where
  stdin := rfl
  typed := by
    show s.typed = s.returned ++ (s.buffer ++ keys.map Key.value) ++ []
    rw [h.typed, List.append_nil, List.append_assoc]
  buffer := by
    intro hmem
    rcases List.mem_append.mp hmem with hmem | hmem
    · exact h.buffer hmem
    · obtain ⟨k, -, hk⟩ := List.mem_map.mp hmem
      exact k.value_ne.2 hk
  answered := by
    show s.answered ++ [reported] = s.reported ++ [reported]
    rw [h.answered]

theorem Kept.room (hfew : s.typed.length ≤ s.returned.length + bufferLen) :
    s.buffer.length + keys.length ≤ bufferLen := by
  rw [h.typed] at hfew
  simp only [List.length_append, List.length_map] at hfew
  omega

theorem Kept.cursor {x y : Int} (hok : s.Answerable (.cursor x y)) :
    s.step (.cursor x y) =
      some (s.answer (x, y) ((x, y), s.buffer ++ keys.map Key.value, ⟨[], false⟩)) := by
  obtain ⟨hended, hfew, hx, hy⟩ := hok
  have hanswer := readAnswer_spec keys s.buffer
    (ascii '[') (ascii 'R') (fun p => (p.values 1, p.values 0)) hy hx (h.room hfew) (by decide) rfl
    (by decide) false
  have hstdin : withAnswer s.stdin (cursorAnswer x y) = ⟨keys.flatMap Key.bytes ++
      (shellkeyEsc :: ascii '[' :: ((decimal y ++ [ascii ';'] ++ decimal x) ++ [ascii 'R'])),
      false⟩ := by
    rw [withAnswer, hended, if_neg (by simp), h.stdin]
    rfl
  rw [step, shellCursor, hstdin, hanswer]
  rfl

theorem Kept.dimension {width height : Int} (hok : s.Answerable (.dimension width height)) :
    s.step (.dimension width height) = some (s.answer (width, height)
      ((width, height), s.buffer ++ keys.map Key.value, ⟨[], false⟩)) := by
  obtain ⟨hended, hfew, hwidth, hheight⟩ := hok
  have hanswer := readAnswer_spec keys s.buffer (UInt8.ofNat 123) (ascii 'i')
    (fun p => (p.values 0, p.values 1)) hwidth hheight (h.room hfew)
    (by decide) rfl (by decide) false
  have hstdin : withAnswer s.stdin (dimensionAnswer width height) = ⟨keys.flatMap Key.bytes ++
      (shellkeyEsc :: UInt8.ofNat 123 ::
        ((decimal width ++ [ascii ';'] ++ decimal height) ++ [ascii 'i'])), false⟩ := by
    rw [withAnswer, hended, if_neg (by simp), h.stdin]
    rfl
  rw [step, shellDimension, hstdin, hanswer]
  rfl

theorem Kept.readChar_next (hmore : s.typed ≠ s.returned) :
    ∃ s' c rest, s.typed = s.returned ++ c :: rest ∧ s.step .readChar = some s' ∧
      s'.returned = s.returned ++ [c] ∧ s'.typed = s.typed ∧ ∃ keys', s'.Kept keys' := by
  have htyped := h.typed
  have hbuffered := h.buffer
  have hstdin : s.stdin = ⟨keys.flatMap Key.bytes, s.stdin.ended⟩ := by rw [← h.stdin]
  cases hbuffer : s.buffer with
  | cons c buffer =>
    rw [hbuffer] at htyped hbuffered
    have hc : c ≠ -1 := fun heq => hbuffered (heq ▸ List.mem_cons_self)
    refine ⟨{ s with buffer, returned := s.returned ++ [c] }, c, buffer ++ keys.map Key.value,
      by rw [htyped]; simp, ?_, rfl, rfl, keys, h.stdin, ?_,
      fun hmem => hbuffered (List.mem_cons_of_mem _ hmem), h.answered⟩
    · simp [step, hbuffer, TerminalApp.readChar, hc]
    · show s.typed = s.returned ++ [c] ++ buffer ++ keys.map Key.value
      rw [htyped]
      simp
  | nil =>
    rw [hbuffer, List.append_nil] at htyped
    cases keys with
    | nil => exact absurd (htyped.trans (List.append_nil _)) hmore
    | cons k keys =>
      have hread : TerminalApp.readChar s.buffer s.stdin =
          some (k.value, [], ⟨keys.flatMap Key.bytes, s.stdin.ended⟩) := by
        rw [hbuffer, hstdin, TerminalApp.readChar, List.flatMap_cons, readUnbuffered_key,
          map_some]
      refine ⟨{ s with
          buffer := []
          stdin := ⟨keys.flatMap Key.bytes, s.stdin.ended⟩
          returned := s.returned ++ [k.value] }, k.value, keys.map Key.value, htyped, ?_, rfl, rfl,
        keys, rfl, ?_, List.not_mem_nil, h.answered⟩
      · simp [step, hread, k.value_ne.2]
      · show s.typed = s.returned ++ [k.value] ++ [] ++ keys.map Key.value
        rw [htyped]
        simp

theorem Kept.readChar_end (hall : s.typed = s.returned) (hstep : s.step .readChar = some s') :
    s' = s := by
  have htyped := h.typed
  rw [hall, List.append_assoc, List.self_eq_append_right, List.append_eq_nil_iff,
    List.map_eq_nil_iff] at htyped
  obtain ⟨hbuffer, rfl⟩ := htyped
  have hstdin : s.stdin = ⟨[], s.stdin.ended⟩ := by
    rw [← List.flatMap_nil, ← h.stdin]
  cases hended : s.stdin.ended with
  | false =>
    rw [hended] at hstdin
    simp [step, hbuffer, hstdin, TerminalApp.readChar, readUnbuffered, getc] at hstep
  | true =>
    rw [hended] at hstdin
    simp only [step, hbuffer, hstdin, TerminalApp.readChar, readUnbuffered, getc,
      bind_some] at hstep
    rw [if_neg (by decide), map_some, map_some, if_pos rfl] at hstep
    rw [← Option.some.inj hstep, ← hbuffer, ← hstdin]

theorem Kept.step {a : ShellInputStep} (hok : s.Answerable a) (hstep : s.step a = some s') :
    ∃ keys', s'.Kept keys' := by
  cases a with
  | key k =>
    simp only [ShellInput.step] at hstep
    split at hstep
    · cases hstep
    · cases hstep
      refine ⟨keys ++ [k], ?_, ?_, h.buffer, h.answered⟩
      · show s.stdin.bytes ++ k.bytes = _
        rw [h.stdin, List.flatMap_append, List.flatMap_singleton]
      · show s.typed ++ [k.value] = s.returned ++ s.buffer ++ _
        rw [h.typed, List.map_append, List.append_assoc]
        rfl
  | close =>
    cases hstep
    exact ⟨keys, h.stdin, h.typed, h.buffer, h.answered⟩
  | cursor x y =>
    cases (h.cursor hok).symm.trans hstep
    exact ⟨[], h.query (x, y)⟩
  | dimension width height =>
    cases (h.dimension hok).symm.trans hstep
    exact ⟨[], h.query (width, height)⟩
  | readChar =>
    by_cases hall : s.typed = s.returned
    · rw [h.readChar_end hall hstep]
      exact ⟨keys, h⟩
    · obtain ⟨s1, -, -, -, hstep', -, -, hkept⟩ := h.readChar_next hall
      cases hstep'.symm.trans hstep
      exact hkept

end

end ShellInput

/-- In every run whose queries are answered while at most 64 keys are waiting, each returns what the
terminal reported, the keys returned are the first of those typed, and `read_char` returns the next one
while there is one. -/
theorem keys_kept_over_queries (s : ShellInput)
    (hs : shellInputSystem.Reachable ShellInput.Answerable s) :
    s.answered = s.reported ∧ s.returned <+: s.typed ∧
      (∀ x y, s.Answerable (.cursor x y) → ∃ s', s.step (.cursor x y) = some s') ∧
      (∀ width height, s.Answerable (.dimension width height) →
        ∃ s', s.step (.dimension width height) = some s') ∧
      (s.typed ≠ s.returned → ∃ s' c rest, s.typed = s.returned ++ c :: rest ∧
        s.step .readChar = some s' ∧ s'.returned = s.returned ++ [c]) := by
  have hkept : ∃ keys, s.Kept keys := by
    refine System.Reachable.invariant (I := fun s => ∃ keys, s.Kept keys) ?_ ?_ hs
    · rintro s rfl
      exact ⟨[], rfl, rfl, List.not_mem_nil, rfl⟩
    · rintro s a s' ⟨keys, h⟩ hok hstep
      exact h.step hok hstep
  obtain ⟨keys, h⟩ := hkept
  refine ⟨h.answered, ?_, fun x y hok => ⟨_, h.cursor hok⟩,
    fun width height hok => ⟨_, h.dimension hok⟩, fun hmore => ?_⟩
  · rw [h.typed, List.append_assoc]
    exact List.prefix_append _ _
  · obtain ⟨s', c, rest, htyped, hstep, hreturned, -⟩ := h.readChar_next hmore
    exact ⟨s', c, rest, htyped, hstep, hreturned⟩

theorem keys_kept_over_queries_three :
    ∃ s, shellInputSystem.Reachable ShellInput.Answerable s ∧
      s.returned = [97] ∧ s.typed = [97, 0x157, 98] ∧ s.answered = [(3, 12), (80, 25), (0, 0)] ∧
      s.answered = s.reported ∧
      ∃ s' c rest, s.typed = s.returned ++ c :: rest ∧ s.step .readChar = some s' ∧
        s'.returned = s.returned ++ [c] := by
  obtain ⟨s, hs, hreturned, htyped, hanswered⟩ :
      ∃ s ∈ shellInputSystem.runGuarded ShellInput.Answerable ShellInput.initial
          [.key (.plain 97 (by decide)), .key (.extended 0x157 (by decide)), .cursor 3 12,
            .dimension 80 25, .readChar, .key (.plain 98 (by decide)), .cursor 0 0],
        s.returned = [97] ∧ s.typed = [97, 0x157, 98] ∧ s.answered = [(3, 12), (80, 25), (0, 0)] := by
    decide +kernel
  have hreach := System.Reachable.of_runGuarded (.init rfl) hs
  obtain ⟨hreported, -, -, -, hnext⟩ := keys_kept_over_queries s hreach
  refine ⟨s, hreach, hreturned, htyped, hanswered, hreported, hnext ?_⟩
  rw [hreturned, htyped]
  decide

/-- With 65 keys waiting at a query the last of them is lost; and when the input has ended a query goes
on for ever. -/
theorem query_loses_key :
    (∃ s, shellInputSystem.Reachable (fun _ _ => True) s ∧ s.typed.length = 65 ∧
      s.returned.length = 64 ∧ s.stdin.ended = false ∧ s.step .readChar = none) ∧
    ∀ turns, readBufferedUntilEsc turns [] ⟨[], true⟩ = none := by
  refine ⟨?_, fun turns => readBufferedUntilEsc_ended turns []⟩
  obtain ⟨s, hs, hfacts⟩ : ∃ s ∈ shellInputSystem.run ShellInput.initial
      (List.flatten (α := ShellInputStep) [List.replicate 65 (.key (.plain 97 (by decide))),
        [.cursor 3 4], List.replicate 64 .readChar]),
      s.typed.length = 65 ∧ s.returned.length = 64 ∧ s.stdin.ended = false ∧
        (s.step .readChar).isNone = true := by
    decide +kernel
  rw [Option.isNone_iff_eq_none] at hfacts
  exact ⟨s, System.reachable_of_run rfl hs, hfacts⟩

end MeetixOS.TerminalApp
