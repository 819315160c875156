import MeetixOS.LibIO.Shell

/-! # The terminal's side of the control stream

`Terminal::process_output_character` with the two families of control sequences. The screen is a
parameter: what it does with a call, and the positions and sizes it answers with. `performed` records
the calls that were made to it, and `shellIn` is what was written to the shell's standard input.

`none` is an access to `m_parameters` outside of the array. -/

open Function (update)
open Option (bind_some isSome_iff_exists)

namespace MeetixOS.TerminalApp

open Kernel (s32)
open LibIO

/-! ## The source -/

/-- The calls of `Screen` that the stream can lead to. -/
inductive ScreenCall
  | clean
  | writeChar (c : UInt8)
  | moveCursor (x y : Int)
  | setScrollAreaScreen
  | setScrollArea (start stop : Int)
  | scroll (value : Int)
  | setCursorVisible (visible : Bool)
  deriving DecidableEq

/-- A `Screen`: what a call does under a foreground and a background colour, and what it answers. -/
structure Screen (σ : Type) where
  perform : σ → Int → Int → ScreenCall → σ
  cursorX : σ → Int
  cursorY : σ → Int
  width : σ → Int
  height : σ → Int

inductive TerminalStreamStatus
  | text
  | lastWasEsc
  | withinVT100
  | withinTerm
  deriving DecidableEq

structure StreamControlStatus where
  streamStatus : TerminalStreamStatus
  parameters : Parameters
  controlCharacter : UInt8

/-- The part of `Terminal`, and of the base of its screen, that the stream works on. -/
structure Terminal (σ : Type) where
  screen : σ
  colorForeground : Int
  colorBackground : Int
  shellInputMode : Int
  doEcho : Bool
  currentProcId : Int
  shellIn : List UInt8
  performed : List ScreenCall

def scBlack : Int := 0

def scRed : Int := 4

def scWhite : Int := 15

def convertVt100ToScreenColor (color : Int) : Int :=
  match color with
  | 0 => scBlack
  | 1 => scRed
  | 2 => 2
  | 3 => 14
  | 4 => 1
  | 5 => 5
  | 6 => 3
  | 7 => scWhite
  | 8 => 10
  | _ => scWhite

variable {σ : Type} (screen : Screen σ)

namespace Terminal

/-- A call of the screen. -/
def call (t : Terminal σ) (c : ScreenCall) : Terminal σ :=
  { t with screen := screen.perform t.screen t.colorForeground t.colorBackground c
           performed := t.performed ++ [c] }

/-- `m_screen->cursor_x()`. -/
def cursorX (t : Terminal σ) : Int := screen.cursorX t.screen

/-- `m_screen->cursor_y()`. -/
def cursorY (t : Terminal σ) : Int := screen.cursorY t.screen

def writeStringToShell (t : Terminal σ) (line : List UInt8) : Terminal σ :=
  { t with shellIn := t.shellIn ++ line }

/-- One parameter of the mode setting. -/
def setColor (t : Terminal σ) (param : Int) : Terminal σ :=
  if param = 0 then { t with colorBackground := scBlack, colorForeground := scWhite }
  else if param ≥ 30 ∧ param < 40 then
    { t with colorForeground := convertVt100ToScreenColor (param - 30) }
  else if param ≥ 40 ∧ param < 50 then
    { t with colorBackground := convertVt100ToScreenColor (param - 40) }
  else t

/-- The loop of the mode setting over the first `count` of the parameters. -/
def setColors (t : Terminal σ) (count : Int) : List Int → Option (Terminal σ)
  | [] => if 0 < count then none else some t
  | param :: rest => if 0 < count then setColors (t.setColor param) (count - 1) rest else some t

def processVt100Sequence (t : Terminal σ) (status : StreamControlStatus) : Option (Terminal σ) :=
  let c := status.controlCharacter
  let params := status.parameters.values
  if c = ascii 'A' then
    some (t.call screen (.moveCursor (t.cursorX screen) (s32 (t.cursorY screen - params 0))))
  else if c = ascii 'B' then
    some (t.call screen (.moveCursor (t.cursorX screen) (s32 (t.cursorY screen + params 0))))
  else if c = ascii 'C' then
    some (t.call screen (.moveCursor (s32 (t.cursorX screen + params 0)) (t.cursorY screen)))
  else if c = ascii 'D' then
    some (t.call screen (.moveCursor (s32 (t.cursorX screen - params 0)) (t.cursorY screen)))
  else if c = ascii 'm' then t.setColors status.parameters.count (List.ofFn params)
  else if c = ascii 'f' then some (t.call screen (.moveCursor (params 1) (params 0)))
  else if c = ascii 'n' then
    if params 0 = 6 then
      some (t.writeStringToShell
        (vt100 (decimal (t.cursorY screen) ++ [ascii ';'] ++ decimal (t.cursorX screen)) 'R'))
    else some t
  else if c = ascii 'r' then
    if status.parameters.count = 0 then some (t.call screen .setScrollAreaScreen)
    else some (t.call screen (.setScrollArea (params 0) (params 1)))
  else if c = ascii 'S' then some (t.call screen (.scroll (params 0)))
  else if c = ascii 'T' then some (t.call screen (.scroll (s32 (-params 0))))
  else if c = ascii 'H' then some (t.call screen .clean)
  else some t

/-- The low byte of an `int`. -/
def toChar (n : Int) : UInt8 := UInt8.ofNat (n % 256).toNat

def processTermSequence (t : Terminal σ) (status : StreamControlStatus) : Terminal σ :=
  let c := status.controlCharacter
  let params := status.parameters.values
  if c = ascii 'm' then { t with shellInputMode := params 0 }
  else if c = ascii 'e' then { t with doEcho := decide (params 0 = 1) }
  else if c = ascii 'i' then
    t.writeStringToShell (term
      (decimal (screen.width t.screen) ++ [ascii ';'] ++ decimal (screen.height t.screen)) 'i')
  else if c = ascii 'p' then t.call screen (.writeChar (toChar (params 0)))
  else if c = ascii 'c' then { t with currentProcId := params 0 }
  else t

/-- The textual output of a byte other than ESC. -/
def print (isErrStream : Bool) (t : Terminal σ) (c : UInt8) : Terminal σ :=
  if c = ascii '\r' then t
  else if c = ascii '\t' then
    let blank := ScreenCall.writeChar (ascii ' ')
    (((t.call screen blank).call screen blank).call screen blank).call screen blank
  else
    let t' := if isErrStream then { t with colorForeground := scRed } else t
    let t' := t'.call screen (.writeChar c)
    if isErrStream then { t' with colorForeground := t.colorForeground } else t'

def processOutputCharacter (isErrStream : Bool) (s : Terminal σ × StreamControlStatus) (c : UInt8) :
    Option (Terminal σ × StreamControlStatus) :=
  let (t, status) := s
  match status.streamStatus with
  | .text =>
    if c = shellkeyEsc then some (t, { status with streamStatus := .lastWasEsc })
    else some (t.print screen isErrStream c, status)
  | .lastWasEsc =>
    if c = ascii '[' then some (t, { status with streamStatus := .withinVT100 })
    else if c = UInt8.ofNat 123 then some (t, { status with streamStatus := .withinTerm })
    else some (t, { status with streamStatus := .text })
  | within =>
    if isParameterByte c then
      (status.parameters.byte c).map fun parameters => (t, { status with parameters })
    else
      let status := { status with controlCharacter := c }
      let processed :=
        if within = .withinVT100 then t.processVt100Sequence screen status
        else some (t.processTermSequence screen status)
      processed.map fun t => (t, { status with streamStatus := .text, parameters := .empty })

end Terminal

/-- A stream, byte after byte. -/
def feed (isErrStream : Bool) (s : Terminal σ × StreamControlStatus) (bytes : List UInt8) :
    Option (Terminal σ × StreamControlStatus) :=
  bytes.foldlM (Terminal.processOutputCharacter screen isErrStream) s

/-- Outside of a sequence, with the parameters cleared. -/
def StreamControlStatus.ready (controlCharacter : UInt8) : StreamControlStatus :=
  ⟨.text, .empty, controlCharacter⟩

/-! ## Sequences as a whole -/

variable {isErrStream : Bool} {t : Terminal σ} {status : StreamControlStatus}

theorem feed_cons (s : Terminal σ × StreamControlStatus) (c : UInt8) (bytes : List UInt8) :
    feed screen isErrStream s (c :: bytes) =
      (Terminal.processOutputCharacter screen isErrStream s c).bind fun s =>
        feed screen isErrStream s bytes := by
  rfl

theorem feed_append (s : Terminal σ × StreamControlStatus) (a b : List UInt8) :
    feed screen isErrStream s (a ++ b) =
      (feed screen isErrStream s a).bind fun s => feed screen isErrStream s b := by
  simp only [feed, List.foldlM_append]
  rfl

/-- The status within a family. -/
def within (vt : Bool) (parameters : Parameters) (controlCharacter : UInt8) : StreamControlStatus :=
  ⟨if vt then .withinVT100 else .withinTerm, parameters, controlCharacter⟩

/-- What is processed at the end of a sequence. -/
def processed (vt : Bool) (t : Terminal σ) (parameters : Parameters) (control : UInt8) :
    Option (Terminal σ) :=
  if vt then t.processVt100Sequence screen ⟨.withinVT100, parameters, control⟩
  else some (t.processTermSequence screen ⟨.withinTerm, parameters, control⟩)

/-- The second byte of a sequence. -/
def family (vt : Bool) : UInt8 := if vt then ascii '[' else UInt8.ofNat 123

theorem feed_family (vt : Bool) (last : UInt8) (bytes : List UInt8) :
    feed screen isErrStream (t, .ready last) (shellkeyEsc :: family vt :: bytes) =
      feed screen isErrStream (t, within vt .empty last) bytes := by
  have hesc : Terminal.processOutputCharacter screen isErrStream (t, .ready last) shellkeyEsc =
      some (t, ⟨.lastWasEsc, .empty, last⟩) := rfl
  have hfamily : Terminal.processOutputCharacter screen isErrStream (t, ⟨.lastWasEsc, .empty, last⟩)
      (family vt) = some (t, within vt .empty last) := by
    cases vt <;> rfl
  rw [feed_cons, hesc, bind_some, feed_cons, hfamily, bind_some]

variable {body : List UInt8} {n : Int} {c : UInt8}

theorem feed_body (vt : Bool) (last : UInt8) (parameters : Parameters)
    (hbody : ∀ b ∈ body, isParameterByte b = true) :
    feed screen isErrStream (t, within vt parameters last) body =
      (parameters.read body).map fun parameters => (t, within vt parameters last) := by
  induction body generalizing parameters with
  | nil => rfl
  | cons b body ih =>
    have hb := hbody b List.mem_cons_self
    have hbyte : Terminal.processOutputCharacter screen isErrStream (t, within vt parameters last) b =
        (parameters.byte b).map fun parameters => (t, within vt parameters last) := by
      cases vt <;> simp [Terminal.processOutputCharacter, within, hb]
    rw [feed_cons, hbyte, Parameters.read, List.foldlM_cons]
    cases parameters.byte b with
    | none => rfl
    | some parameters =>
      exact ih parameters fun b hb => hbody b (List.mem_cons_of_mem _ hb)

theorem feed_control (vt : Bool) (last control : UInt8) (parameters : Parameters)
    (hcontrol : isParameterByte control = false) (rest : List UInt8) :
    feed screen isErrStream (t, within vt parameters last) (control :: rest) =
      (processed screen vt t parameters control).bind fun t =>
        feed screen isErrStream (t, .ready control) rest := by
  have hbyte : Terminal.processOutputCharacter screen isErrStream (t, within vt parameters last)
      control = (processed screen vt t parameters control).map fun t => (t, .ready control) := by
    cases vt <;>
      simp [Terminal.processOutputCharacter, within, hcontrol, processed, StreamControlStatus.ready]
  rw [feed_cons, hbyte]
  cases processed screen vt t parameters control <;> rfl

theorem feed_sequence (vt : Bool) (last control : UInt8) (body : List UInt8)
    (hbody : ∀ b ∈ body, isParameterByte b = true) (hcontrol : isParameterByte control = false)
    (rest : List UInt8) :
    feed screen isErrStream (t, .ready last) (shellkeyEsc :: family vt :: (body ++ control :: rest)) =
      (Parameters.empty.read body).bind fun parameters =>
        (processed screen vt t parameters control).bind fun t =>
          feed screen isErrStream (t, .ready control) rest := by
  rw [feed_family, feed_append, feed_body screen vt last .empty hbody]
  cases Parameters.empty.read body with
  | none => rfl
  | some parameters => exact feed_control screen vt last control parameters hcontrol rest

/-! ## The calls of the shell -/

/-- A call of the shell, or text that is written between them. -/
inductive ShellCall
  | text (bytes : List UInt8)
  | writeChar (c : Int)
  | moveCursorUp (n : Int)
  | moveCursorDown (n : Int)
  | moveCursorForward (n : Int)
  | moveCursorBack (n : Int)
  | clear
  | scroll (value : Int)
  | setEcho (doEcho : Bool)
  | setMode (mode : Mode)
  | setCursor (position : CursorPosition)
  | setControlProcess (pid : Int)
  | setScrollAreaToScreen
  | setScrollArea (start stop : Int)
  | setCursorVisible (visible : Bool)

namespace ShellCall

/-- What is written for it. -/
def bytes : ShellCall → List UInt8
  | .text bytes => bytes
  | .writeChar c => Shell.writeChar c
  | .moveCursorUp n => Shell.moveCursorUp n
  | .moveCursorDown n => Shell.moveCursorDown n
  | .moveCursorForward n => Shell.moveCursorForward n
  | .moveCursorBack n => Shell.moveCursorBack n
  | .clear => Shell.clear
  | .scroll value => Shell.scroll value
  | .setEcho doEcho => Shell.setEcho doEcho
  | .setMode mode => Shell.setMode mode
  | .setCursor position => Shell.setCursor position
  | .setControlProcess pid => Shell.setControlProcess pid
  | .setScrollAreaToScreen => Shell.setScrollAreaToScreen
  | .setScrollArea start stop => Shell.setScrollArea start stop
  | .setCursorVisible visible => Shell.setCursorVisible visible

/-- A natural number that an `int` can have. -/
def Natural (n : Int) : Prop := 0 ≤ n ∧ n < 2 ^ 31

/-- The text has no ESC, and the arguments are not negative. -/
def Plain : ShellCall → Prop
  | .text bytes => ∀ b ∈ bytes, b ≠ shellkeyEsc
  | .writeChar n => Natural n
  | .moveCursorUp n => Natural n
  | .moveCursorDown n => Natural n
  | .moveCursorForward n => Natural n
  | .moveCursorBack n => Natural n
  | .scroll n => Natural n
  | .setCursor position => Natural position.y ∧ Natural position.x
  | .setControlProcess pid => Natural pid
  | .setScrollArea start stop => Natural start ∧ Natural stop
  | _ => True

/-- What the call asks the terminal for. -/
def request (isErrStream : Bool) (t : Terminal σ) : ShellCall → Terminal σ
  | .text bytes => bytes.foldl (Terminal.print screen isErrStream) t
  | .writeChar c => t.call screen (.writeChar (Terminal.toChar c))
  | .moveCursorUp n =>
    t.call screen (.moveCursor (t.cursorX screen) (s32 (t.cursorY screen - n)))
  | .moveCursorDown n =>
    t.call screen (.moveCursor (t.cursorX screen) (s32 (t.cursorY screen + n)))
  | .moveCursorForward n =>
    t.call screen (.moveCursor (s32 (t.cursorX screen + n)) (t.cursorY screen))
  | .moveCursorBack n =>
    t.call screen (.moveCursor (s32 (t.cursorX screen - n)) (t.cursorY screen))
  | .clear => t.call screen .clean
  | .scroll value => t.call screen (.scroll value)
  | .setEcho doEcho => { t with doEcho }
  | .setMode mode => { t with shellInputMode := mode.toInt }
  | .setCursor position => t.call screen (.moveCursor position.x position.y)
  | .setControlProcess pid => { t with currentProcId := pid }
  | .setScrollAreaToScreen => t.call screen .setScrollAreaScreen
  | .setScrollArea start stop => t.call screen (.setScrollArea start stop)
  | .setCursorVisible visible => t.call screen (.setCursorVisible visible)

/-- The terminal knows a sequence for the call. -/
def Known : ShellCall → Prop
  | .clear => False
  | .setCursorVisible _ => False
  | _ => True

end ShellCall

theorem isParameterByte_of_mem_decimal (hn : ShellCall.Natural n) {b : UInt8}
    (hb : b ∈ decimal n) : isParameterByte b = true := by
  rw [decimal_of_nonneg hn.1] at hb
  rw [isParameterByte, isDigit_of_mem_decimalNat hb, Bool.true_or]

theorem isParameterByte_of_mem_two {m : Int} (hn : ShellCall.Natural n) (hm : ShellCall.Natural m) :
    ∀ b ∈ decimal n ++ [ascii ';'] ++ decimal m, isParameterByte b = true := by
  intro b hb
  simp only [List.mem_append, List.mem_singleton] at hb
  rcases hb with (hb | rfl) | hb
  · exact isParameterByte_of_mem_decimal hn hb
  · rfl
  · exact isParameterByte_of_mem_decimal hm hb

theorem read_decimal (hn : ShellCall.Natural n) :
    Parameters.empty.read (decimal n) = some ⟨1, update (fun _ => 0) 0 n⟩ := by
  have hread := Parameters.read_decimalNat (n := n.toNat) (p := .empty) (i := 0)
    (by have := hn.2; omega) rfl rfl
  rw [decimal_of_nonneg hn.1, hread]
  simp only [Int.toNat_of_nonneg hn.1]
  rfl

theorem read_two {n m : Int} (hn : ShellCall.Natural n) (hm : ShellCall.Natural m) :
    Parameters.empty.read (decimal n ++ [ascii ';'] ++ decimal m) =
      some ⟨2, update (update (fun _ => 0) 0 n) 1 m⟩ := by
  have hsemicolon : (⟨1, update (fun _ => 0) 0 n⟩ : Parameters).read [ascii ';'] =
      some ⟨2, update (fun _ => 0) 0 n⟩ := by
    have hone : s32 (1 + 1) = 2 := Kernel.s32_of_range (by decide) (by decide)
    show some (Parameters.separator _) = _
    rw [Parameters.separator, hone]
  have hread := Parameters.read_decimalNat (n := m.toNat)
    (p := ⟨2, update (fun _ => 0) 0 n⟩) (i := 1) (by have := hm.2; omega) rfl rfl
  rw [Parameters.read_append, Parameters.read_append, read_decimal hn, bind_some, hsemicolon,
    bind_some, decimal_of_nonneg hm.1, hread]
  simp only [Int.toNat_of_nonneg hm.1]
  rfl

theorem feed_number (vt : Bool) (last : UInt8) (hn : ShellCall.Natural n)
    (hcontrol : isParameterByte c = false) :
    feed screen isErrStream (t, .ready last) (shellkeyEsc :: family vt :: (decimal n ++ [c])) =
      (processed screen vt t ⟨1, update (fun _ => 0) 0 n⟩ c).map
        fun t => (t, .ready c) := by
  rw [feed_sequence screen vt last c _ (fun b hb => isParameterByte_of_mem_decimal hn hb) hcontrol,
    read_decimal hn, bind_some, Option.map_eq_bind]
  rfl

theorem feed_two (vt : Bool) (last : UInt8) {n m : Int} (hn : ShellCall.Natural n)
    (hm : ShellCall.Natural m) (hcontrol : isParameterByte c = false) :
    feed screen isErrStream (t, .ready last)
        (shellkeyEsc :: family vt :: ((decimal n ++ [ascii ';'] ++ decimal m) ++ [c])) =
      (processed screen vt t ⟨2, update (update (fun _ => 0) 0 n) 1 m⟩ c).map
        fun t => (t, .ready c) := by
  rw [feed_sequence screen vt last c _ (isParameterByte_of_mem_two hn hm) hcontrol, read_two hn hm,
    bind_some, Option.map_eq_bind]
  rfl

theorem feed_text_cons (hc : c ≠ shellkeyEsc) (last : UInt8) (rest : List UInt8) :
    feed screen isErrStream (t, .ready last) (c :: rest) =
      feed screen isErrStream (t.print screen isErrStream c, .ready last) rest := by
  have hbyte : Terminal.processOutputCharacter screen isErrStream (t, .ready last) c =
      some (t.print screen isErrStream c, .ready last) := by
    simp [Terminal.processOutputCharacter, StreamControlStatus.ready, hc]
  rw [feed_cons, hbyte, bind_some]

theorem feed_text (last : UInt8) {bytes : List UInt8} (hbytes : ∀ b ∈ bytes, b ≠ shellkeyEsc) :
    feed screen isErrStream (t, .ready last) bytes =
      some (bytes.foldl (Terminal.print screen isErrStream) t, .ready last) := by
  induction bytes generalizing t with
  | nil => rfl
  | cons b bytes ih =>
    rw [feed_text_cons screen (hbytes b List.mem_cons_self), List.foldl_cons]
    exact ih fun b hb => hbytes b (List.mem_cons_of_mem _ hb)

theorem feed_known {c : ShellCall} (hplain : c.Plain) (hknown : c.Known) (last : UInt8) :
    ∃ last', feed screen isErrStream (t, .ready last) c.bytes =
      some (c.request screen isErrStream t, .ready last') := by
  cases c with
  | text bytes => exact ⟨last, feed_text screen last hplain⟩
  | writeChar n | setControlProcess pid => exact ⟨_, feed_number screen false last hplain rfl⟩
  | moveCursorUp n | moveCursorDown n | moveCursorForward n | moveCursorBack n =>
    exact ⟨_, feed_number screen true last hplain rfl⟩
  | clear | setCursorVisible visible => exact hknown.elim
  | scroll n =>
    rw [ShellCall.bytes, Shell.scroll, if_pos hplain.1]
    exact ⟨_, feed_number screen true last hplain rfl⟩
  | setEcho doEcho =>
    refine ⟨ascii 'e',
      (feed_number screen false last ?_ rfl).trans ?_⟩
    · cases doEcho <;> exact ⟨by decide, by decide⟩
    · cases doEcho <;> rfl
  | setMode mode =>
    refine ⟨_, feed_number screen false last ?_ rfl⟩
    cases mode <;> exact ⟨by decide, by decide⟩
  | setCursor position | setScrollArea start stop =>
    exact ⟨_, feed_two screen true last hplain.1 hplain.2 rfl⟩
  | setScrollAreaToScreen =>
    exact ⟨_, feed_sequence screen true last (ascii 'r') [] (by simp) rfl []⟩

theorem feed_unknown {c : ShellCall} (hunknown : ¬ c.Known) (last : UInt8) :
    ∃ last', feed screen isErrStream (t, .ready last) c.bytes = some (t, .ready last') := by
  cases c with
  | clear =>
    exact ⟨_, feed_sequence screen true last (ascii 'J') [ascii '2'] (by decide +kernel) rfl []⟩
  | setCursorVisible visible =>
    have hzero : decimal 0 = [ascii '0'] := by decide +kernel
    have htwo : feed screen isErrStream (t, .ready last) _ = _ := feed_two screen false last (n := 0)
      (m := if visible then 1 else 0) ⟨by decide, by decide⟩
      (by cases visible <;> exact ⟨by decide, by decide⟩) (c := ascii 'C') rfl
    rw [hzero] at htwo
    exact ⟨_, htwo⟩
  | _ => exact absurd trivial hunknown

/-- Each call of the script, in turn, makes the terminal do what the call asks for and leaves it in the
text state. -/
def Performs (isErrStream : Bool) (t : Terminal σ) (last : UInt8) (script : List ShellCall) : Prop :=
  ∀ n, ∃ status, feed screen isErrStream (t, .ready last) ((script.take n).flatMap ShellCall.bytes) =
      some ((script.take n).foldl (ShellCall.request screen isErrStream) t, status) ∧
    status.streamStatus = .text

theorem call_ne (c : ScreenCall) : t.call screen c ≠ t := by
  intro heq
  have := congrArg (fun t => t.performed.length) heq
  simp [Terminal.call] at this

theorem request_ne {c : ShellCall} (hunknown : ¬ c.Known) : c.request screen isErrStream t ≠ t := by
  cases c with
  | clear | setCursorVisible visible => exact call_ne screen _
  | _ => exact absurd trivial hunknown

theorem performs_cons {c : ShellCall} {rest : List ShellCall} {last last' : UInt8}
    (hc : feed screen isErrStream (t, .ready last) c.bytes =
      some (c.request screen isErrStream t, .ready last')) :
    Performs screen isErrStream t last (c :: rest) ↔
      Performs screen isErrStream (c.request screen isErrStream t) last' rest := by
  have hstep : ∀ n, feed screen isErrStream (t, .ready last)
      (((c :: rest).take (n + 1)).flatMap ShellCall.bytes) =
      feed screen isErrStream (c.request screen isErrStream t, .ready last')
        ((rest.take n).flatMap ShellCall.bytes) := by
    intro n
    rw [List.take_succ_cons, List.flatMap_cons, feed_append, hc, bind_some]
  constructor
  · intro h n
    have hn := h (n + 1)
    rw [hstep, List.take_succ_cons, List.foldl_cons] at hn
    exact hn
  · intro h n
    cases n with
    | zero => exact ⟨_, rfl, rfl⟩
    | succ n =>
      rw [hstep, List.take_succ_cons, List.foldl_cons]
      exact h n

theorem performs_iff (script : List ShellCall) (hplain : ∀ c ∈ script, c.Plain) (last : UInt8) :
    Performs screen isErrStream t last script ↔ ∀ c ∈ script, c.Known := by
  induction script generalizing t last with
  | nil =>
    refine ⟨fun _ c hc => absurd hc List.not_mem_nil, fun _ n => ⟨.ready last, ?_, rfl⟩⟩
    rw [List.take_nil]
    rfl
  | cons c rest ih =>
    have hrest := ih (t := c.request screen isErrStream t)
      fun c hc => hplain c (List.mem_cons_of_mem _ hc)
    by_cases hknown : c.Known
    · obtain ⟨last', hc⟩ := feed_known screen (hplain c List.mem_cons_self) hknown last
      rw [performs_cons screen hc, hrest last', List.forall_mem_cons]
      exact ⟨fun h => ⟨hknown, h⟩, fun h => h.2⟩
    · obtain ⟨last', hc⟩ : ∃ last', feed screen isErrStream (t, .ready last) c.bytes = _ :=
        feed_unknown screen hknown last
      refine ⟨fun h => ?_, fun h => absurd (h c List.mem_cons_self) hknown⟩
      obtain ⟨status, hfeed, -⟩ := h 1
      simp only [List.take_succ_cons, List.take_zero, List.flatMap_cons, List.flatMap_nil,
        List.append_nil, List.foldl_cons, List.foldl_nil, hc, Option.some.injEq,
        Prod.mk.injEq] at hfeed
      exact absurd hfeed.1.symm (request_ne screen hknown)

/-! ## Indices -/

/-- How many parameters there are behind `count` of them; none if a digit comes where the count has
wrapped below zero. -/
def countFrom (count : Int) : List UInt8 → Option Int
  | [] => some count
  | b :: rest =>
    if isDigit b then
      if count < 0 then none else countFrom (if count = 0 then 1 else count) rest
    else countFrom (s32 (count + 1)) rest

/-- No digit comes where the count has wrapped below zero, and no mode setting has more than
`SHELL_STREAM_CONTROL_MAX_PARAMETERS` parameters. -/
inductive InBounds : List UInt8 → Prop
  | nil : InBounds []
  | text {c : UInt8} {rest : List UInt8} (hc : c ≠ shellkeyEsc) (hrest : InBounds rest) :
      InBounds (c :: rest)
  | esc : InBounds [shellkeyEsc]
  | other {c : UInt8} {rest : List UInt8} (hc : ∀ vt, c ≠ family vt) (hrest : InBounds rest) :
      InBounds (shellkeyEsc :: c :: rest)
  | unfinished (vt : Bool) {body : List UInt8} {count : Int}
      (hbody : ∀ b ∈ body, isParameterByte b = true) (hcount : countFrom 0 body = some count) :
      InBounds (shellkeyEsc :: family vt :: body)
  | sequence (vt : Bool) {body : List UInt8} {count : Int} {control : UInt8} {rest : List UInt8}
      (hbody : ∀ b ∈ body, isParameterByte b = true) (hcount : countFrom 0 body = some count)
      (hcontrol : isParameterByte control = false)
      (hmode : vt = true → control = ascii 'm' → count ≤ shellStreamControlMaxParameters)
      (hrest : InBounds rest) : InBounds (shellkeyEsc :: family vt :: (body ++ control :: rest))

theorem digit_count (p : Parameters) (d : Nat) :
    (p.digit d).map Parameters.count =
      if p.count < 0 then none else some (if p.count = 0 then 1 else p.count) := by
  rw [Parameters.digit]
  by_cases hnegative : p.count < 0
  · rw [if_neg (c := p.count = 0) (by omega), if_pos (by simp only [shellStreamControlMaxParameters]; omega),
      Parameters.index, dif_neg (by omega), if_pos hnegative]
    rfl
  · rw [if_neg hnegative]
    generalize hcount : (if p.count = 0 then 1 else p.count) = count
    have hpositive : 1 ≤ count := by
      split at hcount <;> omega
    split
    next hfits =>
      rw [Parameters.index_of_range hpositive hfits]
      rfl
    next => rfl

theorem read_count (p : Parameters) (body : List UInt8) :
    (p.read body).map Parameters.count = countFrom p.count body := by
  induction body generalizing p with
  | nil => rfl
  | cons b body ih =>
    rw [Parameters.read, List.foldlM_cons, Parameters.byte, countFrom]
    split
    next hdigit =>
      have hcount := digit_count p (b.toNat - 48)
      cases hp : p.digit (b.toNat - 48) with
      | none =>
        rw [hp, Option.map_none] at hcount
        split at hcount
        next hnegative => rw [if_pos hnegative]; rfl
        next => cases hcount
      | some p' =>
        rw [hp, Option.map_some] at hcount
        split at hcount
        next => cases hcount
        next hnegative =>
          rw [if_neg hnegative, ← Option.some.inj hcount]
          exact ih p'
    next => exact ih p.separator

theorem setColors_isSome (t : Terminal σ) (count : Int) (params : List Int) :
    (t.setColors count params).isSome ↔ count ≤ params.length := by
  induction params generalizing t count with
  | nil =>
    rw [Terminal.setColors]
    split <;> simp <;> omega
  | cons param rest ih =>
    rw [Terminal.setColors]
    split
    · rw [ih]
      simp only [List.length_cons]
      omega
    · simp only [Option.isSome_some, List.length_cons, true_iff]
      omega

theorem processed_isSome (vt : Bool) (t : Terminal σ) (p : Parameters) (control : UInt8) :
    (processed screen vt t p control).isSome ↔
      (vt = true → control = ascii 'm' → p.count ≤ shellStreamControlMaxParameters) := by
  cases vt with
  | false => simp [processed]
  | true =>
    simp only [processed, if_true, Terminal.processVt100Sequence, forall_const]
    by_cases hm : control = ascii 'm'
    · subst hm
      rw [if_neg (by decide), if_neg (by decide), if_neg (by decide), if_neg (by decide), if_pos rfl,
        setColors_isSome, List.length_ofFn]
      simp
    · simp [hm, apply_ite Option.isSome]

theorem feed_sequence_of_count (vt : Bool) (last control : UInt8) {count : Int}
    (hbody : ∀ b ∈ body, isParameterByte b = true) (hcount : countFrom 0 body = some count)
    (hcontrol : isParameterByte control = false)
    (hmode : vt = true → control = ascii 'm' → count ≤ shellStreamControlMaxParameters) :
    ∃ t', ∀ rest, feed screen isErrStream (t, .ready last)
        (shellkeyEsc :: family vt :: (body ++ control :: rest)) =
      feed screen isErrStream (t', .ready control) rest := by
  obtain ⟨p, hread, rfl⟩ := Option.map_eq_some_iff.mp ((read_count .empty body).trans hcount)
  obtain ⟨t', ht⟩ := isSome_iff_exists.mp ((processed_isSome screen vt t p control).mpr hmode)
  refine ⟨t', fun rest => ?_⟩
  rw [feed_sequence screen vt last control _ hbody hcontrol, hread, bind_some, ht,
    bind_some]

theorem count_of_feed_sequence (vt : Bool) (last control : UInt8) {body rest : List UInt8}
    (hbody : ∀ b ∈ body, isParameterByte b = true) (hcontrol : isParameterByte control = false)
    (h : (feed screen isErrStream (t, .ready last)
      (shellkeyEsc :: family vt :: (body ++ control :: rest))).isSome) :
    ∃ count t', countFrom 0 body = some count ∧
      (vt = true → control = ascii 'm' → count ≤ shellStreamControlMaxParameters) ∧
      (feed screen isErrStream (t', .ready control) rest).isSome := by
  rw [feed_sequence screen vt last control _ hbody hcontrol] at h
  obtain ⟨s, hs⟩ := isSome_iff_exists.mp h
  obtain ⟨p, hread, hs⟩ := Option.bind_eq_some_iff.mp hs
  obtain ⟨t', ht, hs⟩ := Option.bind_eq_some_iff.mp hs
  have hcount := read_count .empty body
  rw [hread, Option.map_some] at hcount
  exact ⟨p.count, t', hcount.symm,
    (processed_isSome screen vt t p control).mp (isSome_iff_exists.mpr ⟨t', ht⟩),
    isSome_iff_exists.mpr ⟨s, hs⟩⟩

theorem feed_other (hc : ∀ vt, c ≠ family vt) (last : UInt8) (rest : List UInt8) :
    feed screen isErrStream (t, .ready last) (shellkeyEsc :: c :: rest) =
      feed screen isErrStream (t, .ready last) rest := by
  have hesc : Terminal.processOutputCharacter screen isErrStream (t, .ready last) shellkeyEsc =
      some (t, ⟨.lastWasEsc, .empty, last⟩) := rfl
  have hother : Terminal.processOutputCharacter screen isErrStream (t, ⟨.lastWasEsc, .empty, last⟩)
      c = some (t, .ready last) := by
    have hvt : c ≠ ascii '[' := hc true
    have hterm : c ≠ UInt8.ofNat 123 := hc false
    simp only [Terminal.processOutputCharacter, hvt, hterm, if_false]
    rfl
  rw [feed_cons, hesc, bind_some, feed_cons, hother, bind_some]

theorem feed_unfinished_isSome (vt : Bool) (last : UInt8)
    (hbody : ∀ b ∈ body, isParameterByte b = true) :
    (feed screen isErrStream (t, .ready last) (shellkeyEsc :: family vt :: body)).isSome ↔
      (countFrom 0 body).isSome := by
  rw [feed_family, feed_body screen vt last .empty hbody, Option.isSome_map, ← Option.isSome_map,
    read_count]
  rfl

theorem isSome_of_inBounds {stream : List UInt8} (h : InBounds stream) (t : Terminal σ)
    (last : UInt8) : (feed screen isErrStream (t, .ready last) stream).isSome := by
  induction h generalizing t last with
  | nil | esc => rfl
  | text hc hrest ih =>
    rw [feed_text_cons screen hc]
    exact ih _ _
  | other hc hrest ih =>
    rw [feed_other screen hc]
    exact ih _ _
  | unfinished vt hbody hcount =>
    rw [feed_unfinished_isSome screen vt last hbody, hcount]
    rfl
  | sequence vt hbody hcount hcontrol hmode hrest ih =>
    obtain ⟨t', ht⟩ := feed_sequence_of_count screen vt last _
      hbody hcount hcontrol hmode
    rw [ht]
    exact ih _ _

theorem inBounds_of_isSome (n : Nat) (stream : List UInt8) (hn : stream.length ≤ n) (t : Terminal σ)
    (last : UInt8) (h : (feed screen isErrStream (t, .ready last) stream).isSome) :
    InBounds stream := by
  induction n generalizing stream t last with
  | zero =>
    rw [List.length_eq_zero_iff.mp (Nat.le_zero.mp hn)]
    exact .nil
  | succ n ih =>
    cases stream with
    | nil => exact .nil
    | cons c rest =>
      rw [List.length_cons] at hn
      by_cases hc : c = shellkeyEsc
      · subst hc
        cases rest with
        | nil => exact .esc
        | cons c rest =>
          rw [List.length_cons] at hn
          by_cases hfamily : ∃ vt, c = family vt
          · obtain ⟨vt, rfl⟩ := hfamily
            -- the parameters end at the first other byte, or with the stream
            have hsplit := List.takeWhile_append_dropWhile (p := isParameterByte) (l := rest)
            have hbody : ∀ b ∈ rest.takeWhile isParameterByte, isParameterByte b = true :=
              List.all_eq_true.mp List.all_takeWhile
            cases hrest : rest.dropWhile isParameterByte with
            | nil =>
              rw [hrest, List.append_nil] at hsplit
              rw [← hsplit] at h ⊢
              rw [feed_unfinished_isSome screen vt last hbody] at h
              obtain ⟨count, hcount⟩ := isSome_iff_exists.mp h
              exact .unfinished vt hbody hcount
            | cons control rest' =>
              rw [hrest] at hsplit
              have hcontrol : isParameterByte control = false := by
                have := List.head?_dropWhile_not isParameterByte rest
                rw [hrest] at this
                simpa using this
              rw [← hsplit] at h ⊢
              obtain ⟨count, t', hcount, hmode, h'⟩ :=
                count_of_feed_sequence screen vt last control hbody hcontrol h
              have hlength := congrArg List.length hsplit
              rw [List.length_append, List.length_cons] at hlength
              exact .sequence vt hbody hcount hcontrol hmode (ih rest' (by omega) t' _ h')
          · have hc : ∀ vt, c ≠ family vt := fun vt heq => hfamily ⟨vt, heq⟩
            rw [feed_other screen hc] at h
            exact .other hc (ih rest (by omega) t last h)
      · rw [feed_text_cons screen hc] at h
        exact .text hc (ih rest (by omega) _ last h)

/-- Scripts are performed exactly if the terminal has a sequence for each call, and the stream is in
bounds. -/
theorem control_stream_iff (t : Terminal σ) (script : List ShellCall)
    (hplain : ∀ c ∈ script, c.Plain) (stream : List UInt8) :
    Performs screen isErrStream t 0 script ∧
        (feed screen isErrStream (t, .ready 0) stream).isSome ↔
      (∀ c ∈ script, c.Known) ∧ InBounds stream := by
  rw [performs_iff screen script hplain 0]
  exact and_congr_right fun _ => ⟨inBounds_of_isSome screen _ stream (Nat.le_refl _) t 0,
    fun h => isSome_of_inBounds screen h t 0⟩

/-- A screen of 80 by 25 characters that remembers where its cursor was put. -/
def cursorScreen : Screen (Int × Int) where
  perform position _ _
    | .moveCursor x y => (x, y)
    | _ => position
  cursorX position := position.1
  cursorY position := position.2
  width _ := 80
  height _ := 25

/-- A terminal before the first output. -/
def newTerminal : Terminal (Int × Int) where
  screen := (0, 0)
  colorForeground := scWhite
  colorBackground := scBlack
  shellInputMode := 0
  doEcho := true
  currentProcId := 0
  shellIn := []
  performed := []

theorem control_stream_iff_cursor :
    Performs cursorScreen false newTerminal 0
        [.setCursor ⟨7, 12⟩, .text [ascii 'a', ascii '\t', ascii '\r'], .moveCursorUp 2,
          .writeChar 98] ∧
      (feed cursorScreen false (newTerminal, .ready 0) [shellkeyEsc, ascii '[', ascii '0',
        ascii 'm']).isSome := by
  refine (control_stream_iff cursorScreen newTerminal _ ?_ _).mpr ⟨?_, ?_⟩
  · intro c hc
    simp only [List.mem_cons, List.not_mem_nil, or_false] at hc
    rcases hc with rfl | rfl | rfl | rfl
    · exact ⟨⟨by decide, by decide⟩, by decide, by decide⟩
    · exact (by decide +kernel : ∀ b ∈ [ascii 'a', ascii '\t', ascii '\r'], b ≠ shellkeyEsc)
    · exact ⟨by decide, by decide⟩
    · exact ⟨by decide, by decide⟩
  · intro c hc
    simp only [List.mem_cons, List.not_mem_nil, or_false] at hc
    rcases hc with rfl | rfl | rfl | rfl <;> trivial
  · exact @InBounds.sequence true [ascii '0'] 1 _ [] (by decide +kernel) rfl rfl (by decide) .nil

/-- `clear` leaves the screen as it is, and five empty parameters of a mode setting are read from an
array of four. -/
theorem clear_without_effect :
    ¬ Performs cursorScreen false newTerminal 0 [.clear] ∧
      feed cursorScreen false (newTerminal, .ready 0)
        (vt100 [ascii ';', ascii ';', ascii ';', ascii ';', ascii ';'] 'm') = none := by
  constructor
  · rw [performs_iff cursorScreen [.clear] (by simp [ShellCall.Plain])]
    exact fun h => h .clear List.mem_cons_self
  · have hnone : (feed cursorScreen false (newTerminal, .ready 0)
        (vt100 [ascii ';', ascii ';', ascii ';', ascii ';', ascii ';'] 'm')).isNone = true := by
      decide +kernel
    exact Option.isNone_iff_eq_none.mp hnone

end MeetixOS.TerminalApp
