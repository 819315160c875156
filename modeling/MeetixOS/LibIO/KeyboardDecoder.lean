import Mathlib.Data.List.ReduceOption

/-! # Decoding of scan codes

`Keyboard::key_for_scancode` of LibIO over a whole run of bytes, next to a decoder in which a byte that
the layout does not know acts as a prefix for the byte right behind it only. The code keeps the prefix
until a compound has been found. -/

namespace MeetixOS.LibIO

/-! ## The code -/

/-- `Keyboard::Info` with its base `InfoBasic`. -/
structure Info where
  isPressed : Bool := false
  ctrl : Bool := false
  alt : Bool := false
  shift : Bool := false
  scancode : UInt8 := 0
  key : String := "KEY_NONE"
  deriving DecidableEq

/-- `m_scancode_layout`. -/
abbrev ScancodeLayout := Nat → Option String

/-- The fields of `Keyboard` that decoding uses. -/
structure Keyboard where
  statusCtrl : Bool := false
  statusShift : Bool := false
  statusAlt : Bool := false
  haveLastUnknownKey : Bool := false
  lastUnknownKey : Info := {}

def isPressed (scancode : UInt8) : Bool := scancode &&& 0x80 = 0

def withoutPressed (scancode : UInt8) : UInt8 := scancode &&& 0x7f

def compoundScancode (first second : UInt8) : Nat := first.toNat <<< 8 ||| second.toNat

def ctrlKeys : List String := ["KEY_CTRL_L", "KEY_CTRL_R"]
def shiftKeys : List String := ["KEY_SHIFT_L", "KEY_SHIFT_R"]
def altKeys : List String := ["KEY_ALT_L", "KEY_ALT_R"]

namespace Keyboard

/-- The handling of the special keys. -/
def handleSpecial (kb : Keyboard) (key : String) (pressed : Bool) : Keyboard :=
  if key ∈ ctrlKeys then { kb with statusCtrl := pressed }
  else if key ∈ shiftKeys then { kb with statusShift := pressed }
  else if key ∈ altKeys then { kb with statusAlt := pressed }
  else kb

/-- What is left when the key is known. -/
def report (kb : Keyboard) (out : Info) : Keyboard × Option Info :=
  let kb := kb.handleSpecial out.key out.isPressed
  (kb, some { out with ctrl := kb.statusCtrl, shift := kb.statusShift, alt := kb.statusAlt })

/-- `Keyboard::key_for_scancode` with a fresh `out`: `none` where it returns `false`. -/
def keyForScancode (layout : ScancodeLayout) (kb : Keyboard) (scancode : UInt8) :
    Keyboard × Option Info :=
  let out : Info := { isPressed := isPressed scancode, scancode := withoutPressed scancode }
  let compound :=
    if kb.haveLastUnknownKey then layout (compoundScancode kb.lastUnknownKey.scancode out.scancode)
    else none
  match compound with
  | some key => report { kb with haveLastUnknownKey := false } { out with key := key }
  | none =>
    match layout out.scancode.toNat with
    | none => ({ kb with haveLastUnknownKey := true, lastUnknownKey := out }, none)
    | some key => report kb { out with key := key }

/-- Every byte is given to `key_for_scancode`: the results, and the keyboard behind them. -/
def decode (layout : ScancodeLayout) (kb : Keyboard) : List UInt8 → List (Option Info) × Keyboard
  | [] => ([], kb)
  | scancode :: rest =>
    let (kb, result) := kb.keyForScancode layout scancode
    let (results, kb) := kb.decode layout rest
    (result :: results, kb)

end Keyboard

/-! ## The reference decoder -/

/-- The names of keys with whether they went down, the latest one first. -/
abbrev KeyHistory := List (String × Bool)

/-- Whether the last press or release of one of `keys` was a press. -/
def held (keys : List String) (history : KeyHistory) : Bool :=
  ((history.find? fun event => event.1 ∈ keys).map Prod.snd).getD false

/-- An unknown byte is the prefix `pre` of the byte right behind it. -/
def referenceDecode (layout : ScancodeLayout) :
    Option UInt8 → KeyHistory → List UInt8 → List (Option Info)
  | _, _, [] => []
  | pre, history, b :: rest =>
    let code := withoutPressed b
    match (pre.bind fun first => layout (compoundScancode first code)) <|> layout code.toNat with
    | none => none :: referenceDecode layout (some code) history rest
    | some key =>
      let history := (key, isPressed b) :: history
      some { isPressed := isPressed b, scancode := code, key := key, ctrl := held ctrlKeys history,
             shift := held shiftKeys history, alt := held altKeys history } ::
        referenceDecode layout none history rest

/-- What has been reported, the latest one first. -/
def historyOf (results : List (Option Info)) : KeyHistory :=
  (results.reduceOption.map fun info => (info.key, info.isPressed)).reverse

/-- No byte makes a compound with `last`, the unknown byte not yet used, unless `last` stands right
before it or the compound has the byte's own name. -/
def NoLateCompound (layout : ScancodeLayout) : Option UInt8 → Bool → List UInt8 → Prop
  | _, _, [] => True
  | last, directlyBefore, b :: rest =>
    let code := withoutPressed b
    let compound := last.bind fun first => layout (compoundScancode first code)
    (directlyBefore = true ∨ compound = none ∨ compound = layout code.toNat) ∧
      if compound.isSome then NoLateCompound layout none false rest
      else if (layout code.toNat).isSome then NoLateCompound layout last false rest
      else NoLateCompound layout (some code) true rest

/-! ## The special keys -/

theorem held_cons (keys : List String) (key : String) (pressed : Bool) (history : KeyHistory) :
    held keys ((key, pressed) :: history) = if key ∈ keys then pressed else held keys history := by
  unfold held
  by_cases h : key ∈ keys <;> simp [h]

/-- The three flags are what the history says. -/
structure Keyboard.Agrees (kb : Keyboard) (history : KeyHistory) : Prop where
  ctrl : kb.statusCtrl = held ctrlKeys history
  shift : kb.statusShift = held shiftKeys history
  alt : kb.statusAlt = held altKeys history

namespace Keyboard

variable {kb : Keyboard} {history : KeyHistory} {layout : ScancodeLayout}

theorem Agrees.handleSpecial (h : kb.Agrees history) (key : String) (pressed : Bool) :
    (kb.handleSpecial key pressed).Agrees ((key, pressed) :: history) := by
  have hcs : key ∈ ctrlKeys → key ∉ shiftKeys ∧ key ∉ altKeys := by
    simp only [ctrlKeys, shiftKeys, altKeys, List.mem_cons, List.not_mem_nil, or_false]
    rintro (rfl | rfl) <;> decide
  have hsa : key ∈ shiftKeys → key ∉ altKeys := by
    simp only [shiftKeys, altKeys, List.mem_cons, List.not_mem_nil, or_false]
    rintro (rfl | rfl) <;> decide
  unfold Keyboard.handleSpecial
  split
  next hc => constructor <;> simp [held_cons, hc, hcs hc, h.shift, h.alt]
  next hc =>
    split
    next hs => constructor <;> simp [held_cons, hc, hs, hsa hs, h.ctrl, h.alt]
    next hs => split <;> constructor <;> simp [held_cons, *, h.ctrl, h.shift, h.alt]

@[simp] theorem handleSpecial_haveLastUnknownKey (key : String) (pressed : Bool) :
    (kb.handleSpecial key pressed).haveLastUnknownKey = kb.haveLastUnknownKey := by
  unfold Keyboard.handleSpecial
  split_ifs <;> rfl

@[simp] theorem handleSpecial_lastUnknownKey (key : String) (pressed : Bool) :
    (kb.handleSpecial key pressed).lastUnknownKey = kb.lastUnknownKey := by
  unfold Keyboard.handleSpecial
  split_ifs <;> rfl

/-! ## One byte -/

/-- The unknown byte that is remembered. -/
def remembered (kb : Keyboard) : Option UInt8 :=
  if kb.haveLastUnknownKey then some kb.lastUnknownKey.scancode else none

/-- The name of a compound with the remembered byte. -/
def compound (layout : ScancodeLayout) (kb : Keyboard) (b : UInt8) : Option String :=
  kb.remembered.bind fun first => layout (compoundScancode first (withoutPressed b))

/-- What a byte does whose key has the name `key`. -/
def Reports (history : KeyHistory) (b : UInt8) (key : String) (last : Option UInt8)
    (r : Keyboard × Option Info) : Prop :=
  let history := (key, isPressed b) :: history
  r.1.Agrees history ∧ r.1.remembered = last ∧
    r.2 = some { isPressed := isPressed b, scancode := withoutPressed b, key := key,
                 ctrl := held ctrlKeys history, shift := held shiftKeys history,
                 alt := held altKeys history }

theorem report_reports {b : UInt8} {key : String} {kb' : Keyboard} {last : Option UInt8}
    (h : kb'.Agrees history) (hlast : kb'.remembered = last) :
    Reports history b key last
      (kb'.report { isPressed := isPressed b, scancode := withoutPressed b, key := key }) := by
  have hs := h.handleSpecial key (isPressed b)
  refine ⟨hs, ?_, ?_⟩
  · rw [← hlast, remembered, remembered]
    simp [report, handleSpecial_haveLastUnknownKey, handleSpecial_lastUnknownKey]
  · simp [report, hs.ctrl, hs.shift, hs.alt]

theorem keyForScancode_compound (h : kb.Agrees history) {b : UInt8} {key : String}
    (hc : kb.compound layout b = some key) :
    Reports history b key none (kb.keyForScancode layout b) := by
  unfold compound remembered at hc
  unfold keyForScancode
  split at hc
  next hlast =>
    simp only [hlast, ↓reduceIte]
    rw [show layout _ = some key from hc]
    exact report_reports ⟨h.ctrl, h.shift, h.alt⟩ rfl
  next => cases hc

theorem ite_of_compound {b : UInt8} (hc : kb.compound layout b = none) :
    (if kb.haveLastUnknownKey then
      layout (compoundScancode kb.lastUnknownKey.scancode (withoutPressed b)) else none) = none := by
  rw [← hc, compound, remembered]
  split <;> rfl

theorem keyForScancode_known (h : kb.Agrees history) {b : UInt8} {key : String}
    (hc : kb.compound layout b = none) (hk : layout (withoutPressed b).toNat = some key) :
    Reports history b key kb.remembered (kb.keyForScancode layout b) := by
  simp only [keyForScancode, ite_of_compound hc, hk]
  exact report_reports h rfl

theorem keyForScancode_unknown (h : kb.Agrees history) {b : UInt8}
    (hc : kb.compound layout b = none) (hk : layout (withoutPressed b).toNat = none) :
    (kb.keyForScancode layout b).1.Agrees history ∧
      (kb.keyForScancode layout b).1.remembered = some (withoutPressed b) ∧
      (kb.keyForScancode layout b).2 = none := by
  simp only [keyForScancode, ite_of_compound hc, hk]
  exact ⟨⟨h.ctrl, h.shift, h.alt⟩, rfl, trivial⟩

/-! ## Runs -/

theorem historyOf_cons (result : Option Info) (results : List (Option Info)) :
    historyOf (result :: results) =
      historyOf results ++ (result.map fun info => (info.key, info.isPressed)).toList := by
  cases result <;> simp [historyOf]

theorem decode_agrees (layout : ScancodeLayout) (h : kb.Agrees history) (bytes : List UInt8) :
    (kb.decode layout bytes).2.Agrees (historyOf (kb.decode layout bytes).1 ++ history) := by
  induction bytes generalizing kb history with
  | nil => exact h
  | cons b rest ih =>
    simp only [decode, historyOf_cons, List.append_assoc]
    rcases hc : kb.compound layout b with - | key
    · rcases hk : layout (withoutPressed b).toNat with - | key
      · obtain ⟨ha, -, hr⟩ := keyForScancode_unknown h hc hk
        rw [hr]
        exact ih ha
      · obtain ⟨ha, -, hr⟩ := keyForScancode_known h hc hk
        rw [hr]
        exact ih ha
    · obtain ⟨ha, -, hr⟩ := keyForScancode_compound h hc
      rw [hr]
      exact ih ha

theorem decode_eq_referenceDecode_iff (layout : ScancodeLayout) (h : kb.Agrees history)
    (directlyBefore : Bool) (bytes : List UInt8) :
    (kb.decode layout bytes).1 =
        referenceDecode layout (if directlyBefore then kb.remembered else none) history bytes ↔
      NoLateCompound layout kb.remembered directlyBefore bytes := by
  induction bytes generalizing kb history directlyBefore with
  | nil => exact iff_of_true rfl trivial
  | cons b rest ih =>
    have ihn {kb' : Keyboard} {history' : KeyHistory} (h' : kb'.Agrees history') :
        (kb'.decode layout rest).1 = referenceDecode layout none history' rest ↔
          NoLateCompound layout kb'.remembered false rest := by
      simpa using ih h' false
    have hcomp : (kb.remembered.bind fun first =>
        layout (compoundScancode first (withoutPressed b))) = kb.compound layout b := rfl
    simp only [decode, NoLateCompound, hcomp]
    rcases hc : kb.compound layout b with - | key
    · have hpre : ((if directlyBefore then kb.remembered else none).bind fun first =>
          layout (compoundScancode first (withoutPressed b))) = none := by
        cases directlyBefore
        · rfl
        · exact hc
      rcases hk : layout (withoutPressed b).toNat with - | key
      · obtain ⟨ha, hl, hr⟩ := keyForScancode_unknown h hc hk
        simpa [referenceDecode, hpre, hk, hr, hl] using ih ha true
      · obtain ⟨ha, hl, hr⟩ := keyForScancode_known h hc hk
        simpa [referenceDecode, hpre, hk, hr, hl] using ihn ha
    · obtain ⟨ha, hl, hr⟩ := keyForScancode_compound h hc
      cases directlyBefore
      · rcases hk : layout (withoutPressed b).toNat with - | key'
        · simp [referenceDecode, hk, hr]
        · by_cases hkey : key = key'
          · subst hkey
            simpa [referenceDecode, hk, hr, hl] using ihn ha
          · simp [referenceDecode, hk, hr, hkey]
      · have hpre : (kb.remembered.bind fun first =>
            layout (compoundScancode first (withoutPressed b))) = some key := hc
        simpa [referenceDecode, hpre, hr, hl] using ihn ha

end Keyboard

/-- The keyboard decodes as the reference does, and its flags are those of the keys reported, exactly
when no late compound is found. -/
theorem keyForScancode_decodes_iff (layout : ScancodeLayout) (bytes : List UInt8) :
    ((Keyboard.decode layout {} bytes).1 = referenceDecode layout none [] bytes ∧
      (Keyboard.decode layout {} bytes).2.Agrees
        (historyOf (referenceDecode layout none [] bytes))) ↔
      NoLateCompound layout none false bytes := by
  have hinit : Keyboard.Agrees {} [] := ⟨rfl, rfl, rfl⟩
  have hflags := Keyboard.decode_agrees layout hinit bytes
  rw [List.append_nil] at hflags
  refine Iff.trans ?_ (Keyboard.decode_eq_referenceDecode_iff layout hinit false bytes)
  exact and_iff_left_of_imp fun h => h ▸ hflags

/-- The prefix `E0` of a missing key is used behind the next one: enter is that of the number pad.
-/
theorem keyForScancode_late_compound :
    let layout : ScancodeLayout := fun scancode =>
      [(0x1c, "KEY_ENTER"), (0x1e, "KEY_A"), (0x601c, "KEY_KP_ENTER")].lookup scancode
    ((Keyboard.decode layout {} [0xe0, 0x1e, 0x1c]).1.map (Option.map Info.key) =
        [none, some "KEY_A", some "KEY_KP_ENTER"]) ∧
      (referenceDecode layout none [] [0xe0, 0x1e, 0x1c]).map (Option.map Info.key) =
        [none, some "KEY_A", some "KEY_ENTER"] := by
  decide

end MeetixOS.LibIO
