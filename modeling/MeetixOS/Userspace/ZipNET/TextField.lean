import MeetixOS.LibIO.KeyboardDecoder

/-! # Editing in a text field

`TextField_t::setText`, `setGhostText`, `update`, `paint`, `handle` and what these call, with
`DefaultCaretMoveStrategy_t`. The layouter and the key map are parameters. A text is shorter than
`2 ^ 31`, so that its positions are ints. -/

namespace MeetixOS.ZipNET

/-! ## The caret's moves -/

/-- The characters between words. -/
def isBreak (c : UInt8) : Bool := c = 32 || c = 44 || c = 46

def isLetter (c : UInt8) : Bool := (97 ≤ c && c ≤ 122) || (65 ≤ c && c ≤ 90)

/-- The loop of `calculateSkip` to the left. -/
def skipLeft (text : List UInt8) : Bool → Nat → Nat
  | _, 0 => 0
  | inFirst, position + 1 =>
    let c := text.getD (position + 1) 0
    let p := text.getD position 0
    if inFirst && isBreak c then skipLeft text inFirst position
    else if !isBreak p && isLetter c then skipLeft text false position
    else position + 1

/-- The loop of `calculateSkip` to the right: how many of the characters it passes. -/
def skipRight : Bool → List UInt8 → Nat
  | _, [] => 0
  | inFirst, c :: rest =>
    if inFirst && isBreak c then skipRight inFirst rest + 1
    else if isLetter c then skipRight false rest + 1
    else 0

/-- `CaretDirection_t`. -/
inductive CaretDirection
  | left
  | right

/-- `DefaultCaretMoveStrategy_t::calculateSkip`. -/
def calculateSkip (text : List UInt8) (position : Int) : CaretDirection → Int
  | .left => if 0 < position then skipLeft text true (position.toNat - 1) else position
  | .right =>
    if position < text.length then
      position + 1 +
        skipRight (isBreak (text.getD position.toNat 0)) (text.drop (position.toNat + 1))
    else position

/-! ## The text field -/

/-- A glyph of the view model: where it begins, its width, and how far the next one is. -/
structure Glyph where
  x : Int
  width : Int
  advance : Int

/-- `TextField_t`; `shiftDown` is the static variable of `handle`. -/
structure TextField where
  text : List UInt8 := []
  secure : Bool := false
  ghostText : List UInt8 := []
  ghost : Bool := false
  focused : Bool := false
  hasFont : Bool := true
  scrollX : Int := 0
  cursor : Int := 0
  marker : Int := 0
  glyphs : List Glyph := []
  shiftDown : Bool := false

/-- What is not part of the text field: `Layouter::layout` and `Keyboard::char_for_key`. -/
structure TextTools where
  layout : List UInt8 → List Glyph
  charForKey : LibIO.Info → Option UInt8

namespace TextField

/-- A position as the setters cut it. -/
def clamp (s : TextField) (pos : Int) : Int := min (max pos 0) s.text.length

def setCursor (s : TextField) (pos : Int) : TextField := { s with cursor := s.clamp pos }

def setMarker (s : TextField) (pos : Int) : TextField := { s with marker := s.clamp pos }

/-- The two ends of `getSelectedRange`. -/
def first (s : TextField) : Int := min s.marker s.cursor
def last (s : TextField) : Int := max s.marker s.cursor

/-- `update`: the layout of what is visible. -/
def update (tools : TextTools) (s : TextField) : TextField :=
  let visibleText :=
    if s.ghost then s.ghostText else if s.secure then s.text.map fun _ => 42 else s.text
  { s with glyphs := tools.layout visibleText }

/-- `positionToUnscrolledCursorX`; 5 is the left inset. -/
def positionToUnscrolledCursorX (s : TextField) (pos : Int) : Int :=
  s.glyphs.zipIdx.foldl (fun cursorX (g, i) =>
    let cursorX := if i + 1 = s.glyphs.length ∧ pos = s.glyphs.length then g.x + 5 + g.advance else cursorX
    if i = pos then g.x + 5 - 1 else cursorX) 5

/-- `applyScroll` in bounds of this width. -/
def applyScroll (s : TextField) (width : Int) : TextField :=
  let cursorX := s.positionToUnscrolledCursorX s.cursor
  if s.scrollX + cursorX > width - 5 then { s with scrollX := width - cursorX - 5 }
  else if s.scrollX + cursorX < 5 then { s with scrollX := -cursorX + 5 + width.tdiv 2 }
  else s

/-- `paint`, but for the pixels. -/
def paint (s : TextField) (width : Int) : TextField :=
  if s.hasFont then
    let s := s.applyScroll width
    if s.focused then { s with ghost := false }
    else if s.text = [] then { s with ghost := true }
    else s
  else s

/-- `leftcut` of `backspace`, before it is moved to the character in front of the caret. -/
def leftcut (s : TextField) (info : LibIO.Info) : Int :=
  if info.alt then calculateSkip s.text s.first .left else if info.ctrl then 0 else s.first

def backspace (s : TextField) (info : LibIO.Info) : TextField :=
  if s.text = [] then s
  else
    let rightcut := s.last
    let leftcut := s.leftcut info
    let leftcut := if rightcut - leftcut = 0 then leftcut - 1 else leftcut
    if leftcut ≥ 0 ∧ rightcut ≤ s.text.length then
      let s := { s with text := s.text.take leftcut.toNat ++ s.text.drop rightcut.toNat }
      (s.setCursor leftcut).setMarker leftcut
    else s

def insert (s : TextField) (ins : List UInt8) : TextField :=
  let first := if s.first < 0 then 0 else s.first
  let last := if s.last > s.text.length then (s.text.length : Int) else s.last
  let s := { s with text := s.text.take first.toNat ++ ins ++ s.text.drop last.toNat }
  (s.setCursor (first + ins.length)).setMarker (first + ins.length)

def moveCaret (s : TextField) (direction : CaretDirection) (info : LibIO.Info) : TextField :=
  let position := match direction with
    | .right =>
      if info.ctrl then (s.text.length : Int)
      else if info.alt then calculateSkip s.text s.cursor .right else s.cursor + 1
    | .left =>
      if info.ctrl then 0 else if info.alt then calculateSkip s.text s.cursor .left else s.cursor - 1
  let s := s.setCursor position
  if info.shift then s else s.setMarker position

/-- `viewToPosition` of a horizontal position. -/
def viewToPosition (s : TextField) (x : Int) : Nat :=
  (s.glyphs.takeWhile fun g => ¬x < s.scrollX + g.x + 5 + g.width.tdiv 2).length

/-- `handle` of a key event behind the test for the shift key. -/
def pressKey (tools : TextTools) (s : TextField) (info : LibIO.Info) : TextField :=
  if info.isPressed then
    if info.key = "KEY_BACKSPACE" then s.backspace info
    else if info.key = "KEY_ARROW_LEFT" then s.moveCaret .left info
    else if info.key = "KEY_ARROW_RIGHT" then s.moveCaret .right info
    else if info.key = "KEY_A" ∧ info.ctrl then { s with marker := 0, cursor := s.text.length }
    else
      match tools.charForKey info with
      | some c => s.insert [c]
      | none => s
  else s

/-- `handle` of a key event. -/
def handleKey (tools : TextTools) (s : TextField) (info : LibIO.Info) : TextField :=
  let shiftDown := if info.key = "KEY_SHIFT_L" then info.isPressed else s.shiftDown
  { s with shiftDown }.pressKey tools info

/-- `handle` of a press with its `clickCount`. -/
def handlePress (s : TextField) (x : Int) (clickCount : Nat) : TextField :=
  let clickCursor : Int := s.viewToPosition x
  if clickCount > 2 then { s with marker := 0, cursor := s.text.length }
  else if clickCount = 2 then
    { s with marker := calculateSkip s.text clickCursor .left
             cursor := calculateSkip s.text clickCursor .right }
  else if s.shiftDown then { s with cursor := clickCursor }
  else { s with cursor := clickCursor, marker := clickCursor }

end TextField

/-! ## Runs -/

/-- What happens to a text field. -/
inductive TextEvent
  | setText (newText : List UInt8)
  | setGhostText (text : List UInt8)
  | setSecure (value : Bool)
  | update
  | paint (width : Int)
  | focus (gained : Bool)
  | key (info : LibIO.Info)
  | press (x : Int) (clickCount : Nat)
  | drag (x : Int)

namespace TextField

def step (tools : TextTools) (s : TextField) : TextEvent → TextField
  | .setText newText => { s with text := newText }
  | .setGhostText text => { s with ghost := true, ghostText := text }
  | .setSecure value => { s with secure := value }
  | .update => s.update tools
  | .paint width => s.paint width
  | .focus gained => { s with focused := gained }
  | .key info => s.handleKey tools info
  | .press x clickCount => s.handlePress x clickCount
  | .drag x => { s with cursor := s.viewToPosition x }

/-- Cursor and marker are positions of the text. -/
structure InText (s : TextField) : Prop where
  cursor : 0 ≤ s.cursor ∧ s.cursor ≤ s.text.length
  marker : 0 ≤ s.marker ∧ s.marker ≤ s.text.length

/-- A new text is not shorter than cursor and marker, and the mouse is used in front of a glyph of the
view model that stands for a position of the text. -/
def Fits (s : TextField) : TextEvent → Prop
  | .setText newText => s.cursor ≤ newText.length ∧ s.marker ≤ newText.length
  | .press x clickCount => clickCount > 2 ∨ s.viewToPosition x ≤ s.text.length
  | .drag x => s.viewToPosition x ≤ s.text.length
  | _ => True

/-- Exactly the characters from `left` to `right` are replaced. -/
def Replaces (s s' : TextField) (left right : Int) (ins : List UInt8) : Prop :=
  0 ≤ left ∧ left ≤ right ∧ right ≤ s.text.length ∧
    s'.text = s.text.take left.toNat ++ ins ++ s.text.drop right.toNat ∧
    s'.cursor = left + ins.length ∧ s'.marker = left + ins.length

/-- An insertion replaces the selected range; a backspace removes it, with alt from `calculateSkip` and
with ctrl from the start on, or where that is empty the character before the caret; nothing else but
`setText` changes the text. -/
def Edits (tools : TextTools) (s s' : TextField) : TextEvent → Prop
  | .setText newText => s'.text = newText
  | .key info =>
    if !info.isPressed then s'.text = s.text
    else if info.key = "KEY_BACKSPACE" then
      if s.leftcut info < s.last then s.leftcut info ≤ s.first ∧ Replaces s s' (s.leftcut info) s.last []
      else if 0 < s.last then Replaces s s' (s.last - 1) s.last []
      else s'.text = s.text
    else if info.key = "KEY_ARROW_LEFT" ∨ info.key = "KEY_ARROW_RIGHT" ∨ info.key = "KEY_A" ∧ info.ctrl then
      s'.text = s.text
    else
      match tools.charForKey info with
      | some c => Replaces s s' s.first s.last [c]
      | none => s'.text = s.text
  | _ => s'.text = s.text

/-- Every step of a run edits the text as it should and leaves cursor and marker in it. -/
def RunEdits (tools : TextTools) (s : TextField) : List TextEvent → Prop
  | [] => True
  | event :: events =>
    (s.step tools event).InText ∧ Edits tools s (s.step tools event) event ∧
      RunEdits tools (s.step tools event) events

/-- All events of a run fit. -/
def RunFits (tools : TextTools) (s : TextField) : List TextEvent → Prop
  | [] => True
  | event :: events => s.Fits event ∧ RunFits tools (s.step tools event) events

/-! ## Positions -/

theorem skipLeft_le (text : List UInt8) (inFirst : Bool) (position : Nat) :
    skipLeft text inFirst position ≤ position := by
  induction position generalizing inFirst with
  | zero => exact Nat.le_refl 0
  | succ n ih =>
    rw [skipLeft]
    split
    · exact Nat.le_succ_of_le (ih inFirst)
    · split
      · exact Nat.le_succ_of_le (ih false)
      · exact Nat.le_refl _

theorem skipRight_le (inFirst : Bool) (text : List UInt8) : skipRight inFirst text ≤ text.length := by
  induction text generalizing inFirst with
  | nil => exact Nat.le_refl 0
  | cons c rest ih =>
    rw [skipRight]
    split
    · exact Nat.succ_le_succ (ih inFirst)
    · split
      · exact Nat.succ_le_succ (ih false)
      · exact Nat.zero_le _

theorem calculateSkip_left (text : List UInt8) {position : Int} (h : 0 ≤ position) :
    0 ≤ calculateSkip text position .left ∧ calculateSkip text position .left ≤ position := by
  have hle := skipLeft_le text true (position.toNat - 1)
  rw [calculateSkip]
  split <;> omega

theorem calculateSkip_right (text : List UInt8) {position : Int} (h : 0 ≤ position)
    (hle : position ≤ text.length) :
    0 ≤ calculateSkip text position .right ∧ calculateSkip text position .right ≤ text.length := by
  have hskip := skipRight_le (isBreak (text.getD position.toNat 0)) (text.drop (position.toNat + 1))
  rw [List.length_drop] at hskip
  rw [calculateSkip]
  split <;> omega

variable {s : TextField} {tools : TextTools}

theorem clamp_range (s : TextField) (pos : Int) : 0 ≤ s.clamp pos ∧ s.clamp pos ≤ s.text.length := by
  unfold clamp
  omega

theorem InText.selection (h : s.InText) :
    0 ≤ s.first ∧ s.first ≤ s.last ∧ s.last ≤ s.text.length := by
  obtain ⟨hcursor, hmarker⟩ := h
  unfold first last
  omega

theorem InText.leftcut (h : s.InText) (info : LibIO.Info) :
    0 ≤ s.leftcut info ∧ s.leftcut info ≤ s.first := by
  have hsel := h.selection
  unfold TextField.leftcut
  split
  · exact calculateSkip_left s.text hsel.1
  · split
    · exact ⟨Int.le_refl 0, hsel.1⟩
    · exact ⟨hsel.1, Int.le_refl _⟩

/-! ## Edits -/

/-- The last lines of `backspace` and `insert`. -/
def splice (s : TextField) (left right : Int) (ins : List UInt8) : TextField :=
  let s := { s with text := s.text.take left.toNat ++ ins ++ s.text.drop right.toNat }
  (s.setCursor (left + ins.length)).setMarker (left + ins.length)

theorem splice_spec {left right : Int} (hleft : 0 ≤ left) (hright : left ≤ right)
    (hlen : right ≤ s.text.length) (ins : List UInt8) :
    (s.splice left right ins).InText ∧ Replaces s (s.splice left right ins) left right ins := by
  have hclamp : ({ s with text := s.text.take left.toNat ++ ins ++ s.text.drop right.toNat } :
      TextField).clamp (left + ins.length) = left + ins.length := by
    simp only [clamp, List.length_append, List.length_take, List.length_drop]
    omega
  refine ⟨⟨clamp_range _ _, clamp_range _ _⟩, hleft, hright, hlen, rfl, hclamp, hclamp⟩

section

variable (h : s.InText)
include h

theorem insert_eq (ins : List UInt8) : s.insert ins = s.splice s.first s.last ins := by
  obtain ⟨hfirst, -, hlast⟩ := h.selection
  simp [insert, splice, if_neg (Int.not_lt.2 hfirst), if_neg (Int.not_lt.2 hlast)]

theorem backspace_eq (info : LibIO.Info) : s.backspace info =
    if s.leftcut info < s.last then s.splice (s.leftcut info) s.last []
    else if 0 < s.last then s.splice (s.last - 1) s.last [] else s := by
  obtain ⟨hfirst, hle, hlast⟩ := h.selection
  obtain ⟨hleft, hcut⟩ := h.leftcut info
  simp only [backspace, splice, List.append_nil, List.length_nil, Int.natCast_zero, Int.add_zero]
  split
  next hnil =>
    rw [hnil, List.length_nil] at hlast
    rw [if_neg (by omega), if_neg (by omega)]
  next =>
    by_cases hlt : s.leftcut info < s.last
    · rw [if_neg (show ¬s.last - s.leftcut info = 0 by omega), if_pos ⟨hleft, hlast⟩, if_pos hlt]
    · have heq : s.leftcut info = s.last := by omega
      rw [if_pos (show s.last - s.leftcut info = 0 by omega), if_neg hlt, heq]
      by_cases hpos : 0 < s.last
      · rw [if_pos ⟨Int.sub_nonneg_of_le hpos, hlast⟩, if_pos hpos]
      · rw [if_neg fun hcut => hpos (Int.add_one_le_iff.1 (Int.le_of_sub_nonneg hcut.1)), if_neg hpos]

theorem moveCaret_spec (direction : CaretDirection) (info : LibIO.Info) :
    (s.moveCaret direction info).InText ∧ (s.moveCaret direction info).text = s.text := by
  unfold moveCaret
  dsimp only
  split
  · exact ⟨⟨clamp_range _ _, h.marker⟩, rfl⟩
  · exact ⟨⟨clamp_range _ _, clamp_range _ _⟩, rfl⟩

theorem pressKey_spec (info : LibIO.Info) :
    (s.pressKey tools info).InText ∧ Edits tools s (s.pressKey tools info) (.key info) := by
  obtain ⟨hfirst, hle, hlast⟩ := h.selection
  obtain ⟨hleft, hcut⟩ := h.leftcut info
  simp only [pressKey, Edits, backspace_eq h, insert_eq h]
  rcases info.isPressed with - | -
  · exact ⟨h, rfl⟩
  by_cases hback : info.key = "KEY_BACKSPACE"
  · simp only [hback, ↓reduceIte]
    by_cases hlt : s.leftcut info < s.last
    · simp only [hlt, ↓reduceIte]
      obtain ⟨hin, hreplaces⟩ := splice_spec hleft (Int.le_of_lt hlt) hlast []
      exact ⟨hin, hcut, hreplaces⟩
    · simp only [hlt, ↓reduceIte]
      split
      next hpos => exact splice_spec (by omega) (by omega) hlast []
      next => exact ⟨h, rfl⟩
  simp only [hback, ↓reduceIte]
  by_cases harrow : info.key = "KEY_ARROW_LEFT"
  · simp only [harrow, true_or, ↓reduceIte]
    exact moveCaret_spec h .left info
  by_cases hright : info.key = "KEY_ARROW_RIGHT"
  · simp only [hright, true_or, or_true, ↓reduceIte]
    exact moveCaret_spec h .right info
  by_cases hall : info.key = "KEY_A" ∧ info.ctrl = true
  · simp only [hall, and_self, or_true, ↓reduceIte]
    exact ⟨⟨⟨Int.natCast_nonneg _, Int.le_refl _⟩, Int.le_refl _, Int.natCast_nonneg _⟩, rfl⟩
  simp only [harrow, hright, hall, or_self, ↓reduceIte]
  split
  next c _ => exact splice_spec hfirst hle hlast [c]
  next => exact ⟨h, rfl⟩

theorem handleKey_spec (info : LibIO.Info) :
    (s.handleKey tools info).InText ∧ Edits tools s (s.handleKey tools info) (.key info) := by
  let noted : TextField :=
    { s with shiftDown := if info.key = "KEY_SHIFT_L" then info.isPressed else s.shiftDown }
  have hnoted : noted.InText := ⟨h.cursor, h.marker⟩
  exact pressKey_spec hnoted info

theorem paint_spec (width : Int) : (s.paint width).InText ∧ (s.paint width).text = s.text := by
  unfold paint applyScroll
  dsimp only
  split_ifs <;> exact ⟨⟨h.cursor, h.marker⟩, rfl⟩

theorem step_spec {event : TextEvent} (hfits : s.Fits event) :
    (s.step tools event).InText ∧ Edits tools s (s.step tools event) event := by
  have hview (x : Int) (hle : s.viewToPosition x ≤ s.text.length) :
      (0 : Int) ≤ s.viewToPosition x ∧ (s.viewToPosition x : Int) ≤ s.text.length := by
    omega
  cases event with
  | setText newText => exact ⟨⟨⟨h.cursor.1, hfits.1⟩, h.marker.1, hfits.2⟩, rfl⟩
  | setGhostText text | setSecure value | update | focus gained => exact ⟨⟨h.cursor, h.marker⟩, rfl⟩
  | paint width => exact paint_spec h width
  | key info => exact handleKey_spec h info
  | press x clickCount =>
    simp only [step, handlePress, Edits]
    have hall : (0 : Int) ≤ s.text.length := Int.natCast_nonneg _
    split
    next => exact ⟨⟨⟨hall, Int.le_refl _⟩, Int.le_refl _, hall⟩, rfl⟩
    next hcount =>
      have hclick := hview x (hfits.resolve_left hcount)
      split
      next =>
        have hleft := calculateSkip_left s.text hclick.1
        exact ⟨⟨calculateSkip_right s.text hclick.1 hclick.2, hleft.1, Int.le_trans hleft.2 hclick.2⟩, rfl⟩
      next =>
        split
        next => exact ⟨⟨hclick, h.marker⟩, rfl⟩
        next => exact ⟨⟨hclick, hclick⟩, rfl⟩
  | drag x => exact ⟨⟨hview x hfits, h.marker⟩, rfl⟩

end

end TextField

/-- Where the events fit, cursor and marker stay in the text, and each edit changes its range only. -/
theorem textField_edits (tools : TextTools) (s : TextField) (events : List TextEvent) (h : s.InText)
    (hfits : s.RunFits tools events) : s.RunEdits tools events := by
  induction events generalizing s with
  | nil => trivial
  | cons event events ih =>
    obtain ⟨hin, hedits⟩ := TextField.step_spec h hfits.1
    exact ⟨hin, hedits, ih _ hin hfits.2⟩

/-- Glyphs of eight pixels, and one key with a character. -/
def monospaced : TextTools where
  layout text := (List.range text.length).map fun i => ⟨8 * i, 8, 8⟩
  charForKey info := if info.key = "KEY_B" then some 98 else none

/-- A ghost text that goes away when the field is in focus, then clicks and keys. -/
theorem textField_edits_click :
    TextField.RunEdits monospaced {} [.setGhostText [63, 63, 63], .update, .focus true, .paint 100,
      .setText [97, 98], .update, .press 70 1, .key { isPressed := true, key := "KEY_BACKSPACE" },
      .key { isPressed := true, key := "KEY_B" }, .drag 60] :=
  textField_edits monospaced {} _ ⟨by decide, by decide⟩ ⟨trivial, trivial, trivial, trivial,
    ⟨by decide, by decide⟩, trivial, .inr (by decide), trivial, trivial,
    Nat.le_of_ble_eq_true (by decide), trivial⟩

/-- A backspace with ctrl removes all three letters; a shorter text leaves the caret behind its end, and so
does a click on a ghost text. -/
theorem textField_removes_more :
    let s : TextField := { text := [97, 98, 99], cursor := 3, marker := 3 }
    let t := (({} : TextField).step monospaced (.setGhostText [63, 63, 63])).step monospaced .update
    (s.step monospaced (.key { isPressed := true, ctrl := true, key := "KEY_BACKSPACE" })).text = [] ∧
      ¬(s.step monospaced (.setText [97])).InText ∧ ¬(t.step monospaced (.press 14 1)).InText := by
  exact ⟨by decide, fun h => absurd h.cursor.2 (by decide), fun h => absurd h.cursor.2 (by decide)⟩

end MeetixOS.ZipNET
