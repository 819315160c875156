import MeetixOS.Lib.Zipper

/-! # Reading a line

`read_input_line` of the shell edits a line key by key: a `std::string` with the caret as an `int`, and for
the arrow up an iterator into the vector of all earlier lines, kept over the calls. In an `Editor` the arrow
up recalls one line after the other. The iterator is default-constructed and nothing but the key itself sets
it, so the first arrow up reads through a null pointer. -/

namespace MeetixOS.MxSh

open MeetixOS.Lib

/-! ## The history -/

/-- A `std::vector<std::string>`: the lines, and the number of the storage they are in. -/
structure History where
  lines : List (List UInt8)
  capacity : Nat
  storage : Nat
  fits : lines.length ≤ capacity
  allocated : storage = 0 ↔ capacity = 0
  deriving DecidableEq

/-- An iterator of the vector: a place in one of its storages, or null. -/
abbrev HistoryIterator := Option (Nat × Nat)

namespace History

/-- The vector as it is constructed, without a storage. -/
def empty : History := ⟨[], 0, 0, by simp, by simp⟩

/-- `push_back`, which moves to a storage of twice the size when the one at hand is full. -/
def pushBack (h : History) (line : List UInt8) : History :=
  if hfull : h.lines.length = h.capacity then
    { lines := h.lines ++ [line]
      capacity := max 1 (2 * h.capacity)
      storage := h.storage + 1
      fits := by simp only [List.length_append, List.length_singleton]; omega
      allocated := by omega }
  else
    { h with
      lines := h.lines ++ [line]
      fits := by
        have := h.fits
        simp only [List.length_append, List.length_singleton]
        omega }

/-- An iterator to a place in the storage at hand. -/
def iterator (h : History) (place : Nat) : HistoryIterator :=
  if h.storage = 0 then none else some (h.storage, place)

/-- `begin`. -/
def beginIt (h : History) : HistoryIterator := h.iterator 0

/-- `end`. -/
def endIt (h : History) : HistoryIterator := h.iterator h.lines.length

/-- What an iterator points to, if it is one of the lines. -/
def deref (h : History) : HistoryIterator → Option (List UInt8)
  | none => none
  | some (storage, place) => if storage = h.storage then h.lines[place]? else none

/-- The history after these lines. -/
def ofLines (lines : List (List UInt8)) : History := lines.foldl pushBack empty

@[simp] theorem lines_pushBack (h : History) (line : List UInt8) :
    (h.pushBack line).lines = h.lines ++ [line] := by
  unfold pushBack
  split <;> rfl

@[simp] theorem lines_ofLines (lines : List (List UInt8)) : (ofLines lines).lines = lines := by
  suffices h : ∀ h : History, (lines.foldl pushBack h).lines = h.lines ++ lines from h empty
  induction lines with
  | nil => simp
  | cons line rest ih =>
    intro h
    simp [ih]

end History

/-! ## The function -/

def SHELLKEY_UP : Int := 0x103
def SHELLKEY_LEFT : Int := 0x104
def SHELLKEY_RIGHT : Int := 0x105
def SHELLKEY_BACKSPACE : Int := 0x107
def SHELLKEY_STAB : Int := 0x154
def SHELLKEY_ENTER : Int := 0x157

/-- The byte `'\t'`. -/
def tab : UInt8 := 9

/-- `static_cast<char>(c)`. -/
def charOfKey (c : Int) : UInt8 := UInt8.ofNat (c % 256).toNat

/-- `line.substr(pos)`, which throws where the position is outside of the line. -/
def substrFrom (line : List UInt8) (pos : Int) : Option (List UInt8) :=
  if 0 ≤ pos ∧ pos ≤ line.length then some (line.drop pos.toNat) else none

/-- `line.substr(0, n)`; a negative `n` is a very large one. -/
def substrTo (line : List UInt8) (n : Int) : List UInt8 := if n < 0 then line else line.take n.toNat

/-- `line.at(pos)`, which throws where there is no such character. -/
def charAt (line : List UInt8) (pos : Int) : Option UInt8 := if pos < 0 then none else (line)[pos.toNat]?

/-- What a key leads to: the loop goes on, or the function returns. -/
inductive Turn (σ : Type)
  | reading (s : σ)
  | returned (success : Bool) (s : σ)
  deriving DecidableEq

/-- `g_shell_history`, `g_shell_history_it`, and the variables of `read_input_line`. -/
structure Reader where
  history : History
  historyIt : HistoryIterator
  line : List UInt8
  caret : Int
  deriving DecidableEq

namespace Reader

/-- `read_input_line` is entered with this line. -/
def call (s : Reader) (line : List UInt8) : Reader := { s with line := line, caret := 0 }

/-- A character is put at the caret. -/
def put (s : Reader) (char : UInt8) : Option (Turn Reader) := do
  let afterCaret ← substrFrom s.line s.caret
  some <| .reading
    { s with line := substrTo s.line s.caret ++ [char] ++ afterCaret, caret := s.caret + 1 }

/-- One turn of the loop of `read_input_line`, with what `read_char` returned. There is none where an
exception leaves the function or an iterator is no line's. -/
def turn (s : Reader) (c : Int) : Option (Turn Reader) :=
  if c = -1 then some (.returned false s)
  else if c = SHELLKEY_BACKSPACE then
    if s.line ≠ [] ∧ s.caret > 0 then do
      let _deleted ← charAt s.line (s.caret - 1)
      let afterCaret ← substrFrom s.line s.caret
      some <| .reading
        { s with line := substrTo s.line (s.caret - 1) ++ afterCaret, caret := s.caret - 1 }
    else some (.reading s)
  else if c = tab.toNat ∨ c = SHELLKEY_STAB then s.put tab
  else if c = SHELLKEY_ENTER then
    some (.returned true { s with history := s.history.pushBack s.line })
  else if c = SHELLKEY_LEFT then
    if s.caret > 0 then do
      let _beforeCaret ← charAt s.line (s.caret - 1)
      some (.reading { s with caret := s.caret - 1 })
    else some (.reading s)
  else if c = SHELLKEY_RIGHT then
    if s.caret < s.line.length then do
      let _atCaret ← charAt s.line s.caret
      some (.reading { s with caret := s.caret + 1 })
    else some (.reading s)
  else if c = SHELLKEY_UP then do
    let it := if s.historyIt = s.history.endIt then s.history.beginIt else s.historyIt
    let line ← s.history.deref it
    some (.reading { s with line := line, historyIt := it.map fun it => (it.1, it.2 + 1) })
  else if c < 0x100 then s.put (charOfKey c)
  else some (.reading s)

/-- The caret is in the line or behind it. -/
def CaretFits (s : Reader) : Prop := 0 ≤ s.caret ∧ s.caret ≤ s.line.length

instance (s : Reader) : Decidable s.CaretFits := inferInstanceAs (Decidable (_ ∧ _))

end Reader

/-! ## The ideal editor -/

/-- What a key is for. -/
inductive Command
  | quit
  | enter
  | put (char : UInt8)
  | deleteLeft
  | left
  | right
  | recall
  | ignore
  deriving DecidableEq

/-- The keys and what they are for. -/
def command (c : Int) : Command :=
  if c = -1 then .quit
  else if c = SHELLKEY_ENTER then .enter
  else if c = SHELLKEY_BACKSPACE then .deleteLeft
  else if c = SHELLKEY_LEFT then .left
  else if c = SHELLKEY_RIGHT then .right
  else if c = SHELLKEY_UP then .recall
  else if c = SHELLKEY_STAB then .put tab
  else if c < 0x100 then .put (charOfKey c)
  else .ignore

/-- A line with a caret in it, the lines before it, and how many of them have been recalled. -/
structure Editor where
  history : List (List UInt8)
  recalled : Nat
  zipper : Zipper UInt8
  deriving DecidableEq

namespace Editor

/-- A new line is edited, with the caret in front. -/
def call (e : Editor) (line : List UInt8) : Editor := { e with recalled := 0, zipper := .atStart line }

/-- The next line back, if there is one, with the caret at its end. -/
def recallLine (e : Editor) : Editor :=
  match e.history.reverse[e.recalled]? with
  | some line => { e with recalled := e.recalled + 1, zipper := .atEnd line }
  | none => e

def turn (e : Editor) (c : Int) : Turn Editor :=
  match command c with
  | .quit => .returned false e
  | .enter => .returned true { e with history := e.history ++ [e.zipper.text] }
  | .put char => .reading { e with zipper := e.zipper.insert char }
  | .deleteLeft => .reading { e with zipper := e.zipper.deleteLeft }
  | .left => .reading { e with zipper := e.zipper.left }
  | .right => .reading { e with zipper := e.zipper.right }
  | .recall => .reading e.recallLine
  | .ignore => .reading e

end Editor

/-- The shell follows the ideal editor over these keys: before each the caret is in the line or behind
it, each is dealt with, and the function returns when the editor does, with its line. It is then called
with an empty line, unless it returned false. -/
def Reader.Follows : Reader → Editor → List Int → Prop
  | s, _, [] => s.CaretFits
  | s, e, c :: keys =>
    s.CaretFits ∧
      match s.turn c, e.turn c with
      | some (.reading s'), .reading e' => Follows s' e' keys
      | some (.returned success s'), .returned success' e' =>
        success = success' ∧ s'.line = e'.zipper.text ∧
          (success = true → Follows (s'.call []) (e'.call []) keys)
      | _, _ => False

/-! ## One key -/

/-- The shell is where the editor is, and the iterator is as it was constructed. -/
structure Reader.Agrees (s : Reader) (e : Editor) : Prop where
  line : s.line = e.zipper.text
  caret : s.caret = e.zipper.caret
  history : s.history.lines = e.history
  unset : s.historyIt = none

variable {s : Reader} {e : Editor}

namespace Reader.Agrees

section

variable (h : s.Agrees e)
include h

theorem caretFits : s.CaretFits := by
  have := e.zipper.caret_le
  refine ⟨?_, ?_⟩
  · rw [h.caret]
    omega
  · rw [h.caret, h.line]
    omega

theorem call (line : List UInt8) : (s.call line).Agrees (e.call line) :=
  ⟨rfl, rfl, h.history, h.unset⟩

theorem substrFrom_caret :
    substrFrom s.line s.caret = some (e.zipper.text.drop e.zipper.caret) := by
  have hfits : 0 ≤ s.caret ∧ s.caret ≤ s.line.length := h.caretFits
  rw [substrFrom, if_pos hfits, h.line, h.caret, Int.toNat_natCast]

theorem substrTo_caret {n : Nat} {m : Int} (hn : m = n) :
    substrTo s.line m = e.zipper.text.take n := by
  rw [substrTo, if_neg (by omega), h.line, hn, Int.toNat_natCast]

theorem charAt_before (hcaret : 0 < s.caret) : ∃ char, charAt s.line (s.caret - 1) = some char := by
  have hfits := h.caretFits
  rw [charAt, if_neg (by omega)]
  exact ⟨_, List.getElem?_eq_getElem (by have := hfits.2; omega)⟩

theorem put (char : UInt8) :
    ∃ s', s.put char = some (.reading s') ∧ s'.Agrees { e with zipper := e.zipper.insert char } := by
  refine ⟨_, by rw [Reader.put, h.substrFrom_caret]; rfl, ?_⟩
  refine ⟨?_, ?_, h.history, h.unset⟩
  · rw [Zipper.text_insert, h.substrTo_caret h.caret]
    simp
  · simp [h.caret]

theorem turn_up : s.turn SHELLKEY_UP = none := by
  have hderef : s.history.deref
      (if s.historyIt = s.history.endIt then s.history.beginIt else s.historyIt) = none := by
    rw [h.unset]
    split
    · next hend =>
        have hnone : s.history.storage = 0 := by
          by_contra hstorage
          simp [History.endIt, History.iterator, hstorage] at hend
        simp [History.beginIt, History.iterator, hnone, History.deref]
    · rfl
  simp only [Reader.turn, hderef]
  rfl

theorem deleteLeft :
    ∃ s', s.turn SHELLKEY_BACKSPACE = some (.reading s') ∧
      s'.Agrees { e with zipper := e.zipper.deleteLeft } := by
  have hcaret := h.caret
  have hfits := h.caretFits.2
  by_cases hstart : 0 < s.caret
  · have hline : s.line ≠ [] := by
      intro hnil
      rw [hnil, List.length_nil] at hfits
      omega
    obtain ⟨char, hchar⟩ := h.charAt_before hstart
    have hturn : s.turn SHELLKEY_BACKSPACE = some (.reading { s with
        line := substrTo s.line (s.caret - 1) ++ e.zipper.text.drop e.zipper.caret
        caret := s.caret - 1 }) := by
      rw [Reader.turn, if_neg (by decide), if_pos rfl, if_pos ⟨hline, hstart⟩, hchar,
        h.substrFrom_caret]
      rfl
    refine ⟨_, hturn, ?_, ?_, h.history, h.unset⟩
    · rw [Zipper.text_deleteLeft, h.substrTo_caret (n := e.zipper.caret - 1) (by omega)]
    · simp only [Zipper.caret_deleteLeft]
      omega
  · -- with the caret at the start neither of the two deletes anything
    have hturn : s.turn SHELLKEY_BACKSPACE = some (.reading s) := by
      rw [Reader.turn, if_neg (by decide), if_pos rfl, if_neg fun hboth => hstart hboth.2]
    refine ⟨s, hturn, ?_, ?_, h.history, h.unset⟩
    · rw [Zipper.text_deleteLeft, h.line, show e.zipper.caret = 0 by omega]
      simp
    · simp only [Zipper.caret_deleteLeft]
      omega

theorem left :
    ∃ s', s.turn SHELLKEY_LEFT = some (.reading s') ∧
      s'.Agrees { e with zipper := e.zipper.left } := by
  have hcaret := h.caret
  by_cases hstart : 0 < s.caret
  · obtain ⟨char, hchar⟩ := h.charAt_before hstart
    have hturn : s.turn SHELLKEY_LEFT = some (.reading { s with caret := s.caret - 1 }) := by
      simp only [Reader.turn, SHELLKEY_LEFT, SHELLKEY_BACKSPACE, SHELLKEY_STAB, SHELLKEY_ENTER, hstart,
        hchar]
      rfl
    refine ⟨_, hturn, ?_, ?_, h.history, h.unset⟩
    · simp [h.line]
    · simp only [Zipper.caret_left]
      omega
  · have hturn : s.turn SHELLKEY_LEFT = some (.reading s) := by
      simp only [Reader.turn, SHELLKEY_LEFT, SHELLKEY_BACKSPACE, SHELLKEY_STAB, SHELLKEY_ENTER, hstart]
      rfl
    refine ⟨s, hturn, ?_, ?_, h.history, h.unset⟩
    · simp [h.line]
    · simp only [Zipper.caret_left]
      omega

theorem right :
    ∃ s', s.turn SHELLKEY_RIGHT = some (.reading s') ∧
      s'.Agrees { e with zipper := e.zipper.right } := by
  have hcaret := h.caret
  have hline : s.line.length = e.zipper.text.length := by rw [h.line]
  by_cases hend : s.caret < s.line.length
  · have hchar : ∃ char, charAt s.line s.caret = some char := by
      rw [charAt, if_neg (by omega)]
      exact ⟨_, List.getElem?_eq_getElem (by omega)⟩
    obtain ⟨char, hchar⟩ := hchar
    have hturn : s.turn SHELLKEY_RIGHT = some (.reading { s with caret := s.caret + 1 }) := by
      simp only [Reader.turn, SHELLKEY_RIGHT, SHELLKEY_LEFT, SHELLKEY_BACKSPACE, SHELLKEY_STAB,
        SHELLKEY_ENTER, hend, hchar]
      rfl
    refine ⟨_, hturn, ?_, ?_, h.history, h.unset⟩
    · simp [h.line]
    · rw [Zipper.caret_right, if_pos (by omega)]
      simp [h.caret]
  · have hturn : s.turn SHELLKEY_RIGHT = some (.reading s) := by
      simp only [Reader.turn, SHELLKEY_RIGHT, SHELLKEY_LEFT, SHELLKEY_BACKSPACE, SHELLKEY_STAB,
        SHELLKEY_ENTER, hend]
      rfl
    refine ⟨s, hturn, ?_, ?_, h.history, h.unset⟩
    · simp [h.line]
    · rw [Zipper.caret_right, if_neg (by omega)]
      exact h.caret

end

/-- Both read on, or both return. -/
def TurnsAlike (s : Reader) (e : Editor) (c : Int) : Prop :=
  (c ≠ -1 ∧ ∃ s' e', s.turn c = some (.reading s') ∧ e.turn c = .reading e' ∧ s'.Agrees e') ∨
    ∃ s' e', s.turn c = some (.returned (decide (c ≠ -1)) s') ∧
      e.turn c = .returned (decide (c ≠ -1)) e' ∧ s'.Agrees e'

theorem goesOn {c : Int} (e' : Editor) (hc : c ≠ -1)
    (hcode : ∃ s', s.turn c = some (.reading s') ∧ s'.Agrees e') (hideal : e.turn c = .reading e') : TurnsAlike s e c := by
  obtain ⟨s', hturn, hagrees⟩ := hcode
  exact Or.inl ⟨hc, s', e', hturn, hideal, hagrees⟩

theorem turn (h : s.Agrees e) {c : Int} (hc : c ≠ SHELLKEY_UP) : TurnsAlike s e c := by
  by_cases hquit : c = -1
  · subst hquit
    exact Or.inr ⟨s, e, rfl, rfl, h⟩
  by_cases henter : c = SHELLKEY_ENTER
  · subst henter
    refine Or.inr ⟨_, _, rfl, rfl, h.line, h.caret, ?_, h.unset⟩
    simp [h.line, h.history]
  by_cases hbackspace : c = SHELLKEY_BACKSPACE
  · subst hbackspace
    exact goesOn _ hquit h.deleteLeft rfl
  by_cases hleft : c = SHELLKEY_LEFT
  · subst hleft
    exact goesOn _ hquit h.left rfl
  by_cases hright : c = SHELLKEY_RIGHT
  · subst hright
    exact goesOn _ hquit h.right rfl
  by_cases hstab : c = SHELLKEY_STAB
  · subst hstab
    exact goesOn _ hquit (h.put tab) rfl
  by_cases hchar : c < 0x100
  · -- the tabulator has a branch of its own in the code, and is a character like the others
    have hturn : s.turn c = s.put (charOfKey c) := by
      by_cases htab : c = tab.toNat
      · subst htab
        rfl
      · simp only [Reader.turn, hquit, hbackspace, htab, hstab, henter, hleft, hright, hc, hchar]
        simp
    refine goesOn { e with zipper := e.zipper.insert (charOfKey c) } hquit ?_ ?_
    · rw [hturn]
      exact h.put (charOfKey c)
    · simp [Editor.turn, command, hquit, henter, hbackspace, hleft, hright, hc, hstab, hchar]
  · have htab : ¬c = tab.toNat := by
      rintro rfl
      exact hchar (by decide)
    refine goesOn e hquit ⟨s, ?_, h⟩ ?_
    · simp [Reader.turn, hquit, hbackspace, htab, hstab, henter, hleft, hright, hc, hchar]
    · simp [Editor.turn, command, hquit, henter, hbackspace, hleft, hright, hc, hstab, hchar]

end Reader.Agrees

/-! ## All keys -/

/-- `read_input_line` is entered with this line after the shell read these lines, and no arrow up. -/
def Reader.start (lines : List (List UInt8)) (line : List UInt8) : Reader :=
  { history := .ofLines lines, historyIt := none, line := line, caret := 0 }

/-- The editor with this line after these lines. -/
def Editor.start (lines : List (List UInt8)) (line : List UInt8) : Editor :=
  { history := lines, recalled := 0, zipper := .atStart line }

theorem Reader.start_agrees (lines : List (List UInt8)) (line : List UInt8) :
    (Reader.start lines line).Agrees (Editor.start lines line) :=
  ⟨rfl, rfl, History.lines_ofLines lines, rfl⟩

theorem Reader.Agrees.follows_iff (h : s.Agrees e) (keys : List Int) :
    s.Follows e keys ↔ SHELLKEY_UP ∉ keys.takeWhile fun c => c ≠ -1 := by
  induction keys generalizing s e with
  | nil =>
    simp only [List.takeWhile_nil, List.not_mem_nil, not_false_eq_true, iff_true]
    exact h.caretFits
  | cons c keys ih =>
    by_cases hup : c = SHELLKEY_UP
    · subst hup
      have hnone := h.turn_up
      have hread : SHELLKEY_UP ≠ -1 := by decide
      simp [Reader.Follows, hnone, hread]
    · rcases h.turn hup with ⟨hquit, s', e', hs, he, hagrees⟩ | ⟨s', e', hs, he, hagrees⟩
      · have hkey : SHELLKEY_UP ≠ c := fun heq => hup heq.symm
        simp [Reader.Follows, hs, he, hquit, hkey, h.caretFits, ih hagrees]
      · by_cases hquit : c = -1
        · subst hquit
          simp [Reader.Follows, hs, he, h.caretFits, hagrees.line]
        · have hkey : SHELLKEY_UP ≠ c := fun heq => hup heq.symm
          simp [Reader.Follows, hs, he, hquit, hkey, h.caretFits, hagrees.line, ih (hagrees.call [])]

/-- Whatever was read before, the shell follows the editor exactly until the first arrow up. -/
theorem readInputLine_follows_iff (lines : List (List UInt8)) (line : List UInt8) (keys : List Int) :
    (Reader.start lines line).Follows (Editor.start lines line) keys ↔
      SHELLKEY_UP ∉ keys.takeWhile fun c => c ≠ -1 :=
  (Reader.start_agrees lines line).follows_iff keys

/-- The arrow up as the first key of all, and after a line has been entered. -/
theorem readInputLine_up :
    ¬(Reader.start [] []).Follows (Editor.start [] []) [SHELLKEY_UP] ∧
      ¬(Reader.start [] []).Follows (Editor.start [] []) [97, SHELLKEY_ENTER, SHELLKEY_UP] := by
  constructor
  · rintro ⟨-, hup⟩
    exact hup
  · rintro ⟨-, -, -, -, hnext⟩
    obtain ⟨-, hup⟩ := hnext rfl
    exact hup

end MeetixOS.MxSh
