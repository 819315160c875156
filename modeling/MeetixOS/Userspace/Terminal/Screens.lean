import Mathlib.Algebra.Order.Ring.Int

/-! # The screens of the terminal

What `GUIScreen`, `HeadlessGUIScreen` and `HeadlessScreen` do to their buffers, with the ranges of the
buffer that each operation reads and writes. What lies outside of a buffer is part of the model only to
say that an access goes there. -/

open List (forall_mem_cons not_mem_nil)

namespace MeetixOS.TerminalApp

/-! ## Common -/

/-- A range of a buffer that is read or written, and the size of the buffer. -/
structure Access where
  start : Int
  length : Int
  size : Int

/-- The range lies in the buffer. -/
def Access.Inside (a : Access) : Prop := 0 ≤ a.start ∧ a.start + a.length ≤ a.size

/-- The operations, and a new size of the canvas. -/
inductive ScreenOp
  | writeChar (c : UInt8)
  | backspace
  | moveCursor (x y : Int)
  | setColor (color : UInt8)
  | setScrollAreaScreen
  | setScrollArea (start stop : Int)
  | scroll (value : Int)
  | updateVisibleBufferSize (canvasWidth canvasHeight : Int)

/-- `charIsUtf8` and `char_is_utf8`. -/
def charIsUtf8 (c : UInt8) : Bool := c = 0x09 || c = 0x0A || c = 0x0D || (0x20 ≤ c && c ≤ 0x7E)

/-! ## The two screens with a raster -/

/-- The raster of cells, the cursor and the colour of the next character. -/
structure Raster (α : Type) where
  width : Int
  height : Int
  cursorX : Int := 0
  cursorY : Int := 0
  color : UInt8 := 0
  cell : Int → α

namespace Raster

variable {α : Type}

def size (s : Raster α) : Int := s.width * s.height

/-- The cursor behind the checks of the line. -/
def wrap (s : Raster α) (x y : Int) : Int × Int :=
  if x ≥ s.width then (0, y + 1) else if x < 0 then (s.width - 1, y - 1) else (x, y)

/-- `GUIScreen::move_cursor` and `HeadlessGUIScreen::move_cursor_unlocked`, over the way in which the
class scrolls. -/
def moveCursor (scrollUp : Raster α → Raster α × List Access) (s : Raster α) (x y : Int) :
    Raster α × List Access :=
  let p := s.wrap x y
  let s := { s with cursorX := p.1, cursorY := p.2 }
  if p.2 ≥ s.height then ({ (scrollUp s).1 with cursorY := p.2 - 1 }, (scrollUp s).2) else (s, [])

/-- The character is in its cell. -/
def put (ofChar : UInt8 → UInt8 → α) (s : Raster α) (c : UInt8) : Raster α :=
  { s with cell := Function.update s.cell (s.cursorY * s.width + s.cursorX) (ofChar c s.color) }

/-- `GUIScreen::write_char` for a character it takes, and `HeadlessGUIScreen::write_char_unlocked`. -/
def writeChar (scrollUp : Raster α → Raster α × List Access) (ofChar : UInt8 → UInt8 → α) (s : Raster α)
    (c : UInt8) : Raster α × List Access :=
  if c = 0x0A then s.moveCursor scrollUp 0 (s.cursorY + 1)
  else
    let r := (s.put ofChar c).moveCursor scrollUp (s.cursorX + 1) s.cursorY
    (r.1, ⟨s.cursorY * s.width + s.cursorX, 1, s.size⟩ :: r.2)

/-- `backspace` of both. -/
def backspace (scrollUp : Raster α → Raster α × List Access) (ofChar : UInt8 → UInt8 → α) (s : Raster α) :
    Raster α × List Access :=
  let r := s.moveCursor scrollUp (s.cursorX - 1) s.cursorY
  let r' := r.1.writeChar scrollUp ofChar 0x20
  let r'' := r'.1.moveCursor scrollUp (r'.1.cursorX - 1) r'.1.cursorY
  (r''.1, r.2 ++ r'.2 ++ r''.2)

/-- What both screens do alike; the scroll areas are not there yet. -/
def step (scrollUp : Raster α → Raster α × List Access) (ofChar : UInt8 → UInt8 → α) (s : Raster α) :
    ScreenOp → Raster α × List Access
  | .writeChar c => if charIsUtf8 c then s.writeChar scrollUp ofChar c else (s, [])
  | .backspace => s.backspace scrollUp ofChar
  | .moveCursor x y => s.moveCursor scrollUp x y
  | .setColor color => ({ s with color }, [])
  | _ => (s, [])

end Raster

/-- The scrolling of `GUIScreen`; a cell is a byte. -/
def guiScrollUp (s : Raster UInt8) : Raster UInt8 × List Access :=
  ({ s with cell := fun i => if i < s.size - s.width then s.cell (i + s.width) else 0x20 },
    [⟨s.width, s.size - s.width, s.size⟩, ⟨0, s.size - s.width, s.size⟩,
      ⟨s.size - s.width, s.width, s.size⟩])

/-- `updateVisibleBufferSize`, with 8 and 12 for the width and height of a character. -/
def updateVisibleBufferSize (s : Raster UInt8) (canvasWidth canvasHeight : Int) :
    Raster UInt8 × List Access :=
  let width := max (canvasWidth.tdiv 8) 8
  let height := max (canvasHeight.tdiv 12) 12
  if s.width < width ∨ s.height < height then
    ({ s with
        width, height
        -- of a line that is too long the rest is in the next one, unless that is copied over it
        cell := fun i =>
          let y := min (i / width) (s.height - 1)
          if i - y * width < s.width then s.cell (y * s.width + (i - y * width)) else 0
        cursorX := if s.cursorX > width then width else s.cursorX
        cursorY := if s.cursorY > height then height else s.cursorY },
      (List.range s.height.toNat).flatMap fun y : Nat =>
        [⟨y * s.width, s.width, s.size⟩, ⟨y * width, s.width, width * height⟩])
  else (s, [])

/-- `sizeof(RasterCell)`. -/
def rasterCellSize : Int := 12

/-- The scrolling of `HeadlessGUIScreen`: the number of bytes is taken for a number of cells. -/
def headlessGuiScrollUp (s : Raster (UInt8 × UInt8)) : Raster (UInt8 × UInt8) × List Access :=
  let bufferBytes := s.size * rasterCellSize
  ({ s with cell := fun i =>
      if (i + 1) * rasterCellSize ≤ bufferBytes - s.width then s.cell (i + s.width)
      else if bufferBytes - s.width ≤ i then (0, s.color) else s.cell i },
    [⟨s.width * rasterCellSize, bufferBytes - s.width, bufferBytes⟩,
      ⟨0, bufferBytes - s.width, bufferBytes⟩, ⟨bufferBytes - s.width, s.width, s.size⟩])

/-! ## The text mode -/

/-- `HeadlessScreen`, with 80 columns and 25 lines of two bytes for each character; the offset and the
scroll area are unsigned. -/
structure HeadlessScreen where
  output : Int → UInt8
  offset : Int := 0
  color : UInt8 := 0
  isScrollAreaScreen : Bool := true
  scrollAreaStart : Int := 0
  scrollAreaEnd : Int := 0

namespace HeadlessScreen

/-- A number as an unsigned one of 32 bits. -/
def unsigned (n : Int) : Int := n % 2 ^ 32

/-- The copy of a line to another place, given as offsets. -/
def copyLine (output : Int → UInt8) (dst src : Int) : Int → UInt8 := fun i =>
  if dst ≤ i ∧ i < dst + 160 then output (src + (i - dst)) else output i

def normalize (s : HeadlessScreen) : HeadlessScreen × List Access :=
  if s.offset ≥ 4000 then
    ({ s with
        offset := s.offset - 160
        output := fun i => if i < 3840 then s.output (i + 160) else if i % 2 = 0 then 0x20 else 0 },
      [⟨160, 3840, 4000⟩, ⟨0, 3840, 4000⟩, ⟨3840, 160, 4000⟩])
  else (s, [])

/-- The character is in its place. -/
def put (s : HeadlessScreen) (c : UInt8) : HeadlessScreen :=
  { s with output := Function.update (Function.update s.output s.offset c) (s.offset + 1) s.color }

def writeChar (s : HeadlessScreen) (c : UInt8) : HeadlessScreen × List Access :=
  if c = 0x0A then
    let offset := unsigned (s.offset + 160)
    { s with offset := offset - offset % 160 }.normalize
  else
    let r := { s.put c with offset := unsigned (s.offset + 2) }.normalize
    (r.1, ⟨s.offset, 2, 4000⟩ :: r.2)

/-- The loops of `scroll`: the lines from `i` on, `forward` or back, are copied. -/
def scrollDown (value start : Int) : Nat → Int → (Int → UInt8) → (Int → UInt8) × List Access
  | 0, _, output => (output, [])
  | fuel + 1, i, output =>
    if i ≥ start then
      let dst := unsigned ((i + value) * 160)
      let src := unsigned (i * 160)
      let r := scrollDown value start fuel (unsigned (i - 1)) (copyLine output dst src)
      (r.1, ⟨src, 160, 4000⟩ :: ⟨dst, 160, 4000⟩ :: r.2)
    else (output, [])

def scrollUp (value stop : Int) : Nat → Int → (Int → UInt8) → (Int → UInt8) × List Access
  | 0, _, output => (output, [])
  | fuel + 1, i, output =>
    if i < stop then
      let dst := unsigned (i * 160)
      let src := unsigned ((i + value) * 160)
      let r := scrollUp value stop fuel (i + 1) (copyLine output dst src)
      (r.1, ⟨src, 160, 4000⟩ :: ⟨dst, 160, 4000⟩ :: r.2)
    else (output, [])

def scrollStart (s : HeadlessScreen) : Int := if s.isScrollAreaScreen then 0 else s.scrollAreaStart
def scrollEnd (s : HeadlessScreen) : Int := if s.isScrollAreaScreen then 25 else s.scrollAreaEnd

/-- `scroll`. There are 25 lines, so a loop that has not ended in 26 rounds has left the screen. -/
def scroll (s : HeadlessScreen) (value : Int) : HeadlessScreen × List Access :=
  let r := if value > 0 then scrollDown value s.scrollStart 26 (unsigned (s.scrollEnd - 2)) s.output
    else scrollUp value s.scrollEnd 26 s.scrollStart s.output
  ({ s with output := r.1 }, r.2)

/-- An offset of `move_cursor`, which is unsigned before it is compared with 0. -/
def offsetOf (x y : Int) : Int :=
  let offset := unsigned (y * 160 + x * 2)
  if offset > 4000 then 4000 else offset

def step (s : HeadlessScreen) : ScreenOp → HeadlessScreen × List Access
  | .writeChar c => s.writeChar c
  | .backspace =>
    let offset := unsigned (s.offset - 2)
    ({ s with offset, output := Function.update s.output offset 0x20 }, [⟨offset, 1, 4000⟩])
  | .moveCursor x y => ({ s with offset := offsetOf x y }, [])
  | .setColor color => ({ s with color }, [])
  | .setScrollAreaScreen => ({ s with isScrollAreaScreen := true }, [])
  | .setScrollArea start stop =>
    ({ s with
        isScrollAreaScreen := false
        scrollAreaStart := unsigned (min start 25)
        scrollAreaEnd := unsigned (min stop 25) }, [])
  | .scroll value => s.scroll value
  | .updateVisibleBufferSize _ _ => (s, [])

end HeadlessScreen

/-! ## Runs -/

/-- One of the three screens. -/
inductive AnyScreen
  | gui (s : Raster UInt8)
  | headlessGui (s : Raster (UInt8 × UInt8))
  | headless (s : HeadlessScreen)

/-- The cursor is in the raster. -/
structure Raster.Inside {α : Type} (s : Raster α) : Prop where
  x : 0 ≤ s.cursorX ∧ s.cursorX < s.width
  y : 0 ≤ s.cursorY ∧ s.cursorY < s.height

/-- The offset is that of a character of the screen. -/
def HeadlessScreen.Inside (s : HeadlessScreen) : Prop := 0 ≤ s.offset ∧ s.offset < 4000 ∧ s.offset % 2 = 0

/-- The line up to which the cursor may go: the one behind the last where the class can scroll. -/
def Raster.lastLine {α : Type} (scrolls : Bool) (s : Raster α) : Int :=
  if scrolls then s.height else s.height - 1

/-- What an operation must not do with a raster: go above the first line, from its begin back, or below
the `lastLine`. -/
def Raster.Fits {α : Type} (scrolls : Bool) (s : Raster α) : ScreenOp → Prop
  | .writeChar c => charIsUtf8 c = true →
      (if c = 0x0A then s.cursorY + 1 else (s.wrap (s.cursorX + 1) s.cursorY).2) ≤ s.lastLine scrolls
  | .backspace => 0 < s.cursorX ∨ 0 < s.cursorY
  | .moveCursor x y => 0 ≤ (s.wrap x y).2 ∧ (s.wrap x y).2 ≤ s.lastLine scrolls
  | _ => True

/-- Text mode does not go back from the begin, move off the screen, or copy lines from or to outside of
it. The first loop of `scroll` has no end where the area begins at 0. -/
def HeadlessScreen.Fits (s : HeadlessScreen) : ScreenOp → Prop
  | .backspace => 2 ≤ s.offset
  | .moveCursor x y => unsigned (y * 160 + x * 2) < 4000
  | .scroll value =>
    if value > 0 then
      s.scrollStart ≤ unsigned (s.scrollEnd - 2) →
        0 < s.scrollStart ∧ unsigned (s.scrollEnd - 2) + value ≤ 24
    else s.scrollStart < s.scrollEnd → 0 ≤ s.scrollStart + value ∧ s.scrollEnd ≤ 25
  | _ => True

/-- A character that ends the last line moves all lines up and leaves a blank one. -/
def Raster.Feeds {α : Type} (ofChar : UInt8 → UInt8 → α) (blank : α) (s s' : Raster α) (c : UInt8) : Prop :=
  charIsUtf8 c = true → s.cursorY = s.height - 1 → c = 0x0A ∨ s.cursorX = s.width - 1 →
    ∀ i, s'.cell i = if i < s.size - s.width then
      (if c = 0x0A then s else s.put ofChar c).cell (i + s.width) else blank

/-- The same in text mode. -/
def HeadlessScreen.Feeds (s s' : HeadlessScreen) (c : UInt8) : Prop :=
  3840 ≤ s.offset → c = 0x0A ∨ s.offset = 3998 →
    ∀ i, s'.output i = if i < 3840 then (if c = 0x0A then s else s.put c).output (i + 160)
      else if i % 2 = 0 then 0x20 else 0

namespace AnyScreen

def step : AnyScreen → ScreenOp → AnyScreen × List Access
  | gui s, .updateVisibleBufferSize width height =>
    let r := updateVisibleBufferSize s width height
    (gui r.1, r.2)
  | gui s, op =>
    let r := s.step guiScrollUp (fun c _ => c) op
    (gui r.1, r.2)
  | headlessGui s, op =>
    let r := s.step headlessGuiScrollUp Prod.mk op
    (headlessGui r.1, r.2)
  | headless s, op =>
    let r := s.step op
    (headless r.1, r.2)

def Inside : AnyScreen → Prop
  | gui s => s.Inside
  | headlessGui s => s.Inside
  | headless s => s.Inside

/-- A new raster of a `GUIScreen` is not smaller in one direction. -/
def Fits : AnyScreen → ScreenOp → Prop
  | gui s, .updateVisibleBufferSize width height =>
    s.width < max (width.tdiv 8) 8 ∨ s.height < max (height.tdiv 12) 12 →
      s.width ≤ max (width.tdiv 8) 8 ∧ s.height ≤ max (height.tdiv 12) 12
  | gui s, op => s.Fits true op
  | headlessGui s, op => s.Fits false op
  | headless s, op => s.Fits op

def Feeds : AnyScreen → ScreenOp → AnyScreen → Prop
  | gui s, .writeChar c, gui s' => s.Feeds (fun c _ => c) 0x20 s' c
  | headlessGui s, .writeChar c, headlessGui s' => s.Feeds Prod.mk (0, s.color) s' c
  | headless s, .writeChar c, headless s' => s.Feeds s' c
  | _, _, _ => True

/-- Every operation of a run keeps the cursor inside, stays in the buffer and feeds lines as it should. -/
def RunSafe (s : AnyScreen) : List ScreenOp → Prop
  | [] => True
  | op :: ops => (s.step op).1.Inside ∧ (∀ a ∈ (s.step op).2, a.Inside) ∧ s.Feeds op (s.step op).1 ∧
      RunSafe (s.step op).1 ops

/-- All operations of a run fit. -/
def RunFits (s : AnyScreen) : List ScreenOp → Prop
  | [] => True
  | op :: ops => s.Fits op ∧ RunFits (s.step op).1 ops

end AnyScreen

/-! ## Rasters -/

theorem row_inside {y h w width height : Int} (hy : 0 ≤ y) (hyh : y < h) (hw : 0 ≤ w) (hwidth : w ≤ width)
    (hheight : h ≤ height) : 0 ≤ y * width ∧ y * width + w ≤ width * height := by
  have hnonneg : 0 ≤ y * width := Int.mul_nonneg hy (by omega)
  have hrow : (y + 1) * width ≤ height * width := Int.mul_le_mul_of_nonneg_right (by omega) (by omega)
  rw [Int.add_mul, Int.one_mul, Int.mul_comm height] at hrow
  omega

namespace Raster

variable {α : Type} {s s' : Raster α} {scrollUp : Raster α → Raster α × List Access} {scrolls : Bool}
  {ofChar : UInt8 → UInt8 → α} {x y : Int}

theorem Inside.cell_inside (h : s.Inside) :
    (⟨s.cursorY * s.width + s.cursorX, 1, s.size⟩ : Access).Inside := by
  obtain ⟨hx, hy⟩ := h
  have hrow := row_inside hy.1 hy.2 (by omega) (Int.le_refl s.width) (Int.le_refl s.height)
  constructor <;> simp only [size] <;> omega

theorem wrap_x (hw : 0 < s.width) : 0 ≤ (s.wrap x y).1 ∧ (s.wrap x y).1 < s.width := by
  unfold wrap
  split_ifs <;> simp only <;> omega

/-- The way of scrolling stays in the buffer and leaves the raster's size and the cursor. -/
def ScrollsInside (scrollUp : Raster α → Raster α × List Access) : Prop :=
  ∀ s : Raster α, 0 < s.width → 0 < s.height →
    (scrollUp s).1.width = s.width ∧ (scrollUp s).1.height = s.height ∧
      (scrollUp s).1.cursorX = s.cursorX ∧ ∀ a ∈ (scrollUp s).2, a.Inside

theorem moveCursor_of_lt (h : (s.wrap x y).2 < s.height) :
    s.moveCursor scrollUp x y = ({ s with cursorX := (s.wrap x y).1, cursorY := (s.wrap x y).2 }, []) := by
  rw [moveCursor, if_neg (Int.not_le.2 h)]

theorem moveCursor_spec (hscroll : scrolls = true → ScrollsInside scrollUp) (hw : 0 < s.width)
    (hh : 0 < s.height) (hy : 0 ≤ (s.wrap x y).2) (hlast : (s.wrap x y).2 ≤ s.lastLine scrolls) :
    (s.moveCursor scrollUp x y).1.Inside ∧ ∀ a ∈ (s.moveCursor scrollUp x y).2, a.Inside := by
  have hx := wrap_x (x := x) (y := y) hw
  by_cases hlt : (s.wrap x y).2 < s.height
  · rw [moveCursor_of_lt hlt]
    exact ⟨⟨hx, hy, hlt⟩, fun a ha => absurd ha not_mem_nil⟩
  · unfold lastLine at hlast
    split at hlast
    next hscrolls =>
      obtain ⟨hwidth, hheight, hcursor, haccesses⟩ := hscroll hscrolls
        { s with cursorX := (s.wrap x y).1, cursorY := (s.wrap x y).2 } hw hh
      rw [moveCursor, if_pos (Int.not_lt.1 hlt)]
      refine ⟨⟨?_, ?_⟩, haccesses⟩ <;> simp only [hwidth, hheight, hcursor] <;> omega
    next => omega

theorem writeChar_spec (hscroll : scrolls = true → ScrollsInside scrollUp) (h : s.Inside) {c : UInt8}
    (hlast : (if c = 0x0A then s.cursorY + 1 else (s.wrap (s.cursorX + 1) s.cursorY).2) ≤
      s.lastLine scrolls) :
    (s.writeChar scrollUp ofChar c).1.Inside ∧ ∀ a ∈ (s.writeChar scrollUp ofChar c).2, a.Inside := by
  have hx := h.x
  have hy := h.y
  unfold writeChar
  split at hlast
  next hc =>
    have hwrap : s.wrap 0 (s.cursorY + 1) = (0, s.cursorY + 1) := by
      rw [wrap, if_neg (by omega), if_neg (by omega)]
    rw [if_pos hc]
    exact moveCursor_spec hscroll (by omega) (by omega) (by rw [hwrap]; dsimp only; omega) (by rwa [hwrap])
  next hc =>
    rw [if_neg hc]
    have hnonneg : 0 ≤ (s.wrap (s.cursorX + 1) s.cursorY).2 := by
      unfold wrap
      split_ifs <;> simp only <;> omega
    have hw : 0 < s.width := Int.lt_of_le_of_lt hx.1 hx.2
    have hh : 0 < s.height := Int.lt_of_le_of_lt hy.1 hy.2
    obtain ⟨hin, haccesses⟩ := moveCursor_spec (s := s.put ofChar c) hscroll hw hh hnonneg hlast
    exact ⟨hin, forall_mem_cons.2 ⟨h.cell_inside, haccesses⟩⟩

theorem wrap_back (h : s.Inside) (hback : 0 < s.cursorX ∨ 0 < s.cursorY) :
    (0 ≤ (s.wrap (s.cursorX - 1) s.cursorY).2 ∧ (s.wrap (s.cursorX - 1) s.cursorY).2 < s.height) ∧
      s.wrap ((s.wrap (s.cursorX - 1) s.cursorY).1 + 1) (s.wrap (s.cursorX - 1) s.cursorY).2 =
        (s.cursorX, s.cursorY) := by
  obtain ⟨hx, hy⟩ := h
  by_cases hzero : s.cursorX = 0
  · have hfirst : s.wrap (s.cursorX - 1) s.cursorY = (s.width - 1, s.cursorY - 1) := by
      rw [wrap, if_neg (by omega), if_pos (by omega)]
    rw [hfirst, wrap, if_pos (by omega), hzero, Int.sub_add_cancel]
    refine ⟨?_, rfl⟩
    omega
  · have hfirst : s.wrap (s.cursorX - 1) s.cursorY = (s.cursorX - 1, s.cursorY) := by
      rw [wrap, if_neg (by omega), if_neg (by omega)]
    rw [hfirst, Int.sub_add_cancel, wrap, if_neg (by omega), if_neg (by omega)]
    exact ⟨hy, rfl⟩

theorem backspace_spec (h : s.Inside) (hback : 0 < s.cursorX ∨ 0 < s.cursorY) :
    (s.backspace scrollUp ofChar).1.Inside ∧ ∀ a ∈ (s.backspace scrollUp ofChar).2, a.Inside := by
  obtain ⟨⟨hy, hlt⟩, hforth⟩ := wrap_back h hback
  have hx := wrap_x (x := s.cursorX - 1) (y := s.cursorY) (Int.lt_of_le_of_lt h.x.1 h.x.2)
  let back : Raster α :=
    { s with
      cursorX := (s.wrap (s.cursorX - 1) s.cursorY).1
      cursorY := (s.wrap (s.cursorX - 1) s.cursorY).2 }
  let written : Raster α := { back.put ofChar 0x20 with cursorX := s.cursorX, cursorY := s.cursorY }
  have hin : back.Inside := ⟨hx, hy, hlt⟩
  have hwrap : (back.put ofChar 0x20).wrap (back.cursorX + 1) back.cursorY = (s.cursorX, s.cursorY) := hforth
  have hback : s.moveCursor scrollUp (s.cursorX - 1) s.cursorY = (back, []) := moveCursor_of_lt hlt
  have hwrite : back.writeChar scrollUp ofChar 0x20 =
      (written, [⟨back.cursorY * back.width + back.cursorX, 1, back.size⟩]) := by
    rw [writeChar, if_neg (by decide), moveCursor_of_lt (by rw [hwrap]; exact h.y.2), hwrap]
  have hagain : written.moveCursor scrollUp (written.cursorX - 1) written.cursorY =
      ({ back.put ofChar 0x20 with }, []) := moveCursor_of_lt hlt
  rw [backspace, hback]
  rw [hwrite]
  rw [hagain]
  exact ⟨⟨hx, hy, hlt⟩, forall_mem_cons.2 ⟨hin.cell_inside, fun a ha => absurd ha not_mem_nil⟩⟩

theorem step_spec (hscroll : scrolls = true → ScrollsInside scrollUp) (h : s.Inside) {op : ScreenOp}
    (hfits : s.Fits scrolls op) :
    (s.step scrollUp ofChar op).1.Inside ∧ ∀ a ∈ (s.step scrollUp ofChar op).2, a.Inside := by
  have hstay : s.Inside ∧ ∀ a ∈ ([] : List Access), a.Inside := ⟨h, fun a ha => absurd ha not_mem_nil⟩
  cases op with
  | writeChar c =>
    rw [step]
    split
    next hc => exact writeChar_spec hscroll h (hfits hc)
    next => exact hstay
  | backspace => exact backspace_spec h hfits
  | moveCursor x y =>
    exact moveCursor_spec hscroll (Int.lt_of_le_of_lt h.x.1 h.x.2) (Int.lt_of_le_of_lt h.y.1 h.y.2)
      hfits.1 hfits.2
  | setColor color => exact ⟨⟨h.x, h.y⟩, hstay.2⟩
  | setScrollAreaScreen => exact hstay
  | setScrollArea start stop | scroll value | updateVisibleBufferSize width height => exact hstay

end Raster

theorem guiScrollUp_inside : Raster.ScrollsInside guiScrollUp := by
  intro s hw hh
  have hrow : s.width ≤ s.size := by
    have hle := row_inside (Int.le_refl 0) hh (Int.le_of_lt hw) (Int.le_refl s.width)
      (Int.le_refl s.height)
    rw [Int.zero_mul, Int.zero_add] at hle
    exact hle.2
  refine ⟨rfl, rfl, rfl, ?_⟩
  simp only [guiScrollUp, forall_mem_cons, Access.Inside, not_mem_nil, false_implies, implies_true,
    and_true]
  omega

theorem moveCursor_cell {s : Raster UInt8} {x y : Int} (h : s.height ≤ (s.wrap x y).2) (i : Int) :
    (s.moveCursor guiScrollUp x y).1.cell i =
      if i < s.size - s.width then s.cell (i + s.width) else 0x20 := by
  rw [Raster.moveCursor, if_pos h]
  rfl

theorem gui_feeds {s : Raster UInt8} (h : s.Inside) (c : UInt8) :
    s.Feeds (fun c _ => c) 0x20 (s.step guiScrollUp (fun c _ => c) (.writeChar c)).1 c := by
  intro hc hlast hend i
  have hx := h.x
  rw [Raster.step, if_pos hc, Raster.writeChar]
  by_cases hline : c = 0x0A
  · rw [if_pos hline, if_pos hline]
    refine moveCursor_cell ?_ i
    rw [Raster.wrap, if_neg (by omega), if_neg (by omega)]
    omega
  · rw [if_neg hline, if_neg hline]
    refine moveCursor_cell ?_ i
    rw [Raster.wrap, if_pos (Int.le_of_eq (by
      rw [hend.resolve_left hline, Int.sub_add_cancel]; rfl)), hlast, Int.sub_add_cancel]
    exact Int.le_refl s.height

theorem updateVisibleBufferSize_spec {s : Raster UInt8} (h : s.Inside) {width height : Int}
    (hfits : (AnyScreen.gui s).Fits (.updateVisibleBufferSize width height)) :
    (updateVisibleBufferSize s width height).1.Inside ∧
      ∀ a ∈ (updateVisibleBufferSize s width height).2, a.Inside := by
  obtain ⟨hx, hy⟩ := h
  rw [AnyScreen.Fits] at hfits
  unfold updateVisibleBufferSize
  generalize max (width.tdiv 8) 8 = width at hfits ⊢
  generalize max (height.tdiv 12) 12 = height at hfits ⊢
  dsimp only
  split
  next hgrows =>
    obtain ⟨hw, hh⟩ := hfits hgrows
    rw [if_neg (by omega), if_neg (by omega)]
    refine ⟨⟨⟨hx.1, Int.lt_of_lt_of_le hx.2 hw⟩, ⟨hy.1, Int.lt_of_lt_of_le hy.2 hh⟩⟩, fun a ha => ?_⟩
    obtain ⟨y, hmem, ha⟩ := List.mem_flatMap.1 ha
    have hlt := List.mem_range.1 hmem
    have hold := row_inside (y := y) (by omega) (by omega) (by omega) (Int.le_refl s.width)
      (Int.le_refl s.height)
    have hnew := row_inside (y := y) (by omega) (by omega) (by omega) hw hh
    simp only [List.mem_cons, not_mem_nil, or_false] at ha
    rcases ha with rfl | rfl
    · exact hold
    · exact hnew
  next => exact ⟨⟨hx, hy⟩, fun a ha => absurd ha not_mem_nil⟩

/-! ## The text mode -/

namespace HeadlessScreen

variable {s : HeadlessScreen}

theorem unsigned_of_nonneg {n : Int} (h : 0 ≤ n) (hlt : n < 2 ^ 32) : unsigned n = n :=
  Int.emod_eq_of_lt h hlt

theorem normalize_spec (h : 0 ≤ s.offset ∧ s.offset < 4160 ∧ s.offset % 2 = 0) :
    s.normalize.1.Inside ∧ ∀ a ∈ s.normalize.2, a.Inside := by
  unfold normalize
  split
  next =>
    simp only [Inside, forall_mem_cons, Access.Inside, not_mem_nil, false_implies, implies_true,
      and_true]
    omega
  next hlt => exact ⟨⟨h.1, Int.not_le.1 hlt, h.2.2⟩, fun a ha => absurd ha not_mem_nil⟩

theorem writeChar_spec (h : s.Inside) (c : UInt8) :
    (s.writeChar c).1.Inside ∧ ∀ a ∈ (s.writeChar c).2, a.Inside := by
  unfold Inside at h
  unfold writeChar
  split
  next =>
    rw [unsigned_of_nonneg (by omega) (by omega)]
    exact normalize_spec (by dsimp only; omega)
  next =>
    rw [unsigned_of_nonneg (by omega) (by omega)]
    obtain ⟨hin, haccesses⟩ := normalize_spec (s := { s.put c with offset := s.offset + 2 })
      (by dsimp only; omega)
    refine ⟨hin, forall_mem_cons.2 ⟨?_, haccesses⟩⟩
    constructor <;> dsimp only <;> omega

theorem feeds (h : s.Inside) (c : UInt8) : s.Feeds (s.writeChar c).1 c := by
  intro hlast hend i
  unfold Inside at h
  unfold writeChar
  split
  next =>
    rw [unsigned_of_nonneg (by omega) (by omega), normalize, if_pos (by dsimp only; omega)]
  next hc =>
    have hwrap := hend.resolve_left hc
    rw [unsigned_of_nonneg (by omega) (by omega), normalize, if_pos (by dsimp only; omega)]

theorem lines_inside (dst src : Int) (hdst : 0 ≤ dst ∧ dst ≤ 24) (hsrc : 0 ≤ src ∧ src ≤ 24) :
    (⟨unsigned (src * 160), 160, 4000⟩ : Access).Inside ∧
      (⟨unsigned (dst * 160), 160, 4000⟩ : Access).Inside := by
  rw [unsigned_of_nonneg (by omega) (by omega), unsigned_of_nonneg (by omega) (by omega)]
  refine ⟨⟨?_, ?_⟩, ⟨?_, ?_⟩⟩ <;> dsimp only <;> omega

theorem scrollDown_inside {value start : Int} (hvalue : 0 < value) :
    ∀ (fuel : Nat) (i : Int) (output : Int → UInt8), (start ≤ i → 0 < start ∧ i + value ≤ 24) →
      ∀ a ∈ (scrollDown value start fuel i output).2, a.Inside := by
  intro fuel
  induction fuel with
  | zero => exact fun _ _ _ a ha => absurd ha not_mem_nil
  | succ fuel ih =>
    intro i output hfits
    rw [scrollDown]
    split
    next hle =>
      obtain ⟨hsrc, hdst⟩ := lines_inside (i + value) i (by omega) (by omega)
      rw [unsigned_of_nonneg (n := i - 1) (by omega) (by omega)]
      exact forall_mem_cons.2 ⟨hsrc, forall_mem_cons.2 ⟨hdst, ih _ _ (by omega)⟩⟩
    next => exact fun a ha => absurd ha not_mem_nil

theorem scrollUp_inside {value stop : Int} (hvalue : value ≤ 0) :
    ∀ (fuel : Nat) (i : Int) (output : Int → UInt8), (i < stop → 0 ≤ i + value ∧ stop ≤ 25) →
      ∀ a ∈ (scrollUp value stop fuel i output).2, a.Inside := by
  intro fuel
  induction fuel with
  | zero => exact fun _ _ _ a ha => absurd ha not_mem_nil
  | succ fuel ih =>
    intro i output hfits
    rw [scrollUp]
    split
    next hlt =>
      obtain ⟨hsrc, hdst⟩ := lines_inside i (i + value) (by omega) (by omega)
      exact forall_mem_cons.2 ⟨hsrc, forall_mem_cons.2 ⟨hdst, ih _ _ (by omega)⟩⟩
    next => exact fun a ha => absurd ha not_mem_nil

theorem scroll_inside {value : Int} (hfits : s.Fits (.scroll value)) :
    ∀ a ∈ (s.scroll value).2, a.Inside := by
  unfold scroll
  simp only [Fits] at hfits
  split at hfits
  next hpos =>
    rw [if_pos hpos]
    exact scrollDown_inside hpos _ _ _ hfits
  next hneg =>
    rw [if_neg hneg]
    exact scrollUp_inside (by omega) _ _ _ hfits

theorem step_spec (h : s.Inside) {op : ScreenOp} (hfits : s.Fits op) :
    (s.step op).1.Inside ∧ ∀ a ∈ (s.step op).2, a.Inside := by
  have hstay : s.Inside ∧ ∀ a ∈ ([] : List Access), a.Inside := ⟨h, fun a ha => absurd ha not_mem_nil⟩
  cases op with
  | writeChar c => exact writeChar_spec h c
  | backspace =>
    have hback : 2 ≤ s.offset := hfits
    unfold Inside at h
    rw [step, unsigned_of_nonneg (by omega) (by omega)]
    refine ⟨?_, List.forall_mem_singleton.2 ?_⟩ <;> simp only [Inside, Access.Inside] <;> omega
  | moveCursor x y =>
    have hlt : unsigned (y * 160 + x * 2) < 4000 := hfits
    refine ⟨?_, hstay.2⟩
    simp only [step, offsetOf, Inside]
    unfold unsigned at hlt ⊢
    omega
  | setColor color => exact hstay
  | setScrollAreaScreen | setScrollArea start stop | updateVisibleBufferSize width height =>
    exact hstay
  | scroll value => exact ⟨h, scroll_inside hfits⟩

end HeadlessScreen

/-! ## All screens -/

namespace AnyScreen

theorem step_spec {s : AnyScreen} (h : s.Inside) {op : ScreenOp} (hfits : s.Fits op) :
    (s.step op).1.Inside ∧ (∀ a ∈ (s.step op).2, a.Inside) := by
  cases s with
  | gui s =>
    cases op with
    | updateVisibleBufferSize width height => exact updateVisibleBufferSize_spec h hfits
    | _ => exact Raster.step_spec (fun _ : true = true => guiScrollUp_inside) h hfits
  | headlessGui s => exact Raster.step_spec (fun hno : false = true => Bool.noConfusion hno) h hfits
  | headless s => exact HeadlessScreen.step_spec h hfits

theorem step_feeds {s : AnyScreen} (h : s.Inside) {op : ScreenOp} (hfits : s.Fits op) :
    s.Feeds op (s.step op).1 := by
  cases s with
  | gui s =>
    cases op with
    | writeChar c => exact gui_feeds h c
    | _ => trivial
  | headlessGui s =>
    cases op with
    | writeChar c =>
      intro hc hlast hend
      have hle := hfits hc
      rw [Raster.lastLine, if_neg Bool.false_ne_true, hlast] at hle
      split at hle
      next => omega
      next hline =>
        rw [Raster.wrap, hend.resolve_left hline, Int.sub_add_cancel, if_pos (Int.le_refl s.width)] at hle
        omega
    | _ => trivial
  | headless s =>
    cases op with
    | writeChar c => exact HeadlessScreen.feeds h c
    | _ => trivial

/-- As long as the operations fit, every screen's cursor stays inside, every access is to a cell of the
buffer, and every line feed on the last line moves the lines up by one and blanks the last. -/
theorem screens_keep_buffer (s : AnyScreen) (ops : List ScreenOp) (h : s.Inside) (hfits : s.RunFits ops) :
    s.RunSafe ops := by
  induction ops generalizing s with
  | nil => trivial
  | cons op ops ih =>
    obtain ⟨hin, haccesses⟩ := step_spec h hfits.1
    exact ⟨hin, haccesses, step_feeds h hfits.1, ih _ hin hfits.2⟩

theorem screens_keep_buffer_feed :
    (gui { width := 2, height := 1, cell := fun _ => 0 }).RunSafe
      [.writeChar 0x41, .writeChar 0x0A, .writeChar 0x42, .backspace] :=
  screens_keep_buffer _ _ ⟨by decide, by decide⟩
    ⟨fun _ => by decide, fun _ => by decide, fun _ => by decide, Or.inl (by decide), trivial⟩

/-- One line up from the first. -/
theorem moveCursor_above_first :
    ¬ ∀ (s : AnyScreen) (ops : List ScreenOp), s.Inside → s.RunSafe ops := by
  intro hsafe
  have hrun := hsafe (gui { width := 8, height := 12, cell := fun _ => 0 }) [.moveCursor 0 (-1)]
    ⟨by decide, by decide⟩
  exact absurd hrun.1.y.1 (by decide)

end AnyScreen

end MeetixOS.TerminalApp
