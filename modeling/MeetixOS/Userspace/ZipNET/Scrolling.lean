import MeetixOS.Lib.Runs
import MeetixOS.Userspace.ZipNET.Layouts

/-! # Scroll bars and scroll panes

`Scrollbar_t` with its conversions between the knob's place and the model, and `Scrollpane_t` with its two
bars. A division by zero is `none`; all other results wrap to `i32`. The scroll pane has its view port, and
is the handler of both bars. -/

namespace MeetixOS.ZipNET

open Kernel (s32 s32_of_range)
open Lib (System)

/-! ## The source -/

/-- `ScrollbarOrientation_t`. -/
inductive ScrollbarOrientation
  | vertical
  | horizontal
  deriving DecidableEq

/-- `Scrollbar_t`. -/
structure Scrollbar where
  orientation : ScrollbarOrientation
  modelPosition : Int := 0
  modelVisibleArea : Int := 0
  modelTotalArea : Int := 0
  dragPressPosition : Int := 0
  dragViewPosition : Int := 0
  bounds : Rectangle := .empty
  deriving DecidableEq

/-- A division of two `int`; that of the least one by -1 wraps here. -/
def intDiv (a b : Int) : Option Int := if b = 0 then none else some (s32 (a.tdiv b))

/-- The coordinate that a bar works with. -/
def ScrollbarOrientation.along (orientation : ScrollbarOrientation) (p : Point) : Int :=
  match orientation with
  | .vertical => p.y
  | .horizontal => p.x

/-- And the size. -/
def ScrollbarOrientation.length (orientation : ScrollbarOrientation) (r : Rectangle) : Int :=
  match orientation with
  | .vertical => r.height
  | .horizontal => r.width

namespace Scrollbar

def getKnobSize (bar : Scrollbar) : Option Int := do
  let size ← intDiv (s32 (bar.orientation.length bar.bounds * bar.modelVisibleArea)) bar.modelTotalArea
  some (if size < 20 then 20 else size)

def getViewMax (bar : Scrollbar) : Option Int := do
  let knobSize ← bar.getKnobSize
  some (s32 (bar.orientation.length bar.bounds - knobSize))

def calculateKnob (bar : Scrollbar) : Option Rectangle := do
  let knobSize ← bar.getKnobSize
  let viewMax ← bar.getViewMax
  let modelMax := s32 (bar.modelTotalArea - bar.modelVisibleArea)
  let modelMax := if modelMax = 0 then 1 else modelMax
  let viewPosition ← intDiv (s32 (viewMax * bar.modelPosition)) modelMax
  match bar.orientation with
  | .vertical => some (.of 0 viewPosition bar.bounds.width knobSize)
  | .horizontal => some (.of viewPosition 0 knobSize bar.bounds.height)

def setModelArea (bar : Scrollbar) (visible total : Int) : Scrollbar :=
  { bar with modelVisibleArea := visible, modelTotalArea := total }

def setModelPosition (bar : Scrollbar) (pos : Int) : Scrollbar := { bar with modelPosition := pos }

/-- `Component_t::setBounds` of a bar, which has no minimum size. -/
def setBounds (bar : Scrollbar) (x y width height : Int) : Scrollbar :=
  { bar with bounds := .of x y (if width < 0 then 0 else width) (if height < 0 then 0 else height) }

/-- `Scrollbar_t::handle`, of `MOUSE_EVENT_PRESS`. -/
def press (bar : Scrollbar) (position : Point) : Option Scrollbar := do
  let knob ← bar.calculateKnob
  some <|
    if knob.contains position then
      { bar with
        dragPressPosition := bar.orientation.along position
        dragViewPosition := bar.orientation.along ⟨knob.x, knob.y⟩ }
    else bar

/-- The place of the knob that a drag asks for. -/
def dragged (bar : Scrollbar) (position : Point) : Int :=
  s32 (bar.dragViewPosition + s32 (bar.orientation.along position - bar.dragPressPosition))

/-- `Scrollbar_t::handle`, of `MOUSE_EVENT_DRAG`, up to the call of the handler. -/
def drag (bar : Scrollbar) (position : Point) : Option Scrollbar := do
  let viewPosition := bar.dragged position
  let viewMax ← bar.getViewMax
  let viewPosition := if viewPosition < 0 then 0 else if viewPosition > viewMax then viewMax else viewPosition
  let viewMax := if viewMax = 0 then 1 else viewMax
  let modelMax := s32 (bar.modelTotalArea - bar.modelVisibleArea)
  let modelPosition ← intDiv (s32 (viewPosition * modelMax)) viewMax
  some { bar with
    modelPosition := if modelPosition < 0 then 0 else if modelPosition > modelMax then modelMax
      else modelPosition }

end Scrollbar

/-- `Scrollpane_t`, with the bounds of its view port. -/
structure Scrollpane where
  bounds : Rectangle
  viewPort : Rectangle
  scrollPosition : Point := ⟨0, 0⟩
  verticalScrollbar : Scrollbar := { orientation := .vertical }
  horizontalScrollbar : Scrollbar := { orientation := .horizontal }
  deriving DecidableEq

namespace Scrollpane

def layout (pane : Scrollpane) : Scrollpane :=
  { pane with
    verticalScrollbar :=
      (pane.verticalScrollbar.setModelArea pane.bounds.height pane.viewPort.height).setBounds
        (pane.bounds.width - 15) 0 15 (pane.bounds.height - 15)
    horizontalScrollbar :=
      (pane.horizontalScrollbar.setModelArea pane.bounds.width pane.viewPort.width).setBounds
        0 (pane.bounds.height - 15) (pane.bounds.width - 15) 15 }

/-- The limits of `Scrollpane_t::setPosition`, in one direction. -/
def limited (position viewPortSize size : Int) : Int :=
  if position > 0 then 0
  else if viewPortSize < size then 0
  else if s32 (position + viewPortSize) < size then s32 (size - viewPortSize)
  else position

def setPosition (pane : Scrollpane) (newPosition : Point) : Scrollpane :=
  let x := limited newPosition.x pane.viewPort.width pane.bounds.width
  let y := limited newPosition.y pane.viewPort.height pane.bounds.height
  { pane with scrollPosition := ⟨x, y⟩, viewPort := .of x y pane.viewPort.width pane.viewPort.height }

def handleScroll (pane : Scrollpane) : ScrollbarOrientation → Scrollpane
  | .vertical =>
    pane.setPosition ⟨pane.scrollPosition.x, s32 (-pane.verticalScrollbar.modelPosition)⟩
  | .horizontal =>
    pane.setPosition ⟨s32 (-pane.horizontalScrollbar.modelPosition), pane.scrollPosition.y⟩

/-- One of the bars. -/
def bar (pane : Scrollpane) : ScrollbarOrientation → Scrollbar
  | .vertical => pane.verticalScrollbar
  | .horizontal => pane.horizontalScrollbar

/-- The pane with one of its bars changed. -/
def setBar (pane : Scrollpane) (bar : Scrollbar) : ScrollbarOrientation → Scrollpane
  | .vertical => { pane with verticalScrollbar := bar }
  | .horizontal => { pane with horizontalScrollbar := bar }

end Scrollpane

/-- What happens to a scroll pane. -/
inductive ScrollOp
  | layout
  | press (bar : ScrollbarOrientation) (position : Point)
  | drag (bar : ScrollbarOrientation) (position : Point)
  | setModelPosition (bar : ScrollbarOrientation) (pos : Int)

/-- The pane after an operation, unless something is divided by zero. -/
def Scrollpane.step (pane : Scrollpane) : ScrollOp → Option Scrollpane
  | .layout => some pane.layout
  | .press o position => ((pane.bar o).press position).map fun bar => pane.setBar bar o
  | .drag o position => ((pane.bar o).drag position).map fun bar => (pane.setBar bar o).handleScroll o
  | .setModelPosition o pos => some (pane.setBar ((pane.bar o).setModelPosition (s32 pos)) o)

/-! ## The knob -/

/-- The length of a bar. -/
def Scrollbar.size (bar : Scrollbar) : Int := bar.orientation.length bar.bounds

/-- The knob of a bar that is long enough can be calculated, and is inside of the bar. -/
def Scrollbar.KnobInside (bar : Scrollbar) : Prop :=
  20 ≤ bar.size → ∃ knob, bar.calculateKnob = some knob ∧ 0 ≤ knob.x ∧ 0 ≤ knob.y ∧
    knob.x + knob.width ≤ bar.bounds.width ∧ knob.y + knob.height ≤ bar.bounds.height

/-- What a bar of this length has beside its knob. -/
def room (size visible total : Int) : Int := size - max 20 (size * visible / total)

/-- The numbers of a bar whose knob is inside: there is a model, the knob is not longer than the bar,
the products fit an `i32`, and the model position is in the model, as far as the rounding shows it. -/
def KnobFits (size visible total position : Int) : Prop :=
  0 < total ∧ size * visible < 2 ^ 31 ∧ size * visible < (size + 1) * total ∧
    -(2 ^ 31) ≤ room size visible total * position ∧ room size visible total * position < 2 ^ 31 ∧
    (room size visible total = 0 ∨
      -(total - visible) < room size visible total * position ∧
        room size visible total * position < (room size visible total + 1) * (total - visible))

/-- The values of a bar are `i32`, and its areas and its length are not negative. -/
structure Scrollbar.Stored (bar : Scrollbar) : Prop where
  size : 0 ≤ bar.size
  visible : 0 ≤ bar.modelVisibleArea ∧ bar.modelVisibleArea < 2 ^ 31
  total : 0 ≤ bar.modelTotalArea ∧ bar.modelTotalArea < 2 ^ 31

section

variable {bar : Scrollbar}

theorem Scrollbar.size_lt (bar : Scrollbar) : bar.size < 2 ^ 31 := by
  obtain ⟨-, -, hwidth, hheight⟩ := bar.bounds.stored
  have hw := (s32_range bar.bounds.width).2
  have hh := (s32_range bar.bounds.height).2
  rw [hwidth] at hw
  rw [hheight] at hh
  unfold Scrollbar.size ScrollbarOrientation.length
  cases bar.orientation with
  | vertical => exact hh
  | horizontal => exact hw

theorem intDiv_eq {a b : Int} (hb : b ≠ 0) : intDiv a b = some (s32 (a.tdiv b)) := by
  rw [intDiv, if_neg hb]

theorem intDiv_unlessZero (a b : Int) :
    intDiv a (if b = 0 then 1 else b) = some (s32 (a.tdiv (if b = 0 then 1 else b))) :=
  intDiv_eq (by split <;> omega)

theorem getKnobSize_isSome (htotal : bar.modelTotalArea ≠ 0) :
    ∃ knobSize, bar.getKnobSize = some knobSize ∧ 20 ≤ knobSize := by
  refine ⟨_, by rw [Scrollbar.getKnobSize, intDiv_eq htotal]; rfl, ?_⟩
  split <;> omega

theorem getKnobSize_eq (h : bar.Stored) (htotal : 0 < bar.modelTotalArea)
    (hfits : bar.size * bar.modelVisibleArea < 2 ^ 31) :
    bar.getKnobSize = some (max 20 (bar.size * bar.modelVisibleArea / bar.modelTotalArea)) := by
  have hproduct := Int.mul_nonneg h.size h.visible.1
  have hquotient := Int.ediv_nonneg hproduct h.total.1
  have hquotient' := Int.ediv_le_self bar.modelTotalArea hproduct
  have hsize : bar.orientation.length bar.bounds = bar.size := rfl
  rw [Scrollbar.getKnobSize, intDiv_eq (by omega), hsize, s32_of_range (by omega) hfits,
    Int.tdiv_eq_ediv_of_nonneg hproduct, s32_of_range (by omega) (by omega)]
  simp only [bind, Option.bind, Option.some.injEq]
  split <;> omega

theorem room_nonneg {size visible total : Int} (hsize : 20 ≤ size) (htotal : 0 < total)
    (h : size * visible < (size + 1) * total) : 0 ≤ room size visible total := by
  have := Int.ediv_lt_of_lt_mul htotal h
  rw [room]
  omega

theorem tdiv_between {a b c : Int} (hb : 0 < b) (hlow : -b < a) (hhigh : a < (c + 1) * b) (hc : 0 ≤ c) :
    0 ≤ a.tdiv b ∧ a.tdiv b ≤ c := by
  rcases Int.lt_or_le a 0 with hneg | hpos
  · have hzero : (-a).tdiv b = 0 := Int.tdiv_eq_zero_of_lt (by omega) (by omega)
    rw [Int.neg_tdiv] at hzero
    omega
  · rw [Int.tdiv_eq_ediv_of_nonneg hpos]
    have := Int.ediv_nonneg hpos (Int.le_of_lt hb)
    have := Int.ediv_lt_of_lt_mul hb hhigh
    omega

theorem knobInside_of_fits (h : bar.Stored)
    (hfits : 20 ≤ bar.size → KnobFits bar.size bar.modelVisibleArea bar.modelTotalArea bar.modelPosition) :
    bar.KnobInside := by
  intro hsize
  obtain ⟨htotal, hproduct, hlength, hlow, hhigh, hplace⟩ := hfits hsize
  have hroom := room_nonneg hsize htotal hlength
  have hknob := getKnobSize_eq h htotal hproduct
  have hrange := bar.size_lt
  obtain ⟨hvisible, hvisible'⟩ := h.visible
  obtain ⟨-, htotal'⟩ := h.total
  have hsized : bar.orientation.length bar.bounds = bar.size := rfl
  have hmodel : s32 (bar.modelTotalArea - bar.modelVisibleArea) =
      bar.modelTotalArea - bar.modelVisibleArea := s32_of_range (by omega) (by omega)
  have hmax : bar.getViewMax = some (room bar.size bar.modelVisibleArea bar.modelTotalArea) := by
    rw [Scrollbar.getViewMax, hknob, hsized]
    simp only [bind, Option.bind, Option.some.injEq]
    rw [room] at hroom ⊢
    exact s32_of_range (by omega) (by omega)
  -- the place of the knob: at the start where there is no room, else between the ends
  have hroomLt : room bar.size bar.modelVisibleArea bar.modelTotalArea < 2 ^ 31 := by
    rw [room]
    omega
  have hview : ∃ v, intDiv (s32 (room bar.size bar.modelVisibleArea bar.modelTotalArea * bar.modelPosition))
      (if bar.modelTotalArea - bar.modelVisibleArea = 0 then 1
        else bar.modelTotalArea - bar.modelVisibleArea) = some v ∧
      0 ≤ v ∧ v ≤ room bar.size bar.modelVisibleArea bar.modelTotalArea := by
    rw [s32_of_range hlow hhigh]
    rcases hplace with hnone | ⟨hfrom, hto⟩
    · refine ⟨0, ?_, Int.le_refl 0, hroom⟩
      rw [hnone, Int.zero_mul, intDiv_eq (by split <;> omega), Int.zero_tdiv, Screen.s32_zero]
    · have hpositive : 0 < bar.modelTotalArea - bar.modelVisibleArea := by
        by_contra hneg
        have := Int.mul_nonpos_of_nonneg_of_nonpos
          (show 0 ≤ room bar.size bar.modelVisibleArea bar.modelTotalArea + 1 by omega)
          (show bar.modelTotalArea - bar.modelVisibleArea ≤ 0 by omega)
        omega
      obtain ⟨hv, hv'⟩ := tdiv_between hpositive hfrom hto hroom
      rw [if_neg (by omega), intDiv_eq (by omega)]
      refine ⟨_, rfl, ?_⟩
      rw [s32_of_range (by omega) (by omega)]
      exact ⟨hv, hv'⟩
  obtain ⟨v, hv, hv0, hvroom⟩ := hview
  have hwidth := bar.bounds.stored.2.2.1
  have hheight := bar.bounds.stored.2.2.2
  rw [room] at hvroom hroom
  have hv32 : s32 v = v := s32_of_range (by omega) (by omega)
  have hk32 : s32 (max 20 (bar.size * bar.modelVisibleArea / bar.modelTotalArea)) =
      max 20 (bar.size * bar.modelVisibleArea / bar.modelTotalArea) := s32_of_range (by omega) (by omega)
  rw [Scrollbar.calculateKnob, hknob, hmax, hmodel]
  simp only [bind, Option.bind, hv]
  have hend : v + max 20 (bar.size * bar.modelVisibleArea / bar.modelTotalArea) ≤ bar.size := by omega
  unfold Scrollbar.size at hend hk32
  cases horientation : bar.orientation with
  | vertical =>
    simp only [horientation, ScrollbarOrientation.length] at hend hk32
    refine ⟨_, rfl, ?_⟩
    simp only [Rectangle.of, Scrollbar.size, horientation, ScrollbarOrientation.length, hv32, hk32, hwidth,
      Screen.s32_zero]
    omega
  | horizontal =>
    simp only [horientation, ScrollbarOrientation.length] at hend hk32
    refine ⟨_, rfl, ?_⟩
    simp only [Rectangle.of, Scrollbar.size, horientation, ScrollbarOrientation.length, hv32, hk32, hheight,
      Screen.s32_zero]
    omega

/-- The bar has the same place and the same model. -/
structure Scrollbar.SameModel (bar bar' : Scrollbar) : Prop where
  orientation : bar'.orientation = bar.orientation
  bounds : bar'.bounds = bar.bounds
  visible : bar'.modelVisibleArea = bar.modelVisibleArea
  total : bar'.modelTotalArea = bar.modelTotalArea

theorem Scrollbar.SameModel.size {bar' : Scrollbar} (h : bar.SameModel bar') : bar'.size = bar.size := by
  rw [Scrollbar.size, h.orientation, h.bounds, Scrollbar.size]

theorem Scrollbar.SameModel.stored {bar' : Scrollbar} (h : bar.SameModel bar') (hbar : bar.Stored) :
    bar'.Stored := by
  refine ⟨?_, ?_, ?_⟩
  · rw [h.size]
    exact hbar.size
  · rw [h.visible]
    exact hbar.visible
  · rw [h.total]
    exact hbar.total

theorem press_spec (htotal : bar.modelTotalArea ≠ 0) (position : Point) :
    ∃ bar', bar.press position = some bar' ∧ bar.SameModel bar' ∧
      bar'.modelPosition = bar.modelPosition := by
  obtain ⟨knobSize, hknob, -⟩ := getKnobSize_isSome htotal
  have hmax : bar.getViewMax = some (s32 (bar.orientation.length bar.bounds - knobSize)) := by
    rw [Scrollbar.getViewMax, hknob]
    rfl
  have hsome : ∃ knob, bar.calculateKnob = some knob := by
    rw [Scrollbar.calculateKnob, hknob, hmax]
    simp only [bind, Option.bind, intDiv_unlessZero]
    cases bar.orientation with
    | vertical | horizontal => exact ⟨_, rfl⟩
  obtain ⟨knob, hsome⟩ := hsome
  refine ⟨_, by rw [Scrollbar.press, hsome]; rfl, ?_⟩
  by_cases hcontains : knob.contains position
  · rw [if_pos hcontains]
    exact ⟨⟨rfl, rfl, rfl, rfl⟩, rfl⟩
  · rw [if_neg hcontains]
    exact ⟨⟨rfl, rfl, rfl, rfl⟩, rfl⟩

/-- A bar shorter than a knob, with a model without range: a drag leads to the end, which is before
the start. -/
theorem drag_short (h : bar.Stored) (htotal : 0 < bar.modelTotalArea)
    (hrange : bar.modelTotalArea < bar.modelVisibleArea) (hsize : bar.size < 20)
    (hsmall : bar.modelVisibleArea < 35) {position : Point} (hdragged : 0 ≤ bar.dragged position) :
    bar.drag position = some { bar with modelPosition := 0 } := by
  obtain ⟨hvisible, -⟩ := h.visible
  have hproduct := Int.mul_nonneg h.size hvisible
  have hproduct' : bar.size * bar.modelVisibleArea ≤ 19 * 34 :=
    Int.mul_le_mul (by omega) (by omega) hvisible (by decide)
  have hquotient := Int.ediv_le_self bar.modelTotalArea hproduct
  have hknob := getKnobSize_eq h htotal (by omega)
  have hsized : bar.orientation.length bar.bounds = bar.size := rfl
  generalize hK : max 20 (bar.size * bar.modelVisibleArea / bar.modelTotalArea) = K at hknob
  have hmax : bar.getViewMax = some (bar.size - K) := by
    rw [Scrollbar.getViewMax, hknob, hsized]
    have := h.size
    simp only [bind, Option.bind, Option.some.injEq]
    exact s32_of_range (by omega) (by omega)
  have hmodel : s32 (bar.modelTotalArea - bar.modelVisibleArea) =
      bar.modelTotalArea - bar.modelVisibleArea := s32_of_range (by omega) (by omega)
  have hsize0 := h.size
  have hlow : -(34 * 700) ≤ (bar.size - K) * (bar.modelTotalArea - bar.modelVisibleArea) := by
    have := Int.mul_nonneg_of_nonpos_of_nonpos (show bar.size - K ≤ 0 by omega)
      (show bar.modelTotalArea - bar.modelVisibleArea ≤ 0 by omega)
    omega
  have hhigh : (bar.size - K) * (bar.modelTotalArea - bar.modelVisibleArea) ≤ 700 * 34 := by
    have := Int.mul_le_mul (show K - bar.size ≤ 700 by omega)
      (show bar.modelVisibleArea - bar.modelTotalArea ≤ 34 by omega) (by omega) (by decide)
    rw [← Int.neg_mul_neg]
    simpa using this
  have hmove : (if bar.dragged position < 0 then 0
      else if bar.dragged position > bar.size - K then bar.size - K else bar.dragged position) =
        bar.size - K := by
    rw [if_neg (by omega), if_pos (by omega)]
  rw [Scrollbar.drag, hmax, hmodel]
  simp only [bind, Option.bind, hmove]
  rw [if_neg (by omega), s32_of_range (by omega) (by omega), intDiv_eq (by omega),
    Int.mul_tdiv_cancel_left _ (by omega), hmodel]
  simp only
  rw [if_pos (by omega)]

theorem drag_spec (h : bar.Stored) (htotal : bar.modelTotalArea ≠ 0)
    (hsmall : bar.size < 20 → bar.modelVisibleArea < 35) {position : Point}
    (hrange : bar.modelVisibleArea ≤ bar.modelTotalArea ∨ (bar.size < 20 ∧ 0 ≤ bar.dragged position)) :
    ∃ bar', bar.drag position = some bar' ∧ bar.SameModel bar' ∧ 0 ≤ bar'.modelPosition ∧
      bar'.modelPosition ≤ max 0 (bar.modelTotalArea - bar.modelVisibleArea) := by
  obtain ⟨hvisible, hvisible'⟩ := h.visible
  obtain ⟨htotal0, htotal'⟩ := h.total
  by_cases hordered : bar.modelVisibleArea ≤ bar.modelTotalArea
  · obtain ⟨knobSize, hknob, -⟩ := getKnobSize_isSome htotal
    have hmax : bar.getViewMax = some (s32 (bar.orientation.length bar.bounds - knobSize)) := by
      rw [Scrollbar.getViewMax, hknob]
      rfl
    have hmodel : s32 (bar.modelTotalArea - bar.modelVisibleArea) =
        bar.modelTotalArea - bar.modelVisibleArea := s32_of_range (by omega) (by omega)
    rw [Scrollbar.drag, hmax, hmodel]
    simp only [bind, Option.bind, intDiv_unlessZero]
    refine ⟨_, rfl, ⟨rfl, rfl, rfl, rfl⟩, ?_⟩
    simp only
    -- the model position is limited last
    split
    next => omega
    next hpositive =>
      split
      next => omega
      next => omega
  · obtain ⟨hsize, hdragged⟩ := hrange.resolve_left hordered
    refine ⟨_, drag_short h (by omega) (by omega) hsize (hsmall hsize) hdragged, ⟨rfl, rfl, rfl, rfl⟩, ?_⟩
    simp only
    omega

theorem KnobFits.of_range {size visible total position position' : Int} (hsize : 20 ≤ size)
    (h : KnobFits size visible total position)
    (hproduct : room size visible total * (total - visible) < 2 ^ 31) (hlow : 0 ≤ position')
    (hhigh : position' ≤ total - visible) : KnobFits size visible total position' := by
  obtain ⟨htotal, hknob, hlength, hfrom, hto, hplace⟩ := h
  have hroom := room_nonneg hsize htotal hlength
  have hnonneg := Int.mul_nonneg hroom hlow
  have hle := Int.mul_le_mul_of_nonneg_left hhigh hroom
  refine ⟨htotal, hknob, hlength, by omega, by omega, ?_⟩
  refine hplace.imp id ?_
  rintro ⟨hfirst, hlast⟩
  have hpositive : 0 < total - visible := by
    by_contra hneg
    have := Int.mul_nonpos_of_nonneg_of_nonpos (show 0 ≤ room size visible total + 1 by omega)
      (show total - visible ≤ 0 by omega)
    omega
  rw [Int.add_mul, Int.one_mul]
  omega

end

/-! ## The pane -/

/-- An offset of the view port shows the view port up to its end, or is zero. -/
def OffsetFits (offset viewPortSize size : Int) : Prop := min 0 (size - viewPortSize) ≤ offset ∧ offset ≤ 0

theorem limited_fits {position viewPortSize size : Int} (hposition : s32 position = position)
    (hview : 0 ≤ viewPortSize ∧ viewPortSize < 2 ^ 31) (hsize : 0 ≤ size ∧ size < 2 ^ 31) :
    OffsetFits (Scrollpane.limited position viewPortSize size) viewPortSize size := by
  have hrange := s32_range position
  unfold OffsetFits Scrollpane.limited
  split
  next => omega
  next hnegative =>
    have hsum : s32 (position + viewPortSize) = position + viewPortSize :=
      s32_of_range (by omega) (by omega)
    split
    next => omega
    next hlarge =>
      split
      next hshort =>
        rw [s32_of_range (by omega) (by omega)]
        omega
      next hlong => omega

theorem s32_of_offsetFits {offset viewPortSize size : Int} (h : OffsetFits offset viewPortSize size)
    (hview : viewPortSize < 2 ^ 31) (hsize : 0 ≤ size) : s32 offset = offset := by
  obtain ⟨hlow, hhigh⟩ := h
  exact s32_of_range (by omega) (by omega)

namespace Scrollpane

/-- The sizes are not negative. -/
def Sized (pane : Scrollpane) : Prop :=
  0 ≤ pane.bounds.width ∧ 0 ≤ pane.bounds.height ∧ 0 ≤ pane.viewPort.width ∧ 0 ≤ pane.viewPort.height

/-- The view port is at an offset that fits in both directions. -/
def ViewPortFits (pane : Scrollpane) : Prop :=
  OffsetFits pane.viewPort.x pane.viewPort.width pane.bounds.width ∧
    OffsetFits pane.viewPort.y pane.viewPort.height pane.bounds.height

/-- What holds of a bar, with values that are stored: a long one has a knob inside, a short one is
of a small pane. -/
structure BarSound (o : ScrollbarOrientation) (bar : Scrollbar) : Prop where
  orientation : bar.orientation = o
  stored : bar.Stored
  fits : 20 ≤ bar.size → KnobFits bar.size bar.modelVisibleArea bar.modelTotalArea bar.modelPosition
  small : bar.size < 20 → bar.modelVisibleArea < 35

/-- What holds of a pane. -/
structure Sound (pane : Scrollpane) : Prop where
  sized : pane.Sized
  position : s32 pane.scrollPosition.x = pane.scrollPosition.x ∧
    s32 pane.scrollPosition.y = pane.scrollPosition.y
  bars : ∀ o, BarSound o (pane.bar o)

end Scrollpane

/-- A layout: each bar that gets at least 20 pixels has a knob inside of it, with its model position. A
press: there is a model. A drag: there is a model, the view port is not smaller than the pane (or the
bar is shorter than a knob and is not dragged before its start), and the product of the drag fits an
`i32`. A model position: it leaves the knob inside. -/
def ScrollOp.Proper (pane : Scrollpane) : ScrollOp → Prop
  | .layout => ∀ o : ScrollbarOrientation, 35 ≤ o.length pane.bounds →
      KnobFits (o.length pane.bounds - 15) (o.length pane.bounds) (o.length pane.viewPort)
        (pane.bar o).modelPosition
  | .press o _ => (pane.bar o).modelTotalArea ≠ 0
  | .drag o position =>
    (pane.bar o).modelTotalArea ≠ 0 ∧
      ((pane.bar o).modelVisibleArea ≤ (pane.bar o).modelTotalArea ∨
        ((pane.bar o).size < 20 ∧ 0 ≤ (pane.bar o).dragged position)) ∧
      (20 ≤ (pane.bar o).size →
        room (pane.bar o).size (pane.bar o).modelVisibleArea (pane.bar o).modelTotalArea *
          ((pane.bar o).modelTotalArea - (pane.bar o).modelVisibleArea) < 2 ^ 31)
  | .setModelPosition o pos =>
    20 ≤ (pane.bar o).size →
      KnobFits (pane.bar o).size (pane.bar o).modelVisibleArea (pane.bar o).modelTotalArea (s32 pos)

/-- A drag leaves the model position in the model, and the view port where it fits; the others leave the
view port where it is. -/
def ScrollOp.Done (pane : Scrollpane) (op : ScrollOp) (pane' : Scrollpane) : Prop :=
  match op with
  | .drag o _ =>
    (0 ≤ (pane'.bar o).modelPosition ∧ (pane'.bar o).modelPosition ≤
      max 0 ((pane'.bar o).modelTotalArea - (pane'.bar o).modelVisibleArea)) ∧ pane'.ViewPortFits
  | _ => pane'.viewPort = pane.viewPort

namespace Scrollpane

variable {pane : Scrollpane}

theorem length_range {r : Rectangle} (h : 0 ≤ r.width ∧ 0 ≤ r.height) (o : ScrollbarOrientation) :
    0 ≤ o.length r ∧ o.length r < 2 ^ 31 := by
  obtain ⟨-, -, hwidth, hheight⟩ := r.stored
  have hw := (s32_range r.width).2
  have hh := (s32_range r.height).2
  rw [hwidth] at hw
  rw [hheight] at hh
  cases o with
  | vertical => exact ⟨h.2, hh⟩
  | horizontal => exact ⟨h.1, hw⟩

theorem bar_setBar (pane : Scrollpane) (bar : Scrollbar) (o o' : ScrollbarOrientation) :
    (pane.setBar bar o).bar o' = if o' = o then bar else pane.bar o' := by
  cases o <;> cases o' <;> rfl

theorem Sound.setBar (h : pane.Sound) {bar : Scrollbar} {o : ScrollbarOrientation} (hbar : BarSound o bar) :
    (pane.setBar bar o).Sound := by
  refine ⟨?_, ?_, ?_⟩
  · cases o with
    | vertical | horizontal => exact h.sized
  · cases o with
    | vertical | horizontal => exact h.position
  · intro o'
    rw [bar_setBar]
    by_cases ho : o' = o
    · rw [if_pos ho, ho]
      exact hbar
    · rw [if_neg ho]
      exact h.bars o'

theorem bar_layout (h : pane.Sound) (o : ScrollbarOrientation) :
    (pane.layout.bar o).orientation = o ∧
      (pane.layout.bar o).size = max 0 (o.length pane.bounds - 15) ∧
      (pane.layout.bar o).modelVisibleArea = o.length pane.bounds ∧
      (pane.layout.bar o).modelTotalArea = o.length pane.viewPort ∧
      (pane.layout.bar o).modelPosition = (pane.bar o).modelPosition := by
  have horientation := (h.bars o).orientation
  obtain ⟨hrange, hrange'⟩ := length_range ⟨h.sized.1, h.sized.2.1⟩ o
  have hmax : s32 (if o.length pane.bounds - 15 < 0 then 0 else o.length pane.bounds - 15) =
      max 0 (o.length pane.bounds - 15) := by
    split
    next => rw [Screen.s32_zero]; omega
    next => rw [s32_of_range (by omega) (by omega)]; omega
  cases o with
  | vertical =>
    refine ⟨horientation, ?_, rfl, rfl, rfl⟩
    have hvertical : pane.verticalScrollbar.orientation = .vertical := horientation
    simp only [bar, layout, Scrollbar.size, Scrollbar.setBounds, Scrollbar.setModelArea, hvertical,
      ScrollbarOrientation.length, Rectangle.of]
    exact hmax
  | horizontal =>
    refine ⟨horientation, ?_, rfl, rfl, rfl⟩
    have hhorizontal : pane.horizontalScrollbar.orientation = .horizontal := horientation
    simp only [bar, layout, Scrollbar.size, Scrollbar.setBounds, Scrollbar.setModelArea, hhorizontal,
      ScrollbarOrientation.length, Rectangle.of]
    exact hmax

theorem Sound.layout (h : pane.Sound) (hproper : ScrollOp.layout.Proper pane) : pane.layout.Sound := by
  refine ⟨h.sized, h.position, ?_⟩
  intro o
  obtain ⟨horientation, hsize, hvisible, htotal, hposition⟩ := bar_layout h o
  obtain ⟨hrange, hrange'⟩ := length_range ⟨h.sized.1, h.sized.2.1⟩ o
  refine ⟨horientation, ⟨?_, ?_, ?_⟩, ?_, ?_⟩
  · rw [hsize]
    omega
  · rw [hvisible]
    exact ⟨hrange, hrange'⟩
  · rw [htotal]
    exact length_range ⟨h.sized.2.2.1, h.sized.2.2.2⟩ o
  · intro hlong
    have hfits := hproper o (by omega)
    rwa [hsize, hvisible, htotal, hposition, Int.max_eq_right (by omega)]
  · intro hshort
    omega

theorem setPosition_fits (h : pane.Sized) {p : Point} (hx : s32 p.x = p.x) (hy : s32 p.y = p.y) :
    (pane.setPosition p).ViewPortFits ∧ (pane.setPosition p).Sized ∧
      s32 (pane.setPosition p).scrollPosition.x = (pane.setPosition p).scrollPosition.x ∧
      s32 (pane.setPosition p).scrollPosition.y = (pane.setPosition p).scrollPosition.y := by
  obtain ⟨hwidth, hheight, hviewWidth, hviewHeight⟩ := h
  have hpane := length_range ⟨hwidth, hheight⟩
  have hview := length_range ⟨hviewWidth, hviewHeight⟩
  have hfitsX := limited_fits hx (hview .horizontal) (hpane .horizontal)
  have hfitsY := limited_fits hy (hview .vertical) (hpane .vertical)
  have hsX := s32_of_offsetFits hfitsX (hview .horizontal).2 hwidth
  have hsY := s32_of_offsetFits hfitsY (hview .vertical).2 hheight
  simp only [ScrollbarOrientation.length] at hfitsX hfitsY hsX hsY
  have hstored := pane.viewPort.stored
  simp only [setPosition, ViewPortFits, Sized, Rectangle.of, hsX, hsY, hstored.2.2.1, hstored.2.2.2]
  exact ⟨⟨hfitsX, hfitsY⟩, ⟨hwidth, hheight, hviewWidth, hviewHeight⟩, trivial, trivial⟩

theorem Sound.handleScroll (h : pane.Sound) (o : ScrollbarOrientation) :
    (pane.handleScroll o).Sound ∧ (pane.handleScroll o).ViewPortFits ∧
      ∀ o', (pane.handleScroll o).bar o' = pane.bar o' := by
  cases o with
  | vertical =>
    obtain ⟨hfits, hsized, hposition⟩ :=
      setPosition_fits (p := ⟨pane.scrollPosition.x, s32 (-pane.verticalScrollbar.modelPosition)⟩) h.sized
        h.position.1 (s32_s32 _)
    have hbars : ∀ o', (pane.handleScroll .vertical).bar o' = pane.bar o' := by
      intro o'
      cases o' <;> rfl
    refine ⟨⟨hsized, hposition, ?_⟩, hfits, hbars⟩
    intro o'
    exact h.bars o'
  | horizontal =>
    obtain ⟨hfits, hsized, hposition⟩ :=
      setPosition_fits (p := ⟨s32 (-pane.horizontalScrollbar.modelPosition), pane.scrollPosition.y⟩) h.sized
        (s32_s32 _) h.position.2
    have hbars : ∀ o', (pane.handleScroll .horizontal).bar o' = pane.bar o' := by
      intro o'
      cases o' <;> rfl
    refine ⟨⟨hsized, hposition, ?_⟩, hfits, hbars⟩
    intro o'
    exact h.bars o'

theorem BarSound.of_sameModel {o : ScrollbarOrientation} {bar bar' : Scrollbar} (h : BarSound o bar)
    (hsame : bar.SameModel bar')
    (hfits : 20 ≤ bar.size → KnobFits bar.size bar.modelVisibleArea bar.modelTotalArea bar'.modelPosition) :
    BarSound o bar' := by
  refine ⟨hsame.orientation.trans h.orientation, hsame.stored h.stored, ?_, ?_⟩
  · rw [hsame.size, hsame.visible, hsame.total]
    exact hfits
  · rw [hsame.size, hsame.visible]
    exact h.small

theorem Sound.step (h : pane.Sound) {op : ScrollOp} (hproper : op.Proper pane) :
    ∃ pane', pane.step op = some pane' ∧ op.Done pane pane' ∧ pane'.Sound := by
  cases op with
  | layout => exact ⟨pane.layout, rfl, rfl, h.layout hproper⟩
  | press o position =>
    have hbar := h.bars o
    obtain ⟨bar', hpress, hsame, hposition⟩ := press_spec hproper position
    refine ⟨pane.setBar bar' o, by rw [Scrollpane.step, hpress]; rfl, ?_, h.setBar ?_⟩
    · cases o <;> rfl
    · refine hbar.of_sameModel hsame ?_
      rw [hposition]
      exact hbar.fits
  | drag o position =>
    have hbar := h.bars o
    obtain ⟨htotal, hrange, hproduct⟩ := hproper
    obtain ⟨bar', hdrag, hsame, hlow, hhigh⟩ := drag_spec hbar.stored htotal hbar.small hrange
    have hsound : BarSound o bar' := by
      refine hbar.of_sameModel hsame ?_
      intro hsize
      exact (hbar.fits hsize).of_range hsize (hproduct hsize) hlow (by omega)
    obtain ⟨hsound', hfits, hbars⟩ := (h.setBar hsound).handleScroll o
    refine ⟨_, by rw [Scrollpane.step, hdrag]; rfl, ⟨?_, hfits⟩, hsound'⟩
    rw [hbars, bar_setBar, if_pos rfl, hsame.visible, hsame.total]
    exact ⟨hlow, hhigh⟩
  | setModelPosition o pos =>
    refine ⟨_, rfl, ?_, h.setBar ((h.bars o).of_sameModel ⟨rfl, rfl, rfl, rfl⟩ hproper)⟩
    cases o <;> rfl

end Scrollpane

/-! ## Runs -/

/-- The operations on a scroll pane of any size with a view port of any size. -/
def scrollSystem : System Scrollpane ScrollOp where
  init pane := pane.Sized ∧ pane.scrollPosition = ⟨0, 0⟩ ∧
    ∀ o, pane.bar o = { orientation := o }
  step := Scrollpane.step

theorem sound_of_reachable {pane : Scrollpane}
    (h : scrollSystem.Reachable (fun pane op => op.Proper pane) pane) : pane.Sound := by
  refine h.invariant ?_ ?_
  · rintro pane ⟨hsized, hposition, hbars⟩
    refine ⟨hsized, ?_, ?_⟩
    · rw [hposition]
      exact ⟨Screen.s32_zero, Screen.s32_zero⟩
    · intro o
      have hsize : (pane.bar o).size = 0 := by
        rw [hbars]
        cases o <;> exact Screen.s32_zero
      have hvisible : (pane.bar o).modelVisibleArea = 0 := by rw [hbars]
      have htotal : (pane.bar o).modelTotalArea = 0 := by rw [hbars]
      refine ⟨by rw [hbars], ⟨by omega, by omega, by omega⟩, ?_, ?_⟩
      · intro hlong
        omega
      · intro _
        omega
  · intro pane op pane' hpane hproper hstep
    obtain ⟨result, hresult, -, hsound⟩ := hpane.step hproper
    obtain rfl : result = pane' := Option.mem_unique hresult hstep
    exact hsound

/-- In every run whose operations all meet their condition, the knob of every bar of at least 20 pixels
is inside of it, nothing is divided by zero, a drag leaves the model position in the model and the view
port at an offset that fits in both directions, and the other operations leave it alone. -/
theorem scrolling_safe {pane : Scrollpane}
    (h : scrollSystem.Reachable (fun pane op => op.Proper pane) pane) :
    (∀ o, (pane.bar o).KnobInside) ∧
      ∀ op : ScrollOp, op.Proper pane → ∃ pane', pane.step op = some pane' ∧ op.Done pane pane' := by
  have hsound := sound_of_reachable h
  constructor
  · intro o
    exact knobInside_of_fits (hsound.bars o).stored (hsound.bars o).fits
  · intro op hproper
    obtain ⟨pane', hstep, hdone, -⟩ := hsound.step hproper
    exact ⟨pane', hstep, hdone⟩

/-- A pane of 100 by 100 with a view port of this size. -/
def squarePane (width height : Int) : Scrollpane :=
  { bounds := .of 0 0 100 100, viewPort := .of 0 0 width height }

theorem squarePane_init {width height : Int} (h : 0 ≤ s32 width ∧ 0 ≤ s32 height) :
    scrollSystem.init (squarePane width height) := by
  have hside : 0 ≤ (Rectangle.of 0 0 100 100).width ∧ 0 ≤ (Rectangle.of 0 0 100 100).height := by
    decide +kernel
  refine ⟨⟨hside.1, hside.2, h⟩, rfl, ?_⟩
  intro o
  cases o <;> rfl

theorem scrolling_safe_drag :
    ∃ pane pane' : Scrollpane, pane.step (.drag .vertical ⟨0, 10⟩) = some pane' ∧
      (pane'.bar .vertical).modelPosition = 35 ∧ pane'.ViewPortFits ∧ (pane.bar .vertical).KnobInside := by
  have h0 : scrollSystem.Reachable (fun pane op => op.Proper pane) (squarePane 200 300) :=
    .init (squarePane_init (by decide +kernel))
  have h1 : scrollSystem.Reachable (fun pane op => op.Proper pane) (squarePane 200 300).layout := by
    refine h0.step (a := .layout) ?_ rfl
    intro o _
    cases o <;> (unfold KnobFits; decide +kernel)
  obtain ⟨hknobs, hops⟩ := scrolling_safe h1
  have hdrag : (ScrollOp.drag .vertical ⟨0, 10⟩).Proper (squarePane 200 300).layout := by
    refine ⟨by decide +kernel, Or.inl (by decide +kernel), fun _ => by decide +kernel⟩
  obtain ⟨pane', hstep, -, hfits⟩ := hops _ hdrag
  refine ⟨_, pane', hstep, ?_, hfits, hknobs .vertical⟩
  have hresult : ((squarePane 200 300).layout.step (.drag .vertical ⟨0, 10⟩)).map
      (fun pane => (pane.bar .vertical).modelPosition) = some 35 := by decide +kernel
  rw [hstep] at hresult
  exact Option.some.inj hresult

/-- A press before the first layout, or with an empty view port, divides by zero; with a view port
smaller than the pane a drag leads to a negative model position; and a model position behind the end
puts the knob outside of the bar. -/
theorem scrolling_unsafe :
    (scrollSystem.init (squarePane 200 300) ∧
      (squarePane 200 300).step (.press .vertical ⟨0, 0⟩) = none) ∧
    (scrollSystem.init (squarePane 0 0) ∧
      (squarePane 0 0).layout.step (.press .vertical ⟨0, 0⟩) = none) ∧
    (scrollSystem.init (squarePane 50 50) ∧
      ∃ pane', (squarePane 50 50).layout.step (.drag .vertical ⟨0, -1⟩) = some pane' ∧
        (pane'.bar .vertical).modelPosition < 0) ∧
    (scrollSystem.init (squarePane 200 300) ∧
      ∃ pane', (squarePane 200 300).layout.step (.setModelPosition .vertical 1000) = some pane' ∧
        ¬(pane'.bar .vertical).KnobInside) := by
  refine ⟨⟨squarePane_init (by decide +kernel), by decide⟩,
    ⟨squarePane_init (by decide +kernel), by decide +kernel⟩,
    ⟨squarePane_init (by decide +kernel), ?_⟩, squarePane_init (by decide +kernel), ?_⟩
  · have hdrag : ((squarePane 50 50).layout.step (.drag .vertical ⟨0, -1⟩)).map
        (fun pane => (pane.bar .vertical).modelPosition) = some (-50) := by decide +kernel
    obtain ⟨pane', hstep, hposition⟩ := Option.map_eq_some_iff.1 hdrag
    exact ⟨pane', hstep, by omega⟩
  · refine ⟨_, rfl, ?_⟩
    intro hinside
    obtain ⟨knob, hknob, -, -, -, hbottom⟩ := hinside (by decide +kernel)
    have hplace : (Scrollbar.calculateKnob
        (((squarePane 200 300).layout.setBar (((squarePane 200 300).layout.bar .vertical).setModelPosition
          (s32 1000)) .vertical).bar .vertical)).map (fun knob => knob.y + knob.height) = some 313 := by
      decide +kernel
    rw [hknob] at hplace
    have hsum : knob.y + knob.height = 313 := Option.some.inj hplace
    rw [hsum] at hbottom
    exact absurd hbottom (by decide +kernel)

end MeetixOS.ZipNET
