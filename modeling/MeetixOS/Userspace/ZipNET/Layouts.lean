import MeetixOS.Userspace.ZipNET.DirtyCover

/-! # The layout managers

`GridLayoutManager_t::layout` and `FlowLayoutManager_t::layout`, as the bounds that they give to the children
in order. Both break a line where the running `x` and the width of the next child exceed a width. The grid
starts at the left padding and compares with the width without the paddings; all sums are `i32`. -/

namespace MeetixOS.ZipNET

open Kernel (s32 s32_of_range)

/-! ## The source -/

/-- `Graphics::Metrics::Dimension`. -/
structure Dimension where
  width : Int
  height : Int
  deriving DecidableEq

/-- `Graphics::Metrics::Insets`. -/
structure Insets where
  top : Int
  left : Int
  bottom : Int
  right : Int

/-- A child, with the sizes that a layout and `setBounds` read. -/
structure LayoutChild where
  preferredSize : Dimension
  minimumSize : Dimension
  stored : s32 preferredSize.width = preferredSize.width ∧ s32 preferredSize.height = preferredSize.height
  least : 0 ≤ minimumSize.width ∧ 0 ≤ minimumSize.height

/-- The bounds of a child after `Component_t::setBounds`. -/
def LayoutChild.setBounds (child : LayoutChild) (x y width height : Int) : Rectangle :=
  .of x y (if width < child.minimumSize.width then child.minimumSize.width else width)
    (if height < child.minimumSize.height then child.minimumSize.height else height)

/-- The loop of `FlowLayoutManager_t::layout`. -/
def flowLoop (parentWidth : Int) : List LayoutChild → (x y lineHeight : Int) → List Rectangle
  | [], _, _, _ => []
  | child :: rest, x, y, lineHeight =>
    let preferredSize := child.preferredSize
    let breaks := s32 (x + preferredSize.width) > parentWidth
    let x' := if breaks then 0 else x
    let y' := if breaks then s32 (y + lineHeight) else y
    let lineHeight' := if breaks then 0 else lineHeight
    child.setBounds x' y' preferredSize.width preferredSize.height ::
      flowLoop parentWidth rest (s32 (x' + preferredSize.width)) y'
        (if preferredSize.height > lineHeight' then preferredSize.height else lineHeight')

/-- `FlowLayoutManager_t::layout`, for a component of this width. -/
def flowLayout (parentWidth : Int) (children : List LayoutChild) : List Rectangle :=
  flowLoop parentWidth children 0 0 0

/-- `GridLayoutManager_t`, with the size of its component: at least one column and one row, and a
padding within the size. The cell spaces are not used. -/
structure GridLayoutManager where
  columns : Int
  rows : Int
  padding : Insets
  size : Dimension
  cells : 1 ≤ columns ∧ columns < 2 ^ 31 ∧ 1 ≤ rows ∧ rows < 2 ^ 31
  sized : size.width < 2 ^ 31 ∧ size.height < 2 ^ 31
  within : 0 ≤ padding.left ∧ 0 ≤ padding.right ∧ padding.left + padding.right ≤ size.width ∧
    0 ≤ padding.top ∧ 0 ≤ padding.bottom ∧ padding.top + padding.bottom ≤ size.height

namespace GridLayoutManager

/-- The width of `usedBounds`. -/
def usedWidth (grid : GridLayoutManager) : Int :=
  s32 (grid.size.width - s32 (grid.padding.left + grid.padding.right))

/-- The height of `usedBounds`. -/
def usedHeight (grid : GridLayoutManager) : Int :=
  s32 (grid.size.height - s32 (grid.padding.top + grid.padding.bottom))

def widthPerComponent (grid : GridLayoutManager) : Int :=
  if grid.columns > 0 then grid.usedWidth.tdiv grid.columns else grid.usedWidth

/-- The height that a child gets. -/
def heightOf (grid : GridLayoutManager) (child : LayoutChild) : Int :=
  if grid.rows > 0 then grid.usedHeight.tdiv grid.rows else child.preferredSize.height

/-- The loop of `GridLayoutManager_t::layout`. -/
def loop (grid : GridLayoutManager) : List LayoutChild → (x y rowHeight : Int) → List Rectangle
  | [], _, _, _ => []
  | child :: rest, x, y, rowHeight =>
    let breaks := s32 (x + grid.widthPerComponent) > grid.usedWidth
    let x' := if breaks then grid.padding.left else x
    let y' := if breaks then s32 (y + rowHeight) else y
    let rowHeight' := if breaks then 0 else rowHeight
    child.setBounds x' y' grid.widthPerComponent (grid.heightOf child) ::
      grid.loop rest (s32 (x' + grid.widthPerComponent)) y'
        (if grid.heightOf child > rowHeight' then grid.heightOf child else rowHeight')

def layout (grid : GridLayoutManager) (children : List LayoutChild) : List Rectangle :=
  grid.loop children grid.padding.left grid.padding.top 0

end GridLayoutManager

/-! ## Rectangles that are apart -/

/-- Two rectangles have no pixel in common. -/
def Rectangle.Apart (r r' : Rectangle) : Prop := ∀ p, ¬(r.Spans p ∧ r'.Spans p)

theorem LayoutChild.setBounds_eq {child : LayoutChild} {width height : Int} (x y : Int)
    (h : child.minimumSize.width ≤ width ∧ child.minimumSize.height ≤ height) :
    child.setBounds x y width height = .of x y width height := by
  rw [LayoutChild.setBounds, if_neg (Int.not_lt.mpr h.1), if_neg (Int.not_lt.mpr h.2)]

/-! ## The flow -/

/-- The lines, without bounds: a child begins a new line exactly if it does not fit. -/
def flowLines (parentWidth : Int) : List Dimension → (x y lineHeight : Int) → List (Int × Int × Dimension)
  | [], _, _, _ => []
  | size :: rest, x, y, lineHeight =>
    if x + size.width ≤ parentWidth then
      (x, y, size) :: flowLines parentWidth rest (x + size.width) y (max lineHeight size.height)
    else
      (0, y + lineHeight, size) ::
        flowLines parentWidth rest size.width (y + lineHeight) size.height

/-- All sums of the lines fit into an `i32`. -/
def FlowFits (parentWidth : Int) : List Dimension → (x y lineHeight : Int) → Prop
  | [], _, _, _ => True
  | size :: rest, x, y, lineHeight =>
    x + size.width < 2 ^ 31 ∧
      if x + size.width ≤ parentWidth then
        FlowFits parentWidth rest (x + size.width) y (max lineHeight size.height)
      else
        y + lineHeight < 2 ^ 31 ∧
          FlowFits parentWidth rest size.width (y + lineHeight) size.height

/-- The children are placed line by line, and no two of them overlap. -/
def FlowPlaced (parentWidth : Int) (children : List LayoutChild) (bounds : List Rectangle) : Prop :=
  bounds.map (fun r => (r.x, r.y, (⟨r.width, r.height⟩ : Dimension))) =
      flowLines parentWidth (children.map LayoutChild.preferredSize) 0 0 0 ∧
    bounds.Pairwise Rectangle.Apart

/-- An area of the lines has a pixel. -/
def Area.Spans (area : Int × Int × Dimension) (p : Point) : Prop :=
  area.1 ≤ p.x ∧ p.x < area.1 + area.2.2.width ∧ area.2.1 ≤ p.y ∧ p.y < area.2.1 + area.2.2.height

section

variable (parentWidth : Int) (sizes : List Dimension)
  (hsizes : ∀ size ∈ sizes, 0 ≤ size.width ∧ 0 ≤ size.height) (x y lineHeight : Int)
include hsizes

theorem flowLines_behind :
    ∀ area ∈ flowLines parentWidth sizes x y lineHeight,
      (area.2.1 = y ∧ x ≤ area.1) ∨ y + lineHeight ≤ area.2.1 := by
  induction sizes generalizing x y lineHeight with
  | nil => exact fun area harea => absurd harea List.not_mem_nil
  | cons size rest ih =>
    intro area harea
    obtain ⟨hwidth, hheight⟩ := hsizes size List.mem_cons_self
    have hrest : ∀ size ∈ rest, 0 ≤ size.width ∧ 0 ≤ size.height :=
      fun size hsize => hsizes size (List.mem_cons_of_mem _ hsize)
    rw [flowLines] at harea
    split at harea
    next hfits =>
      rcases List.mem_cons.1 harea with rfl | harea
      · exact Or.inl ⟨rfl, Int.le_refl x⟩
      · rcases ih hrest _ _ _ area harea with ⟨hline, hbehind⟩ | hbelow
        · exact Or.inl ⟨hline, by omega⟩
        · exact Or.inr (by omega)
    next hbreaks =>
      right
      rcases List.mem_cons.1 harea with rfl | harea
      · exact Int.le_refl _
      · rcases ih hrest _ _ _ area harea with ⟨hline, -⟩ | hbelow
        · omega
        · omega

theorem flowLines_apart :
    (flowLines parentWidth sizes x y lineHeight).Pairwise fun a b =>
      ∀ p, ¬(Area.Spans a p ∧ Area.Spans b p) := by
  induction sizes generalizing x y lineHeight with
  | nil => exact List.Pairwise.nil
  | cons size rest ih =>
    have hrest : ∀ size ∈ rest, 0 ≤ size.width ∧ 0 ≤ size.height :=
      fun size hsize => hsizes size (List.mem_cons_of_mem _ hsize)
    -- a later area is behind the first one, or below its line
    have hfirst : ∀ x y lineHeight : Int, size.height ≤ lineHeight →
        ∀ b ∈ flowLines parentWidth rest (x + size.width) y lineHeight,
          ∀ p, ¬(Area.Spans (x, y, size) p ∧ Area.Spans b p) := by
      rintro x y lineHeight hheight b hb p ⟨⟨-, hright, -, hbottom⟩, hleft, -, htop, -⟩
      simp only at hright hbottom
      rcases flowLines_behind parentWidth rest hrest _ _ _ b hb with ⟨-, hbehind⟩ | hbelow
      · omega
      · omega
    rw [flowLines]
    split
    next hfits => exact List.pairwise_cons.2 ⟨hfirst x y _ (by omega), ih hrest _ _ _⟩
    next hbreaks =>
      refine List.pairwise_cons.2 ⟨?_, ih hrest _ _ _⟩
      have hnew := hfirst 0 (y + lineHeight) size.height (Int.le_refl _)
      rwa [Int.zero_add] at hnew

end

section

variable {parentWidth : Int} (hparent : 0 ≤ parentWidth) (hparent' : parentWidth < 2 ^ 31)
  (children : List LayoutChild)
  (hchildren : ∀ child ∈ children, child.minimumSize.width ≤ child.preferredSize.width ∧
    child.minimumSize.height ≤ child.preferredSize.height)
include hparent hparent' hchildren

/-- The areas of the lines, exactly where all sums fit. Where one does not, the child is not at the
left edge. -/
theorem flowLoop_eq_iff :
    ∀ x y lineHeight : Int, 0 ≤ x → x < 2 ^ 31 → 0 ≤ y → y < 2 ^ 31 → 0 ≤ lineHeight →
      lineHeight < 2 ^ 31 →
        ((flowLoop parentWidth children x y lineHeight).map
            (fun r => (r.x, r.y, (⟨r.width, r.height⟩ : Dimension))) =
            flowLines parentWidth (children.map LayoutChild.preferredSize) x y lineHeight ↔
          FlowFits parentWidth (children.map LayoutChild.preferredSize) x y lineHeight) := by
  induction children with
  | nil => exact fun _ _ _ _ _ _ _ _ _ => iff_of_true rfl trivial
  | cons child rest ih =>
    intro x y lineHeight hx hx' hy hy' hline hline'
    have hrest := ih fun child hchild => hchildren child (List.mem_cons_of_mem _ hchild)
    have hmin := hchildren child List.mem_cons_self
    obtain ⟨hwidth, hheight⟩ := child.least
    obtain ⟨hstored, hstored'⟩ := child.stored
    have hwrange := s32_range child.preferredSize.width
    have hhrange := s32_range child.preferredSize.height
    have hmax : ∀ a b : Int, (if b > a then b else a) = max a b := by
      intro a b
      split <;> omega
    rw [flowLoop, List.map_cons, List.map_cons, flowLines, FlowFits, child.setBounds_eq _ _ hmin, hmax]
    generalize hw : child.preferredSize.width = w at *
    generalize hh : child.preferredSize.height = h at *
    have hsize : child.preferredSize = ⟨w, h⟩ := by rw [← hw, ← hh]
    rw [hsize]
    simp only [Rectangle.of, hstored, hstored']
    by_cases hfits : x + w < 2 ^ 31
    · have hsum : s32 (x + w) = x + w := s32_of_range (by omega) (by omega)
      rw [hsum, and_iff_right hfits]
      by_cases hbreaks : x + w > parentWidth
      · have hbreaks' : ¬x + w ≤ parentWidth := by omega
        have hzero : s32 (0 + w) = w := by rw [Int.zero_add, hstored]
        have hheightMax : max 0 h = h := by omega
        simp only [if_pos hbreaks, if_neg hbreaks', hzero, s32_s32, Screen.s32_zero, hheightMax]
        by_cases hbottom : y + lineHeight < 2 ^ 31
        · have hbottom' : s32 (y + lineHeight) = y + lineHeight := s32_of_range (by omega) (by omega)
          rw [hbottom', and_iff_right hbottom,
            ← hrest w (y + lineHeight) h (by omega) (by omega) (by omega) hbottom (by omega) (by omega)]
          simp
        · refine iff_of_false ?_ fun hall => hbottom hall.1
          intro heq
          have hhead := congrArg (fun l => (List.head? l).map fun a => a.2.1) heq
          have hrange := s32_range (y + lineHeight)
          simp only [List.head?_cons, Option.map_some, Option.some.injEq] at hhead
          omega
      · have hfits' : x + w ≤ parentWidth := by omega
        have hx32 : s32 x = x := s32_of_range (by omega) (by omega)
        have hy32 : s32 y = y := s32_of_range (by omega) (by omega)
        simp only [if_neg hbreaks, if_pos hfits', hx32, hy32, hsum]
        rw [← hrest (x + w) y (max lineHeight h) (by omega) (by omega) hy hy' (by omega) (by omega)]
        simp
    · -- the sum wraps, and the child stays in its line
      have hwraps : ¬s32 (x + w) > parentWidth := by
        simp only [s32, Int.bmod_def]
        omega
      have hbreaks : ¬x + w ≤ parentWidth := by omega
      have hx32 : s32 x = x := s32_of_range (by omega) (by omega)
      refine iff_of_false ?_ fun hall => hfits hall.1
      simp only [if_neg hwraps, if_neg hbreaks, hx32]
      intro heq
      have hhead := congrArg (fun l => (List.head? l).map fun a => a.1) heq
      simp only [List.head?_cons, Option.map_some, Option.some.injEq] at hhead
      omega

theorem flowPlaced_iff :
    FlowPlaced parentWidth children (flowLayout parentWidth children) ↔
      FlowFits parentWidth (children.map LayoutChild.preferredSize) 0 0 0 := by
  rw [FlowPlaced, flowLayout, ← flowLoop_eq_iff hparent hparent' children hchildren 0 0 0 (Int.le_refl 0)
    (by decide) (Int.le_refl 0) (by decide) (Int.le_refl 0) (by decide)]
  refine ⟨fun h => h.1, fun h => ⟨h, ?_⟩⟩
  have hsizes : ∀ size ∈ children.map LayoutChild.preferredSize, 0 ≤ size.width ∧ 0 ≤ size.height := by
    intro size hsize
    obtain ⟨child, hchild, rfl⟩ := List.mem_map.1 hsize
    have hmin := hchildren child hchild
    have hleast := child.least
    omega
  have hapart := flowLines_apart parentWidth _ hsizes 0 0 0
  rw [← h, List.pairwise_map] at hapart
  exact hapart

end

/-! ## The grid -/

section

variable {left A w top B h x y : Int} (W : Int) (hleft : 0 ≤ left) (hA : 0 ≤ A) (hAw : w = 0 → A = 0)
  (hw : 0 ≤ w) (hrow : 0 ≤ top + B) (hrow' : top + B < 2 ^ 31) (hh : 0 ≤ h) (hh' : h < 2 ^ 31)
  (hx : x = left + A + w) (hy : y = top + B)
include hleft hA hAw hw hrow hrow' hh hh' hx hy

omit hAw in
theorem numbers_fit (hroom : x < 2 ^ 31) :
    s32 x = x ∧ s32 y = y ∧ s32 w = w ∧ s32 h = h ∧ s32 left = left := by
  refine ⟨?_, ?_, ?_, ?_, ?_⟩ <;> exact s32_of_range (by omega) (by omega)

/-- A step in the middle of a line, in numbers: the next child is behind the one before unless the
line is broken. -/
theorem place_inner (hroom : left + (A + w) + w < 2 ^ 31) :
    let breaks := s32 (x + w) > W
    let x' := if breaks then left else x
    let y' := if breaks then s32 (y + h) else y
    let rowHeight' := if breaks then 0 else h
    ((s32 x' = left + (A + w) ∧ s32 y' = top + B ∧ s32 w = w ∧ s32 h = h) ↔
        (w = 0 ∧ h = 0) ∨ left + (A + w) + w ≤ W) ∧
      ((w = 0 ∧ h = 0) ∨ left + (A + w) + w ≤ W →
        s32 (x' + w) = left + (A + w) + w ∧ y' = top + B ∧
          (if h > rowHeight' then h else rowHeight') = h ∧ top + B < 2 ^ 31) := by
  intro breaks x' y' rowHeight'
  have hsum : s32 (x + w) = x + w := s32_of_range (by omega) (by omega)
  obtain ⟨hx32, hy32, hw32, hh32, hleft32⟩ :=
    numbers_fit hleft hA hw hrow hrow' hh hh' hx hy (by omega)
  by_cases hbreaks : x + w > W
  · have hwide : ¬left + (A + w) + w ≤ W := by omega
    have hbelow : s32 (y + h) = top + B ↔ h = 0 := by
      simp only [s32, Int.bmod_def]
      omega
    simp only [x', y', rowHeight', breaks, hsum, if_pos hbreaks]
    rw [s32_s32, hleft32, hw32, hh32, hbelow]
    simp only [hwide, or_false, and_true]
    refine ⟨by omega, ?_⟩
    rintro ⟨hw0, hh0⟩
    have hA0 := hAw hw0
    rw [hw0, hh0, hA0, Int.add_zero, Int.add_zero, Int.add_zero, hleft32]
    simp only [gt_iff_lt, Int.lt_irrefl, if_false, true_and, Int.add_zero]
    exact hrow'
  · simp only [x', y', rowHeight', breaks, hsum, if_neg hbreaks]
    rw [hx32, hy32, hw32, hh32]
    omega

/-- A step at the end of a line, in numbers: the next child begins the next row. -/
theorem place_first {line : Int} (hline : A + w = line) (hroom : left + line < 2 ^ 31) :
    let breaks := s32 (x + w) > W
    let x' := if breaks then left else x
    let y' := if breaks then s32 (y + h) else y
    let rowHeight' := if breaks then 0 else h
    ((s32 x' = left + 0 * w ∧ s32 y' = top + (B + h) ∧ s32 w = w ∧ s32 h = h) ↔
        (w = 0 ∧ h = 0) ∨ W < s32 (left + line + w) ∧ top + (B + h) < 2 ^ 31) ∧
      ((w = 0 ∧ h = 0) ∨ W < s32 (left + line + w) ∧ top + (B + h) < 2 ^ 31 →
        s32 (x' + w) = left + 0 * w + w ∧ y' = top + (B + h) ∧
          (if h > rowHeight' then h else rowHeight') = h ∧ top + (B + h) < 2 ^ 31) := by
  intro breaks x' y' rowHeight'
  obtain ⟨hx32, hy32, hw32, hh32, hleft32⟩ :=
    numbers_fit hleft hA hw hrow hrow' hh hh' hx hy (by omega)
  have hsum : x + w = left + line + w := by omega
  by_cases hbreaks : s32 (left + line + w) > W
  · have hbelow : s32 (y + h) = top + (B + h) ↔ top + (B + h) < 2 ^ 31 := by
      simp only [s32, Int.bmod_def]
      omega
    have hlast : (if h > 0 then h else 0) = h := by
      split <;> omega
    have hfirst : s32 (left + w) = left + w := s32_of_range (by omega) (by omega)
    simp only [x', y', rowHeight', breaks, hsum, if_pos hbreaks]
    rw [s32_s32, hleft32, hw32, hh32, hbelow, hlast, hfirst]
    omega
  · have hwide : ¬W < s32 (left + line + w) := hbreaks
    simp only [x', y', rowHeight', breaks, hsum, if_neg hbreaks]
    rw [hx32, hy32, hw32, hh32]
    simp only [hwide, gt_iff_lt, Int.lt_irrefl, if_false, Int.zero_mul, Int.add_zero, false_and, or_false,
      and_true, true_and]
    refine ⟨by omega, ?_⟩
    rintro ⟨hw0, hh0⟩
    rw [← hsum, hw0, Int.add_zero, hx32]
    omega

end

namespace GridLayoutManager

section

variable (grid : GridLayoutManager)

/-- The column of child `i`. -/
def column (i : Nat) : Int := (i : Int) % grid.columns

/-- The row of child `i`. -/
def row (i : Nat) : Int := (i : Int) / grid.columns

/-- The width of a cell. -/
def cellWidth : Int := (grid.size.width - (grid.padding.left + grid.padding.right)) / grid.columns

/-- The height of a cell. -/
def cellHeight : Int := (grid.size.height - (grid.padding.top + grid.padding.bottom)) / grid.rows

/-- Child `i` has the bounds of the cell in its column and row. -/
def AtCell (i : Nat) (r : Rectangle) : Prop :=
  r.x = grid.padding.left + grid.column i * grid.cellWidth ∧
    r.y = grid.padding.top + grid.row i * grid.cellHeight ∧
    r.width = grid.cellWidth ∧ r.height = grid.cellHeight

/-- Bounds are inside of the padded area. -/
def InPadding (r : Rectangle) : Prop :=
  grid.padding.left ≤ r.x ∧ r.x + r.width ≤ grid.size.width - grid.padding.right ∧
    grid.padding.top ≤ r.y ∧ r.y + r.height ≤ grid.size.height - grid.padding.bottom

/-- Every child is in its cell, inside of the padded area as long as there are cells, and no two overlap. -/
def Placed (bounds : List Rectangle) : Prop :=
  (∀ i r, bounds[i]? = some r → grid.AtCell i r) ∧
    (∀ (i : Nat) r, bounds[i]? = some r → (i : Int) < grid.columns * grid.rows → grid.InPadding r) ∧
    bounds.Pairwise Rectangle.Apart

/-- The condition for child `i`, not the first one. In the first column, the width left of the line
before is too small for a cell, as an `i32`, and the row fits; in another one, the right edge, with the
left padding, is at most the width without the paddings. Without a size any place is right. -/
def StepFits (i : Nat) : Prop :=
  (grid.cellWidth = 0 ∧ grid.cellHeight = 0) ∨
    if grid.column i = 0 then
      grid.usedWidth < s32 (grid.padding.left + grid.columns * grid.cellWidth + grid.cellWidth) ∧
        grid.padding.top + grid.row i * grid.cellHeight < 2 ^ 31
    else grid.padding.left + grid.column i * grid.cellWidth + grid.cellWidth ≤ grid.usedWidth

/-- The condition for `n` children. The first line has all its columns: its cells, with the left
padding, are not wider than the width without the paddings. Further lines begin in time: one more cell
would be wider; and they fit an `i32`. -/
def Fits (n : Nat) : Prop :=
  (grid.cellWidth = 0 ∧ grid.cellHeight = 0) ∨
    ((n ≤ 1 ∨ grid.columns = 1 ∨
        grid.padding.left + min (n : Int) grid.columns * grid.cellWidth ≤ grid.usedWidth) ∧
      ((n : Int) ≤ grid.columns ∨
        grid.usedWidth < s32 (grid.padding.left + grid.columns * grid.cellWidth + grid.cellWidth) ∧
          grid.padding.top + grid.row (n - 1) * grid.cellHeight < 2 ^ 31))

theorem usedWidth_eq :
    grid.usedWidth = grid.size.width - (grid.padding.left + grid.padding.right) := by
  obtain ⟨hwidth, -⟩ := grid.sized
  obtain ⟨hleft, hright, hsum, -⟩ := grid.within
  rw [usedWidth, s32_of_range (n := grid.padding.left + grid.padding.right) (by omega) (by omega),
    s32_of_range (by omega) (by omega)]

theorem usedHeight_eq :
    grid.usedHeight = grid.size.height - (grid.padding.top + grid.padding.bottom) := by
  obtain ⟨-, hheight⟩ := grid.sized
  obtain ⟨-, -, -, htop, hbottom, hsum⟩ := grid.within
  rw [usedHeight, s32_of_range (n := grid.padding.top + grid.padding.bottom) (by omega) (by omega),
    s32_of_range (by omega) (by omega)]

theorem widthPerComponent_eq : grid.widthPerComponent = grid.cellWidth := by
  obtain ⟨hcolumns, -⟩ := grid.cells
  have hwithin := grid.within
  rw [widthPerComponent, if_pos (by omega), usedWidth_eq, cellWidth,
    Int.tdiv_eq_ediv_of_nonneg (by omega)]

theorem heightOf_eq (child : LayoutChild) : grid.heightOf child = grid.cellHeight := by
  obtain ⟨-, -, hrows, -⟩ := grid.cells
  have hwithin := grid.within
  rw [heightOf, if_pos (by omega), usedHeight_eq, cellHeight, Int.tdiv_eq_ediv_of_nonneg (by omega)]

theorem cellWidth_spec :
    0 ≤ grid.cellWidth ∧ grid.columns * grid.cellWidth ≤ grid.usedWidth := by
  obtain ⟨hcolumns, -⟩ := grid.cells
  have hwithin := grid.within
  rw [usedWidth_eq, cellWidth]
  exact ⟨Int.ediv_nonneg (by omega) (by omega), Int.mul_ediv_self_le (by omega)⟩

theorem cellHeight_spec :
    0 ≤ grid.cellHeight ∧ grid.rows * grid.cellHeight ≤ grid.usedHeight := by
  obtain ⟨-, -, hrows, -⟩ := grid.cells
  have hwithin := grid.within
  rw [usedHeight_eq, cellHeight]
  exact ⟨Int.ediv_nonneg (by omega) (by omega), Int.mul_ediv_self_le (by omega)⟩

theorem column_range (i : Nat) : 0 ≤ grid.column i ∧ grid.column i < grid.columns := by
  obtain ⟨hcolumns, -⟩ := grid.cells
  exact ⟨Int.emod_nonneg _ (by omega), Int.emod_lt_of_pos _ (by omega)⟩

theorem row_nonneg (i : Nat) : 0 ≤ grid.row i := by
  obtain ⟨hcolumns, -⟩ := grid.cells
  exact Int.ediv_nonneg (by omega) (by omega)

theorem cell_succ (i : Nat) :
    (grid.column i + 1 < grid.columns ∧ grid.column (i + 1) = grid.column i + 1 ∧
        grid.row (i + 1) = grid.row i) ∨
      (grid.column i + 1 = grid.columns ∧ grid.column (i + 1) = 0 ∧ grid.row (i + 1) = grid.row i + 1) := by
  obtain ⟨hlow, hhigh⟩ := grid.column_range i
  have hsplit : grid.column i + grid.columns * grid.row i = i := Int.emod_add_mul_ediv _ _
  have hpos : 0 < grid.columns := by omega
  rcases Int.lt_or_eq_of_le (show grid.column i + 1 ≤ grid.columns by omega) with hlt | heq
  · left
    have hnext := (Int.ediv_emod_unique (a := ((i + 1 : Nat) : Int))
      (q := grid.row i) hpos).2 ⟨by push_cast; omega, by omega, hlt⟩
    exact ⟨hlt, hnext.2, hnext.1⟩
  · right
    have hnext := (Int.ediv_emod_unique (a := ((i + 1 : Nat) : Int))
      (q := grid.row i + 1) hpos).2 ⟨by rw [Int.mul_add]; push_cast; omega, by omega, hpos⟩
    exact ⟨heq, hnext.2, hnext.1⟩

theorem step_spec (i : Nat) (hrow : grid.padding.top + grid.row i * grid.cellHeight < 2 ^ 31) :
    let x := grid.padding.left + grid.column i * grid.cellWidth + grid.cellWidth
    let y := grid.padding.top + grid.row i * grid.cellHeight
    let breaks := s32 (x + grid.cellWidth) > grid.usedWidth
    let x' := if breaks then grid.padding.left else x
    let y' := if breaks then s32 (y + grid.cellHeight) else y
    let rowHeight' := if breaks then 0 else grid.cellHeight
    (grid.AtCell (i + 1) (.of x' y' grid.cellWidth grid.cellHeight) ↔ grid.StepFits (i + 1)) ∧
      (grid.StepFits (i + 1) →
        s32 (x' + grid.cellWidth) =
            grid.padding.left + grid.column (i + 1) * grid.cellWidth + grid.cellWidth ∧
          y' = grid.padding.top + grid.row (i + 1) * grid.cellHeight ∧
          (if grid.cellHeight > rowHeight' then grid.cellHeight else rowHeight') = grid.cellHeight ∧
          grid.padding.top + grid.row (i + 1) * grid.cellHeight < 2 ^ 31) := by
  intro x y breaks x' y' rowHeight'
  obtain ⟨hw, hline⟩ := grid.cellWidth_spec
  obtain ⟨hh, hlines⟩ := grid.cellHeight_spec
  obtain ⟨hcolumns, -, hrows, -⟩ := grid.cells
  obtain ⟨hleft, hright, hsum, htop, hbottom, hsum'⟩ := grid.within
  obtain ⟨hsized, hsized'⟩ := grid.sized
  obtain ⟨hcol, hcol'⟩ := grid.column_range i
  have husedWidth := grid.usedWidth_eq
  have husedHeight := grid.usedHeight_eq
  have hheight := Int.mul_le_mul_of_nonneg_right hrows hh
  have hB := Int.mul_nonneg (grid.row_nonneg i) hh
  have hA := Int.mul_nonneg hcol hw
  rcases grid.cell_succ i with ⟨hlt, hcolumn, hrow'⟩ | ⟨heq, hcolumn, hrow'⟩
  · -- the next column of the same row: one more cell is still in the line
    have hnext : grid.column (i + 1) * grid.cellWidth =
        grid.column i * grid.cellWidth + grid.cellWidth := by
      rw [hcolumn, Int.add_mul, Int.one_mul]
    have hroom := Int.mul_le_mul_of_nonneg_right hlt hw
    rw [Int.add_mul, ← hcolumn, hnext, Int.one_mul] at hroom
    have hinner : ¬grid.column (i + 1) = 0 := by omega
    have hAw : grid.cellWidth = 0 → grid.column i * grid.cellWidth = 0 := fun h0 => by rw [h0, Int.mul_zero]
    have hplace := place_inner grid.usedWidth hleft hA hAw hw (by omega) hrow hh (by omega) rfl rfl
      (by omega)
    simp only [AtCell, StepFits, if_neg hinner, hnext, hrow', Rectangle.of]
    exact hplace
  · have hnext : grid.row (i + 1) * grid.cellHeight = grid.row i * grid.cellHeight + grid.cellHeight := by
      rw [hrow', Int.add_mul, Int.one_mul]
    have hall : grid.column i * grid.cellWidth + grid.cellWidth = grid.columns * grid.cellWidth := by
      rw [← heq, Int.add_mul, Int.one_mul]
    have hAw : grid.cellWidth = 0 → grid.column i * grid.cellWidth = 0 := fun h0 => by rw [h0, Int.mul_zero]
    have hplace := place_first grid.usedWidth hleft hA hAw hw (by omega) hrow hh (by omega) rfl rfl
      hall (by omega)
    simp only [AtCell, StepFits, hcolumn, hnext, Rectangle.of]
    exact hplace

/-- Every child has the bounds of its cell, from child `i` on. -/
def AllAt (i : Nat) (bounds : List Rectangle) : Prop :=
  ∀ j r, bounds[j]? = some r → grid.AtCell (i + j) r

theorem allAt_cons (i : Nat) (r : Rectangle) (bounds : List Rectangle) :
    grid.AllAt i (r :: bounds) ↔ grid.AtCell i r ∧ grid.AllAt (i + 1) bounds := by
  constructor
  · intro h
    refine ⟨h 0 r rfl, ?_⟩
    intro j r' hj
    have hnext := h (j + 1) r' hj
    rwa [Nat.add_comm j 1, ← Nat.add_assoc] at hnext
  · rintro ⟨hfirst, hrest⟩ j r' hj
    cases j with
    | zero =>
      obtain rfl : r = r' := Option.some.inj hj
      exact hfirst
    | succ j =>
      have hnext := hrest j r' hj
      rwa [Nat.add_assoc, Nat.add_comm 1 j] at hnext

theorem forall_from_iff (P : Nat → Prop) (i n : Nat) :
    (∀ j < n + 1, P (i + j)) ↔ P i ∧ ∀ j < n, P (i + 1 + j) := by
  constructor
  · intro h
    refine ⟨h 0 (Nat.succ_pos n), ?_⟩
    intro j hj
    have hnext := h (j + 1) (by omega)
    rwa [Nat.add_comm j 1, ← Nat.add_assoc] at hnext
  · rintro ⟨hfirst, hrest⟩ j hj
    cases j with
    | zero => exact hfirst
    | succ j =>
      have hnext := hrest j (by omega)
      rwa [Nat.add_assoc, Nat.add_comm 1 j] at hnext

/-- The minimum sizes of the children do not exceed a cell. -/
def HasRoom (children : List LayoutChild) : Prop :=
  ∀ child ∈ children, child.minimumSize.width ≤ grid.cellWidth ∧
    child.minimumSize.height ≤ grid.cellHeight

theorem loop_allAt_iff (children : List LayoutChild) : ∀ i, grid.HasRoom children →
    grid.padding.top + grid.row i * grid.cellHeight < 2 ^ 31 →
      (grid.AllAt (i + 1) (grid.loop children
          (grid.padding.left + grid.column i * grid.cellWidth + grid.cellWidth)
          (grid.padding.top + grid.row i * grid.cellHeight) grid.cellHeight) ↔
        ∀ j < children.length, grid.StepFits (i + 1 + j)) := by
  induction children with
  | nil =>
    intro i _ _
    refine iff_of_true ?_ ?_
    · intro j r hj
      simp [loop] at hj
    · intro j hj
      simp at hj
  | cons child rest ih =>
    intro i hroom hrow
    have hrest : grid.HasRoom rest := fun child hchild => hroom child (List.mem_cons_of_mem _ hchild)
    obtain ⟨hcell, hnext⟩ := grid.step_spec i hrow
    rw [loop, widthPerComponent_eq, heightOf_eq, child.setBounds_eq _ _ (hroom child List.mem_cons_self),
      allAt_cons, List.length_cons, forall_from_iff, hcell]
    refine and_congr_right fun hfits => ?_
    obtain ⟨hx, hy, hheight, hrow'⟩ := hnext hfits
    rw [hx, hy, hheight]
    exact ih (i + 1) hrest hrow'

theorem layout_allAt_iff (children : List LayoutChild) (hroom : grid.HasRoom children) :
    grid.AllAt 0 (grid.layout children) ↔ ∀ i, 1 ≤ i → i < children.length → grid.StepFits i := by
  cases children with
  | nil =>
    refine iff_of_true ?_ ?_
    · intro j r hj
      simp [layout, loop] at hj
    · intro i _ hi
      simp at hi
  | cons child rest =>
    obtain ⟨hw, hline⟩ := grid.cellWidth_spec
    obtain ⟨hh, hlines⟩ := grid.cellHeight_spec
    obtain ⟨hcolumns, -, hrows, -⟩ := grid.cells
    obtain ⟨hleft, hright, hsum, htop, hbottom, hsum'⟩ := grid.within
    obtain ⟨hsized, hsized'⟩ := grid.sized
    have husedWidth := grid.usedWidth_eq
    have husedHeight := grid.usedHeight_eq
    have hheight := Int.mul_le_mul_of_nonneg_right hrows hh
    have hwidth := Int.mul_le_mul_of_nonneg_right hcolumns hw
    have hcolumn : grid.column 0 = 0 := Int.zero_emod _
    have hrow : grid.row 0 = 0 := Int.zero_ediv _
    have htop32 : s32 grid.padding.top = grid.padding.top := s32_of_range (by omega) (by omega)
    have hleft32 : s32 grid.padding.left = grid.padding.left := s32_of_range (by omega) (by omega)
    have hw32 : s32 grid.cellWidth = grid.cellWidth := s32_of_range (by omega) (by omega)
    have hh32 : s32 grid.cellHeight = grid.cellHeight := s32_of_range (by omega) (by omega)
    have hnext : s32 (grid.padding.left + grid.cellWidth) = grid.padding.left + grid.cellWidth :=
      s32_of_range (by omega) (by omega)
    have hmax : (if grid.cellHeight > 0 then grid.cellHeight else 0) = grid.cellHeight := by
      split <;> omega
    -- whether the line is broken before the first child or not, it stays where it is
    rw [layout, loop, widthPerComponent_eq, heightOf_eq,
      child.setBounds_eq _ _ (hroom child List.mem_cons_self), Int.add_zero, htop32]
    simp only [ite_self, hnext, hmax]
    have hfirst : grid.AtCell 0
        (.of grid.padding.left grid.padding.top grid.cellWidth grid.cellHeight) := by
      simp [AtCell, hcolumn, hrow, Rectangle.of, htop32, hleft32, hw32, hh32]
    have hrest := grid.loop_allAt_iff rest 0 (fun child hchild => hroom child (List.mem_cons_of_mem _ hchild))
      (by rw [hrow]; omega)
    rw [hcolumn, hrow, Int.zero_mul, Int.zero_mul, Int.add_zero, Int.add_zero] at hrest
    rw [allAt_cons, and_iff_right hfirst, hrest]
    constructor
    · intro h i hi hlength
      obtain ⟨j, rfl⟩ : ∃ j, i = 0 + 1 + j := ⟨i - 1, by omega⟩
      exact h j (by simp at hlength; omega)
    · intro h j hj
      exact h (0 + 1 + j) (by omega) (by simp; omega)

theorem split_cell (i : Nat) : grid.column i + grid.columns * grid.row i = i :=
  Int.emod_add_mul_ediv _ _

theorem row_mono {i j : Nat} (h : i ≤ j) : grid.row i ≤ grid.row j := by
  obtain ⟨hcolumns, -⟩ := grid.cells
  exact Int.ediv_le_ediv (by omega) (by omega)

theorem columns_le_of_column_eq_zero {i : Nat} (hi : 1 ≤ i) (h : grid.column i = 0) :
    grid.columns ≤ i ∧ 1 ≤ grid.row i := by
  obtain ⟨hcolumns, -⟩ := grid.cells
  have hsplit := grid.split_cell i
  have hrow : 1 ≤ grid.row i := by
    rcases Int.lt_or_le 0 (grid.row i) with hpos | hneg
    · omega
    · have := Int.mul_nonpos_of_nonneg_of_nonpos (show 0 ≤ grid.columns by omega) hneg
      omega
  have hmul := Int.mul_le_mul_of_nonneg_left hrow (show 0 ≤ grid.columns by omega)
  exact ⟨by omega, hrow⟩

theorem stepFits_iff (n : Nat) : (∀ i, 1 ≤ i → i < n → grid.StepFits i) ↔ grid.Fits n := by
  obtain ⟨hcolumns, -⟩ := grid.cells
  obtain ⟨hw, -⟩ := grid.cellWidth_spec
  obtain ⟨hh, -⟩ := grid.cellHeight_spec
  by_cases hempty : grid.cellWidth = 0 ∧ grid.cellHeight = 0
  · exact iff_of_true (fun _ _ _ => Or.inl hempty) (Or.inl hempty)
  · simp only [StepFits, Fits, hempty, false_or]
    constructor
    · intro h
      constructor
      · by_cases hsmall : n ≤ 1 ∨ grid.columns = 1
        · exact hsmall.imp_right Or.inl
        · -- the last child of the first line
          right; right
          obtain ⟨i, hi⟩ : ∃ i : Nat, (i : Int) = min (n : Int) grid.columns - 1 :=
            ⟨(min (n : Int) grid.columns - 1).toNat, by omega⟩
          have hcolumn : grid.column i = i := Int.emod_eq_of_lt (by omega) (by omega)
          have hfits := h i (by omega) (by omega)
          have hne : ¬(i : Int) = 0 := by omega
          rw [hcolumn, if_neg hne] at hfits
          have hmin : min (n : Int) grid.columns = (i : Int) + 1 := by omega
          rw [hmin, Int.add_mul, Int.one_mul]
          omega
      · by_cases hline : (n : Int) ≤ grid.columns
        · exact Or.inl hline
        · -- the first child of the last line
          right
          obtain ⟨i, hi⟩ : ∃ i : Nat, (i : Int) = grid.columns * grid.row (n - 1) := by
            refine ⟨(grid.columns * grid.row (n - 1)).toNat, ?_⟩
            have := Int.mul_nonneg (show 0 ≤ grid.columns by omega) (grid.row_nonneg (n - 1))
            omega
          have hsplit := grid.split_cell (n - 1)
          obtain ⟨hlow, hhigh⟩ := grid.column_range (n - 1)
          have hcolumn : grid.column i = 0 := by
            rw [column, hi]
            exact Int.mul_emod_right _ _
          have hrow : grid.row i = grid.row (n - 1) := by
            rw [row, hi]
            exact Int.mul_ediv_cancel_left _ (by omega)
          have hfits := h i (by omega) (by omega)
          rwa [hcolumn, if_pos rfl, hrow] at hfits
    · rintro ⟨hfirst, hfurther⟩ i hi hin
      by_cases hcolumn : grid.column i = 0
      · obtain ⟨hle, -⟩ := grid.columns_le_of_column_eq_zero hi hcolumn
        obtain ⟨hbreaks, hlast⟩ := hfurther.resolve_left (by omega)
        have hmono := Int.mul_le_mul_of_nonneg_right (grid.row_mono (show i ≤ n - 1 by omega)) hh
        rw [if_pos hcolumn]
        exact ⟨hbreaks, by omega⟩
      · obtain ⟨hlow, hhigh⟩ := grid.column_range i
        have hsplit := grid.split_cell i
        have hproduct := Int.mul_nonneg (show 0 ≤ grid.columns by omega) (grid.row_nonneg i)
        have hmono := Int.mul_le_mul_of_nonneg_right
          (show grid.column i + 1 ≤ min (n : Int) grid.columns by omega) hw
        rw [Int.add_mul, Int.one_mul] at hmono
        rw [if_neg hcolumn]
        omega

theorem inPadding_of_atCell {i : Nat} {r : Rectangle} (h : grid.AtCell i r)
    (hi : (i : Int) < grid.columns * grid.rows) : grid.InPadding r := by
  obtain ⟨hx, hy, hwidth, hheight⟩ := h
  obtain ⟨hw, hline⟩ := grid.cellWidth_spec
  obtain ⟨hh, hlines⟩ := grid.cellHeight_spec
  obtain ⟨hlow, hhigh⟩ := grid.column_range i
  have hrow := grid.row_nonneg i
  have hrow' : grid.row i < grid.rows := by
    refine Int.ediv_lt_of_lt_mul (by omega) ?_
    rwa [Int.mul_comm]
  have hA := Int.mul_nonneg hlow hw
  have hB := Int.mul_nonneg hrow hh
  have hA' := Int.mul_le_mul_of_nonneg_right (show grid.column i + 1 ≤ grid.columns by omega) hw
  have hB' := Int.mul_le_mul_of_nonneg_right (show grid.row i + 1 ≤ grid.rows by omega) hh
  rw [Int.add_mul, Int.one_mul] at hA' hB'
  rw [usedWidth_eq] at hline
  rw [usedHeight_eq] at hlines
  rw [InPadding, hx, hy, hwidth, hheight]
  omega

theorem apart_of_atCell {i j : Nat} {r r' : Rectangle} (h : grid.AtCell i r) (h' : grid.AtCell j r')
    (hij : i < j) : r.Apart r' := by
  obtain ⟨hx, hy, hwidth, hheight⟩ := h
  obtain ⟨hx', hy', hwidth', hheight'⟩ := h'
  obtain ⟨hw, -⟩ := grid.cellWidth_spec
  obtain ⟨hh, -⟩ := grid.cellHeight_spec
  rintro p ⟨⟨hl, hr, ht, hb⟩, hl', hr', ht', hb'⟩
  rcases Int.lt_or_eq_of_le (grid.row_mono (Nat.le_of_lt hij)) with hrow | hrow
  · have hbelow := Int.mul_le_mul_of_nonneg_right (show grid.row i + 1 ≤ grid.row j by omega) hh
    rw [Int.add_mul, Int.one_mul] at hbelow
    omega
  · have hsplit := grid.split_cell i
    have hsplit' := grid.split_cell j
    rw [hrow] at hsplit
    have hbehind := Int.mul_le_mul_of_nonneg_right (show grid.column i + 1 ≤ grid.column j by omega) hw
    rw [Int.add_mul, Int.one_mul] at hbehind
    omega

theorem placed_iff (children : List LayoutChild) (hroom : grid.HasRoom children) :
    grid.Placed (grid.layout children) ↔ grid.Fits children.length := by
  rw [← stepFits_iff, ← grid.layout_allAt_iff children hroom]
  constructor
  · intro h j r hj
    have hcell := h.1 j r hj
    rwa [Nat.zero_add]
  · intro h
    have hcell : ∀ i r, (grid.layout children)[i]? = some r → grid.AtCell i r := by
      intro i r hi
      have := h i r hi
      rwa [Nat.zero_add] at this
    refine ⟨hcell, fun i r hi hcells => grid.inPadding_of_atCell (hcell i r hi) hcells, ?_⟩
    rw [List.pairwise_iff_getElem]
    intro i j hi hj hij
    exact grid.apart_of_atCell (hcell i _ (List.getElem?_eq_getElem hi))
      (hcell j _ (List.getElem?_eq_getElem hj)) hij

end

end GridLayoutManager

/-! ## Both layouts -/

/-- The grid and the flow place the children as claimed, each exactly where its condition holds. -/
theorem layouts_placed_iff (grid : GridLayoutManager) (cells : List LayoutChild) (hcells : grid.HasRoom cells)
    (parentWidth : Int) (hparent : 0 ≤ parentWidth) (hparent' : parentWidth < 2 ^ 31)
    (items : List LayoutChild)
    (hitems : ∀ child ∈ items, child.minimumSize.width ≤ child.preferredSize.width ∧
      child.minimumSize.height ≤ child.preferredSize.height) :
    (grid.Placed (grid.layout cells) ↔ grid.Fits cells.length) ∧
      (FlowPlaced parentWidth items (flowLayout parentWidth items) ↔
        FlowFits parentWidth (items.map LayoutChild.preferredSize) 0 0 0) :=
  ⟨grid.placed_iff cells hcells, flowPlaced_iff hparent hparent' items hitems⟩

/-- A child of a preferred size, without a minimum size. -/
def plainChild (width height : Int) (h : s32 width = width ∧ s32 height = height) : LayoutChild :=
  ⟨⟨width, height⟩, ⟨0, 0⟩, h, by decide⟩

theorem layouts_placed_plain :
    let grid : GridLayoutManager :=
      ⟨2, 2, ⟨5, 0, 5, 0⟩, ⟨100, 50⟩, by decide, by decide, by decide⟩
    let cells := List.replicate 4 (plainChild 0 0 (by decide +kernel))
    let items := [plainChild 60 10 (by decide +kernel), plainChild 30 20 (by decide +kernel),
      plainChild 50 5 (by decide +kernel)]
    grid.Placed (grid.layout cells) ∧ FlowPlaced 100 items (flowLayout 100 items) := by
  intro grid cells items
  have hroom : grid.HasRoom cells := by
    intro child hchild
    rw [List.eq_of_mem_replicate hchild]
    decide
  have hitems : ∀ child ∈ items, child.minimumSize.width ≤ child.preferredSize.width ∧
      child.minimumSize.height ≤ child.preferredSize.height := by decide
  obtain ⟨hgrid, hflow⟩ :=
    layouts_placed_iff grid cells hroom 100 (by decide) (by decide) items hitems
  refine ⟨hgrid.2 (Or.inr ⟨Or.inr (Or.inr ?_), Or.inr ⟨?_, ?_⟩⟩), hflow.2 ?_⟩
  · decide +kernel
  · decide +kernel
  · decide
  · simp only [items, List.map, plainChild, FlowFits]
    decide

/-- With a left padding of 10 the second column does not fit; with a remainder of 1 a third child
joins the line. -/
theorem layouts_misplaced :
    ∃ (padded remainder : GridLayoutManager) (cells : List LayoutChild), padded.HasRoom cells ∧
      remainder.HasRoom cells ∧ padded.padding.left = 10 ∧ ¬padded.Placed (padded.layout cells) ∧
      remainder.padding.left = 0 ∧ ¬remainder.Placed (remainder.layout cells) := by
  refine ⟨⟨2, 2, ⟨0, 10, 0, 0⟩, ⟨100, 50⟩, by decide, by decide, by decide⟩,
    ⟨2, 2, ⟨0, 0, 0, 0⟩, ⟨3, 50⟩, by decide, by decide, by decide⟩,
    List.replicate 3 (plainChild 0 0 (by decide +kernel)), ?_, ?_, rfl, ?_, rfl, ?_⟩
  · intro child hchild
    rw [List.eq_of_mem_replicate hchild]
    decide
  · intro child hchild
    rw [List.eq_of_mem_replicate hchild]
    decide
  · rintro ⟨hcells, -⟩
    exact absurd (hcells 1 (.of 10 25 45 25) (by decide +kernel)).1 (by decide +kernel)
  · rintro ⟨hcells, -⟩
    exact absurd (hcells 2 (.of 2 0 1 25) (by decide +kernel)).1 (by decide +kernel)

end MeetixOS.ZipNET
