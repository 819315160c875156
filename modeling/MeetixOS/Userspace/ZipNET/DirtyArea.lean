import MeetixOS.Kernel.Types

/-! # The dirty area of the screen

`Component_t::markDirty`, `Screen_t::markDirty` and `grabInvalid`, `ZipNET::blit` and
`VbeVideoOutput_t::blit`. All values are `i32` and wrap; the loops of `blit` compare an `int` with a
`uint32_t`. A `PixelCopy` is one turn of the inner loop. A rectangle is looked at through its `Hull`, the
four edges, on which `markDirty` is a join and a clipping. -/

namespace MeetixOS.ZipNET

open Kernel (s32 s32_of_range)

/-! ## Integers -/

theorem s32_range (n : Int) : -(2 ^ 31) ≤ s32 n ∧ s32 n < 2 ^ 31 := by
  rw [s32, Int.bmod_def]
  omega

theorem s32_s32 (n : Int) : s32 (s32 n) = s32 n :=
  s32_of_range (s32_range n).1 (s32_range n).2

theorem s32_add_s32 (a b : Int) : s32 (a + s32 b) = s32 (a + b) := by
  simp only [s32, Int.bmod_def]
  omega

/-- A conversion to `uint32_t`. -/
def toU32 (n : Int) : Nat := (n % 2 ^ 32).toNat

theorem toU32_lt (n : Int) : toU32 n < 2 ^ 32 := by
  rw [toU32]
  omega

theorem toU32_of_nonneg {n : Int} (h : 0 ≤ n) (hlt : n < 2 ^ 31) : toU32 n = n.toNat := by
  rw [toU32]
  omega

/-! ## Rectangles -/

/-- `Graphics::Metrics::Point`. -/
structure Point where
  x : Int
  y : Int
  deriving DecidableEq

/-- `Graphics::Metrics::Rectangle`; the fields are `i32`. -/
structure Rectangle where
  x : Int
  y : Int
  width : Int
  height : Int
  stored : s32 x = x ∧ s32 y = y ∧ s32 width = width ∧ s32 height = height
  deriving DecidableEq

namespace Rectangle

/-- A rectangle of computed values. -/
def of (x y width height : Int) : Rectangle :=
  ⟨s32 x, s32 y, s32 width, s32 height, s32_s32 x, s32_s32 y, s32_s32 width, s32_s32 height⟩

/-- `Rectangle()`. -/
def empty : Rectangle := of 0 0 0 0

def right (r : Rectangle) : Int := s32 (r.x + r.width)

def bottom (r : Rectangle) : Int := s32 (r.y + r.height)

def contains (r : Rectangle) (p : Point) : Bool :=
  decide (r.x ≤ p.x) && decide (r.y ≤ p.y) && decide (p.x < r.right) && decide (p.y < r.bottom)

end Rectangle

/-! ## The source -/

/-- `Component_t::markDirty`, up to the screen: the parents' bounds are added on the way, from the
component itself upwards. -/
def Component.markDirty : List Point → Rectangle → Rectangle
  | [], rect => rect
  | bounds :: parents, rect =>
    Component.markDirty parents
      (.of (rect.x + bounds.x) (rect.y + bounds.y) rect.width rect.height)

/-- `videoModeInformation`; the screen has bounds of this size. -/
structure ModeInfo where
  width : Nat
  height : Nat
  bitPerPixel : Nat
  stored : width < 2 ^ 16 ∧ height < 2 ^ 16

/-- A mode to run in. -/
def ModeInfo.xga : ModeInfo := ⟨1024, 768, 32, by decide⟩

namespace Screen

/-- The first part of `markDirty`. -/
def join (invalid rect : Rectangle) : Rectangle :=
  if invalid.x = 0 ∧ invalid.y = 0 ∧ invalid.width = 0 ∧ invalid.height = 0 then rect
  else
    let top := if rect.y < invalid.y then rect.y else invalid.y
    let left := if rect.x < invalid.x then rect.x else invalid.x
    let bottom := if rect.bottom > invalid.bottom then rect.bottom else invalid.bottom
    let right := if rect.right > invalid.right then rect.right else invalid.right
    .of left top (right - left) (bottom - top)

/-- "Fix invalid area", at the left edge. -/
def fixLeft (invalid : Rectangle) : Rectangle :=
  if invalid.x < 0 then .of 0 invalid.y (invalid.width + invalid.x) invalid.height else invalid

/-- "Fix invalid area", at the top edge. -/
def fixTop (invalid : Rectangle) : Rectangle :=
  if invalid.y < 0 then .of invalid.x 0 invalid.width (invalid.height + invalid.y) else invalid

/-- "Fix invalid area", at the right edge. -/
def fixRight (width : Int) (invalid : Rectangle) : Rectangle :=
  if invalid.right > width then .of invalid.x invalid.y (width - invalid.x) invalid.height
  else invalid

/-- "Fix invalid area", at the bottom edge. -/
def fixBottom (height : Int) (invalid : Rectangle) : Rectangle :=
  if invalid.bottom > height then .of invalid.x invalid.y invalid.width (height - invalid.y)
  else invalid

def markDirty (mode : ModeInfo) (invalid rect : Rectangle) : Rectangle :=
  fixBottom mode.height (fixRight mode.width (fixTop (fixLeft (join invalid rect))))

end Screen

/-- One pixel that is copied. -/
structure PixelCopy where
  x : Int
  y : Int
  line : Int
  deriving DecidableEq

/-- More turns than a loop over all `uint32_t` has. -/
def loopLimit : Nat := 2 ^ 32

/-- `for ( int i = ..; i < bound; i++ )` with an unsigned `bound`: the values of `i`. -/
def forLoop (bound : Nat) : Nat → Int → List Int
  | 0, _ => []
  | fuel + 1, i => if toU32 i < bound then i :: forLoop bound fuel (s32 (i + 1)) else []

/-- The rows of `VbeVideoOutput_t::blit`, from `y` on, with `position` at `line`. -/
def copyRows (x : Int) (right bottom : Nat) : Nat → Int → Int → List PixelCopy
  | 0, _, _ => []
  | fuel + 1, y, line =>
    if toU32 y < bottom then
      (forLoop right loopLimit x).map (fun x => ⟨x, y, line⟩) ++
        copyRows x right bottom fuel (s32 (y + 1)) (line + 1)
    else []

/-- `VbeVideoOutput_t::blit`; the loops for 32 and for 24 bits are the same. -/
def vbeBlit (mode : ModeInfo) (invalid : Rectangle) : List PixelCopy :=
  let right := toU32 (invalid.x + invalid.width)
  let bottom := toU32 (invalid.y + invalid.height)
  if mode.bitPerPixel = 32 ∨ mode.bitPerPixel = 24 then
    copyRows invalid.x right bottom loopLimit invalid.y invalid.y
  else []

/-- A frame: the `markDirty` calls, each of a component with its parents, and `ZipNET::blit`, which
leaves the area empty. -/
def frame (mode : ModeInfo) (invalid : Rectangle) (calls : List (List Point × Rectangle)) :
    Rectangle × List PixelCopy :=
  let invalid :=
    calls.foldl (fun invalid c => Screen.markDirty mode invalid (Component.markDirty c.1 c.2)) invalid
  (.empty, if invalid.width = 0 ∧ invalid.height = 0 then [] else vbeBlit mode invalid)

/-- Frame after frame. -/
def frames (mode : ModeInfo) : Rectangle → List (List (List Point × Rectangle)) → List PixelCopy
  | _, [] => []
  | invalid, calls :: rest =>
    (frame mode invalid calls).2 ++ frames mode (frame mode invalid calls).1 rest

/-- The pixel is on the screen, in the source and in the frame buffer. -/
def PixelCopy.Inside (mode : ModeInfo) (c : PixelCopy) : Prop :=
  0 ≤ c.x ∧ c.x < mode.width ∧ 0 ≤ c.y ∧ c.y < mode.height ∧ 0 ≤ c.line ∧ c.line < mode.height

/-! ## Edges -/

/-- The edges of a rectangle. -/
structure Hull where
  left : Int
  right : Int
  top : Int
  bottom : Int
  deriving DecidableEq

/-- The edges around two areas. -/
def Hull.join (h h' : Hull) : Hull :=
  ⟨min h.left h'.left, max h.right h'.right, min h.top h'.top, max h.bottom h'.bottom⟩

/-- The edges moved to those of the screen, where they are beyond; the others stay. -/
def Hull.clip (mode : ModeInfo) (h : Hull) : Hull :=
  ⟨max 0 h.left, min mode.width h.right, max 0 h.top, min mode.height h.bottom⟩

def Hull.zero : Hull := ⟨0, 0, 0, 0⟩

/-- The edges, as they are computed. -/
def Rectangle.hull (r : Rectangle) : Hull := ⟨r.x, r.right, r.y, r.bottom⟩

theorem Hull.clip_join_clip (mode : ModeInfo) (h h' : Hull) :
    (h.join (h'.clip mode)).clip mode = (h.join h').clip mode := by
  simp only [Hull.join, Hull.clip, Hull.mk.injEq]
  omega

namespace Rectangle

theorem hull_of (x y width height : Int) :
    (of x y width height).hull =
      ⟨s32 x, s32 (s32 x + width), s32 y, s32 (s32 y + height)⟩ := by
  simp [hull, right, bottom, of, s32_add_s32]

theorem hull_eq_zero {r : Rectangle} :
    r.hull = .zero ↔ r.x = 0 ∧ r.y = 0 ∧ r.width = 0 ∧ r.height = 0 := by
  obtain ⟨-, -, hwidth, hheight⟩ := r.stored
  simp only [hull, Hull.zero, Hull.mk.injEq, right, bottom]
  constructor
  · rintro ⟨hx, hr, hy, hb⟩
    rw [hx, Int.zero_add, hwidth] at hr
    rw [hy, Int.zero_add, hheight] at hb
    exact ⟨hx, hy, hr, hb⟩
  · rintro ⟨hx, hy, hw, hh⟩
    rw [hx, hy, hw, hh]
    exact ⟨rfl, s32_of_range (by decide) (by decide), rfl, s32_of_range (by decide) (by decide)⟩

end Rectangle

open Rectangle (bottom hull hull_of right)
/-! ## What `markDirty` does to the edges -/

namespace Screen

theorem s32_zero : s32 0 = 0 := s32_of_range (by decide) (by decide)

theorem s32_add_sub (a : Int) {b : Int} (hb : s32 b = b) : s32 (s32 a + (b - a)) = b := by
  rw [Int.add_comm, s32_add_s32, Int.sub_add_cancel, hb]

theorem hull_join (invalid rect : Rectangle) :
    (join invalid rect).hull =
      if invalid.hull = .zero then rect.hull else rect.hull.join invalid.hull := by
  simp only [Rectangle.hull_eq_zero]
  unfold join
  split
  · rfl
  · obtain ⟨hx, hy, -, -⟩ := rect.stored
    obtain ⟨hx', hy', -, -⟩ := invalid.stored
    have hleft : (if rect.x < invalid.x then rect.x else invalid.x) = min rect.x invalid.x := by
      split <;> omega
    have htop : (if rect.y < invalid.y then rect.y else invalid.y) = min rect.y invalid.y := by
      split <;> omega
    have hright : (if rect.right > invalid.right then rect.right else invalid.right) =
        max rect.right invalid.right := by
      split <;> omega
    have hbottom : (if rect.bottom > invalid.bottom then rect.bottom else invalid.bottom) =
        max rect.bottom invalid.bottom := by
      split <;> omega
    have hmin : ∀ a b : Int, s32 a = a → s32 b = b → s32 (min a b) = min a b := by
      intro a b ha hb
      rcases Int.le_total a b with h | h
      · rw [Int.min_eq_left h, ha]
      · rw [Int.min_eq_right h, hb]
    have hmax : ∀ a b : Int, s32 a = a → s32 b = b → s32 (max a b) = max a b := by
      intro a b ha hb
      rcases Int.le_total a b with h | h
      · rw [Int.max_eq_right h, hb]
      · rw [Int.max_eq_left h, ha]
    rw [hull_of]
    simp only [hleft, htop, hright, hbottom, hull, Hull.join, Hull.mk.injEq]
    exact ⟨hmin _ _ hx hx', s32_add_sub _ (hmax _ _ (s32_s32 _) (s32_s32 _)), hmin _ _ hy hy',
      s32_add_sub _ (hmax _ _ (s32_s32 _) (s32_s32 _))⟩

theorem hull_fixLeft (r : Rectangle) : (fixLeft r).hull = { r.hull with left := max 0 r.hull.left } := by
  obtain ⟨-, hy, -, -⟩ := r.stored
  unfold fixLeft
  split
  next h =>
    rw [hull_of, s32_zero, hy, Int.zero_add, Int.add_comm r.width]
    simp only [hull, right, bottom, Hull.mk.injEq, and_true]
    omega
  next h =>
    simp only [hull, Hull.mk.injEq, and_true]
    omega

theorem hull_fixTop (r : Rectangle) : (fixTop r).hull = { r.hull with top := max 0 r.hull.top } := by
  obtain ⟨hx, -, -, -⟩ := r.stored
  unfold fixTop
  split
  next h =>
    rw [hull_of, s32_zero, hx, Int.zero_add, Int.add_comm r.height]
    simp only [hull, right, bottom, Hull.mk.injEq, and_true, true_and]
    omega
  next h =>
    simp only [hull, Hull.mk.injEq, and_true, true_and]
    omega

theorem hull_fixRight {width : Int} (hwidth : s32 width = width) (r : Rectangle) :
    (fixRight width r).hull = { r.hull with right := min width r.hull.right } := by
  obtain ⟨hx, hy, -, -⟩ := r.stored
  unfold fixRight
  split
  next h =>
    rw [hull_of, s32_add_sub _ hwidth, hx, hy]
    simp only [hull, bottom, Hull.mk.injEq, and_true, true_and]
    omega
  next h =>
    simp only [hull, Hull.mk.injEq, and_true, true_and]
    omega

theorem hull_fixBottom {height : Int} (hheight : s32 height = height) (r : Rectangle) :
    (fixBottom height r).hull = { r.hull with bottom := min height r.hull.bottom } := by
  obtain ⟨hx, hy, -, -⟩ := r.stored
  unfold fixBottom
  split
  next h =>
    rw [hull_of, s32_add_sub _ hheight, hx, hy]
    simp only [hull, right, Hull.mk.injEq, true_and]
    omega
  next h =>
    simp only [hull, Hull.mk.injEq, true_and]
    omega

theorem hull_markDirty (mode : ModeInfo) (invalid rect : Rectangle) :
    (markDirty mode invalid rect).hull =
      (if invalid.hull = .zero then rect.hull else rect.hull.join invalid.hull).clip mode := by
  obtain ⟨hwidth, hheight⟩ := mode.stored
  have hwidth' : s32 mode.width = mode.width := s32_of_range (by omega) (by omega)
  have hheight' : s32 mode.height = mode.height := s32_of_range (by omega) (by omega)
  rw [markDirty, hull_fixBottom hheight', hull_fixRight hwidth', hull_fixTop, hull_fixLeft, hull_join]
  rfl

end Screen

/-! ## The edges after a sequence of calls -/

/-- The edges around some rectangles. -/
def hullOf : List Rectangle → Hull
  | [] => .zero
  | first :: rest => rest.foldl (fun h r => r.hull.join h) first.hull

theorem hullOf_append (rects : List Rectangle) (hne : rects ≠ []) (r : Rectangle) :
    hullOf (rects ++ [r]) = r.hull.join (hullOf rects) := by
  cases rects with
  | nil => exact absurd rfl hne
  | cons first rest => rw [List.cons_append, hullOf, hullOf, List.foldl_append, List.foldl_cons,
      List.foldl_nil]

/-- One more rectangle: if the area of the screen around those before is empty, at the origin, they no
longer count. -/
def counting (mode : ModeInfo) (rects : List Rectangle) (r : Rectangle) : List Rectangle :=
  if (hullOf rects).clip mode = .zero then [r] else rects ++ [r]

/-- The rectangles that count. -/
def since (mode : ModeInfo) (rects : List Rectangle) : List Rectangle :=
  rects.foldl (counting mode) []

theorem Hull.clip_zero (mode : ModeInfo) : Hull.zero.clip mode = .zero := by
  simp only [Hull.zero, Hull.clip, Hull.mk.injEq]
  omega

theorem hull_foldl_markDirty (mode : ModeInfo) (rects : List Rectangle) :
    (rects.foldl (Screen.markDirty mode) .empty).hull = (hullOf (since mode rects)).clip mode := by
  have hstep : ∀ (rects before : List Rectangle) (invalid : Rectangle),
      invalid.hull = (hullOf before).clip mode →
        (rects.foldl (Screen.markDirty mode) invalid).hull =
          (hullOf (rects.foldl (counting mode) before)).clip mode := by
    intro rects
    induction rects with
    | nil => exact fun before invalid h => h
    | cons r rects ih =>
      intro before invalid h
      refine ih _ _ ?_
      rw [Screen.hull_markDirty, h, counting]
      split
      · rfl
      next hbefore =>
        have hne : before ≠ [] := by
          rintro rfl
          exact hbefore (Hull.clip_zero mode)
        rw [hullOf_append before hne, Hull.clip_join_clip]
  refine hstep rects [] .empty ?_
  rw [hullOf, Hull.clip_zero]
  exact Rectangle.hull_eq_zero.mpr ⟨Screen.s32_zero, Screen.s32_zero, Screen.s32_zero,
    Screen.s32_zero⟩

/-! ## The loops of `blit` -/

variable {i x low high : Int} {c : PixelCopy} {mode : ModeInfo} {invalid : Rectangle} {size : Nat}

theorem toU32_s32_succ (h : toU32 i + 1 < 2 ^ 32) : toU32 (s32 (i + 1)) = toU32 i + 1 := by
  rw [s32, Int.bmod_def]
  simp only [toU32] at *
  omega

theorem eq_of_toU32 {i j : Int} (hi : s32 i = i) (hj : s32 j = j) (h : toU32 i = toU32 j) : i = j := by
  have := s32_range i
  have := s32_range j
  simp only [toU32] at h
  omega

theorem mem_forLoop {bound fuel : Nat} (hi : s32 i = i) (hbound : bound < 2 ^ 32)
    (hfuel : bound ≤ toU32 i + fuel) :
    x ∈ forLoop bound fuel i ↔ s32 x = x ∧ toU32 i ≤ toU32 x ∧ toU32 x < bound := by
  induction fuel generalizing i with
  | zero =>
    simp only [forLoop, List.not_mem_nil, false_iff]
    omega
  | succ fuel ih =>
    rw [forLoop]
    split
    next hlt =>
      have hnext := toU32_s32_succ (i := i) (by omega)
      rw [List.mem_cons, ih (s32_s32 _) (by omega), hnext]
      constructor
      · rintro (rfl | ⟨hx, hle, hlt'⟩)
        · exact ⟨hi, Nat.le_refl _, hlt⟩
        · exact ⟨hx, by omega, hlt'⟩
      · rintro ⟨hx, hle, hlt'⟩
        by_cases heq : toU32 x = toU32 i
        · exact Or.inl (eq_of_toU32 hx hi heq)
        · exact Or.inr ⟨hx, by omega, hlt'⟩
    next hge =>
      simp only [List.not_mem_nil, false_iff]
      omega

theorem mem_copyRows {right bottom fuel : Nat} {y line : Int}
    (hy : s32 y = y) (hbottom : bottom < 2 ^ 32) (hfuel : bottom ≤ toU32 y + fuel) :
    c ∈ copyRows x right bottom fuel y line ↔
      c.x ∈ forLoop right loopLimit x ∧ s32 c.y = c.y ∧ toU32 y ≤ toU32 c.y ∧ toU32 c.y < bottom ∧
        c.line = line + (toU32 c.y - toU32 y : Nat) := by
  induction fuel generalizing y line with
  | zero =>
    simp only [copyRows, List.not_mem_nil, false_iff]
    omega
  | succ fuel ih =>
    rw [copyRows]
    split
    next hlt =>
      have hnext := toU32_s32_succ (i := y) (by omega)
      rw [List.mem_append, ih (s32_s32 _) (by omega), hnext, List.mem_map]
      constructor
      · rintro (⟨x', hx', rfl⟩ | ⟨hx, hcy, hle, hlt', hline⟩)
        · exact ⟨hx', hy, Nat.le_refl _, hlt, by simp⟩
        · exact ⟨hx, hcy, by omega, hlt', by omega⟩
      · rintro ⟨hx, hcy, hle, hlt', hline⟩
        by_cases heq : toU32 c.y = toU32 y
        · refine Or.inl ⟨c.x, hx, ?_⟩
          have := eq_of_toU32 hcy hy heq
          obtain ⟨cx, cy, cline⟩ := c
          simp only [PixelCopy.mk.injEq, true_and] at *
          omega
        · exact Or.inr ⟨hx, hcy, by omega, hlt', by omega⟩
    next hge =>
      simp only [List.not_mem_nil, false_iff]
      omega

/-! ## What is copied -/

/-- Something is copied between the clipped edges, from `low` to `high`: an edge that is negative, with
no edge of the screen to clip it, is a huge unsigned bound. -/
def Copies (low high : Int) : Prop := high < 0 ∨ low < high

/-- The clipped area has a right or a lower edge before the first pixel, and is not empty for the loops. -/
def Hull.Overshoots (h : Hull) : Prop :=
  (h.right < 0 ∨ h.bottom < 0) ∧ Copies h.left h.right ∧ Copies h.top h.bottom

instance (low high : Int) : Decidable (Copies low high) :=
  inferInstanceAs (Decidable (high < 0 ∨ low < high))

instance (h : Hull) : Decidable h.Overshoots :=
  inferInstanceAs (Decidable ((h.right < 0 ∨ h.bottom < 0) ∧ Copies h.left h.right ∧
    Copies h.top h.bottom))

theorem toU32_s32 (n : Int) : toU32 (s32 n) = toU32 n := by
  rw [s32, Int.bmod_def]
  simp only [toU32]
  omega

theorem lt_toU32_iff (hlow : 0 ≤ low) (hlow' : low < 2 ^ 31) (hhigh : s32 high = high) :
    toU32 low < toU32 high ↔ Copies low high := by
  have := s32_range high
  simp only [toU32, Copies]
  omega

theorem mem_vbeBlit :
    c ∈ vbeBlit mode invalid ↔ (mode.bitPerPixel = 32 ∨ mode.bitPerPixel = 24) ∧
      (s32 c.x = c.x ∧ toU32 invalid.x ≤ toU32 c.x ∧ toU32 c.x < toU32 invalid.right) ∧
      (s32 c.y = c.y ∧ toU32 invalid.y ≤ toU32 c.y ∧ toU32 c.y < toU32 invalid.bottom) ∧
      c.line = invalid.y + (toU32 c.y - toU32 invalid.y : Nat) := by
  obtain ⟨hx, hy, -, -⟩ := invalid.stored
  have hright := toU32_lt (invalid.x + invalid.width)
  have hbottom := toU32_lt (invalid.y + invalid.height)
  unfold vbeBlit
  simp only [right, bottom, toU32_s32]
  split
  next hbits =>
    rw [mem_copyRows hy hbottom (by simp only [loopLimit]; omega),
      mem_forLoop hx hright (by simp only [loopLimit]; omega)]
    simp [hbits, and_assoc]
  next hbits => simp [hbits]

theorem beyond_of_negative (hlow : 0 ≤ low) (hlow' : low < 2 ^ 31)
    (hhigh : s32 high = high) (hsize : size < 2 ^ 16) (hnegative : high < 0) :
    ∃ v, s32 v = v ∧ toU32 low ≤ toU32 v ∧ toU32 v < toU32 high ∧ (size : Int) ≤ v := by
  have hcopied : toU32 (max low size) < toU32 high ↔ Copies (max low size) high :=
    lt_toU32_iff (by omega) (by omega) hhigh
  refine ⟨max low size, s32_of_range (by omega) (by omega), ?_, hcopied.mpr (Or.inl hnegative),
    by omega⟩
  rw [toU32_of_nonneg hlow hlow', toU32_of_nonneg (by omega) (by omega)]
  omega

theorem inside_of_nonneg {low high v : Int} (hlow : 0 ≤ low) (hlow' : low < 2 ^ 31)
    (hhigh : 0 ≤ high) (hhigh' : high ≤ size) (hsize : size < 2 ^ 16) (hv : s32 v = v)
    (hfrom : toU32 low ≤ toU32 v) (hto : toU32 v < toU32 high) :
    0 ≤ v ∧ v < size ∧ low + (toU32 v - toU32 low : Nat) = v := by
  have hrange := s32_range v
  rw [hv] at hrange
  rw [toU32_of_nonneg hhigh (by omega)] at hto
  have hv0 : 0 ≤ v := by
    simp only [toU32] at hto
    omega
  rw [toU32_of_nonneg hlow hlow', toU32_of_nonneg hv0 hrange.2] at *
  omega

theorem vbeBlit_inside_iff
    (hclipped : invalid.hull.clip mode = invalid.hull) :
    (∀ c ∈ vbeBlit mode invalid, c.Inside mode) ↔
      (mode.bitPerPixel = 32 ∨ mode.bitPerPixel = 24 → ¬ invalid.hull.Overshoots) := by
  obtain ⟨hx, hy, -, -⟩ := invalid.stored
  obtain ⟨hwidth, hheight⟩ := mode.stored
  have hright : s32 invalid.right = invalid.right := s32_s32 _
  have hbottom : s32 invalid.bottom = invalid.bottom := s32_s32 _
  have hx31 : invalid.x < 2 ^ 31 := hx ▸ (s32_range invalid.x).2
  have hy31 : invalid.y < 2 ^ 31 := hy ▸ (s32_range invalid.y).2
  simp only [Hull.clip, hull, Hull.mk.injEq] at hclipped
  have hx0 : 0 ≤ invalid.x := by omega
  have hy0 : 0 ≤ invalid.y := by omega
  have hxiff := lt_toU32_iff hx0 hx31 hright
  have hyiff := lt_toU32_iff hy0 hy31 hbottom
  constructor
  · rintro hinside hbits ⟨hnegative, hcopies, hcopies'⟩
    rcases hnegative with hnegative | hnegative
    · obtain ⟨v, hv, hfrom, hto, hbeyond⟩ := beyond_of_negative hx0 hx31 hright hwidth hnegative
      have hcopy := hinside ⟨v, invalid.y, invalid.y⟩ (mem_vbeBlit.mpr
        ⟨hbits, ⟨hv, hfrom, hto⟩, ⟨hy, Nat.le_refl _, hyiff.mpr hcopies'⟩, by simp⟩)
      exact absurd hcopy.2.1 (Int.not_lt.mpr hbeyond)
    · obtain ⟨v, hv, hfrom, hto, hbeyond⟩ := beyond_of_negative hy0 hy31 hbottom hheight hnegative
      have hcopy := hinside ⟨invalid.x, v, invalid.y + (toU32 v - toU32 invalid.y : Nat)⟩
        (mem_vbeBlit.mpr
          ⟨hbits, ⟨hx, Nat.le_refl _, hxiff.mpr hcopies⟩, ⟨hv, hfrom, hto⟩, rfl⟩)
      exact absurd hcopy.2.2.2.1 (Int.not_lt.mpr hbeyond)
  · intro hcondition c hc
    obtain ⟨hbits, ⟨hcx, hcx', hcx''⟩, ⟨hcy, hcy', hcy''⟩, hline⟩ := mem_vbeBlit.mp hc
    have hedges : ¬ (invalid.right < 0 ∨ invalid.bottom < 0) := fun h =>
      hcondition hbits ⟨h, hxiff.mp (Nat.lt_of_le_of_lt hcx' hcx''),
        hyiff.mp (Nat.lt_of_le_of_lt hcy' hcy'')⟩
    have hcolumn := inside_of_nonneg hx0 hx31 (by omega) (by omega) hwidth hcx hcx' hcx''
    have hrow := inside_of_nonneg hy0 hy31 (by omega) (by omega) hheight hcy hcy' hcy''
    rw [hrow.2.2] at hline
    exact ⟨hcolumn.1, hcolumn.2.1, hrow.1, hrow.2.1, hline ▸ hrow.1, hline ▸ hrow.2.1⟩

/-- The rectangles of a frame, as they reach the screen. -/
def reached (calls : List (List Point × Rectangle)) : List Rectangle :=
  calls.map fun c => Component.markDirty c.1 c.2

/-- The hull of the rectangles that count, clipped to the screen, does not overshoot. -/
def Covered (mode : ModeInfo) (calls : List (List Point × Rectangle)) : Prop :=
  mode.bitPerPixel = 32 ∨ mode.bitPerPixel = 24 →
    ¬ ((hullOf (since mode (reached calls))).clip mode).Overshoots

theorem Hull.clip_clip (mode : ModeInfo) (h : Hull) : (h.clip mode).clip mode = h.clip mode := by
  simp only [Hull.clip, Hull.mk.injEq]
  omega

theorem frame_inside_iff (mode : ModeInfo) (calls : List (List Point × Rectangle)) :
    (∀ c ∈ (frame mode .empty calls).2, c.Inside mode) ↔ Covered mode calls := by
  have hhull := hull_foldl_markDirty mode (reached calls)
  rw [reached, List.foldl_map] at hhull
  rw [Covered, reached, ← hhull]
  simp only [frame]
  generalize calls.foldl (fun invalid c =>
    Screen.markDirty mode invalid (Component.markDirty c.1 c.2)) .empty = invalid at hhull ⊢
  have hclipped : invalid.hull.clip mode = invalid.hull := by rw [hhull, Hull.clip_clip]
  split
  next hempty =>
    -- an area without extent has its edges on the screen
    simp only [List.not_mem_nil, false_imp_iff, implies_true, true_iff]
    rintro - ⟨hnegative, -, -⟩
    obtain ⟨hx, hy, -, -⟩ := invalid.stored
    simp only [Hull.clip, hull, Hull.mk.injEq] at hclipped
    simp only [hull, right, bottom, hempty.1, hempty.2, Int.add_zero, hx,
      hy] at hnegative
    omega
  next => exact vbeBlit_inside_iff hclipped

/-- Every pixel that is copied is on the screen exactly if every frame's rectangles are covered. -/
theorem blit_inside_iff (mode : ModeInfo) (run : List (List (List Point × Rectangle))) :
    (∀ c ∈ frames mode .empty run, c.Inside mode) ↔ ∀ calls ∈ run, Covered mode calls := by
  induction run with
  | nil => simp [frames]
  | cons calls rest ih =>
    have hrest : (frame mode .empty calls).1 = .empty := rfl
    simp [frames, hrest, or_imp, forall_and, frame_inside_iff, ih]

/-- A component of 50 by 20 pixels, moved out of a screen on the left: the rows are copied beyond
the right edge. -/
theorem blit_beyond_left_edge :
    ¬ ∀ c ∈ frames ⟨800, 600, 32, by decide⟩ .empty [[([⟨-100, 10⟩], .of 0 0 50 20)]],
      c.Inside ⟨800, 600, 32, by decide⟩ := by
  intro hinside
  have hframe := (frame_inside_iff ⟨800, 600, 32, by decide⟩ [([⟨-100, 10⟩], .of 0 0 50 20)]).mp
    fun c hc => hinside c (List.mem_append_left _ hc)
  exact hframe (Or.inl rfl) (by decide +kernel)

/-- Partly outside is no harm. -/
example : ¬ ((hullOf (since ⟨800, 600, 32, by decide⟩ [.of (-20) 10 50 20, .of 790 590 50 20])).clip
    ⟨800, 600, 32, by decide⟩).Overshoots := by
  decide +kernel

end MeetixOS.ZipNET
