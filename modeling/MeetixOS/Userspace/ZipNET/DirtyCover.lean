import MeetixOS.Userspace.ZipNET.DirtyArea

/-! # What the dirty area covers

The calls of `Screen_t::markDirty` between two calls of `grabInvalid`. The edges are joined and clipped, so
that a pixel of the screen that is in the area stays in it; what is lost is a rectangle whose right or
bottom edge does not fit into an `i32`, where it reaches into the screen. -/

namespace MeetixOS.ZipNET

open Rectangle Screen

open Kernel (s32 s32_of_range)

/-! ## The source -/

/-- `Screen_t::grabInvalid`: what is returned and what is left. -/
def Screen.grabInvalid (invalid : Rectangle) : Rectangle × Rectangle := (invalid, .empty)

/-- What is grabbed after some calls of `markDirty`. -/
def Screen.grabbed (mode : ModeInfo) (rects : List Rectangle) : Rectangle :=
  (grabInvalid (rects.foldl (markDirty mode) .empty)).1

/-! ## Pixels -/

/-- A pixel of the screen. -/
def OnScreen (mode : ModeInfo) (p : Point) : Prop :=
  0 ≤ p.x ∧ p.x < mode.width ∧ 0 ≤ p.y ∧ p.y < mode.height

/-- A pixel of a rectangle, with edges that are not bounded. -/
def Rectangle.Spans (r : Rectangle) (p : Point) : Prop :=
  r.x ≤ p.x ∧ p.x < r.x + r.width ∧ r.y ≤ p.y ∧ p.y < r.y + r.height

/-- The pixels of the screen that are in one of the rectangles are in the area. -/
def CoveredBy (mode : ModeInfo) (rects : List Rectangle) (invalid : Rectangle) : Prop :=
  ∀ r ∈ rects, ∀ p, OnScreen mode p → r.Spans p → invalid.contains p = true

/-- A rectangle has pixels of the screen. -/
def Rectangle.Meets (mode : ModeInfo) (r : Rectangle) : Prop :=
  max 0 r.x < min (mode.width : Int) (r.x + r.width) ∧
    max 0 r.y < min (mode.height : Int) (r.y + r.height)

/-- The condition of a call: a rectangle on the screen has edges that fit an `i32`, or the area
extends that far. -/
def Fits (mode : ModeInfo) (invalid rect : Rectangle) : Prop :=
  rect.Meets mode →
    (rect.x + rect.width < 2 ^ 31 ∨ mode.width ≤ invalid.right) ∧
      (rect.y + rect.height < 2 ^ 31 ∨ mode.height ≤ invalid.bottom)

/-- Every call of a sequence meets the condition. -/
def AllFit (mode : ModeInfo) : Rectangle → List Rectangle → Prop
  | _, [] => True
  | invalid, rect :: rest => Fits mode invalid rect ∧ AllFit mode (markDirty mode invalid rect) rest

instance (mode : ModeInfo) (r : Rectangle) : Decidable (r.Meets mode) :=
  inferInstanceAs (Decidable (_ ∧ _))

/-! ## One call -/

section

variable {mode : ModeInfo} {invalid rect : Rectangle} {p : Point}

theorem contains_iff_hull (r : Rectangle) (p : Point) :
    r.contains p = true ↔ r.hull.left ≤ p.x ∧ p.x < r.hull.right ∧ r.hull.top ≤ p.y ∧
      p.y < r.hull.bottom := by
  simp only [contains, hull, Bool.and_eq_true, decide_eq_true_eq]
  constructor
  · rintro ⟨⟨⟨hx, hy⟩, hr⟩, hb⟩
    exact ⟨hx, hr, hy, hb⟩
  · rintro ⟨hx, hr, hy, hb⟩
    exact ⟨⟨⟨hx, hy⟩, hr⟩, hb⟩

theorem contains_markDirty (hp : OnScreen mode p) :
    (markDirty mode invalid rect).contains p = true ↔
      let edges := if invalid.hull = .zero then rect.hull else rect.hull.join invalid.hull
      edges.left ≤ p.x ∧ p.x < edges.right ∧ edges.top ≤ p.y ∧ p.y < edges.bottom := by
  obtain ⟨hx, hw, hy, hh⟩ := hp
  rw [contains_iff_hull, hull_markDirty]
  simp only [Hull.clip]
  omega

theorem contains_markDirty_of_contains (hp : OnScreen mode p) (h : invalid.contains p = true) :
    (markDirty mode invalid rect).contains p = true := by
  rw [contains_iff_hull] at h
  rw [contains_markDirty hp]
  have hne : invalid.hull ≠ .zero := by
    intro hzero
    rw [hzero] at h
    simp only [Hull.zero] at h
    omega
  rw [if_neg hne]
  simp only [Hull.join]
  omega

theorem right_of_lt (h : rect.x + rect.width < 2 ^ 31) (hlow : 0 ≤ rect.x + rect.width) :
    rect.right = rect.x + rect.width :=
  s32_of_range (by omega) (by omega)

theorem bottom_of_lt (h : rect.y + rect.height < 2 ^ 31) (hlow : 0 ≤ rect.y + rect.height) :
    rect.bottom = rect.y + rect.height :=
  s32_of_range (by omega) (by omega)

theorem right_neg_of_le (h : 2 ^ 31 ≤ rect.x + rect.width) : rect.right < 0 := by
  obtain ⟨hx, -, hw, -⟩ := rect.stored
  have := s32_range rect.x
  have := s32_range rect.width
  rw [right, s32, Int.bmod_def]
  omega

theorem bottom_neg_of_le (h : 2 ^ 31 ≤ rect.y + rect.height) : rect.bottom < 0 := by
  obtain ⟨-, hy, -, hh⟩ := rect.stored
  have := s32_range rect.y
  have := s32_range rect.height
  rw [bottom, s32, Int.bmod_def]
  omega

theorem meets_of_spans (hp : OnScreen mode p) (hspans : rect.Spans p) : rect.Meets mode := by
  unfold OnScreen at hp
  unfold Spans at hspans
  unfold Meets
  omega

theorem contains_markDirty_of_fits (hfits : Fits mode invalid rect) (hp : OnScreen mode p)
    (hspans : rect.Spans p) : (markDirty mode invalid rect).contains p = true := by
  obtain ⟨hright, hbottom⟩ := hfits (meets_of_spans hp hspans)
  obtain ⟨hx, hr, hy, hb⟩ := hspans
  have hscreen := hp
  obtain ⟨hx0, hw, hy0, hh⟩ := hscreen
  rw [contains_markDirty hp]
  have hright' : p.x < rect.right ∨ mode.width ≤ invalid.right := by
    refine hright.imp (fun h => ?_) id
    rw [right_of_lt h (by omega)]
    exact hr
  have hbottom' : p.y < rect.bottom ∨ mode.height ≤ invalid.bottom := by
    refine hbottom.imp (fun h => ?_) id
    rw [bottom_of_lt h (by omega)]
    exact hb
  by_cases hzero : invalid.hull = .zero
  · -- the edges of an empty area are at the origin, which is before the ends of a screen that has pixels
    have hright0 : invalid.right = 0 := congrArg Hull.right hzero
    have hbottom0 : invalid.bottom = 0 := congrArg Hull.bottom hzero
    rw [if_pos hzero]
    simp only [hull]
    omega
  · rw [if_neg hzero]
    simp only [Hull.join, hull]
    omega

theorem fits_of_covered (h : CoveredBy mode [rect] (markDirty mode invalid rect)) :
    Fits mode invalid rect := by
  intro hmeets
  obtain ⟨hx, hy⟩ := hmeets
  have hcovered := h rect (List.mem_singleton_self _)
  constructor
  · rcases Int.lt_or_le (rect.x + rect.width) (2 ^ 31) with hfit | hlarge
    · exact Or.inl hfit
    · right
      have hwidth := mode.stored.1
      have hp : OnScreen mode ⟨mode.width - 1, max 0 rect.y⟩ := by
        simp only [OnScreen]
        omega
      have hspans : rect.Spans ⟨mode.width - 1, max 0 rect.y⟩ := by
        simp only [Spans]
        omega
      have hin := (contains_markDirty hp).1 (hcovered _ hp hspans)
      have hneg := right_neg_of_le hlarge
      by_cases hzero : invalid.hull = .zero
      · rw [if_pos hzero] at hin
        simp only [hull] at hin
        omega
      · rw [if_neg hzero] at hin
        simp only [Hull.join, hull] at hin
        omega
  · rcases Int.lt_or_le (rect.y + rect.height) (2 ^ 31) with hfit | hlarge
    · exact Or.inl hfit
    · right
      have hheight := mode.stored.2
      have hp : OnScreen mode ⟨max 0 rect.x, mode.height - 1⟩ := by
        simp only [OnScreen]
        omega
      have hspans : rect.Spans ⟨max 0 rect.x, mode.height - 1⟩ := by
        simp only [Spans]
        omega
      have hin := (contains_markDirty hp).1 (hcovered _ hp hspans)
      have hneg := bottom_neg_of_le hlarge
      by_cases hzero : invalid.hull = .zero
      · rw [if_pos hzero] at hin
        simp only [hull] at hin
        omega
      · rw [if_neg hzero] at hin
        simp only [Hull.join, hull] at hin
        omega

theorem coveredBy_markDirty_iff (rect : Rectangle) {before : List Rectangle}
    (h : CoveredBy mode before invalid) :
    CoveredBy mode (before ++ [rect]) (markDirty mode invalid rect) ↔ Fits mode invalid rect := by
  constructor
  · intro hcovered
    exact fits_of_covered fun r hr => hcovered r (List.mem_append_right _ hr)
  · intro hfits r hr p hp hspans
    rcases List.mem_append.1 hr with hr | hr
    · exact contains_markDirty_of_contains hp (h r hr p hp hspans)
    · rw [List.mem_singleton] at hr
      rw [hr] at hspans
      exact contains_markDirty_of_fits hfits hp hspans

end

/-! ## All calls -/

theorem coveredBy_foldl_iff {mode : ModeInfo} (rects : List Rectangle) :
    ∀ (before : List Rectangle) (invalid : Rectangle), CoveredBy mode before invalid →
      ((∀ n, CoveredBy mode (before ++ rects.take n)
          ((rects.take n).foldl (markDirty mode) invalid)) ↔ AllFit mode invalid rects) := by
  induction rects with
  | nil =>
    intro before invalid h
    simpa [AllFit] using h
  | cons rect rest ih =>
    intro before invalid h
    have hstep := coveredBy_markDirty_iff rect h
    constructor
    · intro hall
      have hfirst := hall 1
      refine ⟨hstep.1 hfirst, (ih _ _ hfirst).1 ?_⟩
      intro n
      have hnext := hall (n + 1)
      rwa [List.take_succ_cons, List.foldl_cons, ← List.singleton_append, ← List.append_assoc] at hnext
    · rintro ⟨hfits, hrest⟩ n
      have hfirst := hstep.2 hfits
      cases n with
      | zero => simpa using h
      | succ n =>
        have hnext := (ih _ _ hfirst).2 hrest n
        rwa [List.take_succ_cons, List.foldl_cons, ← List.singleton_append, ← List.append_assoc]

/-- After any number of calls the area that is grabbed contains the pixels of the screen of every
rectangle, exactly where every call meets the condition. -/
theorem grabbed_covers_iff (mode : ModeInfo) (rects : List Rectangle) :
    (∀ n, CoveredBy mode (rects.take n) (grabbed mode (rects.take n))) ↔
      AllFit mode .empty rects :=
  coveredBy_foldl_iff rects [] .empty fun _ h => absurd h List.not_mem_nil

/-- A rectangle at (10, 10) of 2147483647 by 5 pixels, after one at the origin: the width stays that
of the first. -/
theorem grabbed_loses_wide :
    ∃ (mode : ModeInfo) (rects : List Rectangle), (∀ r ∈ rects, 0 ≤ r.width ∧ 0 ≤ r.height) ∧
      ¬CoveredBy mode rects (grabbed mode rects) := by
  refine ⟨⟨800, 600, 32, by decide⟩, [.of 0 0 5 5, .of 10 10 2147483647 5], by decide +kernel, ?_⟩
  intro h
  have hpixel : contains
      (grabbed ⟨800, 600, 32, by decide⟩ [.of 0 0 5 5, .of 10 10 2147483647 5]) ⟨20, 12⟩ = true := by
    refine h (.of 10 10 2147483647 5) (by simp) ⟨20, 12⟩ ?_ ?_
    · unfold OnScreen
      decide
    · unfold Spans
      decide +kernel
  exact absurd hpixel (by decide +kernel)

/-- Partly visible rectangles on all four sides. -/
example : AllFit ⟨800, 600, 32, by decide⟩ .empty
    [.of (-20) 10 50 20, .of 790 590 50 20, .of 100 (-5) 5 10, .of (-50) (-50) 10 10] := by
  simp only [AllFit, Fits]
  decide +kernel

end MeetixOS.ZipNET
