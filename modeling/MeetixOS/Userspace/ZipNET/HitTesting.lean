import MeetixOS.Userspace.ZipNET.CursorPointers
import MeetixOS.Userspace.ZipNET.DirtyCover

/-! # Painting and hit testing

`Component_t::blit` paints a tree of components from back to front, each clipped by its ancestors, and
`getComponentAt` looks for the component at a point from front to back. A component is known by the boxes
from it up to the screen. Where the greatest left edge of the ancestors is behind the least right one, the
clip has a negative width, and Cairo paints what is between them. -/

namespace MeetixOS.ZipNET

open Rectangle

open Kernel (s32 s32_of_range)

/-! ## The source -/

/-- A component, with what painting and hit testing read of it. Its surface has the size of the
bounds. -/
structure Box where
  component : Nat
  bounds : Rectangle
  visible : Bool
  sized : 0 ≤ bounds.width ∧ bounds.width < 2 ^ 30 ∧ 0 ≤ bounds.height ∧ bounds.height < 2 ^ 30
  deriving DecidableEq

/-- The components with their children, from back to front. -/
inductive ComponentTree
  | node (this : Box) (children : List ComponentTree)

/-- The component at the top. -/
def ComponentTree.this : ComponentTree → Box
  | .node this _ => this

/-- `Component_t::getLocationOnScreen`, of a component with its parents. -/
def getLocationOnScreen : List Box → Point
  | [] => ⟨0, 0⟩
  | [this] => ⟨this.bounds.x, this.bounds.y⟩
  | this :: parent :: parents =>
    let parentLocationOnScreen := getLocationOnScreen (parent :: parents)
    ⟨s32 (this.bounds.x + parentLocationOnScreen.x), s32 (this.bounds.y + parentLocationOnScreen.y)⟩

/-- `Context::blit_to`: the surface of a component, the clip and the place of the surface. -/
structure Painting where
  component : List Box
  absoluteClip : Rectangle
  position : Point

/-- The clip for the children in `Component_t::blit`. -/
def clipChildren (absClip ownAbsBounds : Rectangle) : Rectangle :=
  let newTop := if absClip.y > ownAbsBounds.y then absClip.y else ownAbsBounds.y
  let newBottom := if absClip.bottom < ownAbsBounds.bottom then absClip.bottom else ownAbsBounds.bottom
  let newLeft := if absClip.x > ownAbsBounds.x then absClip.x else ownAbsBounds.x
  let newRight := if absClip.right < ownAbsBounds.right then absClip.right else ownAbsBounds.right
  .of newLeft newTop (newRight - newLeft) (newBottom - newTop)

/-- `ownAbsBounds`: the bounds at the position on the screen. -/
def ownAbsBounds (this : Box) (position : Point) : Rectangle :=
  .of position.x position.y this.bounds.width this.bounds.height

mutual

/-- `Component_t::blit`: the calls of `blit_to`, in order. A surface without pixels has no context. -/
def blit : ComponentTree → List Box → Rectangle → Point → List Painting
  | .node this children, parents, absClip, position =>
    if this.visible then
      (if this.bounds.width ≠ 0 ∧ this.bounds.height ≠ 0 then [⟨this :: parents, absClip, position⟩]
        else []) ++
        blitChildren children (this :: parents) (clipChildren absClip (ownAbsBounds this position)) position
    else []

/-- The loop of `Component_t::blit`. -/
def blitChildren : List ComponentTree → List Box → Rectangle → Point → List Painting
  | [], _, _, _ => []
  | .node this children :: rest, parents, thisClip, position =>
    (if this.visible then
        blit (.node this children) parents thisClip
          ⟨s32 (position.x + this.bounds.x), s32 (position.y + this.bounds.y)⟩
      else []) ++
      blitChildren rest parents thisClip position

end

mutual

/-- `Component_t::getComponentAt`. -/
def getComponentAt : ComponentTree → List Box → Point → List Box
  | .node this children, parents, p => (childAt children (this :: parents) p).getD (this :: parents)

/-- The loop of `Component_t::getComponentAt`, which asks the children from the last one on. -/
def childAt : List ComponentTree → List Box → Point → Option (List Box)
  | [], _, _ => none
  | .node this children :: rest, parents, p =>
    (childAt rest parents p).or
      (if this.visible && this.bounds.contains p then
        some (getComponentAt (.node this children) parents
          ⟨s32 (p.x - this.bounds.x), s32 (p.y - this.bounds.y)⟩)
      else none)

end

/-- What Cairo paints of a surface at a position, clipped by a rectangle: its pixels between the edges
of the rectangle, which may be left of its start. -/
structure CairoPaint where
  paints : (width height : Int) → (position : Point) → (clip : Rectangle) → Point → Bool
  paints_iff : ∀ width height position clip p, paints width height position clip p = true ↔
    (position.x ≤ p.x ∧ p.x < position.x + width ∧ position.y ≤ p.y ∧ p.y < position.y + height) ∧
    (min clip.x (clip.x + clip.width) ≤ p.x ∧ p.x < max clip.x (clip.x + clip.width)) ∧
    min clip.y (clip.y + clip.height) ≤ p.y ∧ p.y < max clip.y (clip.y + clip.height)

/-- The surface of a component is painted at a pixel. -/
def CairoPaint.paintsAt (cairo : CairoPaint) (p : Point) (painting : Painting) : Bool :=
  match painting.component with
  | [] => false
  | this :: _ =>
    cairo.paints this.bounds.width this.bounds.height painting.position painting.absoluteClip p

/-- The screen, with its components. -/
structure ScreenTree (mode : ModeInfo) where
  tree : ComponentTree
  bounds : tree.this.bounds = .of 0 0 mode.width mode.height

/-- The component that is painted last at a pixel, when the screen is painted. -/
def ScreenTree.lastPainted {mode : ModeInfo} (cairo : CairoPaint) (screen : ScreenTree mode) (p : Point) :
    Option (List Box) :=
  (((blit screen.tree [] (.of 0 0 mode.width mode.height) ⟨0, 0⟩).filter (cairo.paintsAt p)).getLast?).map
    Painting.component

/-- The component that is found at a pixel is the one painted last, and the pixel is inside of its
size. -/
def ScreenTree.FindsPainted {mode : ModeInfo} (cairo : CairoPaint) (screen : ScreenTree mode)
    (p : Point) : Prop :=
  let found := getComponentAt screen.tree [] p
  screen.lastPainted cairo p = some found ∧
    ∃ this parents, found = this :: parents ∧
      let relative : Point :=
        ⟨s32 (p.x - (getLocationOnScreen found).x), s32 (p.y - (getLocationOnScreen found).y)⟩
      0 ≤ relative.x ∧ relative.x < this.bounds.width ∧ 0 ≤ relative.y ∧ relative.y < this.bounds.height

/-! ## The components in memory -/

mutual

/-- A tree has what the components in memory have, from one with this parent on. -/
def Represents (cs : Components) : ComponentTree → Option Nat → Prop
  | .node this children, parent =>
    (∃ c, cs.object this.component = some c ∧ c.bounds = this.bounds ∧ c.visible = this.visible ∧
      c.parent = parent ∧
      c.children.map ChildComponentRef.component = children.map fun child => child.this.component) ∧
    RepresentsAll cs children (some this.component)

/-- The trees of some children. -/
def RepresentsAll (cs : Components) : List ComponentTree → Option Nat → Prop
  | [], _ => True
  | child :: rest, parent => Represents cs child parent ∧ RepresentsAll cs rest parent

end

section

variable {cs : Components}

theorem childAt_append (p : Point) (l l' : List ChildComponentRef) :
    cs.childAt p (l ++ l') = (cs.childAt p l).bind fun
      | some component => .ok (some component)
      | none => cs.childAt p l' := by
  induction l with
  | nil => rfl
  | cons ref l ih =>
    rw [List.cons_append, Components.childAt, Components.childAt]
    cases cs.get ref.component with
    | error stop => rfl
    | ok child =>
      by_cases hfound : (child.visible && child.bounds.contains p) = true
      · simp [bind, Except.bind, hfound]
      · simp only [bind, Except.bind, hfound]
        exact ih

mutual

theorem getComponentAt_represented (tree : ComponentTree) (parents : List Box) (parent : Option Nat)
    (p : Point) (h : Represents cs tree parent) :
    ∃ depth, ∀ n, depth ≤ n → (cs.getComponentAt n tree.this.component p).toOption =
      (getComponentAt tree parents p).head?.map Box.component := by
  match tree with
  | .node this children =>
    obtain ⟨⟨c, hc, -, -, -, hchildren⟩, hall⟩ := h
    obtain ⟨depth, hloop⟩ := childAt_represented children (this :: parents) _ p hall
    refine ⟨depth + 1, ?_⟩
    intro n hn
    obtain ⟨m, rfl⟩ : ∃ m, n = m + 1 := ⟨n - 1, by omega⟩
    obtain ⟨found, hfound, hresult⟩ := hloop m (by omega) c.children hchildren
    have hget : cs.get this.component = .ok c := by rw [Components.get, hc]
    rw [ComponentTree.this, Components.getComponentAt, getComponentAt, hget]
    simp only [bind, Except.bind, hfound]
    cases found with
    | none =>
      cases hchild : childAt children (this :: parents) p with
      | none => rfl
      | some result => simp [hchild] at hresult
    | some component =>
      cases hchild : childAt children (this :: parents) p with
      | none => simp [hchild] at hresult
      | some result =>
        rw [hchild] at hresult
        obtain ⟨child, hobject, hrest⟩ := hresult
        have hgetChild : cs.get component = .ok child := by rw [Components.get, hobject]
        simp only [hgetChild, Option.getD_some]
        exact hrest

theorem childAt_represented (children : List ComponentTree) (parents : List Box) (parent : Option Nat)
    (p : Point) (h : RepresentsAll cs children parent) :
    ∃ depth, ∀ n, depth ≤ n → ∀ refs : List ChildComponentRef,
      refs.map ChildComponentRef.component = children.map (fun child => child.this.component) →
        ∃ found, cs.childAt p refs.reverse = .ok found ∧
          match found, childAt children parents p with
          | none, none => True
          | some component, some result => ∃ child, cs.object component = some child ∧
              (cs.getComponentAt n component
                ⟨s32 (p.x - child.bounds.x), s32 (p.y - child.bounds.y)⟩).toOption =
                  result.head?.map Box.component
          | _, _ => False := by
  match children with
  | [] =>
    refine ⟨0, ?_⟩
    intro n _ refs hrefs
    obtain rfl : refs = [] := by simpa using hrefs
    exact ⟨none, rfl, trivial⟩
  | .node child grandchildren :: rest =>
    obtain ⟨depth, hchild⟩ := getComponentAt_represented (.node child grandchildren) parents parent
      ⟨s32 (p.x - child.bounds.x), s32 (p.y - child.bounds.y)⟩ h.1
    obtain ⟨depth', hrest⟩ := childAt_represented rest parents parent p h.2
    obtain ⟨⟨c, hc, hbounds, hvisible, -, -⟩, -⟩ := h.1
    refine ⟨max depth depth', ?_⟩
    intro n hn refs hrefs
    match refs with
    | [] => simp at hrefs
    | ref :: refs =>
      obtain ⟨href, hrefs'⟩ := List.cons.inj hrefs
      have href' : ref.component = child.component := href
      obtain ⟨found, hfound, hresult⟩ := hrest n (by omega) refs hrefs'
      have hget : cs.get ref.component = .ok c := by rw [href', Components.get, hc]
      rw [List.reverse_cons, childAt_append, hfound, childAt]
      cases found with
      | some component =>
        refine ⟨some component, rfl, ?_⟩
        cases hlater : childAt rest parents p with
        | none => simp [hlater] at hresult
        | some result => simpa [hlater] using hresult
      | none =>
        cases hlater : childAt rest parents p with
        | some result => simp [hlater] at hresult
        | none =>
          simp only [Except.bind, Components.childAt, hget, bind, hbounds, hvisible]
          by_cases hin : (child.visible && child.bounds.contains p) = true
          · rw [if_pos hin, if_pos hin]
            refine ⟨some ref.component, rfl, c, ?_, ?_⟩
            · rw [href', hc]
            · rw [href', hbounds]
              exact hchild n (by omega)
          · rw [if_neg hin, if_neg hin]
            exact ⟨none, rfl, trivial⟩

end

/-- The boxes from a component up are what its parent pointers lead to. -/
def Linked (cs : Components) : List Box → Prop
  | [] => True
  | this :: parents =>
    (∃ c, cs.object this.component = some c ∧ c.bounds = this.bounds ∧
      c.parent = parents.head?.map Box.component) ∧ Linked cs parents

theorem getLocationOnScreen_linked (this : Box) (parents : List Box) (h : Linked cs (this :: parents))
    (n : Nat) (hn : parents.length < n) :
    (cs.getLocationOnScreen n this.component).toOption = some (getLocationOnScreen (this :: parents)) := by
  induction parents generalizing this n with
  | nil =>
    obtain ⟨⟨c, hc, hbounds, hparent⟩, -⟩ := h
    obtain ⟨m, rfl⟩ : ∃ m, n = m + 1 := ⟨n - 1, by omega⟩
    have hnone : c.parent = none := hparent
    simp only [Components.getLocationOnScreen, Components.get, hc, bind, Except.bind, hnone, hbounds]
    rfl
  | cons parent parents ih =>
    obtain ⟨⟨c, hc, hbounds, hparent⟩, hrest⟩ := h
    obtain ⟨m, rfl⟩ : ∃ m, n = m + 1 := ⟨n - 1, by omega⟩
    have hsome : c.parent = some parent.component := hparent
    have hparents := ih parent hrest m (by simpa using hn)
    cases hclimb : cs.getLocationOnScreen m parent.component with
    | error stop =>
      rw [hclimb] at hparents
      cases hparents
    | ok location =>
      rw [hclimb] at hparents
      obtain rfl := Option.some.inj hparents
      simp only [Components.getLocationOnScreen, Components.get, hc, bind, Except.bind, hsome, hbounds,
        hclimb]
      rfl

mutual

theorem linked_getComponentAt (tree : ComponentTree) (parents : List Box) (p : Point)
    (h : Represents cs tree (parents.head?.map Box.component)) (hparents : Linked cs parents) :
    Linked cs (getComponentAt tree parents p) := by
  match tree with
  | .node this children =>
    obtain ⟨⟨c, hc, hbounds, -, hparent, -⟩, hall⟩ := h
    have hthis : Linked cs (this :: parents) := ⟨⟨c, hc, hbounds, hparent⟩, hparents⟩
    rw [getComponentAt]
    cases hchild : childAt children (this :: parents) p with
    | none => exact hthis
    | some result => exact linked_childAt children (this :: parents) p hall hthis result hchild

theorem linked_childAt (children : List ComponentTree) (parents : List Box) (p : Point)
    (h : RepresentsAll cs children (parents.head?.map Box.component)) (hparents : Linked cs parents) :
    ∀ result, childAt children parents p = some result → Linked cs result := by
  match children with
  | [] => exact fun result hresult => absurd hresult (by simp [childAt])
  | .node child grandchildren :: rest =>
    intro result hresult
    rw [childAt, Option.or_eq_some_iff] at hresult
    rcases hresult with hresult | ⟨-, hresult⟩
    · exact linked_childAt rest parents p h.2 hparents result hresult
    · by_cases hin : (child.visible && child.bounds.contains p) = true
      · rw [if_pos hin, Option.some.injEq] at hresult
        rw [← hresult]
        exact linked_getComponentAt (.node child grandchildren) parents _ h.1 hparents
      · rw [if_neg hin] at hresult
        cases hresult

end

end

/-! ## Edges -/

/-- The edges of what two areas have in common. -/
def Hull.meet (h h' : Hull) : Hull :=
  ⟨max h.left h'.left, min h.right h'.right, max h.top h'.top, min h.bottom h'.bottom⟩

/-- A pixel is between the edges. -/
def Hull.Holds (h : Hull) (p : Point) : Prop := h.left ≤ p.x ∧ p.x < h.right ∧ h.top ≤ p.y ∧ p.y < h.bottom

instance (h : Hull) (p : Point) : Decidable (h.Holds p) := inferInstanceAs (Decidable (_ ∧ _))

/-- The greatest left and top edge and the least right and bottom edge of some components, on the screen. -/
def edges (mode : ModeInfo) : List Box → Hull
  | [] => ⟨0, mode.width, 0, mode.height⟩
  | this :: parents =>
    (edges mode parents).meet (ownAbsBounds this (getLocationOnScreen (this :: parents))).hull

/-- The clip that is handed on to the children of a component. -/
def clipOf (mode : ModeInfo) : List Box → Rectangle
  | [] => .of 0 0 mode.width mode.height
  | this :: parents =>
    clipChildren (clipOf mode parents) (ownAbsBounds this (getLocationOnScreen (this :: parents)))

theorem s32_min {a b : Int} (ha : s32 a = a) (hb : s32 b = b) : s32 (min a b) = min a b := by
  rcases Int.le_total a b with h | h
  · rw [Int.min_eq_left h, ha]
  · rw [Int.min_eq_right h, hb]

theorem s32_max {a b : Int} (ha : s32 a = a) (hb : s32 b = b) : s32 (max a b) = max a b := by
  rcases Int.le_total a b with h | h
  · rw [Int.max_eq_right h, hb]
  · rw [Int.max_eq_left h, ha]

theorem hull_clipChildren (absClip own : Rectangle) :
    (clipChildren absClip own).hull = absClip.hull.meet own.hull := by
  obtain ⟨hx, hy, -, -⟩ := absClip.stored
  obtain ⟨hx', hy', -, -⟩ := own.stored
  have hleft : (if absClip.x > own.x then absClip.x else own.x) = max absClip.x own.x := by
    split <;> omega
  have htop : (if absClip.y > own.y then absClip.y else own.y) = max absClip.y own.y := by
    split <;> omega
  have hright : (if absClip.right < own.right then absClip.right else own.right) =
      min absClip.right own.right := by
    split <;> omega
  have hbottom : (if absClip.bottom < own.bottom then absClip.bottom else own.bottom) =
      min absClip.bottom own.bottom := by
    split <;> omega
  rw [clipChildren, hull_of]
  simp only [hleft, htop, hright, hbottom, hull, Hull.meet, Hull.mk.injEq]
  exact ⟨s32_max hx hx', Screen.s32_add_sub _ (s32_min (s32_s32 _) (s32_s32 _)), s32_max hy hy',
    Screen.s32_add_sub _ (s32_min (s32_s32 _) (s32_s32 _))⟩

theorem hull_clipOf (mode : ModeInfo) (parents : List Box) :
    (clipOf mode parents).hull = edges mode parents := by
  induction parents with
  | nil =>
    obtain ⟨hwidth, hheight⟩ := mode.stored
    have hwidth' : s32 mode.width = mode.width := s32_of_range (by omega) (by omega)
    have hheight' : s32 mode.height = mode.height := s32_of_range (by omega) (by omega)
    rw [clipOf, hull_of, edges]
    simp [Screen.s32_zero, hwidth', hheight']
  | cons this parents ih => rw [clipOf, hull_clipChildren, ih, edges]

theorem edges_screen (mode : ModeInfo) (parents : List Box) :
    0 ≤ (edges mode parents).left ∧ (edges mode parents).right ≤ mode.width ∧
      0 ≤ (edges mode parents).top ∧ (edges mode parents).bottom ≤ mode.height := by
  induction parents with
  | nil =>
    simp only [edges]
    omega
  | cons this parents ih =>
    simp only [edges, Hull.meet]
    omega

theorem size_of_hull (r : Rectangle) :
    r.width = s32 (r.hull.right - r.hull.left) ∧ r.height = s32 (r.hull.bottom - r.hull.top) := by
  obtain ⟨-, -, hwidth, hheight⟩ := r.stored
  simp only [hull, right, bottom, s32, Int.bmod_def] at *
  omega

/-! ## Where a component is painted -/

/-- The pixel is on the surface of a component. -/
def OnSurface (p : Point) (component : List Box) : Prop :=
  match component with
  | [] => False
  | this :: _ =>
    let location := getLocationOnScreen component
    location.x ≤ p.x ∧ p.x < location.x + this.bounds.width ∧
      location.y ≤ p.y ∧ p.y < location.y + this.bounds.height

instance (p : Point) (component : List Box) : Decidable (OnSurface p component) :=
  match component with
  | [] => inferInstanceAs (Decidable False)
  | _ :: _ => inferInstanceAs (Decidable (_ ∧ _))

/-- A coordinate is between two edges, in either order; or their distance does not fit, and it is
behind the first. -/
def Spread (low high v : Int) : Prop :=
  (low ≤ v ∧ v < high) ∨ (high ≤ v ∧ v < low ∧ low - high ≤ 2 ^ 31) ∨ (2 ^ 31 < low - high ∧ low ≤ v)

instance (low high v : Int) : Decidable (Spread low high v) := inferInstanceAs (Decidable (_ ∨ _))

/-- The pixel is between the edges of all ancestors and its own. -/
def Within (mode : ModeInfo) (p : Point) (component : List Box) : Prop := (edges mode component).Holds p

instance (mode : ModeInfo) (p : Point) (component : List Box) : Decidable (Within mode p component) :=
  inferInstanceAs (Decidable (_ ∧ _))

/-- The pixel is on the surface but outside of an ancestor; there, one ancestor ends before it,
another begins behind it. -/
def Astray (mode : ModeInfo) (p : Point) (component : List Box) : Prop :=
  OnSurface p component ∧ ¬Within mode p component ∧
    Spread (edges mode component.tail).left (edges mode component.tail).right p.x ∧
    Spread (edges mode component.tail).top (edges mode component.tail).bottom p.y

instance (mode : ModeInfo) (p : Point) (component : List Box) : Decidable (Astray mode p component) :=
  inferInstanceAs (Decidable (_ ∧ _))

theorem spread_iff {low high v : Int} (hlow : 0 ≤ low) (hlow' : low < 2 ^ 31) (hhigh : -(2 ^ 31) ≤ high)
    (hhigh' : high < 2 ^ 16) (hv : 0 ≤ v) (hv' : v < 2 ^ 16) :
    (min low (low + s32 (high - low)) ≤ v ∧ v < max low (low + s32 (high - low))) ↔ Spread low high v := by
  simp only [s32, Int.bmod_def, Spread]
  omega

theorem location_stored (component : List Box) :
    s32 (getLocationOnScreen component).x = (getLocationOnScreen component).x ∧
      s32 (getLocationOnScreen component).y = (getLocationOnScreen component).y := by
  match component with
  | [] => exact ⟨Screen.s32_zero, Screen.s32_zero⟩
  | [this] => exact ⟨this.bounds.stored.1, this.bounds.stored.2.1⟩
  | _ :: _ :: _ => exact ⟨s32_s32 _, s32_s32 _⟩

theorem interval_iff {low size v : Int} (hlow : s32 low = low) (hsize : 0 ≤ size) (hsize' : size < 2 ^ 30)
    (hv' : v < 2 ^ 16) :
    (low ≤ v ∧ v < s32 (low + size)) ↔ (low ≤ v ∧ v < low + size) := by
  simp only [s32, Int.bmod_def] at *
  omega

variable {mode : ModeInfo} {p : Point} {this : Box} {parents : List Box}

theorem within_cons (hp : OnScreen mode p) :
    Within mode p (this :: parents) ↔ (edges mode parents).Holds p ∧ OnSurface p (this :: parents) := by
  obtain ⟨hwidth, hwidth', hheight, hheight'⟩ := this.sized
  obtain ⟨hmode, hmode'⟩ := mode.stored
  obtain ⟨-, hw, -, hh⟩ := hp
  obtain ⟨hx, hy⟩ := location_stored (this :: parents)
  have hcolumn := interval_iff hx hwidth hwidth' (v := p.x) (by omega)
  have hrow := interval_iff hy hheight hheight' (v := p.y) (by omega)
  simp only [Within, edges, Hull.meet, ownAbsBounds, hull_of, hx, hy, Hull.Holds, OnSurface]
  omega

theorem painted_iff (hp : OnScreen mode p) (component : List Box) :
    (OnSurface p component ∧
        Spread (edges mode component.tail).left (edges mode component.tail).right p.x ∧
        Spread (edges mode component.tail).top (edges mode component.tail).bottom p.y) ↔
      Within mode p component ∧ component ≠ [] ∨ Astray mode p component := by
  constructor
  · rintro ⟨hsurface, hspread⟩
    by_cases hwithin : Within mode p component
    · refine Or.inl ⟨hwithin, ?_⟩
      rintro rfl
      exact hsurface
    · exact Or.inr ⟨hsurface, hwithin, hspread⟩
  · rintro (⟨hwithin, hne⟩ | ⟨hsurface, -, hspread⟩)
    · obtain ⟨this, parents, rfl⟩ := List.exists_cons_of_ne_nil hne
      obtain ⟨⟨hl, hr, ht, hb⟩, hsurface⟩ := (within_cons hp).1 hwithin
      exact ⟨hsurface, Or.inl ⟨hl, hr⟩, Or.inl ⟨ht, hb⟩⟩
    · exact ⟨hsurface, hspread⟩

theorem paintsAt_iff (cairo : CairoPaint) (this : Box) (parents : List Box) (hp : OnScreen mode p) :
    cairo.paintsAt p ⟨this :: parents, clipOf mode parents, getLocationOnScreen (this :: parents)⟩ = true ↔
      Within mode p (this :: parents) ∨ Astray mode p (this :: parents) := by
  have hclip := hull_clipOf mode parents
  obtain ⟨hleft, hright, htop, hbottom⟩ := edges_screen mode parents
  obtain ⟨hmode, hmode'⟩ := mode.stored
  have hpainted := painted_iff hp (this :: parents)
  obtain ⟨hx, hw, hy, hh⟩ := hp
  obtain ⟨hwidth, hheight⟩ := size_of_hull (clipOf mode parents)
  have hstored := (clipOf mode parents).stored
  have hxrange := s32_range (clipOf mode parents).x
  have hyrange := s32_range (clipOf mode parents).y
  have hrrange := s32_range ((clipOf mode parents).x + (clipOf mode parents).width)
  have hbrange := s32_range ((clipOf mode parents).y + (clipOf mode parents).height)
  rw [hstored.1] at hxrange
  rw [hstored.2.1] at hyrange
  have hl : (clipOf mode parents).x = (edges mode parents).left := by rw [← hclip]; rfl
  have ht : (clipOf mode parents).y = (edges mode parents).top := by rw [← hclip]; rfl
  have hr : s32 ((clipOf mode parents).x + (clipOf mode parents).width) = (edges mode parents).right := by
    rw [← hclip]
    rfl
  have hb : s32 ((clipOf mode parents).y + (clipOf mode parents).height) = (edges mode parents).bottom := by
    rw [← hclip]
    rfl
  rw [hclip] at hwidth hheight
  rw [hr] at hrrange
  rw [hb] at hbrange
  rw [hl] at hxrange
  rw [ht] at hyrange
  have hspread := spread_iff hleft hxrange.2 hrrange.1 (by omega) hx (by omega)
  have hspread' := spread_iff htop hyrange.2 hbrange.1 (by omega) hy (by omega)
  simp only [ne_eq, reduceCtorEq, not_false_eq_true, and_true, List.tail_cons] at hpainted
  rw [← hpainted, ← hspread, ← hspread', CairoPaint.paintsAt, cairo.paints_iff, hwidth, hheight, hl, ht]
  exact Iff.rfl

/-! ## The order of the components -/

mutual

/-- The components that are visible with all their ancestors, from back to front. -/
def shown : ComponentTree → List Box → List (List Box)
  | .node this children, parents =>
    if this.visible then (this :: parents) :: shownChildren children (this :: parents) else []

/-- Those of some children. -/
def shownChildren : List ComponentTree → List Box → List (List Box)
  | [], _ => []
  | .node this children :: rest, parents =>
    shown (.node this children) parents ++ shownChildren rest parents

end

/-- Where a component is painted. -/
def PaintedAt (mode : ModeInfo) (p : Point) (component : List Box) : Prop :=
  Within mode p component ∨ Astray mode p component

instance (mode : ModeInfo) (p : Point) (component : List Box) : Decidable (PaintedAt mode p component) :=
  inferInstanceAs (Decidable (_ ∨ _))

theorem not_paintedAt_of_empty (hp : OnScreen mode p)
    (hempty : ¬(this.bounds.width ≠ 0 ∧ this.bounds.height ≠ 0)) :
    ¬PaintedAt mode p (this :: parents) := by
  have hpainted := painted_iff hp (this :: parents)
  simp only [ne_eq, reduceCtorEq, not_false_eq_true, and_true] at hpainted
  rw [PaintedAt, ← hpainted]
  rintro ⟨⟨hl, hr, ht, hb⟩, -⟩
  omega

/-- The components whose surfaces are painted at a pixel. -/
def paintedBy (cairo : CairoPaint) (p : Point) (paintings : List Painting) : List (List Box) :=
  (paintings.filter (cairo.paintsAt p)).map Painting.component

theorem paintedBy_append (cairo : CairoPaint) (p : Point) (l l' : List Painting) :
    paintedBy cairo p (l ++ l') = paintedBy cairo p l ++ paintedBy cairo p l' := by
  rw [paintedBy, List.filter_append, List.map_append, paintedBy, paintedBy]

theorem paintedBy_own (cairo : CairoPaint) (hp : OnScreen mode p) :
    paintedBy cairo p
        (if this.bounds.width ≠ 0 ∧ this.bounds.height ≠ 0 then
          [⟨this :: parents, clipOf mode parents, getLocationOnScreen (this :: parents)⟩] else []) =
      [this :: parents].filter fun c => PaintedAt mode p c := by
  have hiff := paintsAt_iff cairo this parents hp
  by_cases hsize : this.bounds.width ≠ 0 ∧ this.bounds.height ≠ 0
  · rw [if_pos hsize]
    by_cases hpainted : PaintedAt mode p (this :: parents)
    · have hpaints := hiff.2 hpainted
      simp [paintedBy, hpaints, hpainted]
    · have hpaints := mt hiff.1 hpainted
      simp [paintedBy, hpaints, hpainted]
  · rw [if_neg hsize]
    simp [paintedBy, not_paintedAt_of_empty hp hsize]

mutual

theorem paintedBy_blit (cairo : CairoPaint) (hp : OnScreen mode p) (tree : ComponentTree)
    (parents : List Box) :
    paintedBy cairo p
        (blit tree parents (clipOf mode parents) (getLocationOnScreen (tree.this :: parents))) =
      (shown tree parents).filter fun c => PaintedAt mode p c := by
  match tree with
  | .node this children =>
    rw [blit, shown, ComponentTree.this]
    by_cases hvisible : this.visible
    · have hcons : (this :: parents) :: shownChildren children (this :: parents) =
          [this :: parents] ++ shownChildren children (this :: parents) := rfl
      rw [if_pos hvisible, if_pos hvisible, paintedBy_append, paintedBy_own cairo hp, hcons,
        List.filter_append]
      exact congrArg _ (paintedBy_blitChildren cairo hp children this parents)
    · rw [if_neg hvisible, if_neg hvisible]
      rfl

theorem paintedBy_blitChildren (cairo : CairoPaint) (hp : OnScreen mode p) (children : List ComponentTree)
    (this : Box) (parents : List Box) :
    paintedBy cairo p (blitChildren children (this :: parents) (clipOf mode (this :: parents))
        (getLocationOnScreen (this :: parents))) =
      (shownChildren children (this :: parents)).filter fun c => PaintedAt mode p c := by
  match children with
  | [] => rfl
  | .node child grandchildren :: rest =>
    have hlocation : (⟨s32 ((getLocationOnScreen (this :: parents)).x + child.bounds.x),
        s32 ((getLocationOnScreen (this :: parents)).y + child.bounds.y)⟩ : Point) =
          getLocationOnScreen (child :: this :: parents) := by
      rw [getLocationOnScreen, Int.add_comm child.bounds.x, Int.add_comm child.bounds.y]
    rw [blitChildren, shownChildren, paintedBy_append, List.filter_append, hlocation,
      paintedBy_blitChildren cairo hp rest this parents]
    congr 1
    by_cases hvisible : child.visible
    · rw [if_pos hvisible]
      exact paintedBy_blit cairo hp (.node child grandchildren) (this :: parents)
    · rw [if_neg hvisible, shown, if_neg hvisible]
      rfl

end

/-! ## The component at a point -/

/-- A point of the screen, seen from a component. -/
def relativeTo (p : Point) (component : List Box) : Point :=
  ⟨s32 (p.x - (getLocationOnScreen component).x), s32 (p.y - (getLocationOnScreen component).y)⟩

theorem containing_iff {low size location v : Int} (hlow : s32 low = low) (hsize : 0 ≤ size)
    (hsize' : size < 2 ^ 30) (hv : 0 ≤ v) (hv' : v < 2 ^ 16) (hfrom : location ≤ v)
    (hto : v < location + 2 ^ 30) :
    (low ≤ s32 (v - location) ∧ s32 (v - location) < s32 (low + size)) ↔
      (s32 (low + location) ≤ v ∧ v < s32 (low + location) + size) := by
  simp only [s32, Int.bmod_def] at *
  omega

theorem contains_iff_within (hp : OnScreen mode p) (child : Box) (h : Within mode p (this :: parents)) :
    child.bounds.contains (relativeTo p (this :: parents)) = true ↔
      Within mode p (child :: this :: parents) := by
  obtain ⟨hwidth, hwidth', hheight, hheight'⟩ := child.sized
  obtain ⟨-, hthis, -, hthis'⟩ := this.sized
  obtain ⟨hmode, hmode'⟩ := mode.stored
  obtain ⟨-, hl, hr, ht, hb⟩ := (within_cons hp).1 h
  rw [within_cons hp, and_iff_right (show (edges mode (this :: parents)).Holds p from h)]
  obtain ⟨hx, hw, hy, hh⟩ := hp
  have hcolumn := containing_iff child.bounds.stored.1 hwidth hwidth' hx (by omega) hl (by omega)
  have hrow := containing_iff child.bounds.stored.2.1 hheight hheight' hy (by omega) ht (by omega)
  rw [contains]
  simp only [Bool.and_eq_true, decide_eq_true_eq]
  constructor
  · rintro ⟨⟨⟨hx1, hy1⟩, hx2⟩, hy2⟩
    obtain ⟨hx3, hx4⟩ := hcolumn.1 ⟨hx1, hx2⟩
    obtain ⟨hy3, hy4⟩ := hrow.1 ⟨hy1, hy2⟩
    exact ⟨hx3, hx4, hy3, hy4⟩
  · rintro ⟨hx3, hx4, hy3, hy4⟩
    obtain ⟨hx1, hx2⟩ := hcolumn.2 ⟨hx3, hx4⟩
    obtain ⟨hy1, hy2⟩ := hrow.2 ⟨hy3, hy4⟩
    exact ⟨⟨⟨hx1, hy1⟩, hx2⟩, hy2⟩

theorem relativeTo_child (p : Point) (child this : Box) (parents : List Box) :
    (⟨s32 ((relativeTo p (this :: parents)).x - child.bounds.x),
        s32 ((relativeTo p (this :: parents)).y - child.bounds.y)⟩ : Point) =
      relativeTo p (child :: this :: parents) := by
  simp only [relativeTo, getLocationOnScreen, s32, Int.bmod_def, Point.mk.injEq]
  omega

theorem Within.of_suffix {component ancestor : List Box} (h : Within mode p component)
    (hsuffix : ancestor <:+ component) : Within mode p ancestor := by
  obtain ⟨front, rfl⟩ := hsuffix
  induction front with
  | nil => exact h
  | cons box front ih =>
    refine ih ?_
    obtain ⟨hl, hr, ht, hb⟩ := h
    simp only [List.cons_append, edges, Hull.meet] at hl hr ht hb
    unfold Within Hull.Holds
    omega

mutual

theorem suffix_of_mem_shown (tree : ComponentTree) (parents : List Box) :
    ∀ c ∈ shown tree parents, (tree.this :: parents) <:+ c := by
  match tree with
  | .node this children =>
    intro c hc
    rw [shown] at hc
    by_cases hvisible : this.visible
    · rw [if_pos hvisible, List.mem_cons] at hc
      rcases hc with rfl | hc
      · exact List.suffix_refl _
      · exact suffix_of_mem_shownChildren children (this :: parents) c hc
    · rw [if_neg hvisible] at hc
      exact absurd hc List.not_mem_nil

theorem suffix_of_mem_shownChildren (children : List ComponentTree) (parents : List Box) :
    ∀ c ∈ shownChildren children parents, parents <:+ c := by
  match children with
  | [] => exact fun c hc => absurd hc List.not_mem_nil
  | .node child grandchildren :: rest =>
    intro c hc
    rw [shownChildren, List.mem_append] at hc
    rcases hc with hc | hc
    · exact (List.suffix_cons child parents).trans
        (suffix_of_mem_shown (.node child grandchildren) parents c hc)
    · exact suffix_of_mem_shownChildren rest parents c hc

end

mutual

theorem getLast_within (hp : OnScreen mode p) (tree : ComponentTree) (parents : List Box)
    (hvisible : tree.this.visible = true) (h : Within mode p (tree.this :: parents)) :
    ((shown tree parents).filter fun c => Within mode p c).getLast? =
      some (getComponentAt tree parents (relativeTo p (tree.this :: parents))) := by
  match tree with
  | .node this children =>
    rw [ComponentTree.this] at hvisible h ⊢
    have hchildren := getLast_withinChildren hp children this parents h
    rw [shown, if_pos hvisible, List.filter_cons_of_pos (by simpa using h), List.getLast?_cons, hchildren,
      getComponentAt]

theorem getLast_withinChildren (hp : OnScreen mode p) (children : List ComponentTree) (this : Box)
    (parents : List Box) (h : Within mode p (this :: parents)) :
    ((shownChildren children (this :: parents)).filter fun c => Within mode p c).getLast? =
      childAt children (this :: parents) (relativeTo p (this :: parents)) := by
  match children with
  | [] => rfl
  | .node child grandchildren :: rest =>
    have hcontains := contains_iff_within hp child h
    rw [shownChildren, List.filter_append, List.getLast?_append,
      getLast_withinChildren hp rest this parents h, childAt, relativeTo_child]
    congr 1
    by_cases hfound : (child.visible && child.bounds.contains (relativeTo p (this :: parents))) = true
    · rw [if_pos hfound]
      rw [Bool.and_eq_true] at hfound
      exact getLast_within hp (.node child grandchildren) (this :: parents) hfound.1
        (hcontains.1 hfound.2)
    · -- what is not visible shows nothing, and nothing of what is not within the child is within it
      rw [if_neg hfound, List.getLast?_eq_none_iff, List.filter_eq_nil_iff]
      intro c hc hwithin
      rw [Bool.and_eq_true, not_and] at hfound
      by_cases hvisible : child.visible = true
      · have hsuffix := suffix_of_mem_shown (.node child grandchildren) (this :: parents) c hc
        exact hfound hvisible (hcontains.2 (Within.of_suffix (by simpa using hwithin) hsuffix))
      · rw [shown, if_neg hvisible] at hc
        exact absurd hc List.not_mem_nil

end

/-! ## The first one from the front -/

/-- The first of two kinds is of the first kind exactly where each of the second has one of the
first before it. -/
theorem find_or_iff {α : Type} (P Q : α → Prop) [DecidablePred P] [DecidablePred Q]
    (hdisjoint : ∀ x, P x → ¬Q x) (l : List α) :
    (l.find? fun x => P x ∨ Q x) = l.find? (fun x => P x) ↔
      ∀ front x behind, l = front ++ x :: behind → Q x → ∃ y ∈ front, P y := by
  induction l with
  | nil => simp
  | cons x l ih =>
    by_cases hP : P x
    · have hleft : ((x :: l).find? fun x => P x ∨ Q x) = (x :: l).find? fun x => P x := by
        rw [List.find?_cons_of_pos (by simp [hP]), List.find?_cons_of_pos (by simp [hP])]
      refine iff_of_true hleft ?_
      intro front y behind heq hy
      cases front with
      | nil =>
        obtain ⟨rfl, -⟩ := List.cons.inj heq
        exact absurd hy (hdisjoint x hP)
      | cons z front =>
        obtain ⟨rfl, -⟩ := List.cons.inj heq
        exact ⟨x, List.mem_cons_self, hP⟩
    · by_cases hQ : Q x
      · -- the element of the second kind is found, and nothing is before it
        refine iff_of_false ?_ fun h => by simpa using h [] x l rfl hQ
        rw [List.find?_cons_of_pos (by simp [hQ]), List.find?_cons_of_neg (by simp [hP])]
        intro hfound
        exact hP (by simpa using List.find?_some hfound.symm)
      · rw [List.find?_cons_of_neg (by simp [hP, hQ]), List.find?_cons_of_neg (by simp [hP]), ih]
        constructor
        · intro h front y behind heq hy
          cases front with
          | nil =>
            obtain ⟨rfl, -⟩ := List.cons.inj heq
            exact absurd hy hQ
          | cons z front =>
            obtain ⟨w, hw, hPw⟩ := h front y behind (List.cons.inj heq).2 hy
            exact ⟨w, List.mem_cons_of_mem z hw, hPw⟩
        · intro h front y behind heq hy
          obtain ⟨w, hw, hPw⟩ := h (x :: front) y behind (by rw [heq, List.cons_append]) hy
          rcases List.mem_cons.1 hw with rfl | hw
          · exact absurd hPw hP
          · exact ⟨w, hw, hPw⟩

namespace ScreenTree

/-- The components of the screen that are visible with all their ancestors, from front to back. -/
def fromFront (screen : ScreenTree mode) : List (List Box) := (shown screen.tree []).reverse

/-- The condition for a pixel: the screen is visible, and a component with the pixel covers each
that is astray. -/
def Covered (screen : ScreenTree mode) (p : Point) : Prop :=
  screen.tree.this.visible = true ∧ ∀ front c behind, screen.fromFront = front ++ c :: behind →
    Astray mode p c → ∃ d ∈ front, Within mode p d

section

variable (screen : ScreenTree mode)

theorem location_root : getLocationOnScreen [screen.tree.this] = ⟨0, 0⟩ := by
  rw [getLocationOnScreen, screen.bounds]
  simp [of, Screen.s32_zero]

theorem within_root (hp : OnScreen mode p) : Within mode p [screen.tree.this] := by
  obtain ⟨hwidth, hheight⟩ := mode.stored
  have hwidth' : s32 mode.width = mode.width := s32_of_range (by omega) (by omega)
  have hheight' : s32 mode.height = mode.height := s32_of_range (by omega) (by omega)
  rw [within_cons hp]
  obtain ⟨hx, hw, hy, hh⟩ := hp
  refine ⟨⟨hx, hw, hy, hh⟩, ?_⟩
  rw [OnSurface, location_root, screen.bounds]
  simp only [of, hwidth', hheight']
  omega

theorem relativeTo_root (hp : OnScreen mode p) : relativeTo p [screen.tree.this] = p := by
  obtain ⟨hwidth, hheight⟩ := mode.stored
  obtain ⟨hx, hw, hy, hh⟩ := hp
  rw [relativeTo, location_root, Int.sub_zero, Int.sub_zero, s32_of_range (by omega) (by omega),
    s32_of_range (by omega) (by omega)]

end

theorem lastPainted_eq (cairo : CairoPaint) (screen : ScreenTree mode) (hp : OnScreen mode p) :
    screen.lastPainted cairo p = screen.fromFront.find? fun c => PaintedAt mode p c := by
  have hblit := paintedBy_blit cairo hp screen.tree []
  rw [location_root] at hblit
  rw [lastPainted, ← List.getLast?_map]
  have hmap : ((blit screen.tree [] (.of 0 0 mode.width mode.height) ⟨0, 0⟩).filter (cairo.paintsAt p)).map
      Painting.component = (shown screen.tree []).filter fun c => PaintedAt mode p c := hblit
  rw [hmap, List.getLast?_filter, fromFront]

theorem found_eq (screen : ScreenTree mode) (hp : OnScreen mode p)
    (hvisible : screen.tree.this.visible = true) :
    (screen.fromFront.find? fun c => Within mode p c) = some (getComponentAt screen.tree [] p) := by
  have hfound := getLast_within hp screen.tree [] hvisible (screen.within_root hp)
  rwa [screen.relativeTo_root hp, List.getLast?_filter] at hfound

theorem found_inside (screen : ScreenTree mode) (hp : OnScreen mode p)
    (hvisible : screen.tree.this.visible = true) :
    ∃ this parents, getComponentAt screen.tree [] p = this :: parents ∧
      let relative := relativeTo p (this :: parents)
      0 ≤ relative.x ∧ relative.x < this.bounds.width ∧ 0 ≤ relative.y ∧ relative.y < this.bounds.height := by
  have hfound := screen.found_eq hp hvisible
  have hwithin : Within mode p (getComponentAt screen.tree [] p) := by simpa using List.find?_some hfound
  have hmem := List.mem_reverse.1 (List.mem_of_find?_eq_some hfound)
  have hsuffix := suffix_of_mem_shown screen.tree [] _ hmem
  have hne : getComponentAt screen.tree [] p ≠ [] := by
    intro hnil
    rw [hnil] at hsuffix
    exact absurd (List.suffix_nil.1 hsuffix) (List.cons_ne_nil _ _)
  obtain ⟨this, parents, heq⟩ := List.exists_cons_of_ne_nil hne
  refine ⟨this, parents, heq, ?_⟩
  rw [heq, within_cons hp] at hwithin
  obtain ⟨-, hl, hr, ht, hb⟩ := hwithin
  obtain ⟨hwidth, hwidth', hheight, hheight'⟩ := this.sized
  simp only [relativeTo, s32, Int.bmod_def]
  omega

/-- The component at a pixel is the one painted last there exactly where every component that is
astray is covered. -/
theorem findsPainted_iff (cairo : CairoPaint) (screen : ScreenTree mode) (hp : OnScreen mode p) :
    screen.FindsPainted cairo p ↔ screen.Covered p := by
  by_cases hvisible : screen.tree.this.visible = true
  · obtain ⟨this, parents, heq, hinside⟩ := screen.found_inside hp hvisible
    have hdisjoint : ∀ c, Within mode p c → ¬Astray mode p c := fun c hc hastray => hastray.2.1 hc
    have hlast := find_or_iff (Within mode p) (Astray mode p) hdisjoint screen.fromFront
    rw [Covered, and_iff_right hvisible, ← hlast, screen.found_eq hp hvisible, FindsPainted,
      screen.lastPainted_eq cairo hp]
    refine ⟨fun h => h.1, fun h => ⟨h, this, parents, heq, ?_⟩⟩
    rw [heq]
    exact hinside
  · -- nothing is painted
    refine iff_of_false ?_ fun h => hvisible h.1
    rintro ⟨hlast, -⟩
    have hnone : screen.fromFront = [] := by
      rw [fromFront]
      obtain ⟨⟨this, children⟩, hbounds⟩ := screen
      rw [ComponentTree.this] at hvisible
      rw [shown, if_neg hvisible, List.reverse_nil]
    rw [screen.lastPainted_eq cairo hp, hnone] at hlast
    cases hlast

/-- Cairo, on whole pixels. -/
def pixels : CairoPaint where
  paints width height position clip p := decide
    ((position.x ≤ p.x ∧ p.x < position.x + width ∧ position.y ≤ p.y ∧ p.y < position.y + height) ∧
      (min clip.x (clip.x + clip.width) ≤ p.x ∧ p.x < max clip.x (clip.x + clip.width)) ∧
      min clip.y (clip.y + clip.height) ≤ p.y ∧ p.y < max clip.y (clip.y + clip.height))
  paints_iff _ _ _ _ _ := decide_eq_true_iff

/-- A screen of 800 by 600 with some components on it. -/
def sample (children : List ComponentTree) : ScreenTree ⟨800, 600, 32, by decide⟩ :=
  ⟨.node ⟨0, .of 0 0 800 600, true, by decide +kernel⟩ children, rfl⟩

theorem findsPainted_overlap :
    let screen := sample
      [.node ⟨1, .of (-10) 20 100 100, true, by decide +kernel⟩
        [.node ⟨2, .of 80 10 40 20, true, by decide +kernel⟩ []],
       .node ⟨3, .of 70 0 100 100, true, by decide +kernel⟩ []]
    screen.Covered ⟨75, 35⟩ ∧ screen.FindsPainted pixels ⟨75, 35⟩ := by
  intro screen
  have hcovered : screen.Covered ⟨75, 35⟩ := by
    have hnone : ∀ c ∈ screen.fromFront, ¬Astray ⟨800, 600, 32, by decide⟩ ⟨75, 35⟩ c := by decide +kernel
    refine ⟨rfl, ?_⟩
    intro front c behind heq hastray
    refine absurd hastray (hnone c ?_)
    rw [heq]
    exact List.mem_append_right _ List.mem_cons_self
  have hp : OnScreen ⟨800, 600, 32, by decide⟩ ⟨75, 35⟩ := by
    unfold OnScreen
    decide
  exact ⟨hcovered, (findsPainted_iff pixels screen hp).2 hcovered⟩

/-- A window of 50 pixels, in it a component at 80, and in that one at −20: the last one is painted at
60, outside of both, where the screen is found. -/
theorem findsPainted_outside :
    ∃ (screen : ScreenTree ⟨800, 600, 32, by decide⟩) (p : Point),
      OnScreen ⟨800, 600, 32, by decide⟩ p ∧ ∀ cairo, ¬screen.FindsPainted cairo p := by
  have hp : OnScreen ⟨800, 600, 32, by decide⟩ ⟨65, 10⟩ := by
    unfold OnScreen
    decide
  refine ⟨sample [.node ⟨1, .of 0 0 50 50, true, by decide +kernel⟩
    [.node ⟨2, .of 80 0 10 50, true, by decide +kernel⟩
      [.node ⟨3, .of (-20) 0 10 50, true, by decide +kernel⟩ []]]], ⟨65, 10⟩, hp, ?_⟩
  rintro cairo ⟨hlast, -⟩
  rw [lastPainted_eq cairo _ hp] at hlast
  exact absurd hlast (by decide +kernel)

/-- What the server finds along the pointers in memory: a component whose place on the screen has the
pixel inside of its size, and which is the one painted last there where those astray are covered. -/
theorem found_in_memory (cairo : CairoPaint) (screen : ScreenTree mode) {cs : Components}
    (hcs : Represents cs screen.tree none) (hp : OnScreen mode p)
    (hvisible : screen.tree.this.visible = true) :
    ∃ depth, ∀ n, depth ≤ n → ∃ found c location,
      (cs.getComponentAt n screen.tree.this.component p).toOption = some found ∧
      cs.object found = some c ∧ (cs.getLocationOnScreen n found).toOption = some location ∧
      (0 ≤ s32 (p.x - location.x) ∧ s32 (p.x - location.x) < c.bounds.width ∧
        0 ≤ s32 (p.y - location.y) ∧ s32 (p.y - location.y) < c.bounds.height) ∧
      (screen.Covered p →
        ((screen.lastPainted cairo p).bind List.head?).map Box.component = some found) := by
  obtain ⟨this, parents, heq, hinside⟩ := screen.found_inside hp hvisible
  obtain ⟨depth, hfound⟩ := getComponentAt_represented screen.tree [] none p hcs
  have hlinked := linked_getComponentAt screen.tree [] p hcs trivial
  rw [heq] at hlinked
  obtain ⟨⟨c, hc, hbounds, -⟩, -⟩ := id hlinked
  refine ⟨max depth (parents.length + 1), fun n hn => ⟨this.component, c, _, ?_, hc,
    getLocationOnScreen_linked this parents hlinked n (by omega), ?_, fun hcovered => ?_⟩⟩
  · rw [hfound n (by omega), heq]
    rfl
  · rw [hbounds]
    exact hinside
  · have hlast := (find_or_iff (Within mode p) (Astray mode p) (fun c hc hastray => hastray.2.1 hc)
      screen.fromFront).2 hcovered.2
    rw [screen.found_eq hp hvisible, heq] at hlast
    rw [screen.lastPainted_eq cairo hp]
    exact congrArg (fun boxes => (boxes.bind List.head?).map Box.component) hlast

def window : List ComponentTree := [.node ⟨1, .of 10 20 30 40, true, by decide +kernel⟩ []]

/-- The screen with the window, in memory. -/
def inMemory : Components where
  object a :=
    if a = 0 then
      some { kind := .screen, bounds := .of 0 0 800 600, children := [⟨1, .default⟩] }
    else if a = 1 then some { kind := .panel, bounds := .of 10 20 30 40, parent := some 0 }
    else none
  count := 2
  invalid := .empty

theorem found_in_memory_window :
    ∃ depth, ∀ n, depth ≤ n → ∃ found c location,
      (inMemory.getComponentAt n 0 ⟨15, 30⟩).toOption = some found ∧
      inMemory.object found = some c ∧ (inMemory.getLocationOnScreen n found).toOption = some location ∧
      (0 ≤ s32 (15 - location.x) ∧ s32 (15 - location.x) < c.bounds.width ∧
        0 ≤ s32 (30 - location.y) ∧ s32 (30 - location.y) < c.bounds.height) ∧
      ((sample window).Covered ⟨15, 30⟩ →
        (((sample window).lastPainted pixels ⟨15, 30⟩).bind List.head?).map Box.component = some found) := by
  have hp : OnScreen ⟨800, 600, 32, by decide⟩ ⟨15, 30⟩ := by
    unfold OnScreen
    decide
  exact found_in_memory pixels (sample window)
    ⟨⟨_, rfl, rfl, rfl, rfl, rfl⟩, ⟨⟨_, rfl, rfl, rfl, rfl, rfl⟩, trivial⟩, trivial⟩ hp rfl

end ScreenTree

end MeetixOS.ZipNET
