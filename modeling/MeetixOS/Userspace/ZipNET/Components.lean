import MeetixOS.Lib.Forest
import MeetixOS.Userspace.ZipNET.DirtyArea
import Mathlib.Data.List.Sort

/-! # The components of the window server

`Component_t`: what the components point to and how they are put into each other. Components are numbered
in the order of their creation; one that is embedded in another (the panel of a window) has a number of its
own. The functions that climb along the parents have a bound on their depth: `Stop.deep` is where it is too
small, `Stop.deleted` a pointer to a component that is not there. -/

open Function (update update_eq_self update_of_ne update_self)

namespace MeetixOS.ZipNET

open Kernel (s32)
open Lib (Linkage)

/-! ## Components -/

inductive ChildComponentRefType
  | default
  | internal
  deriving DecidableEq

structure ChildComponentRef where
  component : Nat
  refType : ChildComponentRefType
  deriving DecidableEq

/-- The class of a component, with the components that are embedded in it. -/
inductive Kind
  | screen
  | background
  | window (label panel : Nat)
  | geoshape (panel label : Nat)
  | label
  | button (label : Nat)
  | textField
  | canvas
  | panel
  deriving DecidableEq

/-- `COMPONENT_REQUIREMENT_ALL`. -/
def requirementAll : BitVec 32 := 0xFFFFFFFF

/-- `COMPONENT_REQUIREMENT_PAINT`. -/
def requirementPaint : BitVec 32 := 1

/-- `COMPONENT_REQUIREMENT_LAYOUT`. -/
def requirementLayout : BitVec 32 := 2

/-- `COMPONENT_REQUIREMENT_UPDATE`. -/
def requirementUpdate : BitVec 32 := 4

/-- `Component_t`. -/
structure Component where
  kind : Kind
  id : Int := -1
  parent : Option Nat := none
  children : List ChildComponentRef := []
  zIndex : Int := 1000
  visible : Bool := true
  bounds : Rectangle := .empty
  minimumWidth : Int := 0
  minimumHeight : Int := 0
  requirements : BitVec 32 := requirementAll
  childRequirements : BitVec 32 := requirementAll
  deriving DecidableEq

/-- `std::sort` by the z-index; the order of components with the same one is not said. -/
structure ZSort where
  sort : (Nat → Int) → List ChildComponentRef → List ChildComponentRef
  perm : ∀ z l, (sort z l).Perm l
  sorted : ∀ z l, (sort z l).Pairwise fun a b => z a.component ≤ z b.component

/-- An order that `std::sort` may leave. -/
def ZSort.insertion : ZSort where
  sort z := List.insertionSort fun a b => z a.component ≤ z b.component
  perm z l := List.perm_insertionSort _ l
  sorted z l := by
    have htotal : Std.Total fun a b : ChildComponentRef => z a.component ≤ z b.component :=
      ⟨fun a b => le_total _ _⟩
    have htrans : IsTrans ChildComponentRef fun a b => z a.component ≤ z b.component :=
      ⟨fun a b c => le_trans⟩
    exact List.pairwise_insertionSort _ l

/-- The components in memory and the invalid area of the screen. -/
structure Components where
  object : Nat → Option Component
  count : Nat
  invalid : Rectangle

/-- Why a function does not come back. -/
inductive Stop
  | deleted
  | deep (cs : Components)

namespace Components

/-- Follow a pointer. -/
def get (cs : Components) (a : Nat) : Except Stop Component :=
  match cs.object a with
  | some c => .ok c
  | none => .error .deleted

/-- Write a component. -/
def put (cs : Components) (a : Nat) (c : Component) : Components :=
  { cs with object := update cs.object a (some c) }

/-- `new`. -/
def create (cs : Components) (c : Component) : Components :=
  { cs with object := update cs.object cs.count (some c), count := cs.count + 1 }

/-! ## Climbing -/

/-- `Component_t::mark_children_for`. -/
def markChildrenFor (req : BitVec 32) : Nat → Components → Nat → Except Stop Components
  | 0, cs, _ => .error (.deep cs)
  | depth + 1, cs, a => do
      let this ← cs.get a
      let cs := cs.put a { this with childRequirements := this.childRequirements ||| req }
      match this.parent with
      | some parent => markChildrenFor req depth cs parent
      | none => .ok cs

/-- `Component_t::markFor`. -/
def markFor (req : BitVec 32) (depth : Nat) (cs : Components) (a : Nat) : Except Stop Components := do
  let this ← cs.get a
  let cs := cs.put a { this with requirements := this.requirements ||| req }
  match this.parent with
  | some parent => markChildrenFor req depth cs parent
  | none => .ok cs

/-- `Component_t::markDirty( rect )`, and `Screen_t::markDirty` at the screen. -/
def markDirtyRect (mode : ModeInfo) : Nat → Components → Nat → Rectangle → Except Stop Components
  | 0, cs, _, _ => .error (.deep cs)
  | depth + 1, cs, a, rect => do
      let this ← cs.get a
      if this.kind = .screen then .ok { cs with invalid := Screen.markDirty mode cs.invalid rect }
      else
        match this.parent with
        | some parent =>
          markDirtyRect mode depth cs parent
            (.of (rect.x + this.bounds.x) (rect.y + this.bounds.y) rect.width rect.height)
        | none => .ok cs

/-- `Component_t::markDirty()`. -/
def markDirty (mode : ModeInfo) (depth : Nat) (cs : Components) (a : Nat) : Except Stop Components := do
  let this ← cs.get a
  markDirtyRect mode depth cs a (.of 0 0 this.bounds.width this.bounds.height)

/-- `Component_t::canHandleEvents`. -/
def canHandleEvents : Nat → Components → Nat → Except Stop Bool
  | 0, cs, _ => .error (.deep cs)
  | depth + 1, cs, a => do
      let this ← cs.get a
      if !this.visible then .ok false
      else
        match this.parent with
        | some parent => canHandleEvents depth cs parent
        | none => .ok true

/-- `Component_t::getLocationOnScreen`. -/
def getLocationOnScreen : Nat → Components → Nat → Except Stop Point
  | 0, cs, _ => .error (.deep cs)
  | depth + 1, cs, a => do
      let this ← cs.get a
      match this.parent with
      | some parent => do
          let parentLocationOnScreen ← getLocationOnScreen depth cs parent
          .ok ⟨s32 (this.bounds.x + parentLocationOnScreen.x),
            s32 (this.bounds.y + parentLocationOnScreen.y)⟩
      | none => .ok ⟨this.bounds.x, this.bounds.y⟩

/-! ## Changes -/

/-- `Component_t::setVisible`. -/
def setVisible (mode : ModeInfo) (depth : Nat) (cs : Components) (a : Nat) (visible : Bool) :
    Except Stop Components := do
  let this ← cs.get a
  let cs ← markDirty mode depth (cs.put a { this with visible := visible }) a
  markFor requirementAll depth cs a

/-- The bounds that a component takes, with its minimum size. -/
def limited (this : Component) (newBounds : Rectangle) : Rectangle :=
  .of newBounds.x newBounds.y
    (if newBounds.width < this.minimumWidth then this.minimumWidth else newBounds.width)
    (if newBounds.height < this.minimumHeight then this.minimumHeight else newBounds.height)

/-- `Component_t::setBounds`; what a class does in its `handleBoundChange` and the event for the client
are left out. -/
def setBounds (mode : ModeInfo) (depth : Nat) (cs : Components) (a : Nat) (newBounds : Rectangle) :
    Except Stop Components := do
  let oldBounds := (← cs.get a).bounds
  let cs ← markDirty mode depth cs a
  let this ← cs.get a
  let bounds := limited this newBounds
  let cs ← markDirty mode depth (cs.put a { this with bounds := bounds }) a
  if oldBounds.width ≠ bounds.width ∨ oldBounds.height ≠ bounds.height then do
    let cs ← markFor requirementLayout depth cs a
    let cs ← markFor requirementUpdate depth cs a
    markFor requirementPaint depth cs a
  else .ok cs

/-- `Component_t::removeChild`. -/
def removeChild (depth : Nat) (cs : Components) (a comp : Nat) : Except Stop Components := do
  let this ← cs.get a
  let cs := cs.put a { this with children := this.children.filter fun ref => ref.component ≠ comp }
  let child ← cs.get comp
  let cs := cs.put comp { child with parent := none }
  markFor requirementLayout depth cs a

/-- The z-index of a child. -/
def zIndexOf (cs : Components) (a : Nat) : Int := ((cs.object a).map Component.zIndex).getD 0

/-- `Component_t::addChild`, behind the check for an old parent. -/
def pushChild (zs : ZSort) (depth : Nat) (cs : Components) (a comp : Nat)
    (refType : ChildComponentRefType) : Except Stop Components := do
  let this ← cs.get a
  let cs := cs.put a
    { this with children := zs.sort cs.zIndexOf (this.children ++ [⟨comp, refType⟩]) }
  let child ← cs.get comp
  let cs := cs.put comp { child with parent := some a }
  markFor requirementLayout depth cs a

/-- `Component_t::addChild`. -/
def addChildTo (zs : ZSort) (depth : Nat) (cs : Components) (a comp : Nat)
    (refType : ChildComponentRefType) : Except Stop Components := do
  let child ← cs.get comp
  match child.parent with
  | some parent => do
      let cs ← removeChild depth cs parent comp
      pushChild zs depth cs a comp refType
  | none => pushChild zs depth cs a comp refType

/-- Where `addChild` puts a child: `Window_t::addChild` passes it on to the panel. -/
def target (cs : Components) (a : Nat) : Nat :=
  match (cs.object a).map Component.kind with
  | some (.window _ panel) => panel
  | _ => a

/-- `addChild`, as it is called through a `Component_t*`. -/
def addChild (zs : ZSort) (depth : Nat) (cs : Components) (a comp : Nat) : Except Stop Components := do
  let _ ← cs.get a
  addChildTo zs depth cs (cs.target a) comp .default

/-! ## Constructors -/

/-- `Window_t()`. -/
def newWindow (zs : ZSort) (depth : Nat) (cs : Components) : Except Stop (Components × Nat) := do
  let label := cs.count
  let cs := cs.create { kind := .label }
  let panel := cs.count
  let cs := cs.create { kind := .panel }
  let window := cs.count
  let cs := cs.create
    { kind := .window label panel, visible := false, minimumWidth := 100, minimumHeight := 50 }
  let cs ← addChildTo zs depth cs window label .internal
  let cs ← addChildTo zs depth cs window panel .internal
  .ok (cs, window)

/-- `Geoshape_t()`. -/
def newGeoshape (zs : ZSort) (depth : Nat) (cs : Components) : Except Stop (Components × Nat) := do
  let panel := cs.count
  let cs := cs.create { kind := .panel }
  let label := cs.count
  let cs := cs.create { kind := .label }
  let geoshape := cs.count
  let cs := cs.create { kind := .geoshape panel label }
  let cs ← addChildTo zs depth cs geoshape panel .default
  let cs ← addChildTo zs depth cs geoshape label .default
  .ok (cs, geoshape)

/-- `Button_t()`. -/
def newButton (zs : ZSort) (depth : Nat) (cs : Components) : Except Stop (Components × Nat) := do
  let label := cs.count
  let cs := cs.create { kind := .label }
  let button := cs.count
  let cs := cs.create { kind := .button label }
  let cs ← addChildTo zs depth cs button label .internal
  .ok (cs, button)

/-- The constructor of a class without embedded components. -/
def newPlain (kind : Kind) (cs : Components) : Components × Nat :=
  (cs.create { kind := kind }, cs.count)

end Components

/-! ## What is left behind -/

/-- What holds of the result, and of the components where the recursion is cut. -/
def Leaves {α : Type} (I : Components → Prop) (P : α → Prop) : Except Stop α → Prop
  | .ok r => P r
  | .error (.deep cs) => I cs
  | .error .deleted => True

section

variable {α β : Type} {I J : Components → Prop} {P : α → Prop} {Q : β → Prop}

theorem Leaves.bind {r : Except Stop α} {f : α → Except Stop β} (h : Leaves I P r)
    (hf : ∀ a, P a → Leaves I Q (f a)) : Leaves I Q (r >>= f) := by
  match r with
  | .ok a => exact hf a h
  | .error (.deep _) => exact h
  | .error .deleted => trivial

theorem Leaves.mono {P' : α → Prop} {r : Except Stop α} (h : Leaves I P r) (hI : ∀ cs, I cs → J cs)
    (hP : ∀ a, P a → P' a) : Leaves J P' r := by
  match r with
  | .ok a => exact hP a h
  | .error (.deep cs) => exact hI cs h
  | .error .deleted => trivial

theorem Leaves.get_bind {cs : Components} {a : Nat} {f : Component → Except Stop β}
    (h : ∀ this, cs.object a = some this → Leaves I Q (f this)) : Leaves I Q (cs.get a >>= f) := by
  cases ha : cs.object a with
  | none =>
    rw [Components.get, ha]
    trivial
  | some this =>
    rw [Components.get, ha]
    exact h this ha

end

/-! ## The pointers between the components -/

namespace Components

variable {cs cs' cs'' : Components} {g g' : Linkage Nat} {a comp : Nat}

/-- The pointers between the components. -/
def linkage (cs : Components) : Linkage Nat where
  parent a := (cs.object a).bind Component.parent
  children a := ((cs.object a).map fun c => c.children.map ChildComponentRef.component).getD []

/-- The same components, linked as `g` says. -/
structure Relinked (cs : Components) (g : Linkage Nat) (cs' : Components) : Prop where
  count : cs'.count = cs.count
  kind : ∀ a, (cs'.object a).map (fun c => (c.kind, c.id)) = (cs.object a).map fun c => (c.kind, c.id)
  linkage : cs'.linkage = g

theorem Relinked.trans (h : Relinked cs g cs') (h' : Relinked cs' g' cs'') : Relinked cs g' cs'' :=
  ⟨h'.count.trans h.count, fun a => (h'.kind a).trans (h.kind a), h'.linkage⟩

theorem Relinked.trans_same (h : Relinked cs g cs') (h' : Relinked cs' cs'.linkage cs'') :
    Relinked cs g cs'' :=
  ⟨h'.count.trans h.count, fun a => (h'.kind a).trans (h.kind a), h'.linkage.trans h.linkage⟩

theorem Relinked.isSome (h : Relinked cs g cs') (a : Nat) :
    (cs'.object a).isSome = (cs.object a).isSome := by
  have := congrArg Option.isSome (h.kind a)
  rwa [Option.isSome_map, Option.isSome_map] at this

theorem relinked_put {c d : Component} (ha : cs.object a = some c) (hkind : d.kind = c.kind)
    (hid : d.id = c.id) :
    Relinked cs
      ⟨update cs.linkage.parent a d.parent,
        update cs.linkage.children a (d.children.map ChildComponentRef.component)⟩
      (cs.put a d) := by
  refine ⟨rfl, fun b => ?_, ?_⟩
  · by_cases hb : b = a
    · subst hb
      simp [put, ha, hkind, hid]
    · simp [put, update_of_ne hb]
  · simp only [Components.linkage, put, Linkage.mk.injEq]
    constructor <;> funext b <;> by_cases hb : b = a <;> simp [hb]

variable {c : Component}

theorem relinked_put_parent (ha : cs.object a = some c) (p : Option Nat) :
    Relinked cs ⟨update cs.linkage.parent a p, cs.linkage.children⟩
      (cs.put a { c with parent := p }) := by
  have h := relinked_put ha (d := { c with parent := p }) rfl rfl
  have hc : cs.linkage.children a = c.children.map ChildComponentRef.component := by
    simp [Components.linkage, ha]
  rwa [← hc, update_eq_self] at h

theorem relinked_put_children (ha : cs.object a = some c) (list : List ChildComponentRef) :
    Relinked cs
      ⟨cs.linkage.parent,
        update cs.linkage.children a (list.map ChildComponentRef.component)⟩
      (cs.put a { c with children := list }) := by
  have h := relinked_put ha (d := { c with children := list }) rfl rfl
  have hp : update cs.linkage.parent a c.parent = cs.linkage.parent := by
    simp [Components.linkage, ha]
  rwa [hp] at h

theorem relinked_put_same {c d : Component} (ha : cs.object a = some c) (hkind : d.kind = c.kind)
    (hid : d.id = c.id) (hparent : d.parent = c.parent) (hchildren : d.children = c.children) :
    Relinked cs cs.linkage (cs.put a d) := by
  have h := relinked_put ha hkind hid
  have hp : cs.linkage.parent a = d.parent := by simp [Components.linkage, ha, hparent]
  have hc : cs.linkage.children a = d.children.map ChildComponentRef.component := by
    simp [Components.linkage, ha, hchildren]
  rwa [← hp, ← hc, update_eq_self, update_eq_self] at h

theorem markChildrenFor_relinked (req : BitVec 32) (depth : Nat) (cs : Components) (a : Nat) :
    Leaves (Relinked cs cs.linkage) (Relinked cs cs.linkage) (markChildrenFor req depth cs a) := by
  induction depth generalizing cs a with
  | zero => exact ⟨rfl, fun _ => rfl, rfl⟩
  | succ depth ih =>
    refine Leaves.get_bind fun this ha => ?_
    have hput := relinked_put_same ha
      (d := { this with childRequirements := this.childRequirements ||| req }) rfl rfl rfl rfl
    split
    · exact (ih _ _).mono (fun _ => hput.trans_same) fun _ => hput.trans_same
    · exact hput

theorem markFor_relinked (req : BitVec 32) (depth : Nat) (cs : Components) (a : Nat) :
    Leaves (Relinked cs cs.linkage) (Relinked cs cs.linkage) (markFor req depth cs a) := by
  refine Leaves.get_bind fun this ha => ?_
  have hput := relinked_put_same ha
    (d := { this with requirements := this.requirements ||| req }) rfl rfl rfl rfl
  split
  · exact (markChildrenFor_relinked req depth _ _).mono (fun _ => hput.trans_same) fun _ =>
      hput.trans_same
  · exact hput

theorem Relinked.markFor (h : Relinked cs g cs') (req : BitVec 32) (depth a : Nat) :
    Leaves (Relinked cs g) (Relinked cs g) (markFor req depth cs' a) :=
  (markFor_relinked req depth cs' a).mono (fun _ => h.trans_same) fun _ => h.trans_same

theorem markDirtyRect_relinked (mode : ModeInfo) (depth : Nat) (cs : Components) (a : Nat)
    (rect : Rectangle) :
    Leaves (Relinked cs cs.linkage) (Relinked cs cs.linkage) (markDirtyRect mode depth cs a rect) := by
  induction depth generalizing a rect with
  | zero => exact ⟨rfl, fun _ => rfl, rfl⟩
  | succ depth ih =>
    refine Leaves.get_bind fun this ha => ?_
    split
    · exact ⟨rfl, fun _ => rfl, rfl⟩
    · split
      · exact ih _ _
      · exact ⟨rfl, fun _ => rfl, rfl⟩

theorem Relinked.markDirty (h : Relinked cs g cs') (mode : ModeInfo) (depth a : Nat) :
    Leaves (Relinked cs g) (Relinked cs g) (markDirty mode depth cs' a) :=
  Leaves.get_bind fun _ _ => (markDirtyRect_relinked mode depth cs' a _).mono
    (fun _ => h.trans_same) fun _ => h.trans_same

theorem setVisible_relinked (mode : ModeInfo) (depth : Nat) (cs : Components) (a : Nat)
    (visible : Bool) :
    Leaves (Relinked cs cs.linkage) (Relinked cs cs.linkage)
      (setVisible mode depth cs a visible) := by
  refine Leaves.get_bind fun this ha => ?_
  have hput := relinked_put_same ha (d := { this with visible := visible }) rfl rfl rfl rfl
  exact (hput.markDirty mode depth a).bind fun cs1 h1 => h1.markFor requirementAll depth a

theorem setBounds_relinked (mode : ModeInfo) (depth : Nat) (cs : Components) (a : Nat)
    (newBounds : Rectangle) :
    Leaves (Relinked cs cs.linkage) (Relinked cs cs.linkage)
      (setBounds mode depth cs a newBounds) := by
  have hsame : Relinked cs cs.linkage cs := ⟨rfl, fun _ => rfl, rfl⟩
  refine Leaves.get_bind fun old _ => (hsame.markDirty mode depth a).bind fun cs1 h1 =>
    Leaves.get_bind fun this ha => ?_
  have hput := h1.trans_same (relinked_put_same ha
    (d := { this with bounds := limited this newBounds }) rfl rfl rfl rfl)
  refine (hput.markDirty mode depth a).bind fun cs2 h2 => ?_
  split
  · exact (h2.markFor requirementLayout depth a).bind fun cs3 h3 =>
      (h3.markFor requirementUpdate depth a).bind fun cs4 h4 =>
        h4.markFor requirementPaint depth a
  · exact h2

theorem removeChild_relinked (depth : Nat) (cs : Components) (a comp : Nat) :
    Leaves (Relinked cs (cs.linkage.unlink a comp)) (Relinked cs (cs.linkage.unlink a comp))
      (removeChild depth cs a comp) := by
  refine Leaves.get_bind fun this ha => Leaves.get_bind fun child hcomp => ?_
  have hlist := relinked_put_children ha (this.children.filter fun ref => ref.component ≠ comp)
  have hparent := relinked_put_parent hcomp none
  have hgoal := hlist.trans hparent
  have hfilter : (this.children.filter fun ref => ref.component ≠ comp).map
      ChildComponentRef.component = (cs.linkage.children a).filter fun d => d ≠ comp := by
    simp only [Components.linkage, ha, Option.map_some, Option.getD_some, List.filter_map]
    rfl
  rw [hlist.linkage, hfilter] at hgoal
  exact hgoal.markFor requirementLayout depth a

theorem pushChild_relinked (zs : ZSort) (depth : Nat) (cs : Components) (a comp : Nat)
    (refType : ChildComponentRefType) :
    ∃ list : List Nat, list.Perm (comp :: cs.linkage.children a) ∧
      Leaves (Relinked cs (cs.linkage.link a comp list)) (Relinked cs (cs.linkage.link a comp list))
        (pushChild zs depth cs a comp refType) := by
  cases ha : cs.object a with
  | none =>
    refine ⟨comp :: cs.linkage.children a, List.Perm.refl _, ?_⟩
    rw [pushChild, get, ha]
    trivial
  | some this =>
    refine ⟨(zs.sort cs.zIndexOf (this.children ++ [⟨comp, refType⟩])).map
      ChildComponentRef.component, ?_, ?_⟩
    · refine ((zs.perm _ _).map _).trans ?_
      simp only [List.map_append, List.map_cons, List.map_nil, Components.linkage, ha,
        Option.map_some, Option.getD_some]
      exact List.perm_append_singleton _ _
    · refine Leaves.get_bind fun this' ha' => Leaves.get_bind fun child hcomp => ?_
      cases ha.symm.trans ha'
      have hlist := relinked_put_children ha
        (zs.sort cs.zIndexOf (this.children ++ [⟨comp, refType⟩]))
      have hgoal := hlist.trans (relinked_put_parent hcomp (some a))
      rw [hlist.linkage] at hgoal
      exact hgoal.markFor requirementLayout depth a

/-! ## The forest -/

/-- The pointers lead to components that are there, and make a forest. -/
structure Sound (cs : Components) : Prop where
  forest : cs.linkage.Forest
  parents : ∀ a p, cs.linkage.parent a = some p → (cs.object p).isSome
  fresh : ∀ a, cs.count ≤ a → cs.object a = none

theorem Sound.relinked (h : cs.Sound) (hg : g.Forest) (hrel : Relinked cs g cs')
    (hparents : ∀ a p, g.parent a = some p → (cs.object p).isSome) : cs'.Sound := by
  refine ⟨hrel.linkage ▸ hg, fun a p hp => ?_, fun a ha => ?_⟩
  · rw [hrel.isSome]
    rw [hrel.linkage] at hp
    exact hparents a p hp
  · have hnone := h.fresh a (hrel.count ▸ ha)
    rw [← Option.isNone_iff_eq_none, ← Option.not_isSome, hrel.isSome, hnone]
    rfl

theorem Sound.same (h : cs.Sound) (hrel : Relinked cs cs.linkage cs') : cs'.Sound :=
  h.relinked h.forest hrel h.parents

/-- A component has been moved; the parents of the others are what they were. -/
structure Moved (cs : Components) (comp : Nat) (cs' : Components) : Prop where
  sound : cs'.Sound
  count : cs'.count = cs.count
  kind : ∀ a, (cs'.object a).map (fun c => (c.kind, c.id)) = (cs.object a).map fun c => (c.kind, c.id)
  others : ∀ b, b ≠ comp → cs'.linkage.parent b = cs.linkage.parent b

theorem Moved.trans (h : Moved cs comp cs') (h' : Moved cs' comp cs'') : Moved cs comp cs'' :=
  ⟨h'.sound, h'.count.trans h.count, fun a => (h'.kind a).trans (h.kind a), fun b hb =>
    (h'.others b hb).trans (h.others b hb)⟩

theorem pushChild_moved (zs : ZSort) (depth : Nat) (h : cs.Sound) (refType : ChildComponentRefType)
    (hcomp : cs.linkage.parent comp = none) (hapart : ¬ cs.linkage.AtOrAbove comp a) :
    Leaves (Moved cs comp) (Moved cs comp) (pushChild zs depth cs a comp refType) := by
  cases ha : cs.object a with
  | none =>
    rw [pushChild, get, ha]
    trivial
  | some this =>
    obtain ⟨list, hlist, hpush⟩ := pushChild_relinked zs depth cs a comp refType
    have hmoved : ∀ cs', Relinked cs (cs.linkage.link a comp list) cs' → Moved cs comp cs' := by
      intro cs' hrel
      refine ⟨h.relinked (h.forest.link hcomp hapart hlist) hrel fun b p hp => ?_, hrel.count,
        hrel.kind, fun b hb => ?_⟩
      · by_cases hb : b = comp
        · subst hb
          simp only [Linkage.link, update_self, Option.some.injEq] at hp
          rw [← hp, ha]
          rfl
        · exact h.parents b p (by simpa [Linkage.link, update_of_ne hb] using hp)
      · rw [hrel.linkage]
        exact update_of_ne hb ..
    exact hpush.mono hmoved hmoved

theorem removeChild_moved (depth : Nat) (h : cs.Sound) (hcomp : cs.linkage.parent comp = some a) :
    Leaves (Moved cs comp)
      (fun cs' => Moved cs comp cs' ∧ cs'.linkage = cs.linkage.unlink a comp)
      (removeChild depth cs a comp) := by
  have hmoved : ∀ cs', Relinked cs (cs.linkage.unlink a comp) cs' → Moved cs comp cs' := by
    intro cs' hrel
    refine ⟨h.relinked (h.forest.unlink hcomp) hrel fun b p hp => ?_, hrel.count, hrel.kind,
      fun b hb => ?_⟩
    · by_cases hb : b = comp
      · simp [Linkage.unlink, hb] at hp
      · exact h.parents b p (by simpa [Linkage.unlink, update_of_ne hb] using hp)
    · rw [hrel.linkage]
      exact update_of_ne hb ..
  exact (removeChild_relinked depth cs a comp).mono hmoved fun cs' hrel =>
    ⟨hmoved cs' hrel, hrel.linkage⟩

theorem addChildTo_moved (zs : ZSort) (depth : Nat) (h : cs.Sound)
    (refType : ChildComponentRefType) (hapart : ¬ cs.linkage.AtOrAbove comp a) :
    Leaves (Moved cs comp) (Moved cs comp) (addChildTo zs depth cs a comp refType) := by
  refine Leaves.get_bind fun child hcomp => ?_
  have hparent : cs.linkage.parent comp = child.parent := by simp [Components.linkage, hcomp]
  split
  next q hq =>
    refine (removeChild_moved depth h (hparent.trans hq)).bind fun cs1 h1 => ?_
    obtain ⟨hmoved, hlinkage⟩ := h1
    refine (pushChild_moved zs depth hmoved.sound refType ?_ ?_).mono (fun _ => hmoved.trans) fun _ =>
      hmoved.trans
    · rw [hlinkage]
      exact update_self ..
    · rw [hlinkage]
      exact fun habove => hapart habove.of_unlink
  next hq => exact pushChild_moved zs depth h refType (hparent.trans hq) hapart

/-! ## New components -/

theorem Sound.parent_eq_none (h : cs.Sound) (ha : cs.count ≤ a) : cs.linkage.parent a = none := by
  simp [Components.linkage, h.fresh a ha]

/-- More components; the parents of those that were there are what they were. -/
structure Grown (cs cs' : Components) : Prop where
  sound : cs'.Sound
  count : cs.count ≤ cs'.count
  kept : ∀ b, b < cs.count → cs'.linkage.parent b = cs.linkage.parent b

theorem Sound.grown (h : cs.Sound) : Grown cs cs := ⟨h, Nat.le_refl _, fun _ _ => rfl⟩

theorem Grown.create (h : Grown cs cs') (hparent : c.parent = none) (hchildren : c.children = []) :
    Grown cs (cs'.create c) ∧ (cs'.create c).linkage = cs'.linkage := by
  have hnew := h.sound.fresh _ (Nat.le_refl _)
  have hlinkage : (cs'.create c).linkage = cs'.linkage := by
    simp only [Components.linkage, Components.create, Linkage.mk.injEq]
    constructor <;> funext b <;> by_cases hb : b = cs'.count <;>
      simp [hb, hnew, hparent, hchildren]
  refine ⟨⟨⟨hlinkage ▸ h.sound.forest, fun b p hp => ?_, fun b hb => ?_⟩, ?_, fun b hb => ?_⟩, hlinkage⟩
  · rw [hlinkage] at hp
    have hlive := h.sound.parents b p hp
    by_cases hpc : p = cs'.count
    · simp [Components.create, hpc]
    · simpa [Components.create, update_of_ne hpc] using hlive
  · simp only [Components.create] at hb ⊢
    rw [update_of_ne (by omega)]
    exact h.sound.fresh b (by omega)
  · exact h.count.trans (Nat.le_succ _)
  · rw [hlinkage]
    exact h.kept b hb

theorem Grown.moved (h : Grown cs cs') (hmoved : Moved cs' comp cs'') (hcomp : cs.count ≤ comp) :
    Grown cs cs'' :=
  ⟨hmoved.sound, hmoved.count ▸ h.count, fun b hb =>
    (hmoved.others b (by omega)).trans (h.kept b hb)⟩

theorem Grown.addChildTo (h : Grown cs cs') (zs : ZSort) (depth : Nat)
    (refType : ChildComponentRefType) (hcomp : cs.count ≤ comp) (ha : cs'.linkage.parent a = none)
    (hne : a ≠ comp) :
    Leaves (Grown cs)
      (fun cs'' => Grown cs cs'' ∧ cs''.linkage.parent a = none ∧ cs''.count = cs'.count)
      (addChildTo zs depth cs' a comp refType) :=
  (addChildTo_moved zs depth h.sound refType (Linkage.not_atOrAbove_of_root ha hne)).mono
    (fun _ hmoved => h.moved hmoved hcomp)
    fun _ hmoved => ⟨h.moved hmoved hcomp, (hmoved.others a hne).trans ha, hmoved.count⟩

/-- A constructor leaves a new component without a parent. -/
def Constructed (cs : Components) (r : Components × Nat) : Prop :=
  Grown cs r.1 ∧ r.1.linkage.parent r.2 = none ∧ cs.count ≤ r.2 ∧ r.2 < r.1.count

section

variable (h : cs.Sound) (zs : ZSort) (depth : Nat)
include h

theorem newWindow_constructed : Leaves (Grown cs) (Constructed cs) (newWindow zs depth cs) := by
  obtain ⟨h1, hlink1⟩ := h.grown.create (c := { kind := .label }) rfl rfl
  obtain ⟨h2, hlink2⟩ := h1.create (c := { kind := .panel }) rfl rfl
  obtain ⟨h3, hlink3⟩ := h2.create
    (c := { kind := .window cs.count (cs.count + 1), visible := false, minimumWidth := 100,
            minimumHeight := 50 }) rfl rfl
  have hwindow := (hlink3.trans (hlink2.trans hlink1)) ▸ h.parent_eq_none (Nat.le_add_right cs.count 2)
  refine (h3.addChildTo zs depth .internal (Nat.le_refl cs.count) hwindow (by omega)).bind
    fun cs4 h4 => ?_
  obtain ⟨hgrown4, hwindow4, hcount4⟩ := h4
  refine (hgrown4.addChildTo zs depth .internal (Nat.le_add_right cs.count 1) hwindow4
    (by omega)).bind fun cs5 h5 => ?_
  obtain ⟨hgrown5, hwindow5, hcount5⟩ := h5
  refine ⟨hgrown5, hwindow5, Nat.le_add_right cs.count 2, ?_⟩
  rw [hcount5, hcount4]
  exact Nat.lt_succ_self (cs.count + 2)

theorem newGeoshape_constructed : Leaves (Grown cs) (Constructed cs) (newGeoshape zs depth cs) := by
  obtain ⟨h1, hlink1⟩ := h.grown.create (c := { kind := .panel }) rfl rfl
  obtain ⟨h2, hlink2⟩ := h1.create (c := { kind := .label }) rfl rfl
  obtain ⟨h3, hlink3⟩ := h2.create (c := { kind := .geoshape cs.count (cs.count + 1) }) rfl rfl
  have hshape := (hlink3.trans (hlink2.trans hlink1)) ▸ h.parent_eq_none (Nat.le_add_right cs.count 2)
  refine (h3.addChildTo zs depth .default (Nat.le_refl cs.count) hshape (by omega)).bind
    fun cs4 h4 => ?_
  obtain ⟨hgrown4, hshape4, hcount4⟩ := h4
  refine (hgrown4.addChildTo zs depth .default (Nat.le_add_right cs.count 1) hshape4
    (by omega)).bind fun cs5 h5 => ?_
  obtain ⟨hgrown5, hshape5, hcount5⟩ := h5
  refine ⟨hgrown5, hshape5, Nat.le_add_right cs.count 2, ?_⟩
  rw [hcount5, hcount4]
  exact Nat.lt_succ_self (cs.count + 2)

theorem newButton_constructed : Leaves (Grown cs) (Constructed cs) (newButton zs depth cs) := by
  obtain ⟨h1, hlink1⟩ := h.grown.create (c := { kind := .label }) rfl rfl
  obtain ⟨h2, hlink2⟩ := h1.create (c := { kind := .button cs.count }) rfl rfl
  have hbutton := (hlink2.trans hlink1) ▸ h.parent_eq_none (Nat.le_add_right cs.count 1)
  refine (h2.addChildTo zs depth .internal (Nat.le_refl cs.count) hbutton (by omega)).bind
    fun cs3 h3 => ?_
  obtain ⟨hgrown3, hbutton3, hcount3⟩ := h3
  refine ⟨hgrown3, hbutton3, Nat.le_add_right cs.count 1, ?_⟩
  rw [hcount3]
  exact Nat.lt_succ_self (cs.count + 1)

end

theorem newPlain_constructed (h : cs.Sound) (kind : Kind) : Constructed cs (newPlain kind cs) := by
  obtain ⟨h1, hlink1⟩ := h.grown.create (c := { kind := kind }) rfl rfl
  exact ⟨h1, hlink1 ▸ h.parent_eq_none (Nat.le_refl cs.count), Nat.le_refl _, Nat.lt_succ_self _⟩

/-! ## The climbs end -/

/-- The recursion comes back at some depth. -/
def Ends {α : Type} (f : Nat → Except Stop α) : Prop := ∃ depth, (f depth).isOk

theorem parent_eq (ha : cs.object a = some c) : cs.linkage.parent a = c.parent := by
  simp [Components.linkage, ha]

section

variable (h : ∀ a p, cs.linkage.parent a = some p → (cs.object p).isSome) (req : BitVec 32)
  (depth : Nat) (ha : (cs.object a).isSome)
include h ha

theorem markChildrenFor_isOk :
    (markChildrenFor req depth cs a).isOk = cs.linkage.climbEnds depth a := by
  induction depth generalizing cs a with
  | zero => rfl
  | succ depth ih =>
    obtain ⟨this, ha⟩ := Option.isSome_iff_exists.1 ha
    have hput := relinked_put_same ha
      (d := { this with childRequirements := this.childRequirements ||| req }) rfl rfl rfl rfl
    rw [markChildrenFor, get, ha, Linkage.climbEnds, parent_eq ha]
    simp only [bind, Except.bind]
    have hnext := h a
    rw [parent_eq ha] at hnext
    generalize cs.put a _ = cs' at hput ⊢
    cases hp : this.parent with
    | none => rfl
    | some p =>
      rw [← hput.linkage]
      refine ih (fun b q hq => ?_) ?_
      · rw [hput.isSome]
        exact h b q (hput.linkage ▸ hq)
      · rw [hput.isSome]
        exact hnext p hp

theorem markFor_isOk : (markFor req depth cs a).isOk = cs.linkage.climbEnds (depth + 1) a := by
  obtain ⟨this, ha⟩ := Option.isSome_iff_exists.1 ha
  have hput := relinked_put_same ha
    (d := { this with requirements := this.requirements ||| req }) rfl rfl rfl rfl
  rw [markFor, get, ha, Linkage.climbEnds, parent_eq ha]
  simp only [bind, Except.bind]
  have hnext := h a
  rw [parent_eq ha] at hnext
  generalize cs.put a _ = cs' at hput ⊢
  cases hp : this.parent with
  | none => rfl
  | some p =>
    rw [← hput.linkage]
    refine markChildrenFor_isOk (fun b q hq => ?_) req depth ?_
    · rw [hput.isSome]
      exact h b q (hput.linkage ▸ hq)
    · rw [hput.isSome]
      exact hnext p hp

end

theorem markChildrenFor_of_parent_self (req : BitVec 32) (depth : Nat) (ha : cs.object a = some c)
    (hself : c.parent = some a) : (markChildrenFor req depth cs a).isOk = false := by
  induction depth generalizing cs c with
  | zero => rfl
  | succ depth ih =>
    simp only [markChildrenFor, get, ha, bind, Except.bind, hself]
    exact ih (update_self ..) rfl

theorem markFor_of_parent_self (req : BitVec 32) (depth : Nat) (ha : cs.object a = some c)
    (hself : c.parent = some a) : (markFor req depth cs a).isOk = false := by
  simp only [markFor, get, ha, bind, Except.bind, hself]
  exact markChildrenFor_of_parent_self req depth (update_self ..) rfl

section

variable (h : cs.Sound) {depth : Nat} (ha : (cs.object a).isSome)
  (hclimb : cs.linkage.climbEnds depth a)

include h ha hclimb

theorem Sound.markDirtyRect_isOk (mode : ModeInfo) (rect : Rectangle) :
    (markDirtyRect mode depth cs a rect).isOk := by
  induction depth generalizing a rect with
  | zero => cases hclimb
  | succ depth ih =>
    obtain ⟨this, hthis⟩ := Option.isSome_iff_exists.1 ha
    simp only [markDirtyRect, get, hthis, bind, Except.bind]
    rw [Linkage.climbEnds, parent_eq hthis] at hclimb
    split
    · rfl
    · cases hp : this.parent with
      | none => rfl
      | some p =>
        rw [hp] at hclimb
        exact ih (h.parents a p ((parent_eq hthis).trans hp)) hclimb _

theorem Sound.canHandleEvents_isOk : (canHandleEvents depth cs a).isOk := by
  induction depth generalizing a with
  | zero => cases hclimb
  | succ depth ih =>
    obtain ⟨this, hthis⟩ := Option.isSome_iff_exists.1 ha
    simp only [canHandleEvents, get, hthis, bind, Except.bind]
    rw [Linkage.climbEnds, parent_eq hthis] at hclimb
    split
    · rfl
    · cases hp : this.parent with
      | none => rfl
      | some p =>
        rw [hp] at hclimb
        exact ih (h.parents a p ((parent_eq hthis).trans hp)) hclimb

theorem Sound.getLocationOnScreen_isOk : (getLocationOnScreen depth cs a).isOk := by
  induction depth generalizing a with
  | zero => cases hclimb
  | succ depth ih =>
    obtain ⟨this, hthis⟩ := Option.isSome_iff_exists.1 ha
    simp only [getLocationOnScreen, get, hthis, bind, Except.bind]
    rw [Linkage.climbEnds, parent_eq hthis] at hclimb
    cases hp : this.parent with
    | none => rfl
    | some p =>
      rw [hp] at hclimb
      have hparent := ih (h.parents a p ((parent_eq hthis).trans hp)) hclimb
      cases hloc : getLocationOnScreen depth cs p with
      | ok point => simp [hloc, Except.isOk, Except.toBool]
      | error stop => simp [hloc, Except.isOk, Except.toBool] at hparent

end

/-- The components make a forest, and the recursions along the parents come back. -/
structure WellLinked (mode : ModeInfo) (cs : Components) : Prop where
  listed : ∀ p c, (cs.linkage.children p).count c = if cs.linkage.parent c = some p then 1 else 0
  not_above_self : ∀ c, ¬ cs.linkage.Above c c
  markFor_ends : ∀ a, (cs.object a).isSome → ∀ req, Ends fun depth => markFor req depth cs a
  markDirty_ends : ∀ a, (cs.object a).isSome →
    ∀ rect, Ends fun depth => markDirtyRect mode depth cs a rect
  canHandleEvents_ends : ∀ a, (cs.object a).isSome → Ends fun depth => canHandleEvents depth cs a
  getLocationOnScreen_ends : ∀ a, (cs.object a).isSome →
    Ends fun depth => getLocationOnScreen depth cs a

theorem Sound.wellLinked (h : cs.Sound) (mode : ModeInfo) : WellLinked mode cs where
  listed := h.forest.listed
  not_above_self := h.forest.not_above_self
  markFor_ends a ha req := by
    obtain ⟨depth, hdepth⟩ := Linkage.exists_climbEnds h.forest.climbs a
    cases depth with
    | zero => cases hdepth
    | succ depth => exact ⟨depth, by rw [markFor_isOk h.parents req depth ha]; exact hdepth⟩
  markDirty_ends a ha rect := by
    obtain ⟨depth, hdepth⟩ := Linkage.exists_climbEnds h.forest.climbs a
    exact ⟨depth, h.markDirtyRect_isOk ha hdepth mode rect⟩
  canHandleEvents_ends a ha := by
    obtain ⟨depth, hdepth⟩ := Linkage.exists_climbEnds h.forest.climbs a
    exact ⟨depth, h.canHandleEvents_isOk ha hdepth⟩
  getLocationOnScreen_ends a ha := by
    obtain ⟨depth, hdepth⟩ := Linkage.exists_climbEnds h.forest.climbs a
    exact ⟨depth, h.getLocationOnScreen_isOk ha hdepth⟩

end Components

end MeetixOS.ZipNET
