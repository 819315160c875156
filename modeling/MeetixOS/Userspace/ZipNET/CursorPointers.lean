import MeetixOS.Userspace.ZipNET.ClientExits

/-! # The components that the cursor points at

`EventProcessor::processMouseState` and `translateKeyEvent`, `ZipNET::dispatch` and `dispatchUpwards`, next
to the threads that clean up behind clients. A cleanup may come between any two uses of a pointer by the
main loop. What the classes of components do with an event is a parameter: they write their own fields,
move and hide themselves and ask for paint, but put no component anywhere and delete none. -/

namespace MeetixOS.ZipNET

open Leaves

open Kernel (s32)
open Lib (System)

/-! ## Input -/

/-- `MOUSE_BUTTON_1`, `MOUSE_BUTTON_2` and `MOUSE_BUTTON_3`. -/
def mouseButtons : List (BitVec 8) := [1, 2, 4]

/-- `IO::Mouse::Info`. -/
structure MouseInfo where
  x : Int
  y : Int
  button1 : Bool
  button2 : Bool
  button3 : Bool

structure Cursor where
  position : Point := ⟨0, 0⟩
  nextPosition : Point := ⟨0, 0⟩
  pressedButtons : BitVec 8 := 0
  nextPressedButtons : BitVec 8 := 0
  draggedComponent : Option Nat := none
  hoveredComponent : Option Nat := none
  focusedComponent : Option Nat := none

/-- The part of `startReceiveMouseEvents` behind `read`. -/
def Cursor.receive (mode : ModeInfo) (cursor : Cursor) (info : MouseInfo) : Cursor :=
  let x := s32 (cursor.nextPosition.x + info.x)
  let y := s32 (cursor.nextPosition.y - info.y)
  let x := if x < 0 then 0 else x
  let x := if x > (mode.width : Int) - 2 then (mode.width : Int) - 2 else x
  let y := if y < 0 then 0 else y
  let y := if y > (mode.height : Int) - 2 then (mode.height : Int) - 2 else y
  { cursor with
    nextPosition := ⟨x, y⟩
    nextPressedButtons := (if info.button1 then 1 else 0) ||| (if info.button2 then 2 else 0) |||
      (if info.button3 then 4 else 0) }

inductive MouseEventType
  | move
  | press
  | release
  | dragRelease
  | enter
  | leave
  | drag
  deriving DecidableEq

/-- `MouseEvent_t`, `FocusEvent_t` and `KeyEvent_t`. -/
inductive InputEvent (K : Type)
  | mouse (type : MouseEventType) (screenPosition position : Point) (buttons : BitVec 8)
  | focus (gained : Bool) (newFocusedComponent : Nat)
  | key (info : K)

/-- The screen, and what the classes of components do. -/
structure Surroundings (K : Type) where
  zs : ZSort
  mode : ModeInfo
  /-- `handle` of the class of the component. -/
  handle : Components → Nat → InputEvent K → Except Stop (Components × Bool)
  /-- What the main loop does between the events and the next frame: layout and paint. -/
  render : Components → Except Stop Components
  handle_core : ∀ {cs a e r}, handle cs a e = .ok r → r.1.count = cs.count ∧ r.1.coreOf = cs.coreOf
  render_core : ∀ {cs cs'}, render cs = .ok cs' → cs'.count = cs.count ∧ cs'.coreOf = cs.coreOf

namespace Components

/-- The loop of `getComponentAt`; `children` are the children from the last one on. -/
def childAt (cs : Components) (p : Point) : List ChildComponentRef → Except Stop (Option Nat)
  | [] => .ok none
  | ref :: children => do
      let child ← cs.get ref.component
      if child.visible && child.bounds.contains p then .ok (some ref.component)
      else childAt cs p children

/-- `Component_t::getComponentAt`. -/
def getComponentAt : Nat → Components → Nat → Point → Except Stop Nat
  | 0, cs, _, _ => .error (.deep cs)
  | depth + 1, cs, a, p => do
      let this ← cs.get a
      match ← cs.childAt p this.children.reverse with
      | some component => do
          let child ← cs.get component
          getComponentAt depth cs component ⟨s32 (p.x - child.bounds.x), s32 (p.y - child.bounds.y)⟩
      | none => .ok a

/-- `Component_t::getWindow`. -/
def getWindow : Nat → Components → Nat → Except Stop (Option Nat)
  | 0, cs, _ => .error (.deep cs)
  | depth + 1, cs, a => do
      let this ← cs.get a
      if this.kind.isWindow then .ok (some a)
      else
        match this.parent with
        | some parent => getWindow depth cs parent
        | none => .ok none

/-- The move to the end in `bringChildToFront`. -/
def toFront (comp : Nat) : List ChildComponentRef → List ChildComponentRef
  | [] => []
  | ref :: children => if ref.component = comp then children ++ [ref] else ref :: toFront comp children

/-- `Component_t::bringToFront`. -/
def bringToFront (mode : ModeInfo) (depth : Nat) (cs : Components) (a : Nat) : Except Stop Components := do
  let this ← cs.get a
  match this.parent with
  | some parent => do
      let parentComponent ← cs.get parent
      if parentComponent.children.any fun ref => ref.component = a then
        markDirtyRect mode depth
          (cs.put parent { parentComponent with children := toFront a parentComponent.children })
          parent this.bounds
      else .ok cs
  | none => .ok cs

end Components

namespace Surroundings

variable {K : Type}

/-- `ZipNET::dispatch`. -/
def dispatch (w : Surroundings K) (depth : Nat) (cs : Components) (component : Nat) (event : InputEvent K) :
    Except Stop (Components × Bool) := do
  if ← cs.canHandleEvents depth component then
    match event with
    | .mouse type screenPosition position buttons => do
        let locationOnScreen ← cs.getLocationOnScreen depth component
        w.handle cs component (.mouse type screenPosition
          ⟨s32 (position.x - locationOnScreen.x), s32 (position.y - locationOnScreen.y)⟩ buttons)
    | event => w.handle cs component event
  else .ok (cs, false)

/-- `ZipNET::dispatchUpwards`; `climb` is the bound for the way up. -/
def dispatchUpwards (w : Surroundings K) (depth : Nat) :
    (climb : Nat) → Components → (acceptor : Nat) → InputEvent K → Except Stop (Components × Option Nat)
  | 0, cs, _, _ => .error (.deep cs)
  | climb + 1, cs, acceptor, event => do
      let (cs, handled) ← w.dispatch depth cs acceptor event
      if handled then .ok (cs, some acceptor)
      else
        match (← cs.get acceptor).parent with
        | some parent => dispatchUpwards w depth climb cs parent event
        | none => .ok (cs, none)

end Surroundings

/-! ## The main loop -/

/-- Where the main loop is in `processMouseState`, with the component that it has in a local variable. -/
inductive MousePhase
  /-- Not in `processMouseState`. -/
  | idle
  /-- A button is pressed: the component in focus is to lose it. -/
  | losing (hitComponent : Nat)
  /-- The client is told that the component has lost the focus. -/
  | lost (hitComponent : Nat)
  /-- The window comes to front, and the component that was hit is to get the focus. -/
  | gaining (hitComponent : Nat)
  /-- The client is told that the component has got the focus. -/
  | gained
  /-- A button is released. -/
  | released
  /-- The mouse has moved. -/
  | hovering (hovered : Nat)
  /-- Behind the events for entering and leaving. -/
  | moving
  deriving DecidableEq

/-- Why an event does not come to its end. -/
inductive InputStop
  /-- One of the pointers of the cursor is followed, and its component has been deleted. -/
  | dangling (component : Nat)
  /-- The null pointer is followed. -/
  | null
  /-- Another pointer leads to a component that is gone, or a recursion is cut. -/
  | stop (s : Stop)
  /-- The main loop is somewhere else. -/
  | disabled

/-- The window server with the cursor. -/
structure InputRun where
  server : WindowServer
  cursor : Cursor
  main : MousePhase
  font : Font
  deleted : List Nat

/-- An input thread gets a report of the mouse, a cleanup thread sees a process exit, the main loop starts
or goes on with `processMouseState`, or it comes to a key, a command, or the rest of its round. -/
inductive ServerEvent (K : Type)
  | mouse (info : MouseInfo)
  | processExited (pid : Int)
  | processMouseState (oldArea newArea : Rectangle)
  | resume
  | translateKeyEvent (info : K)
  | processCommand (m : Command)
  | render

/-- What may go wrong with other pointers. -/
def InputStop.lift {α : Type} : Except Stop α → Except InputStop α
  | .ok a => .ok a
  | .error s => .error (.stop s)

namespace InputRun

variable {K : Type}

/-- Follow a pointer of the cursor. -/
def follow (cs : Components) (component : Nat) : Except InputStop Unit :=
  if (cs.object component).isSome then .ok () else .error (.dangling component)

/-- The recursions get as deep as there are components. -/
def depth (s : InputRun) : Nat := s.server.components.count + 2

/-- The components are written. -/
def setComponents (s : InputRun) (cs : Components) : InputRun :=
  { s with server := { s.server with components := cs } }

/-- A mouse event of the type at the cursor. -/
def baseEvent (s : InputRun) (type : MouseEventType) : InputEvent K :=
  .mouse type s.cursor.position s.cursor.position s.cursor.pressedButtons

/-- `dispatchUpwards` from a pointer of the cursor. -/
def dispatchFrom (w : Surroundings K) (s : InputRun) (component : Nat) (event : InputEvent K) :
    Except InputStop (InputRun × Option Nat) := do
  follow s.server.components component
  let (cs, acceptor) ← InputStop.lift
    (w.dispatchUpwards s.depth s.depth s.server.components component event)
  .ok (s.setComponents cs, acceptor)

/-- `dispatch` to the screen. -/
def dispatchToScreen (w : Surroundings K) (s : InputRun) (event : InputEvent K) :
    Except InputStop InputRun := do
  let (cs, _) ← InputStop.lift (w.dispatch s.depth s.server.components s.server.screen event)
  .ok (s.setComponents cs)

def translateKeyEvent (w : Surroundings K) (s : InputRun) (info : K) : Except InputStop InputRun :=
  match s.cursor.focusedComponent with
  | some focused => do
      follow s.server.components focused
      let (cs, _) ← InputStop.lift (w.dispatch s.depth s.server.components focused (.key info))
      .ok (s.setComponents cs)
  | none => .ok s

/-- `processMouseState` until it has decided what to do; `oldArea` and `newArea` are what `getArea`
gives before and behind the move of the cursor. -/
def processMouseState (w : Surroundings K) (s : InputRun) (oldArea newArea : Rectangle) :
    Except InputStop InputRun := do
  let previousPosition := s.cursor.position
  let previousPressedButtons := s.cursor.pressedButtons
  let cs ← InputStop.lift
    (if s.cursor.position ≠ s.cursor.nextPosition then do
      let cs ← s.server.components.markDirtyRect w.mode s.depth s.server.screen oldArea
      cs.markDirtyRect w.mode s.depth s.server.screen newArea
    else .ok s.server.components)
  let s := { s.setComponents cs with
    cursor := { s.cursor with
      position := s.cursor.nextPosition
      pressedButtons := s.cursor.nextPressedButtons } }
  if mouseButtons.any fun b => previousPressedButtons &&& b = 0 && s.cursor.pressedButtons &&& b ≠ 0 then do
    let s ← s.dispatchToScreen w (s.baseEvent .press)
    let hitComponent ← InputStop.lift
      (s.server.components.getComponentAt s.depth s.server.screen s.cursor.position)
    let s := if hitComponent ≠ s.server.screen then
        { s with cursor := { s.cursor with draggedComponent := some hitComponent } }
      else s
    if some hitComponent ≠ s.cursor.focusedComponent then .ok { s with main := .losing hitComponent }
    else .ok s
  else if mouseButtons.any fun b =>
      previousPressedButtons &&& b ≠ 0 && s.cursor.pressedButtons &&& b = 0 then
    .ok { s with main := .released }
  else if s.cursor.position ≠ previousPosition then do
    let hovered ← InputStop.lift
      (s.server.components.getComponentAt s.depth s.server.screen s.cursor.position)
    .ok { s with main := .hovering hovered }
  else .ok s

/-- The rest of `processMouseState`, up to where it uses a pointer the next time. -/
def resume (w : Surroundings K) (s : InputRun) : Except InputStop InputRun :=
  match s.main with
  | .idle => .error .disabled
  | .losing hitComponent =>
    match s.cursor.focusedComponent with
    | some focused => do
        let (s, _) ← s.dispatchFrom w focused (.focus false hitComponent)
        .ok { s with main := .lost hitComponent }
    | none => .ok { s with main := .gaining hitComponent }
  | .lost hitComponent =>
    match s.cursor.focusedComponent with
    | some focused => do
        follow s.server.components focused
        .ok { s with main := .gaining hitComponent }
    | none => .error .null
  | .gaining hitComponent => do
      let window ← InputStop.lift (s.server.components.getWindow s.depth hitComponent)
      let cs ← InputStop.lift
        (match window with
        | some parentWindow => s.server.components.bringToFront w.mode s.depth parentWindow
        | none => .ok s.server.components)
      let (cs, acceptor) ← InputStop.lift
        (w.dispatchUpwards s.depth s.depth cs hitComponent (.focus true hitComponent))
      .ok { s.setComponents cs with
        cursor := { s.cursor with focusedComponent := acceptor }
        main := .gained }
  | .gained =>
    match s.cursor.focusedComponent with
    | some focused => do
        follow s.server.components focused
        .ok { s with main := .idle }
    | none => .error .null
  | .released => do
      let s ←
        (match s.cursor.draggedComponent with
        | some dragged => do
            let (s, _) ← s.dispatchFrom w dragged (s.baseEvent .dragRelease)
            .ok { s with cursor := { s.cursor with draggedComponent := none } }
        | none => .ok s)
      let s ← s.dispatchToScreen w (s.baseEvent .release)
      .ok { s with main := .idle }
  | .hovering hovered => do
      let s ←
        (if some hovered ≠ s.cursor.hoveredComponent ∧ s.cursor.draggedComponent ≠ none ∧
            s.cursor.draggedComponent ≠ s.cursor.hoveredComponent then
          match s.cursor.hoveredComponent with
          | some left => do
              let (s, _) ← s.dispatchFrom w left (s.baseEvent .leave)
              .ok { s with cursor := { s.cursor with hoveredComponent := none } }
          | none => do
              let s := { s with cursor := { s.cursor with hoveredComponent := some hovered } }
              let (s, _) ← s.dispatchFrom w hovered (s.baseEvent .enter)
              .ok s
        else .ok s)
      .ok { s with main := .moving }
  | .moving => do
      let s ←
        (match s.cursor.draggedComponent with
        | some dragged => do
            let (s, _) ← s.dispatchFrom w dragged (s.baseEvent .drag)
            .ok s
        | none => s.dispatchToScreen w (s.baseEvent .move))
      .ok { s with main := .idle }

/-- What becomes of the window server; the main loop takes its events when it is not in
`processMouseState`. -/
def react (w : Surroundings K) (s : InputRun) : ServerEvent K → Except InputStop InputRun
  | .mouse info => .ok { s with cursor := s.cursor.receive w.mode info }
  | .processExited pid => do
      let c ← InputStop.lift (ComponentRegistry.cleanupProcess w.mode s.depth
        { components := s.server.components
          registry := s.server.registry
          removedComponents := []
          font := s.font
          deleted := s.deleted } pid)
      .ok { s with
        server := { s.server with components := c.components, registry := c.registry }
        font := c.font
        deleted := c.deleted }
  | .resume => s.resume w
  | .processMouseState oldArea newArea =>
    match s.main with
    | .idle => s.processMouseState w oldArea newArea
    | _ => .error .disabled
  | .translateKeyEvent info =>
    match s.main with
    | .idle => s.translateKeyEvent w info
    | _ => .error .disabled
  | .processCommand m =>
    match s.main with
    | .idle => do
        let (server, _) ← InputStop.lift (s.server.processCommand w.zs w.mode m)
        .ok { s with server := server }
    | _ => .error .disabled
  | .render =>
    match s.main with
    | .idle => do
        let cs ← InputStop.lift (w.render s.server.components)
        .ok (s.setComponents cs)
    | _ => .error .disabled

/-- `ZipNET::launch`; no component is in focus, as the cursor is loaded before there is a screen. -/
def launch (mode : ModeInfo) (font : Font) : InputRun where
  server := WindowServer.launch mode
  cursor := { nextPosition := ⟨(mode.width : Int) / 2, (mode.height : Int) / 2⟩ }
  main := .idle
  font := font
  deleted := []

/-- The window server under input, commands and processes that exit. -/
def system (w : Surroundings K) : System InputRun (ServerEvent K) where
  init s := ∃ font, s = launch w.mode font
  step s e := (s.react w e).toOption

end InputRun

/-! ## Components stay alive -/

namespace Components

variable {cs cs' cs'' : Components} {a : Nat}

/-- No component is deleted. -/
def Keeps (cs cs' : Components) : Prop := ∀ a, (cs.object a).isSome → (cs'.object a).isSome

theorem Keeps.trans (h : Keeps cs cs') (h' : Keeps cs' cs'') : Keeps cs cs'' := fun a ha => h' a (h a ha)

theorem Relinked.keeps {g : Lib.Linkage Nat} (h : Relinked cs g cs') : Keeps cs cs' := fun a ha => by
  rwa [h.isSome]

theorem keeps_of_core (h : cs'.coreOf = cs.coreOf) : Keeps cs cs' := fun a ha => by
  have := congrArg Option.isSome (congrFun h a)
  rwa [coreOf, coreOf, Option.isSome_map, Option.isSome_map, ha] at this

theorem keeps_put {c : Component} : Keeps cs (cs.put a c) := fun b hb => by
  by_cases hba : b = a
  · simp [put, hba]
  · simpa [put, Function.update_of_ne hba] using hb

theorem keeps_create (cs : Components) (c : Component) : Keeps cs (cs.create c) := fun b hb => by
  by_cases hbc : b = cs.count
  · simp [create, hbc]
  · simpa [create, Function.update_of_ne hbc] using hb

theorem addChildTo_keeps (zs : ZSort) (depth comp : Nat) (refType : ChildComponentRefType) :
    Leaves (fun _ => True) (Keeps cs) (addChildTo zs depth cs a comp refType) := by
  have hpush : ∀ cs1, Leaves (fun _ => True) (Keeps cs1) (pushChild zs depth cs1 a comp refType) := by
    intro cs1
    obtain ⟨list, -, hpush⟩ := pushChild_relinked zs depth cs1 a comp refType
    exact hpush.mono (fun _ _ => trivial) fun _ h => h.keeps
  refine get_bind fun child _ => ?_
  split
  next parent _ =>
    refine bind ((removeChild_relinked depth cs parent comp).mono (fun _ _ => trivial)
      fun _ h => h.keeps) fun cs1 h1 => ?_
    exact (hpush cs1).mono (fun _ _ => trivial) fun _ h => h1.trans h
  next => exact hpush cs

section

variable (zs : ZSort) (depth : Nat)

theorem newWindow_keeps :
    Leaves (fun _ => True) (fun r => Keeps cs r.1) (newWindow zs depth cs) := by
  have hcreated := ((keeps_create cs { kind := .label }).trans (keeps_create _ { kind := .panel })).trans
    (keeps_create _
      { kind := .window cs.count (cs.count + 1), visible := false, minimumWidth := 100,
        minimumHeight := 50 })
  refine bind (addChildTo_keeps zs depth _ .internal) fun cs1 h1 => ?_
  exact bind (addChildTo_keeps zs depth _ .internal) fun cs2 h2 => (hcreated.trans h1).trans h2

theorem newGeoshape_keeps :
    Leaves (fun _ => True) (fun r => Keeps cs r.1) (newGeoshape zs depth cs) := by
  have hcreated := ((keeps_create cs { kind := .panel }).trans (keeps_create _ { kind := .label })).trans
    (keeps_create _ { kind := .geoshape cs.count (cs.count + 1) })
  refine bind (addChildTo_keeps zs depth _ .default) fun cs1 h1 => ?_
  exact bind (addChildTo_keeps zs depth _ .default) fun cs2 h2 => (hcreated.trans h1).trans h2

theorem newButton_keeps :
    Leaves (fun _ => True) (fun r => Keeps cs r.1) (newButton zs depth cs) := by
  have hcreated := (keeps_create cs { kind := .label }).trans
    (keeps_create _ { kind := .button cs.count })
  exact bind (addChildTo_keeps zs depth _ .internal) fun cs1 h1 => hcreated.trans h1

end

end Components

namespace WindowServer

open Components

theorem construct_keeps (zs : ZSort) (depth : Nat) (s : WindowServer) (type : UiComponentType) :
    Leaves (fun _ => True) (fun r => Keeps s.components r.1) (s.construct zs depth type) := by
  cases type with
  | window =>
    refine (newWindow_keeps zs depth).bind fun r hr => ?_
    exact (addChildTo_keeps zs depth r.2 .default).bind fun cs hcs => hr.trans hcs
  | geoshape =>
    refine (newGeoshape_keeps zs depth).bind fun r hr => ?_
    exact (addChildTo_keeps zs depth r.2 .default).bind fun cs hcs => hr.trans hcs
  | button => exact (newButton_keeps zs depth).bind fun r hr => hr
  | label => exact keeps_create _ { kind := .label }
  | textField => exact keeps_create _ { kind := .textField }
  | canvas => exact keeps_create _ { kind := .canvas }
  | unknown => exact fun _ ha => ha

theorem withComponent_keeps {s : WindowServer} (id : Int) {f : Nat → Except Stop Components}
    (hf : ∀ c, Leaves (fun _ => True) (Keeps s.components) (f c)) :
    Leaves (fun _ => True) (fun r => Keeps s.components r.1.components) (s.withComponent id f) := by
  unfold withComponent
  split
  · exact fun _ ha => ha
  next c _ => exact (hf c).bind fun cs hcs => hcs

theorem processCommand_keeps (zs : ZSort) (mode : ModeInfo) (s : WindowServer) (m : Command) :
    Leaves (fun _ => True) (fun r => Keeps s.components r.1.components) (s.processCommand zs mode m) := by
  have hrefl : Keeps s.components s.components := fun _ ha => ha
  unfold processCommand
  split
  next type _ =>
    refine (construct_keeps zs m.depth s type).bind fun r hr => ?_
    obtain ⟨cs, component⟩ := r
    cases component with
    | none => exact hr
    | some component => exact get_bind fun this _ => Keeps.trans hr keeps_put
  next id _ =>
    exact ((ComponentRegistry.removeComponent_get s.registry m.senderTid id).mono (fun _ _ => trivial)
      fun _ hr => hr).bind fun registry _ => hrefl
  next =>
    split
    next p c _ _ =>
      exact bind (get_bind fun _ _ => addChildTo_keeps zs m.depth _ .default)
        fun cs hcs => hcs
    next => exact hrefl
  next id bounds _ =>
    exact withComponent_keeps id fun c => (setBounds_relinked mode m.depth _ c bounds).mono
      (fun _ _ => trivial) fun _ h => h.keeps
  next id visible _ =>
    exact withComponent_keeps id fun c => (setVisible_relinked mode m.depth _ c visible).mono
      (fun _ _ => trivial) fun _ h => h.keeps
  next id _ =>
    refine withComponent_keeps id fun canvas => get_bind fun this hthis => ?_
    refine (addChildTo_keeps zs m.depth canvas .default).bind fun cs hcs =>
      get_bind fun screen _ => ?_
    exact (setBounds_relinked mode m.depth cs canvas screen.bounds).mono (fun _ _ => trivial)
      fun _ h => (keeps_put.trans hcs).trans h.keeps
  next => exact hrefl

end WindowServer

/-! ## What a cleanup can reach -/

namespace Components

variable {cs cs' cs'' : Components} {B : Nat → Prop} {a : Nat}

/-- `a` has `b` in its list or as a member. -/
def Holds (cs : Components) (a b : Nat) : Prop :=
  b ∈ cs.linkage.children a ∨ ∃ this, cs.object a = some this ∧ b ∈ this.kind.embedded

theorem holds_child {this : Component} {ref : ChildComponentRef} (hthis : cs.object a = some this)
    (href : ref ∈ this.children) : cs.Holds a ref.component := by
  refine .inl ?_
  simp only [Components.linkage, hthis, Option.map_some, Option.getD_some]
  exact List.mem_map_of_mem href

/-- `a` or something that hangs on `a`. -/
def Under (cs : Components) : Nat → Nat → Prop := Relation.ReflTransGen cs.Holds

/-- Nothing leads out of `B`. -/
def Closed (B : Nat → Prop) (cs : Components) : Prop := ∀ a b, B a → cs.Holds a b → B b

/-- Components of `B` may have been deleted or taken out of lists, and that is all. -/
structure Shrinks (B : Nat → Prop) (cs cs' : Components) : Prop where
  live : ∀ a, ¬ B a → (cs.object a).isSome → (cs'.object a).isSome
  kind : ∀ a this', cs'.object a = some this' → ∃ this, cs.object a = some this ∧ this.kind = this'.kind
  children : ∀ a b, b ∈ cs'.linkage.children a → b ∈ cs.linkage.children a

theorem Shrinks.refl (B : Nat → Prop) (cs : Components) : Shrinks B cs cs :=
  ⟨fun _ _ h => h, fun _ this h => ⟨this, h, rfl⟩, fun _ _ h => h⟩

theorem Shrinks.trans (h : Shrinks B cs cs') (h' : Shrinks B cs' cs'') : Shrinks B cs cs'' := by
  refine ⟨fun a ha hs => h'.live a ha (h.live a ha hs), fun a this'' h'' => ?_, fun a b hb =>
    h.children a b (h'.children a b hb)⟩
  obtain ⟨this', hthis', hkind'⟩ := h'.kind a this'' h''
  obtain ⟨this, hthis, hkind⟩ := h.kind a this' hthis'
  exact ⟨this, hthis, hkind.trans hkind'⟩

theorem Closed.shrinks (hB : Closed B cs) (h : Shrinks B cs cs') : Closed B cs' := by
  rintro a b ha (hb | ⟨this', hthis', hb⟩)
  · exact hB a b ha (.inl (h.children a b hb))
  · obtain ⟨this, hthis, hkind⟩ := h.kind a this' hthis'
    exact hB a b ha (.inr ⟨this, hthis, hkind ▸ hb⟩)

theorem Relinked.shrinks {g : Lib.Linkage Nat} (h : Relinked cs g cs')
    (hchildren : ∀ a b, b ∈ g.children a → b ∈ cs.linkage.children a) : Shrinks B cs cs' := by
  refine ⟨fun a _ hs => h.isSome a ▸ hs, fun a this' hthis' => ?_, fun a b hb =>
    hchildren a b (h.linkage ▸ hb)⟩
  have hkind := h.kind a
  rw [hthis', Option.map_some] at hkind
  obtain ⟨this, hthis, heq⟩ := Option.map_eq_some_iff.1 hkind.symm
  exact ⟨this, hthis, congrArg Prod.fst heq⟩

theorem setVisible_shrinks (mode : ModeInfo) (depth : Nat) (visible : Bool) :
    Leaves (fun _ => True) (Shrinks B cs) (setVisible mode depth cs a visible) :=
  (setVisible_relinked mode depth cs a visible).mono (fun _ _ => trivial)
    fun _ h => h.shrinks fun _ _ hb => hb

theorem removeChild_shrinks (depth comp : Nat) :
    Leaves (fun _ => True) (Shrinks B cs) (removeChild depth cs a comp) := by
  refine (removeChild_relinked depth cs a comp).mono (fun _ _ => trivial) fun _ h =>
    h.shrinks fun p b hb => ?_
  simp only [Lib.Linkage.unlink, Function.update_apply] at hb
  split at hb
  next hp => exact hp ▸ List.mem_of_mem_filter hb
  · exact hb

theorem leaves_true {α : Type} (r : Except Stop α) : Leaves (fun _ => True) (fun _ => True) r := by
  cases r with
  | ok _ => trivial
  | error stop => cases stop <;> trivial

theorem delete_shrinks (font : Font) (hB : Closed B cs) (ha : B a) :
    Leaves (fun _ => True) (fun r => Shrinks B cs r.1) (cs.delete font a) := by
  refine get_bind fun this hthis => bind (leaves_true _) fun font' _ => ?_
  have hgone : ∀ b, b ∈ a :: this.kind.embedded → B b := by
    intro b hb
    rcases List.mem_cons.1 hb with rfl | hmem
    · exact ha
    · exact hB a b ha (.inr ⟨this, hthis, hmem⟩)
  refine ⟨fun b hb hs => ?_, fun b this' hthis' => ?_, fun p b hb => ?_⟩
  · show ((if b ∈ a :: this.kind.embedded then none else cs.object b) : Option Component).isSome
    rwa [if_neg fun hmem => hb (hgone b hmem)]
  · replace hthis' : (if b ∈ a :: this.kind.embedded then none else cs.object b) = some this' := hthis'
    split at hthis'
    · cases hthis'
    · exact ⟨this', hthis', rfl⟩
  · by_cases hp : p ∈ a :: this.kind.embedded
    · rw [Components.linkage] at hb
      simp only [if_pos hp] at hb
      cases hb
    · simp only [Components.linkage, if_neg hp] at hb
      exact hb

end Components

namespace ComponentRegistry

open Components

variable {B : Nat → Prop} {mode : ModeInfo} {climb : Nat} {pid : Int}

theorem removeChildren_shrinks {remove : Cleaning → Nat → Except Stop Cleaning} {a : Nat} (ha : B a)
    (hremove : ∀ c b, Closed B c.components → B b →
      Leaves (fun _ => True) (fun c' => Shrinks B c.components c'.components) (remove c b))
    (rest index : Nat) (buffer : List ChildComponentRef) (c : Cleaning) (hB : Closed B c.components)
    (hbuffer : ∀ ref ∈ buffer, B ref.component) :
    Leaves (fun _ => True) (fun c' => Shrinks B c.components c'.components)
      (removeChildren remove a rest index buffer c) := by
  induction rest generalizing index buffer c with
  | zero => exact Shrinks.refl B _
  | succ rest ih =>
    rw [removeChildren]
    split
    · trivial
    next childRef hchild =>
      refine (hremove c _ hB (hbuffer _ (List.mem_of_getElem? hchild))).bind fun c1 h1 => ?_
      have hB1 := hB.shrinks h1
      refine get_bind fun this hthis => ?_
      refine (ih (index + 1) _ c1 hB1 fun ref href => ?_).mono (fun _ _ => trivial) fun _ h => h1.trans h
      rcases List.mem_append.1 href with hnew | hold
      · exact hB1 a _ ha (holds_child hthis hnew)
      · exact hbuffer ref (List.mem_of_mem_drop hold)

theorem removeProcessComponents_shrinks (depth : Nat) (c : Cleaning) (a : Nat)
    (hB : Closed B c.components) (ha : B a) :
    Leaves (fun _ => True) (fun c' => Shrinks B c.components c'.components)
      (removeProcessComponents mode climb pid depth c a) := by
  induction depth generalizing c a with
  | zero => trivial
  | succ depth ih =>
    rw [removeProcessComponents]
    split
    · exact Shrinks.refl B _
    refine bind (P := Shrinks B c.components) (setVisible_shrinks mode climb false) fun cs1 h1 => ?_
    have hB1 := hB.shrinks h1
    refine get_bind fun this hthis => ?_
    refine (removeChildren_shrinks ha (fun c b => ih c b) _ 0 _ _ hB1
      fun ref href => hB1 a _ ha (holds_child hthis href)).bind fun c2 h2 => ?_
    have h12 := h1.trans h2
    have hB2 := hB.shrinks h12
    refine get_bind fun this2 _ => ?_
    refine ((removeComponent_get c2.registry pid this2.id).mono (fun _ _ => trivial)
      fun _ _ => trivial).bind fun registry (_ : True) => ?_
    split
    · refine (delete_shrinks _ hB2 ha).bind fun r hr => h12.trans hr
    next parent _ =>
      refine get_bind fun parentComponent _ => ?_
      refine bind (P := Shrinks B c2.components) (removeChild_shrinks climb a) fun cs3 h3 => ?_
      have h13 := h12.trans h3
      split
      · exact (delete_shrinks _ (hB.shrinks h13) ha).bind fun r hr => h13.trans hr
      · exact h13

theorem cleanupLoop_shrinks (rounds : Nat) (c : Cleaning) (list : List Nat) (hB : Closed B c.components)
    (hlist : ∀ a ∈ list, ∀ this, c.components.object a = some this → this.kind.isWindow → B a) :
    Leaves (fun _ => True) (fun c' => Shrinks B c.components c'.components)
      (cleanupLoop mode climb pid rounds c list) := by
  induction rounds generalizing c list with
  | zero => exact Shrinks.refl B _
  | succ rounds ih =>
    rw [cleanupLoop]
    split
    · exact Shrinks.refl B _
    next component hlast =>
      refine get_bind fun this hthis => ?_
      split
      next hwindow =>
        have hmem := List.mem_of_getLast? hlast
        refine (removeProcessComponents_shrinks climb c component hB
          (hlist component hmem this hthis hwindow)).bind fun c1 h1 => ?_
        refine (ih c1 _ (hB.shrinks h1) fun a ha this' hthis' hwindow' => ?_).mono (fun _ _ => trivial)
          fun _ h => h1.trans h
        obtain ⟨old, hold, hkind⟩ := h1.kind a this' hthis'
        exact hlist a (List.dropLast_subset _ ((ClientRun.mem_foldl_filter ..).1 ha).1) old hold
          (hkind ▸ hwindow')
      next => exact ih c _ hB fun a ha => hlist a (List.dropLast_subset _ ha)

/-- What a cleanup for `pid` can reach. -/
def Reached (cs : Components) (r : ComponentRegistry) (pid : Int) (a : Nat) : Prop :=
  ∃ id w this, r.lookup pid id = some w ∧ cs.object w = some this ∧ this.kind.isWindow ∧ cs.Under w a

theorem cleanupProcess_keeps (c : Cleaning) (pid : Int) :
    Leaves (fun _ => True)
      (fun c' => ∀ a, ¬ Reached c.components c.registry pid a → (c.components.object a).isSome →
        (c'.components.object a).isSome)
      (cleanupProcess mode climb c pid) := by
  have hclosed : Closed (Reached c.components c.registry pid) c.components := by
    rintro a b ⟨id, w, this, hlookup, hthis, hwindow, hunder⟩ hholds
    exact ⟨id, w, this, hlookup, hthis, hwindow, hunder.tail hholds⟩
  refine bind (cleanupLoop_shrinks _ _ _ hclosed fun a ha this hthis hwindow => ?_)
    fun c1 h1 a ha hs => h1.live a ha hs
  obtain ⟨id, hid⟩ := ClientRun.mem_componentsList.1 ha
  refine ⟨id, a, this, ?_, hthis, hwindow, .refl⟩
  rw [lookup]
  cases hmap : c.registry.componentsByProcess[pid]? with
  | none => simp [hmap] at hid
  | some components => simpa [hmap] using hid

end ComponentRegistry

/-! ## Where pointers come from -/

namespace Components

variable {cs : Components} {a : Nat}

theorem canHandleEvents_live (depth : Nat) :
    Leaves (fun _ => True) (fun _ => (cs.object a).isSome) (canHandleEvents depth cs a) := by
  cases depth with
  | zero => trivial
  | succ depth =>
    refine get_bind fun this hthis => ?_
    have hsome : (cs.object a).isSome := by rw [hthis]; rfl
    generalize (if (!this.visible) = true then _ else _ : Except Stop Bool) = r
    cases r with
    | ok _ => exact hsome
    | error stop => cases stop <;> trivial

theorem getComponentAt_live (depth : Nat) (p : Point) :
    Leaves (fun _ => True) (fun component => (cs.object component).isSome)
      (getComponentAt depth cs a p) := by
  induction depth generalizing a p with
  | zero => trivial
  | succ depth ih =>
    refine get_bind fun this hthis => (leaves_true _).bind fun found _ => ?_
    split
    · exact get_bind fun child _ => ih _
    · show (cs.object a).isSome
      rw [hthis]
      rfl

theorem bringToFront_keeps (mode : ModeInfo) (depth : Nat) :
    Leaves (fun _ => True) (Keeps cs) (bringToFront mode depth cs a) := by
  refine get_bind fun this _ => ?_
  split
  · refine get_bind fun parentComponent _ => ?_
    split
    · exact (markDirtyRect_relinked mode depth _ _ _).mono (fun _ _ => trivial)
        fun _ h => keeps_put.trans h.keeps
    · exact fun _ h => h
  · exact fun _ h => h

end Components

namespace Surroundings

open Components

variable {K : Type} (w : Surroundings K) {cs : Components} {a : Nat}

theorem handle_keeps (event : InputEvent K) :
    Leaves (fun _ => True) (fun r => Keeps cs r.1) (w.handle cs a event) := by
  cases hr : w.handle cs a event with
  | ok r => exact keeps_of_core (w.handle_core hr).2
  | error stop => cases stop <;> trivial

theorem dispatch_keeps (depth : Nat) (event : InputEvent K) :
    Leaves (fun _ => True) (fun r => (cs.object a).isSome ∧ Keeps cs r.1) (w.dispatch depth cs a event) := by
  refine (canHandleEvents_live depth).bind fun canHandle hlive => ?_
  split
  · cases event with
    | mouse type screenPosition position buttons =>
      exact (leaves_true _).bind fun location _ =>
        (w.handle_keeps _).mono (fun _ _ => trivial) fun _ h => ⟨hlive, h⟩
    | focus gained newFocused =>
      exact (w.handle_keeps _).mono (fun _ _ => trivial) fun _ h => ⟨hlive, h⟩
    | key info => exact (w.handle_keeps _).mono (fun _ _ => trivial) fun _ h => ⟨hlive, h⟩
  · exact ⟨hlive, fun _ h => h⟩

theorem dispatchUpwards_keeps (depth climb : Nat) (event : InputEvent K) :
    Leaves (fun _ => True)
      (fun r => Keeps cs r.1 ∧ ∀ acceptor, r.2 = some acceptor → (r.1.object acceptor).isSome)
      (w.dispatchUpwards depth climb cs a event) := by
  induction climb generalizing cs a with
  | zero => trivial
  | succ climb ih =>
    refine (w.dispatch_keeps depth event).bind fun r hr => ?_
    obtain ⟨hlive, hkeeps⟩ := hr
    dsimp only
    split
    · exact ⟨hkeeps, fun acceptor h => Option.some.inj h ▸ hkeeps a hlive⟩
    · refine get_bind fun this _ => ?_
      split
      · exact ih.mono (fun _ _ => trivial) fun _ h => ⟨hkeeps.trans h.1, h.2⟩
      · exact ⟨hkeeps, nofun⟩

theorem render_keeps : Leaves (fun _ => True) (Keeps cs) (w.render cs) := by
  cases hr : w.render cs with
  | ok cs' => exact keeps_of_core (w.render_core hr).2
  | error stop => cases stop <;> trivial

end Surroundings

/-! ## Events -/

/-- No pointer of the cursor has been followed to a component that is gone, and `P` holds of the result.
-/
def Safe {α : Type} (P : α → Prop) : Except InputStop α → Prop
  | .ok a => P a
  | .error (.dangling _) => False
  | .error _ => True

section

variable {α β : Type} {P : α → Prop} {Q : β → Prop}

theorem Safe.bind {r : Except InputStop α} {f : α → Except InputStop β} (h : Safe P r)
    (hf : ∀ a, P a → Safe Q (f a)) : Safe Q (r >>= f) := by
  match r with
  | .ok a => exact hf a h
  | .error (.dangling _) => exact h
  | .error .null => trivial
  | .error (.stop _) => trivial
  | .error .disabled => trivial

theorem Safe.mono {r : Except InputStop α} {P' : α → Prop} (h : Safe P r) (hP : ∀ a, P a → P' a) :
    Safe P' r := by
  match r with
  | .ok a => exact hP a h
  | .error (.dangling _) => exact h
  | .error .null => trivial
  | .error (.stop _) => trivial
  | .error .disabled => trivial

theorem Safe.lift {r : Except Stop α} (h : Leaves (fun _ => True) P r) : Safe P (InputStop.lift r) := by
  match r with
  | .ok a => exact h
  | .error _ => trivial

end

namespace MousePhase

/-- The component in the local variable. -/
def component : MousePhase → Option Nat
  | .losing hitComponent | .lost hitComponent | .gaining hitComponent => some hitComponent
  | .hovering hovered => some hovered
  | .idle | .gained | .released | .moving => none

end MousePhase

namespace InputRun

open Components

variable {K : Type} {w : Surroundings K} {s : InputRun}

/-- The components that the cursor and the local variable of the main loop point at. -/
def pointers (s : InputRun) : List Nat :=
  s.cursor.draggedComponent.toList ++ s.cursor.hoveredComponent.toList ++
    s.cursor.focusedComponent.toList ++ s.main.component.toList

/-- Nothing that they point at has been deleted. -/
structure Live (s : InputRun) : Prop where
  dragged : ∀ a, s.cursor.draggedComponent = some a → (s.server.components.object a).isSome
  hovered : ∀ a, s.cursor.hoveredComponent = some a → (s.server.components.object a).isSome
  focused : ∀ a, s.cursor.focusedComponent = some a → (s.server.components.object a).isSome
  main : ∀ a, s.main.component = some a → (s.server.components.object a).isSome

theorem Live.setComponents {cs : Components} (h : s.Live) (hkeeps : Keeps s.server.components cs) :
    (s.setComponents cs).Live :=
  ⟨fun a ha => hkeeps a (h.dragged a ha), fun a ha => hkeeps a (h.hovered a ha),
    fun a ha => hkeeps a (h.focused a ha), fun a ha => hkeeps a (h.main a ha)⟩

theorem Live.setMain (h : s.Live) {main : MousePhase}
    (hmain : ∀ a, main.component = some a → (s.server.components.object a).isSome) :
    ({ s with main := main } : InputRun).Live :=
  ⟨h.dragged, h.hovered, h.focused, hmain⟩

theorem follow_safe {cs : Components} {a : Nat} (ha : (cs.object a).isSome) :
    Safe (fun _ => True) (follow cs a) := by
  rw [follow, if_pos ha]
  trivial

/-- What a dispatch leaves of the run: other components with the same ones alive. -/
def Dispatched (s s' : InputRun) : Prop :=
  ∃ cs, s' = s.setComponents cs ∧ Keeps s.server.components cs

theorem dispatchFrom_safe {a : Nat} (ha : (s.server.components.object a).isSome) (event : InputEvent K) :
    Safe (fun r => Dispatched s r.1) (s.dispatchFrom w a event) := by
  refine (follow_safe ha).bind fun _ _ => ?_
  exact (Safe.lift (w.dispatchUpwards_keeps s.depth s.depth event)).bind fun r hr => ⟨r.1, rfl, hr.1⟩

theorem dispatchToScreen_safe (event : InputEvent K) :
    Safe (Dispatched s) (s.dispatchToScreen w event) :=
  (Safe.lift (w.dispatch_keeps s.depth event)).bind fun r hr => ⟨r.1, rfl, hr.2⟩

theorem Live.dispatched {s' : InputRun} (h : s.Live) (hd : Dispatched s s') : s'.Live := by
  obtain ⟨cs, rfl, hkeeps⟩ := hd
  exact h.setComponents hkeeps

theorem translateKeyEvent_safe (h : s.Live) (info : K) : Safe Live (s.translateKeyEvent w info) := by
  unfold translateKeyEvent
  split
  next focused hfocused =>
    refine (follow_safe (h.focused focused hfocused)).bind fun _ _ => ?_
    exact (Safe.lift (w.dispatch_keeps s.depth (.key info))).bind fun r hr => h.setComponents hr.2
  · exact h

theorem processMouseState_safe (h : s.Live) (oldArea newArea : Rectangle) :
    Safe Live (s.processMouseState w oldArea newArea) := by
  have hmarked : Leaves (fun _ => True) (Keeps s.server.components)
      (if s.cursor.position ≠ s.cursor.nextPosition then do
        let cs ← s.server.components.markDirtyRect w.mode s.depth s.server.screen oldArea
        cs.markDirtyRect w.mode s.depth s.server.screen newArea
      else .ok s.server.components) := by
    split
    · refine ((markDirtyRect_relinked w.mode s.depth _ _ oldArea).mono (fun _ _ => trivial)
        fun _ hr => hr.keeps).bind fun cs hcs => ?_
      exact (markDirtyRect_relinked w.mode s.depth cs _ newArea).mono (fun _ _ => trivial)
        fun _ hr => hcs.trans hr.keeps
    · exact fun _ ha => ha
  refine (Safe.lift hmarked).bind fun cs hcs => ?_
  have h1 : ({ s.setComponents cs with
      cursor := { s.cursor with
        position := s.cursor.nextPosition
        pressedButtons := s.cursor.nextPressedButtons } } : InputRun).Live :=
    ⟨(h.setComponents hcs).dragged, (h.setComponents hcs).hovered, (h.setComponents hcs).focused,
      (h.setComponents hcs).main⟩
  dsimp only
  split
  · refine (dispatchToScreen_safe _).bind fun s2 hs2 => ?_
    have h2 := h1.dispatched hs2
    refine (Safe.lift (getComponentAt_live s2.depth _)).bind fun hitComponent hhit => ?_
    have hpressed : ∀ s3 : InputRun, s3.Live → s3.server = s2.server →
        Safe Live (if some hitComponent ≠ s3.cursor.focusedComponent then
          .ok { s3 with main := .losing hitComponent } else .ok s3) := by
      intro s3 h3 hserver
      split
      · exact h3.setMain fun a ha => by
          rw [hserver]
          exact Option.some.inj ha ▸ hhit
      · exact h3
    split
    · exact hpressed _ ⟨fun a ha => Option.some.inj ha ▸ hhit, h2.hovered, h2.focused, h2.main⟩ rfl
    · exact hpressed s2 h2 rfl
  · split
    · exact h1.setMain nofun
    · split
      · refine (Safe.lift (getComponentAt_live _ _)).bind fun hovered hhovered => ?_
        exact h1.setMain fun a ha => Option.some.inj ha ▸ hhovered
      · exact h1

theorem resume_safe (h : s.Live) : Safe Live (s.resume w) := by
  unfold resume
  split
  next => trivial
  next hitComponent hmain =>
    have hhit := h.main hitComponent (by rw [hmain]; rfl)
    split
    next focused hfocused =>
      refine (dispatchFrom_safe (h.focused focused hfocused) _).bind fun r hr => ?_
      obtain ⟨cs, hcs, hkeeps⟩ := hr
      refine (h.dispatched ⟨cs, hcs, hkeeps⟩).setMain fun a ha => ?_
      rw [hcs]
      exact hkeeps a (Option.some.inj ha ▸ hhit)
    · exact h.setMain fun a ha => Option.some.inj ha ▸ hhit
  next hitComponent hmain =>
    have hhit := h.main hitComponent (by rw [hmain]; rfl)
    split
    next focused hfocused =>
      exact (follow_safe (h.focused focused hfocused)).bind fun _ _ =>
        h.setMain fun a ha => Option.some.inj ha ▸ hhit
    · trivial
  next hitComponent hmain =>
    refine (Safe.lift (leaves_true _)).bind fun window _ => ?_
    have hfront : Leaves (fun _ => True) (Keeps s.server.components)
        (match window with
        | some parentWindow => s.server.components.bringToFront w.mode s.depth parentWindow
        | none => .ok s.server.components) := by
      cases window with
      | none => exact fun _ ha => ha
      | some parentWindow => exact bringToFront_keeps w.mode s.depth
    refine (Safe.lift hfront).bind fun cs hcs => ?_
    refine (Safe.lift (w.dispatchUpwards_keeps s.depth s.depth _)).bind fun r hr => ?_
    have h1 := h.setComponents (hcs.trans hr.1)
    exact ⟨h1.dragged, h1.hovered, hr.2, nofun⟩
  next =>
    split
    next focused hfocused =>
      exact (follow_safe (h.focused focused hfocused)).bind fun _ _ => h.setMain nofun
    · trivial
  next =>
    refine Safe.bind (P := Live) ?_ fun s1 h1 => ?_
    · split
      next dragged hdragged =>
        refine (dispatchFrom_safe (h.dragged dragged hdragged) _).bind fun r hr => ?_
        have h1 := h.dispatched hr
        exact ⟨fun a ha => (by cases ha), h1.hovered, h1.focused, h1.main⟩
      · exact h
    · exact (dispatchToScreen_safe _).bind fun s2 hs2 =>
        (h1.dispatched hs2).setMain nofun
  next hovered hmain =>
    have hhovered := h.main hovered (by rw [hmain]; rfl)
    refine Safe.bind (P := Live) ?_ fun s1 h1 => h1.setMain nofun
    split
    · split
      next left hleft =>
        refine (dispatchFrom_safe (h.hovered left hleft) _).bind fun r hr => ?_
        have h1 := h.dispatched hr
        exact ⟨h1.dragged, fun a ha => (by cases ha), h1.focused, h1.main⟩
      next =>
        have h0 : ({ s with cursor := { s.cursor with hoveredComponent := some hovered } } : InputRun).Live :=
          ⟨h.dragged, fun a ha => Option.some.inj ha ▸ hhovered, h.focused, h.main⟩
        exact (dispatchFrom_safe
          (s := { s with cursor := { s.cursor with hoveredComponent := some hovered } }) hhovered _).bind
          fun r hr => h0.dispatched hr
    · exact h
  next =>
    refine Safe.bind (P := Live) ?_ fun s1 h1 => h1.setMain nofun
    split
    next dragged hdragged =>
      exact (dispatchFrom_safe (h.dragged dragged hdragged) _).bind fun r hr => h.dispatched hr
    · exact (dispatchToScreen_safe _).mono fun _ hs1 => h.dispatched hs1

/-- A process may exit when no component that the cursor or the main loop points at hangs on one of its
windows. -/
def Apart (s : InputRun) : ServerEvent K → Prop
  | .processExited pid =>
    ∀ a ∈ s.pointers, ¬ ComponentRegistry.Reached s.server.components s.server.registry pid a
  | _ => True

theorem react_safe (h : s.Live) (e : ServerEvent K) (hok : s.Apart e) : Safe Live (s.react w e) := by
  cases e with
  | mouse info => exact ⟨h.dragged, h.hovered, h.focused, h.main⟩
  | processExited pid =>
    refine (Safe.lift (ComponentRegistry.cleanupProcess_keeps _ pid)).bind fun c hc => ?_
    have hlive : ∀ a ∈ s.pointers, (s.server.components.object a).isSome →
        (c.components.object a).isSome := fun a ha hs => hc a (hok a ha) hs
    simp only [pointers, List.mem_append, Option.mem_toList] at hlive
    exact ⟨fun a ha => hlive a (.inl (.inl (.inl ha))) (h.dragged a ha),
      fun a ha => hlive a (.inl (.inl (.inr ha))) (h.hovered a ha),
      fun a ha => hlive a (.inl (.inr ha)) (h.focused a ha),
      fun a ha => hlive a (.inr ha) (h.main a ha)⟩
  | resume => exact resume_safe h
  | processMouseState oldArea newArea =>
    simp only [react]
    split
    · exact processMouseState_safe h oldArea newArea
    · trivial
  | translateKeyEvent info =>
    simp only [react]
    split
    · exact translateKeyEvent_safe h info
    · trivial
  | processCommand m =>
    simp only [react]
    split
    · refine (Safe.lift (WindowServer.processCommand_keeps w.zs w.mode s.server m)).bind fun r hr => ?_
      exact ⟨fun a ha => hr a (h.dragged a ha), fun a ha => hr a (h.hovered a ha),
        fun a ha => hr a (h.focused a ha), fun a ha => hr a (h.main a ha)⟩
    · trivial
  | render =>
    simp only [react]
    split
    · exact (Safe.lift w.render_keeps).bind fun cs hcs => h.setComponents hcs
    · trivial

theorem launch_live (mode : ModeInfo) (font : Font) : (launch mode font).Live :=
  ⟨fun a ha => (by cases ha), fun a ha => (by cases ha), fun a ha => (by cases ha), fun a ha => (by cases ha)⟩

/-- Where the processes that exit are apart from the cursor, no pointer of it to a deleted component
is followed. -/
theorem cursor_not_dangling (w : Surroundings K) {s : InputRun} (hs : (system w).Reachable Apart s)
    (e : ServerEvent K) (component : Nat) : s.react w e ≠ .error (.dangling component) := by
  have hlive : s.Live := hs.invariant
    (fun s hinit => by
      obtain ⟨font, rfl⟩ := hinit
      exact launch_live w.mode font)
    fun s e s' h hok hstep => by
      have hsafe := react_safe (w := w) h e hok
      replace hstep : (s.react w e).toOption = some s' := hstep
      cases hr : s.react w e with
      | ok s'' =>
        rw [hr] at hstep
        cases hstep
        rw [hr] at hsafe
        exact hsafe
      | error stop =>
        rw [hr] at hstep
        cases hstep
  have hsafe : Safe (fun _ => True) (s.react w e) := by
    cases e with
    | processExited pid => exact (Safe.lift (leaves_true _)).bind fun _ _ => trivial
    | mouse info => exact (react_safe hlive (.mouse info) trivial).mono fun _ _ => trivial
    | resume => exact (react_safe hlive .resume trivial).mono fun _ _ => trivial
    | processMouseState oldArea newArea =>
      exact (react_safe hlive (.processMouseState oldArea newArea) trivial).mono fun _ _ => trivial
    | translateKeyEvent info =>
      exact (react_safe hlive (.translateKeyEvent info) trivial).mono fun _ _ => trivial
    | processCommand m => exact (react_safe hlive (.processCommand m) trivial).mono fun _ _ => trivial
    | render => exact (react_safe hlive .render trivial).mono fun _ _ => trivial
  intro hdangling
  rw [hdangling] at hsafe
  exact hsafe

/-- Windows and the background take every event, and the rest of the round changes nothing. -/
def takers (K : Type) : Surroundings K where
  zs := .insertion
  mode := .xga
  handle cs a _ := .ok (cs, match cs.object a with
    | some c => c.kind.isWindow || c.kind = .background
    | none => false)
  render cs := .ok cs
  handle_core h := by
    cases h
    exact ⟨rfl, rfl⟩
  render_core h := by
    cases h
    exact ⟨rfl, rfl⟩

/-- The user clicks on a window of process 9 and releases the button. -/
def clickedWindow : List (ServerEvent Unit) :=
  [.processCommand ⟨10, 9, .createComponent .window, 8⟩,
    .processCommand ⟨10, 9, .setBounds 1 (.of 0 0 1024 768), 8⟩,
    .processCommand ⟨10, 9, .setVisible 1 true, 8⟩,
    .mouse ⟨0, 0, true, false, false⟩, .processMouseState .empty .empty, .resume, .resume, .resume]

/-- The windows of the process lie in `B`, nothing leads out of `B`, and the cursor points at nothing
in it. -/
def Clear (s : InputRun) (pid : Int) (B : List Nat) : Prop :=
  (∀ components ∈ s.server.registry.componentsByProcess[pid]?,
      ∀ a ∈ ComponentRegistry.componentsList components, a ∈ B) ∧
    (∀ a ∈ B, (∀ b ∈ s.server.components.linkage.children a, b ∈ B) ∧
      ∀ this ∈ s.server.components.object a, ∀ b ∈ this.kind.embedded, b ∈ B) ∧
    ∀ a ∈ s.pointers, a ∉ B

instance (s : InputRun) (pid : Int) (B : List Nat) : Decidable (s.Clear pid B) :=
  inferInstanceAs (Decidable (_ ∧ _ ∧ _))

theorem Clear.apart {pid : Int} {B : List Nat} (h : s.Clear pid B) :
    s.Apart (K := K) (.processExited pid) := by
  obtain ⟨hwindows, hclosed, hpointers⟩ := h
  rintro a ha ⟨id, window, -, hlookup, -, -, hunder⟩
  obtain ⟨components, hmap, hid⟩ := Option.bind_eq_some_iff.1 hlookup
  have hwindow : window ∈ B := hwindows components hmap window (ClientRun.mem_componentsList.2 ⟨id, hid⟩)
  have hin : ∀ b, s.server.components.Under window b → b ∈ B := by
    intro b hb
    induction hb with
    | refl => exact hwindow
    | tail _ hholds ih =>
      rcases hholds with hchild | ⟨this, hthis, hmember⟩
      · exact (hclosed _ ih).1 _ hchild
      · exact (hclosed _ ih).2 this hthis _ hmember
  exact hpointers a ha (hin a hunder)

theorem cursor_not_dangling_exit : ∃ s s' : InputRun,
    (system (takers Unit)).step s (.processExited 8) = some s' ∧ s.pointers = [4, 4] ∧
      (s.server.components.object 7).isSome ∧ (s'.server.components.object 7).isNone ∧
      ∀ e component, s'.react (takers Unit) e ≠ .error (.dangling component) := by
  obtain ⟨s, hs, hpointers, hlive, hclear, s', hs', hgone⟩ :
      ∃ s ∈ (system (takers Unit)).run (launch (takers Unit).mode .loaded)
          (clickedWindow ++ [.processCommand ⟨12, 8, .createComponent .window, 8⟩]),
        s.pointers = [4, 4] ∧ (s.server.components.object 7).isSome ∧ s.Clear 8 [5, 6, 7] ∧
          ∃ s' ∈ (system (takers Unit)).step s (.processExited 8),
            (s'.server.components.object 7).isNone := by
    decide +kernel
  have hreach : (system (takers Unit)).Reachable Apart s := by
    refine System.Reachable.of_run (.init ⟨_, rfl⟩) (fun e he s => ?_) hs
    cases e with
    | processExited pid => simp [clickedWindow] at he
    | _ => trivial
  exact ⟨s, s', hs', hpointers, hlive, hgone, fun e component =>
    cursor_not_dangling (takers Unit) (.step hreach hclear.apart hs') e component⟩

/-- The window in focus goes away with its process, and the next key follows the pointer to it. -/
theorem key_follows_dangling : ∃ s : InputRun,
    (system (takers Unit)).Reachable (fun _ _ => True) s ∧
      s.react (takers Unit) (.translateKeyEvent ()) = .error (.dangling 4) := by
  obtain ⟨s, hs, hmain, hfocused, hgone⟩ : ∃ s ∈ (system (takers Unit)).run
      (launch (takers Unit).mode .loaded) (clickedWindow ++ [.processExited 9]),
      s.main = .idle ∧ s.cursor.focusedComponent = some 4 ∧
        (s.server.components.object 4).isSome = false := by
    decide +kernel
  refine ⟨s, System.reachable_of_run ⟨_, rfl⟩ hs, ?_⟩
  simp only [react, hmain, translateKeyEvent, hfocused, follow, hgone]
  rfl

end InputRun

end MeetixOS.ZipNET
