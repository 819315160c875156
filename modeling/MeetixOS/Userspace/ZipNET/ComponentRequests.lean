import MeetixOS.Lib.Runs
import MeetixOS.Userspace.ZipNET.Components
import Std.Data.TreeMap.Lemmas

/-! # The component requests of the clients

`ComponentRegistry::add`, `get` and `removeComponent`, and the part of `EventProcessor::processCommand`
that creates, removes and moves components. A request comes with the thread that sent it, the process
that the kernel names for that thread, and the depth that a recursion gets to; a run ends where a
recursion is cut or a pointer leads to nothing. -/

namespace MeetixOS.ZipNET

open Components

open Kernel (s32)
open Lib (Linkage System)

/-! ## The registry -/

structure ComponentRegistry where
  registry : Std.TreeMap Int Nat := ∅
  componentsByProcess : Std.TreeMap Int (Std.TreeMap Int Nat) := ∅
  nextId : Int := 1

namespace ComponentRegistry

/-- `add`; the component gets the id. -/
def add (r : ComponentRegistry) (process : Int) (component : Nat) : ComponentRegistry × Int :=
  let id := r.nextId
  let components := (r.componentsByProcess[process]?).getD ∅
  ({ registry := r.registry.insert id component
     componentsByProcess := r.componentsByProcess.insert process (components.insert id component)
     nextId := s32 (id + 1) }, id)

def get (r : ComponentRegistry) (id : Int) : Option Nat := r.registry[id]?

/-- `removeComponent`; the map of the process is not asked whether it has the id. -/
def removeComponent (r : ComponentRegistry) (pid id : Int) : Except Stop ComponentRegistry :=
  if r.registry.contains id then
    match r.componentsByProcess[pid]? with
    | some components =>
      if components.contains id then
        .ok { r with registry := r.registry.erase id
                     componentsByProcess := r.componentsByProcess.insert pid (components.erase id) }
      else .error .deleted
    | none => .ok { r with registry := r.registry.erase id }
  else .ok r

end ComponentRegistry

/-! ## Requests -/

/-- `UiComponentType`, as far as `processCommand` knows it. -/
inductive UiComponentType
  | window
  | button
  | label
  | textField
  | canvas
  | geoshape
  | unknown
  deriving DecidableEq

/-- The requests that change the registry or the components; `other` are the rest. -/
inductive UiRequest
  | createComponent (type : UiComponentType)
  | removeComponent (id : Int)
  | addComponent (parent child : Int)
  | setBounds (id : Int) (bounds : Rectangle)
  | setVisible (id : Int) (visible : Bool)
  | registerDesktopCanvas (canvasID : Int)
  | other
  deriving DecidableEq

/-- A request with its sender, the answer of `s_get_pid_for_tid`, and the depth that recursions get to. -/
structure Command where
  senderTid : Int
  senderPid : Int
  request : UiRequest
  depth : Nat

/-- What is sent back. -/
inductive UiResponse
  | none
  | status (success : Bool)
  | created (id : Int) (success : Bool)

/-- The window server. -/
structure WindowServer where
  components : Components
  registry : ComponentRegistry
  screen : Nat
  /-- A recursion did not come back. -/
  stuck : Bool

namespace WindowServer

/-- The part of `UI_PROTOCOL_CREATE_COMPONENT` that decides what to create. -/
def construct (zs : ZSort) (depth : Nat) (s : WindowServer) :
    UiComponentType → Except Stop (Components × Option Nat)
  | .window => do
      let (cs, component) ← s.components.newWindow zs depth
      let cs ← cs.addChildTo zs depth s.screen component .default
      .ok (cs, some component)
  | .geoshape => do
      let (cs, component) ← s.components.newGeoshape zs depth
      let cs ← cs.addChildTo zs depth s.screen component .default
      .ok (cs, some component)
  | .label =>
    let (cs, component) := s.components.newPlain .label
    .ok (cs, some component)
  | .button => do
      let (cs, component) ← s.components.newButton zs depth
      .ok (cs, some component)
  | .textField =>
    let (cs, component) := s.components.newPlain .textField
    .ok (cs, some component)
  | .canvas =>
    let (cs, component) := s.components.newPlain .canvas
    .ok (cs, some component)
  | .unknown => .ok (s.components, none)

/-- Look up a component and do something to it. -/
def withComponent (s : WindowServer) (id : Int) (f : Nat → Except Stop Components) :
    Except Stop (WindowServer × UiResponse) := do
  match s.registry.get id with
  | none => .ok (s, .status false)
  | some component => do
      let cs ← f component
      .ok ({ s with components := cs }, .status true)

def processCommand (zs : ZSort) (mode : ModeInfo) (s : WindowServer) (m : Command) :
    Except Stop (WindowServer × UiResponse) :=
  match m.request with
  | .createComponent type => do
      match ← s.construct zs m.depth type with
      | (cs, some component) => do
          let added := s.registry.add m.senderPid component
          let this ← cs.get component
          .ok ({ s with components := cs.put component { this with id := added.2 }
                        registry := added.1 },
            .created added.2 true)
      | (cs, none) => .ok ({ s with components := cs }, .created (-1) false)
  | .removeComponent id => do
      let registry ← s.registry.removeComponent m.senderTid id
      .ok ({ s with registry := registry }, .none)
  | .addComponent parent child =>
    match s.registry.get parent, s.registry.get child with
    | some parent, some child => do
        let cs ← s.components.addChild zs m.depth parent child
        .ok ({ s with components := cs }, .status true)
    | _, _ => .ok (s, .status false)
  | .setBounds id bounds => s.withComponent id fun c => s.components.setBounds mode m.depth c bounds
  | .setVisible id visible => s.withComponent id fun c => s.components.setVisible mode m.depth c visible
  | .registerDesktopCanvas id => s.withComponent id fun canvas => do
      let this ← s.components.get canvas
      let cs := s.components.put canvas { this with zIndex := 1 }
      let cs ← cs.addChildTo zs m.depth s.screen canvas .default
      let screen ← cs.get s.screen
      cs.setBounds mode m.depth canvas screen.bounds
  | .other => .ok (s, .none)

/-- `ZipNET::launch`: the screen with its background, both of the size of the screen. -/
def launch (mode : ModeInfo) : WindowServer where
  components :=
    { object := Function.update
        (Function.update (fun _ => none) 0 (some
          { kind := .screen, children := [⟨1, .default⟩], bounds := .of 0 0 mode.width mode.height }))
        1 (some { kind := .background, parent := some 0, zIndex := 0,
                  bounds := .of 0 0 mode.width mode.height })
      count := 2
      invalid := Screen.markDirty mode .empty (.of 0 0 mode.width mode.height) }
  registry := {}
  screen := 0
  stuck := false

/-- A request is processed; where a recursion is cut, the server does not get to the next one. -/
def step (zs : ZSort) (mode : ModeInfo) (s : WindowServer) (m : Command) : Option WindowServer :=
  if s.stuck then none
  else
    match s.processCommand zs mode m with
    | .ok (s', _) => some s'
    | .error (.deep cs) => some { s with components := cs, stuck := true }
    | .error .deleted => none

/-- The window server under requests. -/
def system (zs : ZSort) (mode : ModeInfo) : System WindowServer Command where
  init s := s = launch mode
  step := step zs mode

/-! ## The forest is kept -/

/-- The components are sound, and the screen is not in any other. -/
structure Rooted (screen : Nat) (cs : Components) : Prop where
  sound : cs.Sound
  root : cs.linkage.parent screen = none
  created : screen < cs.count

namespace Rooted

variable {screen a comp : Nat} {cs cs' : Components}

section

variable (h : Rooted screen cs)
include h

theorem grown (hgrown : cs.Grown cs') : Rooted screen cs' :=
  ⟨hgrown.sound, (hgrown.kept screen h.created).trans h.root, h.created.trans_le hgrown.count⟩

theorem same (hrel : cs.Relinked cs.linkage cs') : Rooted screen cs' :=
  ⟨h.sound.same hrel, by rw [hrel.linkage]; exact h.root, hrel.count ▸ h.created⟩

theorem setId {c : Component} (ha : cs.object a = some c) (id : Int) :
    Rooted screen (cs.put a { c with id := id }) := by
  have hlinkage : (cs.put a { c with id := id }).linkage = cs.linkage := by
    simp only [linkage, put, Linkage.mk.injEq]
    constructor <;> funext b <;> by_cases hb : b = a <;> simp [hb, ha]
  have hlive : ∀ b, ((cs.put a { c with id := id }).object b).isSome = (cs.object b).isSome := by
    intro b
    by_cases hb : b = a <;> simp [put, hb, ha]
  refine ⟨⟨hlinkage ▸ h.sound.forest, fun b p hp => ?_, fun b hb => ?_⟩, hlinkage ▸ h.root, h.created⟩
  · rw [hlive]
    exact h.sound.parents b p (hlinkage ▸ hp)
  · rw [← Option.isNone_iff_eq_none, ← Option.not_isSome, hlive, h.sound.fresh b hb]
    rfl

theorem addChildTo (zs : ZSort) (depth : Nat) (refType : ChildComponentRefType)
    (hscreen : comp ≠ screen) (hapart : ¬ cs.linkage.AtOrAbove comp a) :
    Leaves (Rooted screen) (Rooted screen) (cs.addChildTo zs depth a comp refType) := by
  have hmoved : ∀ cs', cs.Moved comp cs' → Rooted screen cs' := fun cs' hm =>
    ⟨hm.sound, (hm.others screen hscreen.symm).trans h.root, hm.count ▸ h.created⟩
  exact (addChildTo_moved zs depth h.sound refType hapart).mono hmoved hmoved

theorem addToScreen (zs : ZSort) (depth : Nat) (hscreen : comp ≠ screen) :
    Leaves (Rooted screen) (Rooted screen) (cs.addChildTo zs depth screen comp .default) :=
  h.addChildTo zs depth .default hscreen (Linkage.not_atOrAbove_of_root h.root hscreen.symm)

theorem constructed {r : Components × Nat} (hr : cs.Constructed r) :
    Rooted screen r.1 ∧ r.2 ≠ screen :=
  ⟨h.grown hr.1, by have := h.created; have := hr.2.2.1; omega⟩

end

end Rooted

/-- What holds between any two requests, and where a recursion is cut. -/
structure Inv (s : WindowServer) : Prop where
  rooted : Rooted s.screen s.components
  registered : ∀ id c, s.registry.get id = some c → c ≠ s.screen

theorem construct_rooted {s : WindowServer} (h : Rooted s.screen s.components) (zs : ZSort) (depth : Nat)
    (type : UiComponentType) :
    Leaves (Rooted s.screen)
      (fun r => Rooted s.screen r.1 ∧ ∀ c, r.2 = some c → c ≠ s.screen)
      (s.construct zs depth type) := by
  have hplain : ∀ kind, Rooted s.screen (s.components.newPlain kind).1 ∧
      ∀ c, some (s.components.newPlain kind).2 = some c → c ≠ s.screen := by
    intro kind
    obtain ⟨hrooted, hne⟩ := h.constructed (newPlain_constructed h.sound kind)
    exact ⟨hrooted, fun c hc => Option.some.inj hc ▸ hne⟩
  cases type with
  | window =>
    refine ((newWindow_constructed h.sound zs depth).mono (fun _ => h.grown)
      fun _ => h.constructed).bind fun r hr => ?_
    refine (hr.1.addToScreen zs depth hr.2).bind fun cs hcs => ?_
    exact ⟨hcs, fun c hc => Option.some.inj hc ▸ hr.2⟩
  | geoshape =>
    refine ((newGeoshape_constructed h.sound zs depth).mono (fun _ => h.grown)
      fun _ => h.constructed).bind fun r hr => ?_
    refine (hr.1.addToScreen zs depth hr.2).bind fun cs hcs => ?_
    exact ⟨hcs, fun c hc => Option.some.inj hc ▸ hr.2⟩
  | button =>
    refine ((newButton_constructed h.sound zs depth).mono (fun _ => h.grown)
      fun _ => h.constructed).bind fun r hr => ?_
    exact ⟨hr.1, fun c hc => Option.some.inj hc ▸ hr.2⟩
  | label => exact hplain .label
  | textField => exact hplain .textField
  | canvas => exact hplain .canvas
  | unknown => exact ⟨h, nofun⟩

theorem withComponent_inv {s : WindowServer} (h : s.Inv) (id : Int) {f : Nat → Except Stop Components}
    (hf : ∀ c, c ≠ s.screen → Leaves (Rooted s.screen) (Rooted s.screen) (f c)) :
    Leaves (Rooted s.screen) (fun r => r.1.Inv ∧ r.1.screen = s.screen) (s.withComponent id f) := by
  unfold withComponent
  split
  · exact ⟨h, rfl⟩
  next c hc =>
    exact (hf c (h.registered id c hc)).bind fun cs hcs => ⟨⟨hcs, h.registered⟩, rfl⟩

end WindowServer

/-! ## The registry under requests -/

namespace ComponentRegistry

theorem get_add (r : ComponentRegistry) (process : Int) (component : Nat) (id : Int) :
    (r.add process component).1.get id = if r.nextId = id then some component else r.get id := by
  simp only [add, get, Std.TreeMap.getElem?_insert]
  by_cases h : r.nextId = id <;> simp [h]

theorem removeComponent_get (r : ComponentRegistry) (pid id : Int) :
    Leaves (fun _ => False) (fun r' => ∀ i c, r'.get i = some c → r.get i = some c)
      (r.removeComponent pid id) := by
  have herase : ∀ i c, (r.registry.erase id)[i]? = some c → r.get i = some c := by
    intro i c hi
    rw [Std.TreeMap.getElem?_erase] at hi
    split at hi
    · cases hi
    · exact hi
  unfold removeComponent
  split
  · split
    · split
      · exact herase
      · trivial
    · exact herase
  · exact fun i c h => h

end ComponentRegistry

namespace WindowServer

/-- No component is put into itself or below itself: the new parent, or its panel, is not below the
child. -/
def KeepsApart (s : WindowServer) (m : Command) : Prop :=
  match m.request with
  | .addComponent parent child => ∀ p c, s.registry.get parent = some p →
      s.registry.get child = some c → ¬ s.components.linkage.AtOrAbove c (s.components.target p)
  | _ => True

theorem processCommand_inv {s : WindowServer} {m : Command} (h : s.Inv) (hok : s.KeepsApart m) (zs : ZSort)
    (mode : ModeInfo) :
    Leaves (Rooted s.screen) (fun r => r.1.Inv ∧ r.1.screen = s.screen)
      (s.processCommand zs mode m) := by
  unfold processCommand
  split
  next type _ =>
    refine (construct_rooted h.rooted zs m.depth type).bind fun r hr => ?_
    obtain ⟨cs, component⟩ := r
    cases component with
    | none => exact ⟨⟨hr.1, h.registered⟩, rfl⟩
    | some component =>
      refine Leaves.get_bind fun this hthis => ⟨⟨hr.1.setId hthis _, fun id c hc => ?_⟩, rfl⟩
      · have hc := (ComponentRegistry.get_add s.registry m.senderPid component id).symm.trans hc
        split at hc
        · exact Option.some.inj hc ▸ hr.2 component rfl
        · exact h.registered id c hc
  next id _ =>
    refine ((ComponentRegistry.removeComponent_get s.registry m.senderTid id).mono
      (fun _ => False.elim) fun _ hr => hr).bind fun registry hr => ?_
    exact ⟨⟨h.rooted, fun i c hc => h.registered i c (hr i c hc)⟩, rfl⟩
  next parent child hreq =>
    rw [KeepsApart, hreq] at hok
    split
    next p c hp hc =>
      refine Leaves.bind (Leaves.get_bind fun _ _ => h.rooted.addChildTo zs m.depth .default
        (h.registered child c hc) (hok p c hp hc)) fun cs hcs => ⟨⟨hcs, h.registered⟩, rfl⟩
    next => exact ⟨h, rfl⟩
  next id bounds _ =>
    exact withComponent_inv h id fun c _ => (setBounds_relinked mode m.depth _ c bounds).mono
      (fun _ => h.rooted.same) fun _ => h.rooted.same
  next id visible _ =>
    exact withComponent_inv h id fun c _ =>
      (setVisible_relinked mode m.depth _ c visible).mono
        (fun _ => h.rooted.same) fun _ => h.rooted.same
  next id _ =>
    refine withComponent_inv h id fun canvas hcanvas => Leaves.get_bind fun this hthis => ?_
    have hput := relinked_put_same hthis (d := { this with zIndex := 1 }) rfl rfl rfl rfl
    refine ((h.rooted.same hput).addToScreen zs m.depth hcanvas).bind fun cs hcs =>
      Leaves.get_bind fun screen _ => ?_
    exact (setBounds_relinked mode m.depth cs canvas screen.bounds).mono
      (fun _ => hcs.same) fun _ => hcs.same
  next => exact ⟨h, rfl⟩

theorem launch_inv (mode : ModeInfo) : (launch mode).Inv := by
  have hobject : ∀ a, a ≠ 0 → a ≠ 1 → (launch mode).components.object a = none := by
    intro a h0 h1
    simp [launch, h0, h1]
  have hparent : ∀ a, (launch mode).components.linkage.parent a = if a = 1 then some 0 else none := by
    intro a
    by_cases h1 : a = 1
    · simp [linkage, launch, h1]
    · by_cases h0 : a = 0
      · simp [linkage, launch, h0]
      · simp [linkage, hobject a h0 h1, h1]
  have hchildren : ∀ a, (launch mode).components.linkage.children a = if a = 0 then [1] else [] := by
    intro a
    by_cases h1 : a = 1
    · simp [linkage, launch, h1]
    · by_cases h0 : a = 0
      · simp [linkage, launch, h0]
      · simp [linkage, hobject a h0 h1, h0]
  have hacc : ∀ a, a ≠ 1 → Acc (launch mode).components.linkage.IsParent a := fun a h1 =>
    ⟨a, fun p hp => by rw [Linkage.IsParent, hparent, if_neg h1] at hp; cases hp⟩
  refine ⟨⟨⟨⟨fun p c => ?_, ⟨fun a => ?_⟩⟩, fun a p hp => ?_, fun a ha => ?_⟩, ?_, ?_⟩, ?_⟩
  · rw [hparent, hchildren]
    by_cases hp : p = 0 <;> by_cases hc : c = 1 <;> simp [hp, hc, eq_comm]
  · refine ⟨a, fun p hp => ?_⟩
    rw [Linkage.IsParent, hparent] at hp
    split at hp
    · exact hacc p (by cases hp; decide)
    · cases hp
  · rw [hparent] at hp
    split at hp
    · cases hp
      rfl
    · cases hp
  · have ha : 2 ≤ a := ha
    exact hobject a (by omega) (by omega)
  · exact hparent 0
  · exact Nat.zero_lt_two
  · intro id c hc
    simp [ComponentRegistry.get, launch] at hc

theorem step_inv (zs : ZSort) (mode : ModeInfo) {s s' : WindowServer} {m : Command} (h : s.Inv)
    (hok : s.KeepsApart m) (hstep : s.step zs mode m = some s') : s'.Inv := by
  have hleaves := processCommand_inv h hok zs mode
  unfold step at hstep
  split at hstep
  · cases hstep
  · split at hstep
    next r hr =>
      rw [hr] at hleaves
      cases hstep
      exact hleaves.1
    next cs hr =>
      rw [hr] at hleaves
      cases hstep
      exact ⟨hleaves, h.registered⟩
    next => cases hstep

/-- In every run of requests that never put a component into itself or below itself, the components are
a forest, also during a recursion, and every recursion along the parents ends. -/
theorem components_wellLinked (zs : ZSort) (mode : ModeInfo) {s : WindowServer}
    (hs : (system zs mode).Reachable KeepsApart s) : s.components.WellLinked mode := by
  have hinv : s.Inv := hs.invariant
    (fun s hinit => by
      cases hinit
      exact launch_inv mode)
    fun s m s' h hok hstep => step_inv zs mode h hok hstep
  exact hinv.rooted.sound.wellLinked mode

theorem components_wellLinked_button : ∃ s : WindowServer,
    (s.components.object 3).map Component.children = some [⟨2, .internal⟩, ⟨4, .default⟩] ∧
      s.components.WellLinked .xga := by
  obtain ⟨s, hs, hparent, hchild, htarget, hroot, s', hs', hchildren⟩ :
      ∃ s ∈ (system .insertion .xga).run (launch .xga)
          [⟨10, 9, .createComponent .button, 8⟩, ⟨10, 9, .createComponent .label, 8⟩],
        s.registry.get 1 = some 3 ∧ s.registry.get 2 = some 4 ∧ s.components.target 3 = 3 ∧
          (s.components.object 3).bind Component.parent = none ∧
          ∃ s' ∈ s.step .insertion .xga ⟨10, 9, .addComponent 1 2, 8⟩,
            (s'.components.object 3).map Component.children = some [⟨2, .internal⟩, ⟨4, .default⟩] := by
    decide +kernel
  have hreach : (system .insertion .xga).Reachable KeepsApart s := by
    refine System.Reachable.of_run (.init rfl) (fun m hm s => ?_) hs
    rw [List.mem_pair] at hm
    rcases hm with rfl | rfl <;> trivial
  have hapart : s.KeepsApart ⟨10, 9, .addComponent 1 2, 8⟩ := by
    intro p c hp hc
    cases hparent.symm.trans hp
    cases hchild.symm.trans hc
    rw [htarget]
    exact Linkage.not_atOrAbove_of_root hroot (by decide)
  exact ⟨s', hchildren, components_wellLinked .insertion _ (.step hreach hapart hs')⟩

/-- A button that is put into itself is its own ancestor, and marking it does not come back. -/
theorem addComponent_self_endless : ∃ s : WindowServer,
    (system .insertion .xga).Reachable (fun _ _ => True) s ∧
      s.components.linkage.Above 3 3 ∧
      ∀ req depth, (s.components.markFor req depth 3).isOk = false := by
  obtain ⟨s, hs, hself⟩ : ∃ s ∈ (system .insertion .xga).run (launch .xga)
      [⟨10, 9, .createComponent .button, 8⟩, ⟨10, 9, .addComponent 1 1, 8⟩],
      (s.components.object 3).map Component.parent = some (some 3) := by
    decide
  obtain ⟨c, hc, hparent⟩ := Option.map_eq_some_iff.mp hself
  refine ⟨s, System.reachable_of_run rfl hs, .single ?_, fun req depth => ?_⟩
  · rw [Linkage.IsParent, parent_eq hc, hparent]
  · exact markFor_of_parent_self req depth hc hparent

end WindowServer

end MeetixOS.ZipNET
