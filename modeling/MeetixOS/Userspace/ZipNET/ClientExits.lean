import MeetixOS.Userspace.ZipNET.ComponentCleanup

/-! # Clients that come and go

The window server under the requests that create and remove components and under the cleanup for
processes that exit. A run ends where the server would follow a pointer to a component that is gone. -/

open Function (update update_of_ne update_self)
open Option (bind_eq_some_iff bind_some map_eq_some_iff ne_none_iff_exists')
open List (mem_append mem_cons mem_singleton not_mem_nil)

namespace MeetixOS.ZipNET

open Kernel (s32)
open Lib (System)

/-! ## Clients -/

/-- The window server with what its clients did: who created an id, whose a component is, and what
is destroyed. -/
structure ClientRun where
  server : WindowServer
  creator : Int → Option Int
  owner : Nat → Option Int
  font : Font
  deleted : List Nat

/-- What the clients do: a request, by some thread of a process, or the end of a process. -/
inductive ClientEvent
  | createComponent (senderTid senderPid : Int) (type : UiComponentType)
  | removeComponent (senderTid senderPid id : Int)
  | processExited (pid : Int)
  deriving DecidableEq

namespace ClientRun

/-- The recursions get as deep as there are components. -/
def depth (s : ClientRun) : Nat := s.server.components.count + 2

/-- What becomes of the server; `none` where it follows a pointer to a component that is gone. -/
def step (zs : ZSort) (mode : ModeInfo) (s : ClientRun) : ClientEvent → Option ClientRun
  | .createComponent senderTid senderPid type =>
    match s.server.processCommand zs mode ⟨senderTid, senderPid, .createComponent type, s.depth⟩ with
    | .ok (server, .created id true) => some
        { s with
          server
          creator := update s.creator id (some senderPid)
          owner := fun a =>
            if s.server.components.count ≤ a ∧ a < server.components.count then some senderPid
            else s.owner a }
    | .ok (server, _) => some { s with server }
    | .error _ => none
  | .removeComponent senderTid senderPid id =>
    match s.server.processCommand zs mode ⟨senderTid, senderPid, .removeComponent id, s.depth⟩ with
    | .ok (server, _) => some { s with server }
    | .error _ => none
  | .processExited pid =>
    match ComponentRegistry.cleanupProcess mode s.depth
      { components := s.server.components
        registry := s.server.registry
        removedComponents := []
        font := s.font
        deleted := s.deleted } pid with
    | .ok c => some
        { s with
          server := { s.server with components := c.components, registry := c.registry }
          font := c.font
          deleted := c.deleted }
    | .error _ => none

/-- The window server before the first client, with what `FontManager` has for the first label. -/
def launch (mode : ModeInfo) (font : Font) : ClientRun where
  server := WindowServer.launch mode
  creator _ := none
  owner _ := none
  font := font
  deleted := []

/-- The window server under its clients. -/
def system (zs : ZSort) (mode : ModeInfo) : System ClientRun ClientEvent where
  init s := ∃ font, s = launch mode font
  step := step zs mode

end ClientRun

/-! ## New components -/

namespace Components

variable {cs cs' : Components} {screen : Nat}

theorem perm_pair {l : List ChildComponentRef} {a b : ChildComponentRef} (h : l.Perm [a, b]) :
    l = [a, b] ∨ l = [b, a] := by
  obtain ⟨x, y, rfl⟩ := List.length_eq_two.1 h.length_eq
  rcases List.mem_pair.1 (h.subset List.mem_cons_self) with rfl | rfl
  · exact .inl (by rw [List.perm_singleton.1 ((List.perm_cons x).1 h)])
  · exact .inr (by rw [List.perm_singleton.1 ((List.perm_cons x).1 (h.trans (List.Perm.swap ..)))])

theorem create_spec (cs : Components) (c : Component) :
    ∃ cs', cs.create c = cs' ∧ cs'.count = cs.count + 1 ∧
      (∀ b, b ≠ cs.count → cs'.object b = cs.object b) ∧
      cs'.coreOf = update cs.coreOf cs.count (some ⟨c.kind, c.id, c.parent, c.children⟩) :=
  ⟨_, rfl, rfl, fun _ hb => update_of_ne hb .., coreOf_create cs c⟩

theorem isPath_singleton {a : Nat} {this : Core} (ha : cs.coreOf a = some this)
    (hparent : this.parent = none) : cs.IsPath [a] := by
  obtain ⟨c, hc, -, -, hp, -⟩ := exists_of_coreOf ha
  exact ⟨c, hc, hp.trans hparent⟩

section

variable (zs : ZSort) (depth : Nat) (cs : Components)

theorem embedTwo_spec (refType : ChildComponentRefType) (first second : Kind) (c : Component)
    (hid : c.id = -1) (hparent : c.parent = none) (hchildren : c.children = []) :
    ∃ cs4 cs5 list,
      addChildTo zs depth (((cs.create { kind := first }).create { kind := second }).create c)
        (cs.count + 2) cs.count refType = .ok cs4 ∧
      addChildTo zs depth cs4 (cs.count + 2) (cs.count + 1) refType = .ok cs5 ∧
      list.Perm [⟨cs.count, refType⟩, ⟨cs.count + 1, refType⟩] ∧ cs5.count = cs.count + 3 ∧
      (∀ b, b < cs.count ∨ cs.count + 2 < b → cs5.object b = cs.object b) ∧
      cs5.coreOf cs.count = some ⟨first, -1, some (cs.count + 2), []⟩ ∧
      cs5.coreOf (cs.count + 1) = some ⟨second, -1, some (cs.count + 2), []⟩ ∧
      cs5.coreOf (cs.count + 2) = some ⟨c.kind, -1, none, list⟩ := by
  obtain ⟨cs1, hcs1, hcount1, hothers1, hcore1⟩ := create_spec cs { kind := first }
  obtain ⟨cs2, hcs2, hcount2, hothers2, hcore2⟩ := create_spec cs1 { kind := second }
  obtain ⟨cs3, hcs3, hcount3, hothers3, hcore3⟩ := create_spec cs2 c
  replace hcount2 : cs2.count = cs.count + 2 := by rw [hcount2, hcount1]
  replace hcount3 : cs3.count = cs.count + 3 := by rw [hcount3, hcount2]
  rw [hcount1] at hothers2 hcore2
  rw [hcount2] at hothers3 hcore3
  have hfirst3 : cs3.coreOf cs.count = some ⟨first, -1, none, []⟩ := by
    simp [hcore3, hcore2, hcore1]
  have hsecond3 : cs3.coreOf (cs.count + 1) = some ⟨second, -1, none, []⟩ := by
    simp [hcore3, hcore2]
  have houter3 : cs3.coreOf (cs.count + 2) = some ⟨c.kind, -1, none, []⟩ := by
    rw [hcore3, update_self, hid, hparent, hchildren]
  obtain ⟨cs4, list4, hadd4, hlist4, hcount4, hothers4, hcore4⟩ := addChildTo_spec zs depth refType
    (isPath_singleton houter3 rfl) (Nat.zero_le _) houter3 hfirst3 rfl (by simp)
  have hsecond4 : cs4.coreOf (cs.count + 1) = some ⟨second, -1, none, []⟩ := by
    simp [hcore4, hsecond3]
  have houter4 : cs4.coreOf (cs.count + 2) = some ⟨c.kind, -1, none, list4⟩ := by
    simp [hcore4]
  obtain ⟨cs5, list5, hadd5, hlist5, hcount5, hothers5, hcore5⟩ := addChildTo_spec zs depth refType
    (isPath_singleton houter4 rfl) (Nat.zero_le _) houter4 hsecond4 rfl (by simp)
  refine ⟨cs4, cs5, list5, ?_, hadd5, ?_, ?_, fun b hb => ?_, ?_, ?_, ?_⟩
  · rw [hcs1, hcs2, hcs3]
    exact hadd4
  · rw [List.perm_singleton.1 hlist4] at hlist5
    exact hlist5
  · rw [hcount5, hcount4, hcount3]
  · rw [hothers5 b (by simp; omega), hothers4 b (by simp; omega), hothers3 b (by omega),
      hothers2 b (by omega), hothers1 b (by omega)]
  · simp [hcore5, hcore4]
  · simp [hcore5]
  · simp [hcore5]

theorem newWindow_spec :
    ∃ cs' list, newWindow zs depth cs = .ok (cs', cs.count + 2) ∧
      list.Perm [⟨cs.count, .internal⟩, ⟨cs.count + 1, .internal⟩] ∧ cs'.count = cs.count + 3 ∧
      (∀ b, b < cs.count ∨ cs.count + 2 < b → cs'.object b = cs.object b) ∧
      cs'.coreOf cs.count = some ⟨.label, -1, some (cs.count + 2), []⟩ ∧
      cs'.coreOf (cs.count + 1) = some ⟨.panel, -1, some (cs.count + 2), []⟩ ∧
      cs'.coreOf (cs.count + 2) = some ⟨.window cs.count (cs.count + 1), -1, none, list⟩ := by
  obtain ⟨cs4, cs5, list, h4, h5, hspec⟩ := embedTwo_spec zs depth cs .internal .label .panel
    { kind := .window cs.count (cs.count + 1), visible := false, minimumWidth := 100,
      minimumHeight := 50 } rfl rfl rfl
  refine ⟨cs5, list, ?_, hspec⟩
  simp only [create] at h4
  simp [newWindow, create, bind, Except.bind, h4, h5]

theorem newGeoshape_spec :
    ∃ cs' list, newGeoshape zs depth cs = .ok (cs', cs.count + 2) ∧
      list.Perm [⟨cs.count, .default⟩, ⟨cs.count + 1, .default⟩] ∧ cs'.count = cs.count + 3 ∧
      (∀ b, b < cs.count ∨ cs.count + 2 < b → cs'.object b = cs.object b) ∧
      cs'.coreOf cs.count = some ⟨.panel, -1, some (cs.count + 2), []⟩ ∧
      cs'.coreOf (cs.count + 1) = some ⟨.label, -1, some (cs.count + 2), []⟩ ∧
      cs'.coreOf (cs.count + 2) = some ⟨.geoshape cs.count (cs.count + 1), -1, none, list⟩ := by
  obtain ⟨cs4, cs5, list, h4, h5, hspec⟩ := embedTwo_spec zs depth cs .default .panel .label
    { kind := .geoshape cs.count (cs.count + 1) } rfl rfl rfl
  refine ⟨cs5, list, ?_, hspec⟩
  simp only [create] at h4
  simp [newGeoshape, create, bind, Except.bind, h4, h5]

theorem newButton_spec :
    ∃ cs' list, newButton zs depth cs = .ok (cs', cs.count + 1) ∧ cs'.count = cs.count + 2 ∧
      (∀ b, b < cs.count ∨ cs.count + 1 < b → cs'.object b = cs.object b) ∧
      cs'.coreOf cs.count = some ⟨.label, -1, some (cs.count + 1), []⟩ ∧
      cs'.coreOf (cs.count + 1) = some ⟨.button cs.count, -1, none, list⟩ := by
  obtain ⟨cs1, hcs1, hcount1, hothers1, hcore1⟩ := create_spec cs { kind := .label }
  obtain ⟨cs2, hcs2, hcount2, hothers2, hcore2⟩ := create_spec cs1 { kind := .button cs.count }
  replace hcount2 : cs2.count = cs.count + 2 := by rw [hcount2, hcount1]
  rw [hcount1] at hothers2 hcore2
  have hlabel2 : cs2.coreOf cs.count = some ⟨.label, -1, none, []⟩ := by
    simp [hcore2, hcore1]
  have hbutton2 : cs2.coreOf (cs.count + 1) = some ⟨.button cs.count, -1, none, []⟩ := by
    simp [hcore2]
  obtain ⟨cs3, list3, hadd3, -, hcount3, hothers3, hcore3⟩ := addChildTo_spec zs depth .internal
    (isPath_singleton hbutton2 rfl) (Nat.zero_le _) hbutton2 hlabel2 rfl (by simp)
  refine ⟨cs3, list3, ?_, ?_, fun b hb => ?_, ?_, ?_⟩
  · simp [newButton, hcs1, hcount1, hcs2, bind, Except.bind, hadd3]
  · rw [hcount3, hcount2]
  · rw [hothers3 b (by simp; omega), hothers2 b (by omega), hothers1 b (by omega)]
  · simp [hcore3]
  · simp [hcore3]

end

/-- What a request for a new component leaves behind. -/
structure Built (cs : Components) (screen : Nat) (cs' : Components) (component : Nat) : Prop where
  bound : cs.count ≤ component ∧ component < cs'.count
  fresh : ∀ b, cs'.count ≤ b → cs'.object b = none
  others : ∀ b, b < cs.count → b ≠ screen → cs'.object b = cs.object b
  onScreen : ∃ this, cs'.ScreenAt screen this
  built : ∃ this, cs'.coreOf component = some this
  windows : ∀ w this title content, cs.count ≤ w → cs'.coreOf w = some this →
    this.kind = .window title content →
    w = component ∧ cs'.WindowAt screen w title content this.id ∧ cs.count ≤ title ∧ cs.count ≤ content

theorem coreOf_congr {a : Nat} (h : cs'.object a = cs.object a) : cs'.coreOf a = cs.coreOf a := by
  rw [coreOf, coreOf, h]

theorem coreOf_eq_none {a : Nat} (h : cs.object a = none) : cs.coreOf a = none := by
  rw [coreOf, h]
  rfl

theorem ScreenAt.congr {this : Core} (h : cs.ScreenAt screen this)
    (hcore : cs'.coreOf screen = cs.coreOf screen) : cs'.ScreenAt screen this :=
  ⟨hcore.trans h.core, h.kind, h.parent, h.default⟩

theorem lt_of_coreOf (hfresh : ∀ b, cs.count ≤ b → cs.object b = none) {a : Nat} {this : Core}
    (ha : cs.coreOf a = some this) : a < cs.count := by
  by_contra hle
  rw [coreOf_eq_none (hfresh a (Nat.not_lt.1 hle))] at ha
  cases ha

theorem addToScreen_spec (zs : ZSort) (depth : Nat) {comp : Nat} {this child : Core}
    (hscreen : cs.ScreenAt screen this) (hcomp : cs.coreOf comp = some child)
    (hparent : child.parent = none) (hne : comp ≠ screen) :
    ∃ cs' list, addChildTo zs depth cs screen comp .default = .ok cs' ∧ cs'.count = cs.count ∧
      (∀ b, b ≠ comp → b ≠ screen → cs'.object b = cs.object b) ∧
      cs'.ScreenAt screen { this with children := list } ∧
      cs'.coreOf comp = some { child with parent := some screen } := by
  obtain ⟨cs', list, hadd, hlist, hcount, hothers, hcore⟩ := addChildTo_spec zs depth .default
    (isPath_singleton hscreen.core hscreen.parent) (Nat.zero_le _) hscreen.core hcomp hparent
    (by simp [hne])
  refine ⟨cs', list, hadd, hcount, fun b hb hbs => hothers b (by simp [hb, hbs]), ?_, ?_⟩
  · refine ⟨?_, hscreen.kind, hscreen.parent, fun ref href => ?_⟩
    · rw [hcore, update_of_ne hne.symm, update_self]
    · rcases mem_append.1 (hlist.subset href) with hold | hnew
      · exact hscreen.default ref hold
      · rw [mem_singleton.1 hnew]
  · rw [hcore, update_self]

/-- Three new components of which the third goes on the screen. -/
theorem addThird_built (zs : ZSort) (depth : Nat) {cs1 : Components} {this first second third : Core}
    (hscreen : cs.ScreenAt screen this) (hfresh : ∀ b, cs.count ≤ b → cs.object b = none)
    (hcount1 : cs1.count = cs.count + 3)
    (hothers1 : ∀ b, b < cs.count ∨ cs.count + 2 < b → cs1.object b = cs.object b)
    (hfirst : cs1.coreOf cs.count = some first) (hsecond : cs1.coreOf (cs.count + 1) = some second)
    (hthird : cs1.coreOf (cs.count + 2) = some third) (hparent : third.parent = none)
    (hfirstKind : first.kind.isWindow = false) (hsecondKind : second.kind.isWindow = false)
    (hwindow : ∀ (cs2 : Components) title content, third.kind = .window title content →
      cs2.coreOf cs.count = some first → cs2.coreOf (cs.count + 1) = some second →
      cs2.coreOf (cs.count + 2) = some { third with parent := some screen } →
      cs2.WindowAt screen (cs.count + 2) title content third.id ∧ cs.count ≤ title ∧
        cs.count ≤ content) :
    ∃ cs2, addChildTo zs depth cs1 screen (cs.count + 2) .default = .ok cs2 ∧
      Built cs screen cs2 (cs.count + 2) := by
  have hlt := lt_of_coreOf hfresh hscreen.core
  obtain ⟨cs2, list, hadd, hcount2, hothers2, hscreen2, hthird2⟩ := addToScreen_spec zs depth
    (hscreen.congr (coreOf_congr (hothers1 _ (.inl hlt)))) hthird hparent (by omega)
  refine ⟨cs2, hadd, ⟨by omega, by omega⟩, fun b hb => ?_, fun b hb hbs => ?_, ⟨_, hscreen2⟩,
    ⟨_, hthird2⟩, fun w that title content hw hcore hthat => ?_⟩
  · rw [hothers2 b (by omega) (by omega), hothers1 b (.inr (by omega)), hfresh b (by omega)]
  · rw [hothers2 b (by omega) hbs, hothers1 b (.inl hb)]
  · have hkept : ∀ b, b ≠ cs.count + 2 → b ≠ screen → cs2.coreOf b = cs1.coreOf b :=
      fun b hb hbs => coreOf_congr (hothers2 b hb hbs)
    have hfirst2 := (hkept _ (by omega) (by omega)).trans hfirst
    have hsecond2 := (hkept _ (by omega) (by omega)).trans hsecond
    obtain rfl | rfl | rfl | hlast : w = cs.count ∨ w = cs.count + 1 ∨ w = cs.count + 2 ∨
        cs.count + 2 < w := by omega
    · cases hfirst2.symm.trans hcore
      simp [hthat, Kind.isWindow] at hfirstKind
    · cases hsecond2.symm.trans hcore
      simp [hthat, Kind.isWindow] at hsecondKind
    · cases hthird2.symm.trans hcore
      exact ⟨rfl, hwindow cs2 title content hthat hfirst2 hsecond2 hthird2⟩
    · rw [hkept w (by omega) (by omega), coreOf_congr (hothers1 w (.inr hlast)),
        coreOf_eq_none (hfresh w (by omega))] at hcore
      cases hcore

end Components

namespace WindowServer

open Components

variable {s : WindowServer} {this : Core}

theorem construct_built (zs : ZSort) (depth : Nat) {type : UiComponentType} (htype : type ≠ .unknown)
    (hscreen : s.components.ScreenAt s.screen this)
    (hfresh : ∀ b, s.components.count ≤ b → s.components.object b = none) :
    ∃ cs' component, s.construct zs depth type = .ok (cs', some component) ∧
      Built s.components s.screen cs' component := by
  have hlt := lt_of_coreOf hfresh hscreen.core
  have hplain : ∀ kind : Kind, kind.isWindow = false →
      Built s.components s.screen (s.components.create { kind := kind }) s.components.count := by
    intro kind hkind
    obtain ⟨cs1, hcs1, hcount1, hothers1, hcore1⟩ := create_spec s.components { kind := kind }
    rw [hcs1]
    refine ⟨⟨Nat.le_refl _, by omega⟩, fun b hb => ?_, fun b hb _ => hothers1 b (by omega),
      ⟨this, hscreen.congr (coreOf_congr (hothers1 _ (by omega)))⟩, ⟨_, by rw [hcore1, update_self]⟩,
      fun w that title content hw hcore hthat => ?_⟩
    · rw [hothers1 b (by omega), hfresh b (by omega)]
    · by_cases hwc : w = s.components.count
      · rw [hwc, hcore1, update_self, Option.some.injEq] at hcore
        rw [← hcore] at hthat
        rw [show kind = .window title content from hthat] at hkind
        cases hkind
      · rw [hcore1, update_of_ne hwc, coreOf_eq_none (hfresh w hw)] at hcore
        cases hcore
  cases type with
  | window =>
    obtain ⟨cs1, list, hnew, hlist, hcount1, hothers1, htitle1, hcontent1, hwindow1⟩ :=
      newWindow_spec zs depth s.components
    obtain ⟨cs2, hadd, hbuilt⟩ := addThird_built zs depth hscreen hfresh hcount1 hothers1 htitle1
      hcontent1 hwindow1 rfl rfl rfl fun cs2 title content hthat htitle2 hcontent2 hwindow2 => by
        cases hthat
        refine ⟨⟨?_, htitle2, hcontent2⟩, Nat.le_refl _, Nat.le_succ _⟩
        rcases perm_pair hlist with rfl | rfl
        · exact ⟨_, _, hwindow2, .inl ⟨rfl, rfl⟩⟩
        · exact ⟨_, _, hwindow2, .inr ⟨rfl, rfl⟩⟩
    exact ⟨cs2, _, by simp [construct, hnew, bind, Except.bind, hadd], hbuilt⟩
  | geoshape =>
    obtain ⟨cs1, list, hnew, -, hcount1, hothers1, hpanel1, htitle1, hshape1⟩ :=
      newGeoshape_spec zs depth s.components
    obtain ⟨cs2, hadd, hbuilt⟩ := addThird_built zs depth hscreen hfresh hcount1 hothers1 hpanel1
      htitle1 hshape1 rfl rfl rfl nofun
    exact ⟨cs2, _, by simp [construct, hnew, bind, Except.bind, hadd], hbuilt⟩
  | button =>
    obtain ⟨cs1, list, hnew, hcount1, hothers1, htitle1, hbutton1⟩ :=
      newButton_spec zs depth s.components
    refine ⟨cs1, _, ?_, ⟨by omega, by omega⟩, fun b hb => ?_, fun b hb _ => hothers1 b (.inl hb),
      ⟨this, hscreen.congr (coreOf_congr (hothers1 _ (.inl hlt)))⟩, ⟨_, hbutton1⟩,
      fun w that title content hw hcore hthat => ?_⟩
    · simp [construct, hnew, bind, Except.bind]
    · rw [hothers1 b (.inr (by omega)), hfresh b (by omega)]
    · obtain rfl | rfl | hlast : w = s.components.count ∨ w = s.components.count + 1 ∨
          s.components.count + 1 < w := by omega
      · cases htitle1.symm.trans hcore
        cases hthat
      · cases hbutton1.symm.trans hcore
        cases hthat
      · rw [coreOf_congr (hothers1 w (.inr hlast)), coreOf_eq_none (hfresh w (by omega))] at hcore
        cases hcore
  | label => exact ⟨_, _, rfl, hplain .label rfl⟩
  | textField => exact ⟨_, _, rfl, hplain .textField rfl⟩
  | canvas => exact ⟨_, _, rfl, hplain .canvas rfl⟩
  | unknown => exact absurd rfl htype

end WindowServer

/-! ## The maps of the processes -/

namespace ComponentRegistry

variable {r : ComponentRegistry} {pid id : Int} {a : Nat}

/-- The component that the map of a process has for an id. -/
def lookup (r : ComponentRegistry) (pid id : Int) : Option Nat :=
  r.componentsByProcess[pid]?.bind fun components => components[id]?

theorem lookup_add (r : ComponentRegistry) (process : Int) (component : Nat) (pid id : Int) :
    (r.add process component).1.lookup pid id =
      if pid = process ∧ id = r.nextId then some component else r.lookup pid id := by
  simp only [add, lookup, Std.TreeMap.getElem?_insert, compare_eq_iff_eq]
  by_cases hpid : process = pid
  · subst hpid
    rw [if_pos rfl, bind_some, Std.TreeMap.getElem?_insert]
    simp only [compare_eq_iff_eq, true_and, eq_comm (a := id)]
    split
    · rfl
    · cases r.componentsByProcess[process]? with
      | none => simp
      | some components => rfl
  · rw [if_neg hpid, if_neg fun h => hpid h.1.symm]

theorem removeComponent_spec (hlookup : r.lookup pid id = some a) (hget : r.get id = some a) :
    ∃ r', r.removeComponent pid id = .ok r' ∧ r'.nextId = r.nextId ∧
      (∀ i, r'.get i = if i = id then none else r.get i) ∧
      ∀ p i, r'.lookup p i = if p = pid ∧ i = id then none else r.lookup p i := by
  obtain ⟨components, hcomponents, hentry⟩ := bind_eq_some_iff.1 hlookup
  refine ⟨{ r with
    registry := r.registry.erase id
    componentsByProcess := r.componentsByProcess.insert pid (components.erase id) }, ?_, rfl,
    fun i => ?_, fun p i => ?_⟩
  · rw [get] at hget
    rw [removeComponent, if_pos (by simp [Std.TreeMap.contains_eq_isSome_getElem?, hget]), hcomponents]
    simp [Std.TreeMap.contains_eq_isSome_getElem?, hentry]
  · simp [get, Std.TreeMap.getElem?_erase, eq_comm (a := i)]
  · simp only [lookup, Std.TreeMap.getElem?_insert, compare_eq_iff_eq]
    by_cases hpid : pid = p
    · subst hpid
      simp [Std.TreeMap.getElem?_erase, hcomponents, eq_comm (a := i)]
    · rw [if_neg hpid, if_neg fun h => hpid h.1.symm]

end ComponentRegistry

/-! ## What holds between any two events -/

namespace ClientRun

open Components

variable {s s' : ClientRun} {zs : ZSort} {mode : ModeInfo}

/-- What holds of the server and its clients between any two events. -/
structure Tidy (s : ClientRun) : Prop where
  onScreen : ∃ this, s.server.components.ScreenAt s.server.screen this
  screenOwner : s.owner s.server.screen = none
  fresh : ∀ a, s.server.components.count ≤ a → s.server.components.object a = none
  windows : ∀ w this title content, s.server.components.coreOf w = some this →
    this.kind = .window title content →
    s.server.components.WindowAt s.server.screen w title content this.id ∧
      s.owner title = s.owner w ∧ s.owner content = s.owner w
  nextId : 1 ≤ s.server.registry.nextId
  covered : ∀ id a, s.server.registry.get id = some a → ∃ pid, s.server.registry.lookup pid id = some a
  entries : ∀ pid id a, s.server.registry.lookup pid id = some a →
    s.server.registry.get id = some a ∧ s.creator id = some pid ∧ s.owner a = some pid ∧ 1 ≤ id ∧
      ∃ this, s.server.components.coreOf a = some this ∧ this.id = id
  creators : ∀ id pid, s.creator id = some pid → id < s.server.registry.nextId
  dead : ∀ a ∈ s.deleted, a < s.server.components.count ∧ s.server.components.object a = none
  once : s.deleted.Nodup
  fonts : s.font = .deleted → ∀ a this, s.server.components.coreOf a = some this → ¬ this.kind.hasFont

theorem launch_tidy (mode : ModeInfo) (font : Font) : (launch mode font).Tidy where
  onScreen := ⟨⟨.screen, -1, none, [⟨1, .default⟩]⟩, rfl, rfl, rfl, by simp⟩
  screenOwner := rfl
  fresh a ha := by
    have ha : 2 ≤ a := ha
    simp [launch, WindowServer.launch, show a ≠ 0 by omega, show a ≠ 1 by omega]
  windows w this title content hw hkind := by
    by_cases h1 : w = 1
    · subst h1
      cases hw
      cases hkind
    · by_cases h0 : w = 0
      · subst h0
        cases hw
        cases hkind
      · simp [launch, WindowServer.launch, coreOf, h0, h1] at hw
  nextId := Int.le_refl 1
  covered id a h := by simp [launch, WindowServer.launch, ComponentRegistry.get] at h
  entries pid id a h := by simp [launch, WindowServer.launch, ComponentRegistry.lookup] at h
  creators id pid h := by cases h
  dead a h := by cases h
  once := List.nodup_nil
  fonts _ a this ha := by
    obtain ⟨c, hc, hkind, -⟩ := exists_of_coreOf ha
    rw [← hkind]
    simp only [launch, WindowServer.launch] at hc
    grind [Kind.hasFont]

theorem windowAt_congr {cs cs' : Components} {screen w title content : Nat} {id : Int}
    (h : cs.WindowAt screen w title content id)
    (hcore : ∀ b, b = w ∨ b = title ∨ b = content → cs'.coreOf b = cs.coreOf b) :
    cs'.WindowAt screen w title content id := by
  obtain ⟨first, second, hw, horder⟩ := h.window
  exact ⟨⟨first, second, (hcore w (by simp)).trans hw, horder⟩,
    (hcore title (by simp)).trans h.title, (hcore content (by simp)).trans h.content⟩

/-- A component that was built is registered. -/
def afterCreate (s : ClientRun) (process : Int) (cs : Components) (component : Nat) (c : Component) :
    ClientRun :=
  { s with
    server := { s.server with
      components := cs.put component { c with id := s.server.registry.nextId }
      registry := (s.server.registry.add process component).1 }
    creator := update s.creator s.server.registry.nextId (some process)
    owner := fun a => if s.server.components.count ≤ a ∧ a < cs.count then some process else s.owner a }

section

variable (h : s.Tidy)
include h

theorem afterCreate_tidy {cs : Components} {component : Nat} {c : Component} (process : Int)
    (hbuilt : Built s.server.components s.server.screen cs component)
    (hc : cs.object component = some c) (hid : s.server.registry.nextId < 2 ^ 31 - 1)
    (hfonts : s.font = .deleted → ∀ b this, s.server.components.count ≤ b → cs.coreOf b = some this →
      ¬ this.kind.hasFont) :
    (s.afterCreate process cs component c).Tidy := by
  obtain ⟨hle, hlt⟩ := hbuilt.bound
  obtain ⟨this, hscreen⟩ := h.onScreen
  have hscreenLt := lt_of_coreOf h.fresh hscreen.core
  have hnext : (s.afterCreate process cs component c).server.registry.nextId =
      s.server.registry.nextId + 1 := by
    have := h.nextId
    exact Kernel.s32_of_range (by omega) (by omega)
  have hcore := coreOf_put cs component { c with id := s.server.registry.nextId }
  have hnew : (cs.put component { c with id := s.server.registry.nextId }).coreOf component =
      some ⟨c.kind, s.server.registry.nextId, c.parent, c.children⟩ := by
    rw [hcore, update_self]
  have hbuiltOthers : ∀ b, b ≠ component →
      (cs.put component { c with id := s.server.registry.nextId }).coreOf b = cs.coreOf b := fun b hb => by
    rw [hcore, update_of_ne hb]
  -- what was there before is as it was, but for the screen
  have hold : ∀ b, b < s.server.components.count → b ≠ s.server.screen →
      (cs.put component { c with id := s.server.registry.nextId }).coreOf b =
        s.server.components.coreOf b := fun b hb hbs => by
    rw [hbuiltOthers b (by omega), coreOf_congr (hbuilt.others b hb hbs)]
  have holdOwner : ∀ b, b < s.server.components.count →
      (s.afterCreate process cs component c).owner b = s.owner b := fun b hb => if_neg (by omega)
  have hnewOwner : ∀ b, s.server.components.count ≤ b → b < cs.count →
      (s.afterCreate process cs component c).owner b = some process := fun b hb hb' => if_pos ⟨hb, hb'⟩
  refine ⟨?_, ?_, fun b hb => ?_, fun w that title content hw hkind => ?_, ?_, ?_, ?_, ?_, ?_, h.once,
    fun hfont b that hb => ?_⟩
  · obtain ⟨that, hthat⟩ := hbuilt.onScreen
    exact ⟨that, hthat.congr (hbuiltOthers _ (by omega))⟩
  · exact (holdOwner _ hscreenLt).trans h.screenOwner
  · have hb : cs.count ≤ b := hb
    exact (update_of_ne (by omega) ..).trans (hbuilt.fresh b hb)
  · by_cases hwc : w = component
    · subst hwc
      cases hnew.symm.trans hw
      have hcw : cs.coreOf w = some ⟨c.kind, c.id, c.parent, c.children⟩ := by rw [coreOf, hc]; rfl
      obtain ⟨-, hwindow, htitle, hcontent⟩ := hbuilt.windows w _ title content hle hcw hkind
      obtain ⟨first, second, hfirst, horder⟩ := hwindow.window
      have htw : title ≠ w := ne_of_coreOf hwindow.title hfirst (by simp)
      have hcontentw : content ≠ w := ne_of_coreOf hwindow.content hfirst (by simp)
      simp only [hcw, Option.some.injEq, Core.mk.injEq] at hfirst
      obtain ⟨hk, -, hp, hch⟩ := hfirst
      refine ⟨⟨⟨first, second, ?_, horder⟩, (hbuiltOthers _ htw).trans hwindow.title,
        (hbuiltOthers _ hcontentw).trans hwindow.content⟩, ?_, ?_⟩
      · refine hnew.trans ?_
        rw [hk, hp, hch]
        rfl
      · rw [hnewOwner title htitle (lt_of_coreOf hbuilt.fresh hwindow.title), hnewOwner w hle hlt]
      · rw [hnewOwner content hcontent (lt_of_coreOf hbuilt.fresh hwindow.content), hnewOwner w hle hlt]
    · have hwcs := (hbuiltOthers w hwc).symm.trans hw
      by_cases hwold : s.server.components.count ≤ w
      · exact absurd (hbuilt.windows w that title content hwold hwcs hkind).1 hwc
      · have hws : w ≠ s.server.screen := by
          obtain ⟨that', hthat'⟩ := hbuilt.onScreen
          exact ne_of_coreOf hwcs hthat'.core (by rw [hkind, hthat'.kind]; simp)
        have hwlt := Nat.lt_of_not_le hwold
        obtain ⟨hwindow, htitle, hcontent⟩ := h.windows w that title content
          ((hold w hwlt hws).symm.trans hw) hkind
        have htlt := lt_of_coreOf h.fresh hwindow.title
        have hclt := lt_of_coreOf h.fresh hwindow.content
        refine ⟨windowAt_congr hwindow ?_, ?_, ?_⟩
        · rintro b (rfl | rfl | rfl)
          · exact hold b hwlt hws
          · exact hold b htlt (ne_of_coreOf hwindow.title hscreen.core (by rw [hscreen.kind]; simp))
          · exact hold b hclt (ne_of_coreOf hwindow.content hscreen.core (by rw [hscreen.kind]; simp))
        · rw [holdOwner title htlt, holdOwner w hwlt, htitle]
        · rw [holdOwner content hclt, holdOwner w hwlt, hcontent]
  · have := h.nextId
    omega
  · intro id a hget
    have hget := (ComponentRegistry.get_add ..).symm.trans hget
    simp only [afterCreate, ComponentRegistry.lookup_add]
    split at hget
    next heq =>
      exact ⟨process, by rw [if_pos ⟨rfl, heq.symm⟩, hget]⟩
    next hne =>
      obtain ⟨pid, hpid⟩ := h.covered id a hget
      exact ⟨pid, by rw [if_neg fun hand => hne hand.2.symm, hpid]⟩
  · intro pid id a hlookup
    have hentry := (ComponentRegistry.lookup_add ..).symm.trans hlookup
    simp only [afterCreate, ComponentRegistry.get_add]
    split at hentry
    next heq =>
      obtain ⟨rfl, rfl⟩ := heq
      cases hentry
      exact ⟨if_pos rfl, update_self .., if_pos ⟨hle, hlt⟩, h.nextId, _, hnew, rfl⟩
    next hne =>
      obtain ⟨hget, hcreator, howner, hpos, that, hthat, hthatId⟩ := h.entries pid id a hentry
      have hidlt := h.creators id pid hcreator
      have ha := lt_of_coreOf h.fresh hthat
      have has : a ≠ s.server.screen := by
        rintro rfl
        rw [h.screenOwner] at howner
        cases howner
      exact ⟨by rw [if_neg (by omega), hget], (update_of_ne (by omega) ..).trans hcreator,
        (holdOwner a ha).trans howner, hpos, that, (hold a ha has).trans hthat, hthatId⟩
  · intro id pid hcreator
    by_cases hidn : id = s.server.registry.nextId
    · omega
    · have hcreator := (update_of_ne hidn ..).symm.trans hcreator
      have := h.creators id pid hcreator
      omega
  · intro a ha
    obtain ⟨halt, hadead⟩ := h.dead a ha
    have has : a ≠ s.server.screen := by
      rintro rfl
      cases hscreen.core.symm.trans (coreOf_eq_none hadead)
    refine ⟨show a < cs.count by omega, ?_⟩
    exact (update_of_ne (by omega) ..).trans ((hbuilt.others a halt has).trans hadead)
  · by_cases hbold : b < s.server.components.count
    · by_cases hbs : b = s.server.screen
      · obtain ⟨that', hthat'⟩ := hbuilt.onScreen
        subst hbs
        cases ((hbuiltOthers _ (by omega)).trans hthat'.core).symm.trans hb
        simp [hthat'.kind, Kind.hasFont]
      · exact h.fonts hfont b that ((hold b hbold hbs).symm.trans hb)
    · by_cases hbc : b = component
      · subst hbc
        cases hnew.symm.trans hb
        exact hfonts hfont b ⟨c.kind, c.id, c.parent, c.children⟩ hle (by rw [coreOf, hc]; rfl)
      · exact hfonts hfont b that (Nat.not_lt.1 hbold) ((hbuiltOthers b hbc).symm.trans hb)

theorem createComponent_tidy (zs : ZSort) (mode : ModeInfo) (senderTid senderPid : Int)
    {type : UiComponentType} (hid : type ≠ .unknown → s.server.registry.nextId < 2 ^ 31 - 1)
    (hfont : s.font = .deleted → type ≠ .unknown → type = .canvas) :
    ∃ s', step zs mode s (.createComponent senderTid senderPid type) = some s' ∧ s'.Tidy := by
  by_cases htype : type = .unknown
  · subst htype
    exact ⟨s, rfl, h⟩
  obtain ⟨this, hscreen⟩ := h.onScreen
  obtain ⟨cs', component, hconstruct, hbuilt⟩ := WindowServer.construct_built zs s.depth htype hscreen
    h.fresh
  obtain ⟨core, hcore⟩ := hbuilt.built
  obtain ⟨c, hc, -⟩ := exists_of_coreOf hcore
  refine ⟨s.afterCreate senderPid cs' component c, ?_,
    afterCreate_tidy h senderPid hbuilt hc (hid htype) fun hdeleted b that hb hthat => ?_⟩
  case refine_2 =>
    cases hfont hdeleted htype
    cases hconstruct
    rw [coreOf_create] at hthat
    by_cases hbc : b = s.server.components.count
    · rw [hbc, update_self, Option.some.injEq] at hthat
      simp [← hthat, Kind.hasFont]
    · rw [update_of_ne hbc, coreOf_eq_none (h.fresh b hb)] at hthat
      cases hthat
  simp only [step, WindowServer.processCommand, hconstruct, bind, Except.bind, Components.get, hc]
  rfl

theorem Tidy.unregister {r : ComponentRegistry} {pid id : Int} {a : Nat}
    (hlookup : s.server.registry.lookup pid id = some a)
    (hnext : r.nextId = s.server.registry.nextId)
    (hgets : ∀ i, r.get i = if i = id then none else s.server.registry.get i)
    (hlookups : ∀ p i, r.lookup p i =
      if p = pid ∧ i = id then none else s.server.registry.lookup p i) :
    ({ s with server := { s.server with registry := r } } : ClientRun).Tidy := by
  obtain ⟨-, hcreator, -⟩ := h.entries pid id a hlookup
  refine ⟨h.onScreen, h.screenOwner, h.fresh, h.windows, hnext ▸ h.nextId, fun i b hi => ?_,
    fun p i b hi => ?_, fun i p hi => hnext ▸ h.creators i p hi, h.dead, h.once, h.fonts⟩
  · have hi := (hgets i).symm.trans hi
    split at hi
    · cases hi
    next hne =>
      obtain ⟨p, hp⟩ := h.covered i b hi
      exact ⟨p, (hlookups p i).trans (by rw [if_neg fun hand => hne hand.2, hp])⟩
  · have hi := (hlookups p i).symm.trans hi
    split at hi
    · cases hi
    next hne =>
      obtain ⟨hget, hrest⟩ := h.entries p i b hi
      refine ⟨(hgets i).trans ?_, hrest⟩
      rw [if_neg, hget]
      rintro rfl
      rw [hrest.1, Option.some.injEq] at hcreator
      exact hne ⟨hcreator, rfl⟩

theorem removeComponent_tidy (zs : ZSort) (mode : ModeInfo) (senderTid senderPid id : Int)
    (howned : s.server.registry.get id ≠ none → s.server.registry.lookup senderTid id ≠ none) :
    ∃ s', step zs mode s (.removeComponent senderTid senderPid id) = some s' ∧ s'.Tidy := by
  cases hget : s.server.registry.get id with
  | none =>
    refine ⟨s, ?_, h⟩
    simp [step, WindowServer.processCommand,
      ComponentRegistry.removeComponent_of_not_registered senderTid hget, bind, Except.bind]
  | some a =>
    obtain ⟨a', hlookup⟩ := ne_none_iff_exists'.1 (howned (by simp [hget]))
    obtain ⟨hget', -⟩ := h.entries senderTid id a' hlookup
    cases hget.symm.trans hget'
    obtain ⟨r, hr, hnext, hgets, hlookups⟩ := ComponentRegistry.removeComponent_spec hlookup hget
    refine ⟨{ s with server := { s.server with registry := r } }, ?_, ?_⟩
    · simp [step, WindowServer.processCommand, hr, bind, Except.bind]
    · exact h.unregister hlookup hnext hgets hlookups

theorem Tidy.deleteWindow {cs : Components} {w title content : Nat} {this screen : Core} {font : Font}
    (hw : s.server.components.coreOf w = some this) (hkind : this.kind = .window title content)
    (hunregistered : ∀ pid id, s.server.registry.lookup pid id ≠ some w)
    (hcount : cs.count = s.server.components.count) (hscreen : cs.ScreenAt s.server.screen screen)
    (hobject : ∀ b, b ≠ s.server.screen →
      cs.object b = if b ∈ [w, title, content] then none else s.server.components.object b)
    (hfonts : font = .deleted → ∀ b this, cs.coreOf b = some this → ¬ this.kind.hasFont) :
    ({ s with server := { s.server with components := cs }
              font := font
              deleted := s.deleted ++ [w, title, content] } : ClientRun).Tidy := by
  obtain ⟨hwindow, -⟩ := h.windows w this title content hw hkind
  obtain ⟨old, hold⟩ := h.onScreen
  have htw : title ≠ w := ne_of_coreOf hwindow.title hw (by rw [hkind]; simp)
  have hcw : content ≠ w := ne_of_coreOf hwindow.content hw (by rw [hkind]; simp)
  have htc : title ≠ content := ne_of_coreOf hwindow.title hwindow.content (by simp)
  have hscreens : ∀ {b that}, s.server.components.coreOf b = some that → that.kind ≠ .screen →
      b ≠ s.server.screen := fun hb hkind' => ne_of_coreOf hb hold.core (by rwa [hold.kind])
  have hlive : ∀ b ∈ [w, title, content], (s.server.components.coreOf b).isSome ∧ b ≠ s.server.screen := by
    intro b hb
    simp only [mem_cons, not_mem_nil, or_false] at hb
    rcases hb with rfl | rfl | rfl
    · exact ⟨by rw [hw]; rfl, hscreens hw (by rw [hkind]; simp)⟩
    · exact ⟨by rw [hwindow.title]; rfl, hscreens hwindow.title (by simp)⟩
    · exact ⟨by rw [hwindow.content]; rfl, hscreens hwindow.content (by simp)⟩
  have hkept : ∀ b, b ≠ s.server.screen → b ∉ [w, title, content] →
      cs.coreOf b = s.server.components.coreOf b := fun b hbs hb =>
    coreOf_congr (by rw [hobject b hbs, if_neg hb])
  have hgone : ∀ b ∈ [w, title, content], cs.object b = none := fun b hb => by
    rw [hobject b (hlive b hb).2, if_pos hb]
  refine ⟨⟨screen, hscreen⟩, h.screenOwner, fun a ha => ?_, fun w' that title' content' hw' hkind' => ?_,
    h.nextId, h.covered, fun p i b hi => ?_, h.creators, fun a ha => ?_, ?_, hfonts⟩
  · have ha : cs.count ≤ a := ha
    have has : a ≠ s.server.screen := by
      have := lt_of_coreOf h.fresh hold.core
      omega
    rw [hobject a has]
    split
    · rfl
    · exact h.fresh a (hcount ▸ ha)
  · have hw'mem : w' ∉ [w, title, content] := fun hmem => by
      cases hw'.symm.trans (coreOf_eq_none (hgone w' hmem))
    have hw'screen : w' ≠ s.server.screen :=
      ne_of_coreOf hw' hscreen.core (by rw [hkind', hscreen.kind]; simp)
    obtain ⟨hwindow', howners⟩ := h.windows w' that title' content'
      ((hkept w' hw'screen hw'mem).symm.trans hw') hkind'
    have hw'w : w' ≠ w := List.ne_of_not_mem_cons hw'mem
    refine ⟨windowAt_congr hwindow' ?_, howners⟩
    rintro b (rfl | rfl | rfl)
    · exact hkept b hw'screen hw'mem
    · refine hkept b (hscreens hwindow'.title (by simp)) ?_
      simp only [mem_cons, not_mem_nil, or_false, not_or]
      refine ⟨ne_of_coreOf hwindow'.title hw (by rw [hkind]; simp), ?_,
        ne_of_coreOf hwindow'.title hwindow.content (by simp)⟩
      rintro rfl
      have := hwindow'.title.symm.trans hwindow.title
      simp only [Option.some.injEq, Core.mk.injEq, true_and, and_true] at this
      exact hw'w this
    · refine hkept b (hscreens hwindow'.content (by simp)) ?_
      simp only [mem_cons, not_mem_nil, or_false, not_or]
      refine ⟨ne_of_coreOf hwindow'.content hw (by rw [hkind]; simp),
        ne_of_coreOf hwindow'.content hwindow.title (by simp), ?_⟩
      rintro rfl
      have := hwindow'.content.symm.trans hwindow.content
      simp only [Option.some.injEq, Core.mk.injEq, true_and, and_true] at this
      exact hw'w this
  · obtain ⟨hget, hcreator, howner, hpos, that, hthat, hid⟩ := h.entries p i b hi
    have hbs : b ≠ s.server.screen := by
      rintro rfl
      rw [h.screenOwner] at howner
      cases howner
    have hmem : b ∉ [w, title, content] := by
      simp only [mem_cons, not_mem_nil, or_false, not_or]
      refine ⟨?_, ?_, ?_⟩
      · rintro rfl
        exact hunregistered p i hi
      · rintro rfl
        cases hwindow.title.symm.trans hthat
        rw [← hid] at hpos
        exact absurd hpos (by simp)
      · rintro rfl
        cases hwindow.content.symm.trans hthat
        rw [← hid] at hpos
        exact absurd hpos (by simp)
    exact ⟨hget, hcreator, howner, hpos, that, (hkept b hbs hmem).trans hthat, hid⟩
  · show a < cs.count ∧ cs.object a = none
    rcases mem_append.1 ha with hdead | hnew
    · obtain ⟨halt, hnone⟩ := h.dead a hdead
      have has : a ≠ s.server.screen := by
        rintro rfl
        cases hold.core.symm.trans (coreOf_eq_none hnone)
      refine ⟨hcount ▸ halt, ?_⟩
      rw [hobject a has, hnone, ite_self]
    · obtain ⟨that, hthat⟩ := Option.isSome_iff_exists.1 (hlive a hnew).1
      exact ⟨hcount ▸ lt_of_coreOf h.fresh hthat, hgone a hnew⟩
  · refine List.nodup_append.2 ⟨h.once, by simp [htw.symm, hcw.symm, htc], fun a ha b hb hab => ?_⟩
    subst hab
    have := (hlive a hb).1
    rw [coreOf_eq_none (h.dead a ha).2] at this
    cases this

end

/-! ## The end of a process -/

theorem Tidy.sameRegistry (h : s.Tidy) {r : ComponentRegistry} (hnext : r.nextId = s.server.registry.nextId)
    (hgets : ∀ i, r.get i = s.server.registry.get i)
    (hlookups : ∀ p i, r.lookup p i = s.server.registry.lookup p i) :
    ({ s with server := { s.server with registry := r } } : ClientRun).Tidy := by
  refine ⟨h.onScreen, h.screenOwner, h.fresh, h.windows, hnext ▸ h.nextId, fun i b hi => ?_,
    fun p i b hi => ?_, fun i p hi => hnext ▸ h.creators i p hi, h.dead, h.once, h.fonts⟩
  · obtain ⟨p, hp⟩ := h.covered i b ((hgets i).symm.trans hi)
    exact ⟨p, (hlookups p i).trans hp⟩
  · obtain ⟨hget, hrest⟩ := h.entries p i b ((hlookups p i).symm.trans hi)
    exact ⟨(hgets i).trans hget, hrest⟩

/-- The run with what a cleanup has made of the server. -/
def cleaned (s : ClientRun) (c : Cleaning) : ClientRun :=
  { s with
    server := { s.server with components := c.components, registry := c.registry }
    font := c.font
    deleted := c.deleted }

/-- What is on the screen of other processes than `pid`. -/
def othersOnScreen (s : ClientRun) (pid : Int) : Option (List ChildComponentRef) :=
  (s.server.components.object s.server.screen).map fun screen =>
    screen.children.filter fun ref => s.owner ref.component ≠ some pid

/-- Nothing that belongs to another process than `pid` has changed. -/
structure Spares (pid : Int) (s s' : ClientRun) : Prop where
  creator : s'.creator = s.creator
  owner : s'.owner = s.owner
  screen : s'.server.screen = s.server.screen
  objects : ∀ a, s.owner a ≠ some pid → a ≠ s.server.screen →
    s'.server.components.object a = s.server.components.object a
  onScreen : s'.othersOnScreen pid = s.othersOnScreen pid
  lookups : ∀ p, p ≠ pid → ∀ id, s'.server.registry.lookup p id = s.server.registry.lookup p id
  gets : ∀ id, s.creator id ≠ some pid → s'.server.registry.get id = s.server.registry.get id

theorem Spares.refl (pid : Int) (s : ClientRun) : Spares pid s s :=
  ⟨rfl, rfl, rfl, fun _ _ _ => rfl, rfl, fun _ _ _ => rfl, fun _ _ => rfl⟩

theorem Spares.trans {pid : Int} {s'' : ClientRun} (h : Spares pid s s') (h' : Spares pid s' s'') :
    Spares pid s s'' where
  creator := h'.creator.trans h.creator
  owner := h'.owner.trans h.owner
  screen := h'.screen.trans h.screen
  objects a howner hscreen :=
    (h'.objects a (h.owner ▸ howner) (h.screen ▸ hscreen)).trans (h.objects a howner hscreen)
  onScreen := h'.onScreen.trans h.onScreen
  lookups p hp id := (h'.lookups p hp id).trans (h.lookups p hp id)
  gets id hid := (h'.gets id (h.creator ▸ hid)).trans (h.gets id hid)

theorem spares_sameRegistry {r : ComponentRegistry} (pid : Int)
    (hgets : ∀ i, r.get i = s.server.registry.get i)
    (hlookups : ∀ p i, r.lookup p i = s.server.registry.lookup p i) :
    Spares pid s { s with server := { s.server with registry := r } } :=
  ⟨rfl, rfl, rfl, fun _ _ _ => rfl, rfl, fun p _ => hlookups p, fun i _ => hgets i⟩

/-- Where there is a font to delete, a window of the process has the only one in use. -/
def LastFont (s : ClientRun) (pid : Int) : Prop :=
  s.font ≠ .null → ∀ id w this title content, s.server.registry.lookup pid id = some w →
    s.server.components.coreOf w = some this → this.kind = .window title content →
    ∀ b other, s.server.components.coreOf b = some other → other.kind.hasFont → b = title

theorem Tidy.lastFont (h : s.Tidy) (hloaded : s.font ≠ .loaded) (pid : Int) : s.LastFont pid := by
  intro hnull _ _ _ _ _ _ _ _ b other hb hother
  cases hfont : s.font with
  | null => exact absurd hfont hnull
  | loaded => exact absurd hfont hloaded
  | deleted => exact absurd hother (h.fonts hfont b other hb)

theorem removeWindow_spec (mode : ModeInfo) {climb : Nat} {pid id : Int} {c : Cleaning} {w : Nat}
    {component : Component} (h : (s.cleaned c).Tidy) (hclimb : 2 < climb)
    (hlookup : c.registry.lookup pid id = some w) (hw : c.components.object w = some component)
    (hwindow : component.kind.isWindow) (hlast : (s.cleaned c).LastFont pid)
    (hremoved : ∀ a ∈ c.removedComponents, c.components.object a = none) :
    ∃ c', ComponentRegistry.removeProcessComponents mode climb pid climb c w = .ok c' ∧
      (s.cleaned c').Tidy ∧ Spares pid (s.cleaned c) (s.cleaned c') ∧ (s.cleaned c').LastFont pid ∧
      (∀ a ∈ c'.removedComponents, c'.components.object a = none) ∧ w ∈ c'.removedComponents ∧
      (∀ i, c'.registry.lookup pid i = if i = id then none else c.registry.lookup pid i) ∧
      ∀ a, a ≠ s.server.screen → (c'.components.object a).isSome →
        c'.components.object a = c.components.object a := by
  obtain ⟨title, content, hkind⟩ : ∃ title content, component.kind = .window title content := by
    cases hk : component.kind <;> simp [hk, Kind.isWindow] at hwindow ⊢
  have hcore : c.components.coreOf w =
      some ⟨component.kind, component.id, component.parent, component.children⟩ := by rw [coreOf, hw]; rfl
  obtain ⟨hat, htitle, hcontent⟩ := h.windows w _ title content hcore hkind
  replace hat : c.components.WindowAt s.server.screen w title content component.id := hat
  obtain ⟨hget, hcreator, howner, hpos, that, hthat, hid⟩ := h.entries pid id w hlookup
  cases hcore.symm.trans hthat
  obtain ⟨this, hscreen⟩ := h.onScreen
  obtain ⟨r, hr, hnext, hgets, hlookups⟩ := ComponentRegistry.removeComponent_spec hlookup hget
  have hfree : c.registry.get (-1) = none := by
    by_contra hsome
    obtain ⟨a, ha⟩ := ne_none_iff_exists'.1 hsome
    obtain ⟨p, hp⟩ := h.covered (-1) a ha
    have := (h.entries p (-1) a hp).2.2.2.1
    omega
  have hlive : ∀ a, a = w ∨ a = title ∨ a = content →
      (c.components.coreOf a).isSome ∧ a ≠ s.server.screen ∧ s.owner a = some pid := by
    rintro a (rfl | rfl | rfl)
    · exact ⟨by rw [hcore]; rfl, ne_of_coreOf hcore hscreen.core (by rw [hkind, hscreen.kind]; simp), howner⟩
    · exact ⟨by rw [hat.title]; rfl, ne_of_coreOf hat.title hscreen.core (by rw [hscreen.kind]; simp),
        htitle.trans howner⟩
    · exact ⟨by rw [hat.content]; rfl, ne_of_coreOf hat.content hscreen.core (by rw [hscreen.kind]; simp),
        hcontent.trans howner⟩
  have hfresh : ∀ a, a = w ∨ a = title ∨ a = content → a ∉ c.removedComponents := fun a ha hmem => by
    have := (hlive a ha).1
    rw [coreOf_eq_none (hremoved a hmem)] at this
    cases this
  obtain ⟨depth, rfl⟩ : ∃ depth, climb = depth + 2 := ⟨climb - 2, by omega⟩
  obtain ⟨font, hfont, hloaded, hused⟩ : ∃ font, c.font.release = .ok font ∧ font ≠ .loaded ∧
      (font = .deleted → ∀ b other, c.components.coreOf b = some other → other.kind.hasFont →
        b = title) := by
    cases hcfont : c.font with
    | null => exact ⟨.null, rfl, by simp, by simp⟩
    | loaded =>
      refine ⟨.deleted, rfl, by simp, fun _ => hlast ?_ id w _ title content hlookup hcore hkind⟩
      simp [cleaned, hcfont]
    | deleted => exact absurd rfl (h.fonts hcfont title _ hat.title)
  obtain ⟨c', hc', hregistry', hfont', hdeleted', hremoved', hcount', hscreen', hobject'⟩ :=
    ComponentRegistry.removeProcessComponents_window mode depth hscreen hat hclimb
      hfree hfresh (hid ▸ hr) hfont
  have hscreenAt : c'.components.ScreenAt s.server.screen { this with
      children := this.children.filter fun ref => ref.component ≠ w } :=
    ⟨hscreen', hscreen.kind, hscreen.parent, fun ref href =>
      hscreen.default ref (List.mem_of_mem_filter href)⟩
  have hgone : ∀ a, a = w ∨ a = title ∨ a = content → c'.components.object a = none := fun a ha => by
    rw [hobject' a (hlive a ha).2.1, if_pos (by simpa using ha)]
  have htidy' : (s.cleaned c').Tidy := by
    have hunregistered : ∀ p i, r.lookup p i ≠ some w := by
      intro p i hi
      have hi := (hlookups p i).symm.trans hi
      split at hi
      · cases hi
      next hne =>
        obtain ⟨-, -, howner', -, that', hthat', hid'⟩ := h.entries p i w hi
        rw [howner, Option.some.injEq] at howner'
        cases hcore.symm.trans hthat'
        exact hne ⟨howner'.symm, hid'.symm.trans hid⟩
    have hfonts : font = .deleted → ∀ b this, c'.components.coreOf b = some this → ¬ this.kind.hasFont := by
      intro hdeleted b that hb hthat
      by_cases hbs : b = s.server.screen
      · rw [hbs, hscreenAt.core, Option.some.injEq] at hb
        simp [← hb, hscreen.kind, Kind.hasFont] at hthat
      · have hobject := hobject' b hbs
        split at hobject
        · rw [coreOf_eq_none hobject] at hb
          cases hb
        next hmem =>
          rw [hused hdeleted b that ((coreOf_congr hobject).symm.trans hb) hthat] at hmem
          simp at hmem
    have htidy := (h.unregister hlookup hnext hgets hlookups).deleteWindow hcore hkind hunregistered hcount'
      hscreenAt hobject' hfonts
    rwa [show s.cleaned c' = _ by rw [cleaned, hregistry', hfont', hdeleted']]
  refine ⟨c', hc', htidy', ⟨rfl, rfl, rfl, fun a hother has => ?_, ?_, fun p hp i => ?_, fun i hi => ?_⟩,
    htidy'.lastFont (by simp [cleaned, hfont', hloaded]) pid, fun a ha => ?_, (hremoved' w).2 (by simp),
    fun i => ?_, fun a has hsome => ?_⟩
  · have hmem : a ∉ [w, title, content] := fun hmem =>
      hother (hlive a (by simpa using hmem)).2.2
    exact (hobject' a has).trans (if_neg hmem)
  · obtain ⟨d, hd, -, -, -, hchildren⟩ := exists_of_coreOf hscreen.core
    obtain ⟨d', hd', -, -, -, hchildren'⟩ := exists_of_coreOf hscreen'
    show (c'.components.object s.server.screen).map _ = (c.components.object s.server.screen).map _
    replace hd : c.components.object s.server.screen = some d := hd
    replace hd' : c'.components.object s.server.screen = some d' := hd'
    rw [hd, hd', Option.map_some, Option.map_some, hchildren, hchildren', List.filter_filter]
    refine congrArg some (List.filter_congr fun ref _ => ?_)
    have hother : s.owner ref.component ≠ some pid → ref.component ≠ w := by
      rintro hother rfl
      exact hother howner
    by_cases hpid : s.owner ref.component = some pid
    · simp [cleaned, hpid]
    · simp [cleaned, hpid, hother hpid]
  · show c'.registry.lookup p i = _
    rw [hregistry', hlookups, if_neg fun hand => hp hand.1]
    rfl
  · show c'.registry.get i = _
    rw [hregistry', hgets, if_neg]
    · rfl
    · rintro rfl
      exact hi hcreator
  · rcases (hremoved' a).1 ha with hold | hnew
    · have has : a ≠ s.server.screen := by
        rintro rfl
        cases hscreen.core.symm.trans (coreOf_eq_none (hremoved _ hold))
      rw [hobject' a has, hremoved a hold, ite_self]
    · exact hgone a hnew
  · rw [hregistry', hlookups]
    simp
  · rw [hobject' a has, if_neg]
    intro hmem
    rw [hgone a (by simpa using hmem)] at hsome
    cases hsome

theorem mem_foldl_filter {a : Nat} (removed list : List Nat) :
    a ∈ removed.foldl (fun list removed => list.filter (· ≠ removed)) list ↔ a ∈ list ∧ a ∉ removed := by
  induction removed generalizing list with
  | nil => simp
  | cons b removed ih =>
    rw [List.foldl_cons, ih]
    simp only [List.mem_filter, decide_eq_true_eq, mem_cons, not_or]
    tauto

theorem length_foldl_filter_le (removed list : List Nat) :
    (removed.foldl (fun list removed => list.filter (· ≠ removed)) list).length ≤ list.length := by
  induction removed generalizing list with
  | nil => exact Nat.le_refl _
  | cons b removed ih => exact (ih _).trans (List.length_filter_le ..)

/-- The components that the process has in its map are windows. -/
def OnlyWindows (s : ClientRun) (pid : Int) : Prop :=
  ∀ id a, s.server.registry.lookup pid id = some a →
    ∃ component, s.server.components.object a = some component ∧ component.kind.isWindow

theorem lookup_eq_none_of_nil {r : ComponentRegistry} {pid : Int}
    (hlist : ∀ a, a ∈ ([] : List Nat) ↔ ∃ id, r.lookup pid id = some a) (id : Int) :
    r.lookup pid id = none := by
  by_contra hsome
  obtain ⟨a, ha⟩ := ne_none_iff_exists'.1 hsome
  cases (hlist a).2 ⟨id, ha⟩

theorem cleanupLoop_spec (mode : ModeInfo) {climb : Nat} {pid : Int} (rounds : Nat) {c : Cleaning}
    {list : List Nat} (h : (s.cleaned c).Tidy) (hclimb : 2 < climb)
    (hwindows : (s.cleaned c).OnlyWindows pid) (hlast : (s.cleaned c).LastFont pid)
    (hlist : ∀ a, a ∈ list ↔ ∃ id, c.registry.lookup pid id = some a) (hrounds : list.length ≤ rounds)
    (hremoved : ∀ a ∈ c.removedComponents, c.components.object a = none) :
    ∃ c', ComponentRegistry.cleanupLoop mode climb pid rounds c list = .ok c' ∧
      (s.cleaned c').Tidy ∧ Spares pid (s.cleaned c) (s.cleaned c') ∧
      ∀ id, c'.registry.lookup pid id = none := by
  induction rounds generalizing c list with
  | zero =>
    cases List.length_eq_zero_iff.1 (Nat.le_zero.1 hrounds)
    exact ⟨c, rfl, h, Spares.refl pid _, lookup_eq_none_of_nil hlist⟩
  | succ rounds ih =>
    cases hend : list.getLast? with
    | none =>
      cases List.getLast?_eq_none_iff.1 hend
      exact ⟨c, rfl, h, Spares.refl pid _, lookup_eq_none_of_nil hlist⟩
    | some w =>
      obtain ⟨front, rfl⟩ := List.getLast?_eq_some_iff.1 hend
      obtain ⟨id, hlookup⟩ := (hlist w).1 (by simp)
      obtain ⟨component, hw, hwindow⟩ := hwindows id w hlookup
      replace hw : c.components.object w = some component := hw
      obtain ⟨c1, hc1, htidy1, hspares1, hlast1, hremoved1, hmem1, hlookup1, hkept1⟩ :=
        removeWindow_spec mode h hclimb hlookup hw hwindow hlast hremoved
      have hentries : ∀ i a, c1.registry.lookup pid i = some a →
          c.registry.lookup pid i = some a ∧ c1.components.object a = c.components.object a ∧
            a ∉ c1.removedComponents := by
        intro i a hi
        obtain ⟨-, -, howner, -, that, hthat, -⟩ := htidy1.entries pid i a hi
        obtain ⟨d, hd, -⟩ := exists_of_coreOf hthat
        have has : a ≠ s.server.screen := by
          rintro rfl
          cases h.screenOwner.symm.trans howner
        refine ⟨?_, hkept1 a has (Option.isSome_iff_exists.2 ⟨d, hd⟩), fun hmem => ?_⟩
        · rw [hlookup1] at hi
          split at hi
          · cases hi
          · exact hi
        · cases hd.symm.trans (hremoved1 a hmem)
      have hwindows1 : (s.cleaned c1).OnlyWindows pid := fun i a hi => by
        obtain ⟨hold, hobject, -⟩ := hentries i a hi
        obtain ⟨d, hd, hdwindow⟩ := hwindows i a hold
        exact ⟨d, hobject.trans hd, hdwindow⟩
      -- what is left of the list is what is left of the map
      have hlist1 : ∀ a, a ∈ c1.removedComponents.foldl
          (fun list removed => list.filter (· ≠ removed)) front ↔
          ∃ i, c1.registry.lookup pid i = some a := by
        intro a
        rw [mem_foldl_filter]
        constructor
        · rintro ⟨hmem, hkept⟩
          obtain ⟨i, hi⟩ := (hlist a).1 (List.mem_append_left _ hmem)
          refine ⟨i, ?_⟩
          rw [hlookup1, if_neg, hi]
          rintro rfl
          cases hlookup.symm.trans hi
          exact hkept hmem1
        · rintro ⟨i, hi⟩
          obtain ⟨hold, -, hkept⟩ := hentries i a hi
          refine ⟨?_, hkept⟩
          rcases mem_append.1 ((hlist a).2 ⟨i, hold⟩) with hfront | hback
          · exact hfront
          · rw [mem_singleton.1 hback] at hkept
            exact absurd hmem1 hkept
      obtain ⟨c', hc', htidy', hspares', hnone'⟩ := ih htidy1 hwindows1 hlast1 hlist1
        ((length_foldl_filter_le ..).trans (by simpa using hrounds)) hremoved1
      refine ⟨c', ?_, htidy', hspares1.trans hspares', hnone'⟩
      rw [ComponentRegistry.cleanupLoop, hend]
      simp only [List.dropLast_concat, bind, Except.bind, Components.get, hw, if_pos hwindow, hc1]
      exact hc'

theorem mem_componentsList {components : Std.TreeMap Int Nat} {a : Nat} :
    a ∈ ComponentRegistry.componentsList components ↔ ∃ id : Int, components[id]? = some a := by
  have hfold : ∀ l init : List Nat, a ∈ l.foldl
      (fun list component => if component ∈ list then list else list ++ [component]) init ↔
      a ∈ init ∨ a ∈ l := by
    intro l
    induction l with
    | nil => simp
    | cons b l ih =>
      intro init
      rw [List.foldl_cons, ih, mem_cons]
      split
      next hb =>
        constructor
        · rintro (hinit | hl)
          · exact .inl hinit
          · exact .inr (.inr hl)
        · rintro (hinit | rfl | hl)
          · exact .inl hinit
          · exact .inl hb
          · exact .inr hl
      next => rw [mem_append, mem_singleton, or_assoc]
  rw [ComponentRegistry.componentsList, hfold]
  simp

/-- What the end of a process is to leave behind. -/
structure CleanedUp (pid : Int) (s s' : ClientRun) : Prop where
  gone : ∀ id, s.creator id = some pid → s'.server.registry.get id = none
  spares : Spares pid s s'

theorem processExited_tidy (h : s.Tidy) (zs : ZSort) (mode : ModeInfo) {pid : Int}
    (hwindows : s.OnlyWindows pid) (hlast : s.LastFont pid) :
    ∃ s', step zs mode s (.processExited pid) = some s' ∧ s'.Tidy ∧ CleanedUp pid s s' := by
  obtain ⟨this, hscreen⟩ := h.onScreen
  have hclimb : 2 < s.depth := by
    have := lt_of_coreOf h.fresh hscreen.core
    simp only [depth]
    omega
  have hmap : ∀ i, ((s.server.registry.componentsByProcess[pid]?).getD ∅)[i]? =
      s.server.registry.lookup pid i := by
    intro i
    rw [ComponentRegistry.lookup]
    cases s.server.registry.componentsByProcess[pid]? with
    | none => simp
    | some components => rfl
  generalize hcomponents : (s.server.registry.componentsByProcess[pid]?).getD ∅ = components at hmap
  -- the map is made if it is not there, which does not change what it has
  obtain ⟨r, hr⟩ : ∃ r : ComponentRegistry, r = { s.server.registry with
    componentsByProcess := s.server.registry.componentsByProcess.insert pid components } := ⟨_, rfl⟩
  have hnext : r.nextId = s.server.registry.nextId := by rw [hr]
  have hgets : ∀ i, r.get i = s.server.registry.get i := fun i => by rw [hr]; rfl
  have hlookups : ∀ p i, r.lookup p i = s.server.registry.lookup p i := by
    intro p i
    rw [hr]
    by_cases hp : p = pid
    · subst hp
      simp [ComponentRegistry.lookup, hmap]
    · simp [ComponentRegistry.lookup, Std.TreeMap.getElem?_insert, Ne.symm hp]
  have hmade := h.sameRegistry hnext hgets hlookups
  obtain ⟨c', hc', htidy', hspares', hnone'⟩ := cleanupLoop_spec mode
    (ComponentRegistry.componentsList components).length
    (c := ⟨s.server.components, r, [], s.font, s.deleted⟩) hmade hclimb
    (fun i a hi => hwindows i a ((hlookups pid i).symm.trans hi))
    (fun hnull i a this title content hi =>
      hlast hnull i a this title content ((hlookups pid i).symm.trans hi))
    (fun a => by simp [mem_componentsList, hlookups, hmap]) (Nat.le_refl _) (by simp)
  -- the map that goes away is empty
  obtain ⟨r', hr'⟩ : ∃ r' : ComponentRegistry, r' = { c'.registry with
    componentsByProcess := c'.registry.componentsByProcess.erase pid } := ⟨_, rfl⟩
  have hnext' : r'.nextId = c'.registry.nextId := by rw [hr']
  have hgets' : ∀ i, r'.get i = c'.registry.get i := fun i => by rw [hr']; rfl
  have hlookups' : ∀ p i, r'.lookup p i = c'.registry.lookup p i := by
    intro p i
    rw [hr']
    by_cases hp : p = pid
    · subst hp
      simp only [ComponentRegistry.lookup, Std.TreeMap.getElem?_erase_self, Option.bind_none]
      exact (hnone' i).symm
    · simp [ComponentRegistry.lookup, Std.TreeMap.getElem?_erase, Ne.symm hp]
  refine ⟨_, ?_, htidy'.sameRegistry hnext' hgets' hlookups', fun id hid => ?_,
    ((spares_sameRegistry pid hgets hlookups).trans hspares').trans
      (spares_sameRegistry pid hgets' hlookups')⟩
  · simp only [step, ComponentRegistry.cleanupProcess, hcomponents, ← hr, bind, Except.bind, hc', ← hr']
    rfl
  · by_contra hsome
    obtain ⟨a, ha⟩ := ne_none_iff_exists'.1 hsome
    obtain ⟨p, hp⟩ := htidy'.covered id a ((hgets' id).symm.trans ha)
    have hcreator := (htidy'.entries p id a hp).2.1
    cases hid.symm.trans hcreator
    cases (hnone' id).symm.trans hp

/-- An id is still free and no new component asks for a font that is deleted; an id is removed by its own
process; and a process that exits has nothing but windows, and shares no font with anyone. -/
def Minds (s : ClientRun) : ClientEvent → Prop
  | .createComponent _ _ type => type ≠ .unknown →
    s.server.registry.nextId < 2 ^ 31 - 1 ∧ (s.font = .deleted → type = .canvas)
  | .removeComponent senderTid _ id =>
    s.server.registry.get id ≠ none → s.server.registry.lookup senderTid id ≠ none
  | .processExited pid => s.OnlyWindows pid ∧ s.LastFont pid

/-- What the registry is to be like. -/
structure Orderly (s : ClientRun) : Prop where
  union : ∀ id a, s.server.registry.get id = some a ↔ ∃ pid, s.server.registry.lookup pid id = some a
  disjoint : ∀ pid pid' id, s.server.registry.lookup pid id ≠ none →
    s.server.registry.lookup pid' id ≠ none → pid = pid'
  live : ∀ id a, s.server.registry.get id = some a → (s.server.components.object a).isSome
  once : s.deleted.Nodup
  fonts : s.font = .deleted → ∀ a component, s.server.components.object a = some component →
    ¬ component.kind.hasFont

theorem Tidy.orderly (h : s.Tidy) : s.Orderly where
  union id a := ⟨h.covered id a, fun ⟨pid, hpid⟩ => (h.entries pid id a hpid).1⟩
  disjoint pid pid' id hpid hpid' := by
    obtain ⟨a, ha⟩ := ne_none_iff_exists'.1 hpid
    obtain ⟨b, hb⟩ := ne_none_iff_exists'.1 hpid'
    have hcreator := (h.entries pid id a ha).2.1
    rw [(h.entries pid' id b hb).2.1] at hcreator
    exact (Option.some.inj hcreator).symm
  live id a hget := by
    obtain ⟨pid, hpid⟩ := h.covered id a hget
    obtain ⟨-, -, -, -, this, hthis, -⟩ := h.entries pid id a hpid
    obtain ⟨c, hc, -⟩ := exists_of_coreOf hthis
    rw [hc]
    rfl
  once := h.once
  fonts hfont a component ha := h.fonts hfont a _ (by rw [coreOf, ha]; rfl)

theorem event_tidy (h : s.Tidy) (zs : ZSort) (mode : ModeInfo) {e : ClientEvent} (hminds : s.Minds e) :
    ∃ s', step zs mode s e = some s' ∧ s'.Tidy ∧
      ∀ pid, e = .processExited pid → CleanedUp pid s s' := by
  cases e with
  | createComponent senderTid senderPid type =>
    obtain ⟨s', hs', htidy⟩ := createComponent_tidy h zs mode senderTid senderPid
      (fun htype => (hminds htype).1) fun hfont htype => (hminds htype).2 hfont
    exact ⟨s', hs', htidy, nofun⟩
  | removeComponent senderTid senderPid id =>
    obtain ⟨s', hs', htidy⟩ := removeComponent_tidy h zs mode senderTid senderPid id hminds
    exact ⟨s', hs', htidy, nofun⟩
  | processExited pid =>
    obtain ⟨s', hs', htidy, hcleaned⟩ := processExited_tidy h zs mode hminds.1 hminds.2
    exact ⟨s', hs', htidy, fun p he => by
      cases he
      exact hcleaned⟩

theorem reachable_tidy (hs : (system zs mode).Reachable Minds s) : s.Tidy :=
  hs.invariant
    (fun s hinit => by
      obtain ⟨font, rfl⟩ := hinit
      exact launch_tidy mode font)
    fun s e s' h hminds hstep => by
      obtain ⟨s'', hs'', htidy, -⟩ := event_tidy h zs mode hminds
      cases hs''.symm.trans hstep
      exact htidy

/-- In every run whose events mind this, the registry is what the processes' maps have, no event follows
a pointer to a component or a font that is gone, and the end of a process takes its ids away and leaves
everything else. -/
theorem clients_orderly (zs : ZSort) (mode : ModeInfo) {s : ClientRun}
    (hs : (system zs mode).Reachable Minds s) :
    s.Orderly ∧ ∀ e, s.Minds e → ∃ s', step zs mode s e = some s' ∧ s'.Orderly ∧
      ∀ pid, e = .processExited pid → CleanedUp pid s s' := by
  have htidy := reachable_tidy hs
  refine ⟨htidy.orderly, fun e hminds => ?_⟩
  obtain ⟨s', hs', htidy', hcleaned⟩ := event_tidy htidy zs mode hminds
  exact ⟨s', hs', htidy'.orderly, hcleaned⟩

theorem lookup_eq_some {r : ComponentRegistry} {pid id : Int} {a : Nat}
    {maps : List (Int × List (Int × Nat))}
    (hmaps : r.componentsByProcess.toList.map (fun entry => (entry.1, entry.2.toList)) = maps)
    (h : r.lookup pid id = some a) : ∃ components, (pid, components) ∈ maps ∧ (id, a) ∈ components := by
  obtain ⟨components, hcomponents, hid⟩ := bind_eq_some_iff.1 h
  refine ⟨components.toList, ?_, Std.TreeMap.mem_toList_iff_getElem?_eq_some.2 hid⟩
  rw [← hmaps]
  exact List.mem_map.2 ⟨(pid, components), Std.TreeMap.mem_toList_iff_getElem?_eq_some.2 hcomponents, rfl⟩

set_option synthInstance.maxSize 512 in
/-- Process 8 has a canvas and process 9 a window when process 9 exits. -/
theorem clients_orderly_window : ∃ s s' : ClientRun,
    step .insertion .xga s (.processExited 9) = some s' ∧ s.font = .loaded ∧
      s.server.registry.get 1 = some 2 ∧ s.server.registry.get 2 = some 5 ∧
      s'.server.registry.get 1 = some 2 ∧ s'.server.registry.get 2 = none ∧ s'.Orderly := by
  obtain ⟨s1, hs1, ⟨hnext, hfont1⟩, s, hs, hmaps, hfont, ⟨hget1, hget2⟩, hcreators, hfonts,
      component, hcomponent, hwindow⟩ :
      ∃ s1 ∈ step .insertion .xga (launch .xga .loaded) (.createComponent 11 8 .canvas),
        (s1.server.registry.nextId = 2 ∧ s1.font = .loaded) ∧
        ∃ s ∈ step .insertion .xga s1 (.createComponent 10 9 .window),
          (s.server.registry.componentsByProcess.toList.map fun entry => (entry.1, entry.2.toList)) =
            [(8, [(1, 2)]), (9, [(2, 5)])] ∧ s.font = .loaded ∧
          (s.server.registry.get 1 = some 2 ∧ s.server.registry.get 2 = some 5) ∧
          [s.creator 1, s.creator 2] = [some 8, some 9] ∧
          (∀ b ∈ List.range s.server.components.count,
            (s.server.components.object b).any (fun c => c.kind.hasFont) = true → b = 3) ∧
          ∃ component ∈ s.server.components.object 5, component.kind = .window 3 4 := by
    with_unfolding_all decide
  simp only [List.cons.injEq, and_true] at hcreators
  have hcanvas : (launch .xga .loaded).Minds (.createComponent 11 8 .canvas) := fun _ =>
    ⟨by decide, by simp [launch]⟩
  have hwindow9 : s1.Minds (.createComponent 10 9 .window) := fun _ =>
    ⟨by rw [hnext]; decide, by simp [hfont1]⟩
  have hreach : (system .insertion .xga).Reachable Minds s :=
    .step (.step (.init ⟨.loaded, rfl⟩) hcanvas hs1) hwindow9 hs
  have hmap : ∀ id a, s.server.registry.lookup 9 id = some a → id = 2 ∧ a = 5 := by
    intro id a hlookup
    obtain ⟨components, hmem, hentry⟩ := lookup_eq_some hmaps hlookup
    simp only [mem_cons, Prod.mk.injEq, not_mem_nil, or_false] at hmem
    obtain ⟨h, -⟩ | ⟨-, rfl⟩ := hmem
    · cases h
    · simpa using hentry
  have hminds : s.Minds (.processExited 9) := by
    refine ⟨fun id a hlookup => ?_, fun _ id w this title content hlookup hw hkind b other hb hother => ?_⟩
    · obtain ⟨rfl, rfl⟩ := hmap id a hlookup
      exact ⟨component, hcomponent, by rw [hwindow]; rfl⟩
    · obtain ⟨rfl, rfl⟩ := hmap id w hlookup
      rw [coreOf, hcomponent, Option.map_some, Option.some.injEq] at hw
      rw [← hw, hwindow, Kind.window.injEq] at hkind
      obtain ⟨c, hc, hckind, -⟩ := exists_of_coreOf hb
      rw [← hkind.1]
      have hlt := lt_of_coreOf (reachable_tidy hreach).fresh hb
      exact hfonts b (List.mem_range.2 hlt) (by simp [hc, hckind, hother])
  obtain ⟨-, hevents⟩ := clients_orderly .insertion .xga hreach
  obtain ⟨s', hs', horderly, hcleaned⟩ := hevents _ hminds
  refine ⟨s, s', hs', hfont, hget1, hget2, ?_, (hcleaned 9 rfl).gone 2 hcreators.2, horderly⟩
  rw [(hcleaned 9 rfl).spares.gets 1 (by simp [hcreators.1]), hget1]

/-- The id of a label outlives the process that created it; an id that a thread removes stays in the map
of its process; and the end of a process deletes the font that the windows of others are drawn with, which
the next one deletes again. -/
theorem label_outlives_its_process :
    (∃ s : ClientRun, (system .insertion .xga).Reachable (fun _ _ => True) s ∧
      (∃ s0, step .insertion .xga s0 (.processExited 9) = some s) ∧
      s.creator 1 = some 9 ∧ s.server.registry.get 1 = some 2 ∧ ¬ s.Orderly) ∧
    (∃ s : ClientRun, (system .insertion .xga).Reachable (fun _ _ => True) s ∧
      s.server.registry.get 1 = none ∧ s.server.registry.lookup 9 1 = some 4) ∧
    ∃ s : ClientRun, (system .insertion .xga).Reachable (fun _ _ => True) s ∧
      (∃ s0, step .insertion .xga s0 (.processExited 9) = some s) ∧
      s.server.registry.get 2 = some 7 ∧ s.owner 5 = some 8 ∧ ¬ s.Orderly ∧
      step .insertion .xga s (.processExited 8) = none := by
  obtain ⟨s0, hs0, s, hs, hmaps, hget, hcreator⟩ :
      ∃ s0 ∈ (system .insertion .xga).run (launch .xga .loaded) [.createComponent 10 9 .label],
        ∃ s ∈ step .insertion .xga s0 (.processExited 9),
          (s.server.registry.componentsByProcess.toList.map fun entry => (entry.1, entry.2.toList)) = [] ∧
          s.server.registry.get 1 = some 2 ∧ s.creator 1 = some 9 := by
    decide
  obtain ⟨t, ht, htlook⟩ : ∃ t ∈ (system .insertion .xga).run (launch .xga .loaded)
      [.createComponent 10 9 .window, .removeComponent 10 9 1],
      t.server.registry.get 1 = none ∧ t.server.registry.lookup 9 1 = some 4 := by
    decide
  obtain ⟨u0, hu0, u, hu, huget, huowner, hufont, hukind, huexit⟩ :
      ∃ u0 ∈ (system .insertion .xga).run (launch .xga .loaded)
          [.createComponent 10 9 .window, .createComponent 11 8 .window],
        ∃ u ∈ step .insertion .xga u0 (.processExited 9),
          u.server.registry.get 2 = some 7 ∧ u.owner 5 = some 8 ∧ u.font = .deleted ∧
          (u.server.components.object 5).map (fun c => c.kind) = some .label ∧
          (step .insertion .xga u (.processExited 8)).isNone := by
    with_unfolding_all decide
  have hreach := System.reachable_of_run (M := system .insertion .xga) ⟨.loaded, rfl⟩ hs0
  have hureach := System.reachable_of_run (M := system .insertion .xga) ⟨.loaded, rfl⟩ hu0
  refine ⟨⟨s, hreach.step (a := .processExited 9) trivial hs, ⟨s0, hs⟩, hcreator, hget, fun horderly => ?_⟩,
    ⟨t, System.reachable_of_run ⟨_, rfl⟩ ht, htlook⟩, u, hureach.step (a := .processExited 9) trivial hu,
    ⟨u0, hu⟩, huget, huowner, fun horderly => ?_, Option.isNone_iff_eq_none.1 huexit⟩
  · obtain ⟨pid, hpid⟩ := (horderly.union 1 2).1 hget
    obtain ⟨components, hmem, -⟩ := lookup_eq_some hmaps hpid
    cases hmem
  · obtain ⟨label, hlabel, hkind⟩ := map_eq_some_iff.mp hukind
    exact horderly.fonts hufont 5 label hlabel (by rw [hkind]; rfl)

end ClientRun

end MeetixOS.ZipNET
