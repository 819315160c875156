import MeetixOS.Userspace.ZipNET.ComponentRequests

/-! # The cleanup behind a client that exits

`ComponentRegistry::cleanup_process` and `remove_process_components`. The list of the components of the
process is taken from its map; then each window in it is removed with the tree below it, and what was
removed on the way is taken off the list. `remove_process_components` iterates over the vector of the
children while these take themselves out of it, so the model keeps the vector's buffer. -/

open Function (update update_of_ne update_self)

namespace MeetixOS.ZipNET

/-! ## Deleting components -/

def Kind.isWindow : Kind → Bool
  | .window _ _ => true
  | _ => false

/-- The components that are members of the object, and deleted with it. -/
def Kind.embedded : Kind → List Nat
  | .window title content => [title, content]
  | .geoshape content title => [content, title]
  | .button title => [title]
  | .screen | .background | .label | .textField | .canvas | .panel => []

/-- The labels and text fields, which delete their font with themselves. -/
def Kind.hasFont : Kind → Bool
  | .label | .textField => true
  | _ => false

/-- The `Font` that `FontManager` hands out as "default", one object for everyone who asks: there is none,
it is loaded, or someone has deleted it. -/
inductive Font
  | null | loaded | deleted
  deriving DecidableEq

/-- `delete font`. -/
def Font.release : Font → Except Stop Font
  | .null => .ok .null
  | .loaded => .ok .deleted
  | .deleted => .error .deleted

/-- `delete`. The numbers are those of the objects that are destroyed. -/
def Components.delete (cs : Components) (font : Font) (a : Nat) :
    Except Stop (Components × Font × List Nat) := do
  let this ← cs.get a
  let font ← (a :: this.kind.embedded).foldlM (fun font b =>
    if (cs.object b).any fun c => c.kind.hasFont then font.release else .ok font) font
  .ok ({ cs with object := fun b => if b ∈ a :: this.kind.embedded then none else cs.object b }, font,
    a :: this.kind.embedded)

/-- The components, the registry and the font while they are cleaned up; `deleted` are the objects that
have been destroyed since the server was started. -/
structure Cleaning where
  components : Components
  registry : ComponentRegistry
  removedComponents : List Nat
  font : Font
  deleted : List Nat

namespace ComponentRegistry

/-- The loop over the children of `a`, with `rest` places of the buffer left. -/
def removeChildren (remove : Cleaning → Nat → Except Stop Cleaning) (a : Nat) :
    (rest index : Nat) → (buffer : List ChildComponentRef) → Cleaning → Except Stop Cleaning
  | 0, _, _, c => .ok c
  | rest + 1, index, buffer, c =>
    match buffer[index]? with
    | none => .error .deleted
    | some childRef => do
        let c ← remove c childRef.component
        let this ← c.components.get a
        removeChildren remove a rest (index + 1)
          (this.children ++ buffer.drop this.children.length) c

/-- `can_be_deleted`: whether the parent refers to the component as a default child, if it does at all. -/
def canBeDeleted (parent : Component) (component : Nat) : Bool :=
  match parent.children.find? fun ref => ref.component = component with
  | some childReference => decide (childReference.refType = .default)
  | none => true

/-- `remove_process_components`, at most `depth` deep; `climb` bounds the functions that climb. -/
def removeProcessComponents (mode : ModeInfo) (climb : Nat) (pid : Int) :
    (depth : Nat) → Cleaning → (component : Nat) → Except Stop Cleaning
  | 0, c, _ => .error (.deep c.components)
  | depth + 1, c, component => do
      -- never remove twice
      if component ∈ c.removedComponents then .ok c
      else
        let cs ← c.components.setVisible mode climb component false
        let c := { c with components := cs, removedComponents := c.removedComponents ++ [component] }
        let this ← c.components.get component
        let c ← removeChildren (removeProcessComponents mode climb pid depth) component
          this.children.length 0 this.children c
        let this ← c.components.get component
        let registry ← c.registry.removeComponent pid this.id
        let c := { c with registry := registry }
        match this.parent with
        | none => do
            let (cs, font, gone) ← c.components.delete c.font component
            .ok { c with components := cs, font := font, deleted := c.deleted ++ gone }
        | some parent => do
            let parentComponent ← c.components.get parent
            let cs ← c.components.removeChild climb parent component
            if canBeDeleted parentComponent component then do
              let (cs, font, gone) ← cs.delete c.font component
              .ok { c with components := cs, font := font, deleted := c.deleted ++ gone }
            else .ok { c with components := cs }

/-- `components_list`: the components of the map, each of them once. -/
def componentsList (components : Std.TreeMap Int Nat) : List Nat :=
  (components.toList.map Prod.snd).foldl
    (fun list component => if component ∈ list then list else list ++ [component]) []

/-- The loop of `cleanup_process`; every round takes a component off the list. -/
def cleanupLoop (mode : ModeInfo) (climb : Nat) (pid : Int) :
    (rounds : Nat) → Cleaning → List Nat → Except Stop Cleaning
  | 0, c, _ => .ok c
  | rounds + 1, c, componentsList =>
    match componentsList.getLast? with
    | none => .ok c
    | some component => do
        let componentsList := componentsList.dropLast
        let this ← c.components.get component
        if this.kind.isWindow then do
          let c ← removeProcessComponents mode climb pid climb c component
          cleanupLoop mode climb pid rounds c
            (c.removedComponents.foldl (fun list removed => list.filter (· ≠ removed)) componentsList)
        else cleanupLoop mode climb pid rounds c componentsList

def cleanupProcess (mode : ModeInfo) (climb : Nat) (c : Cleaning) (pid : Int) :
    Except Stop Cleaning := do
  -- the map of the process is made if it is not there
  let components := (c.registry.componentsByProcess[pid]?).getD ∅
  let c := { c with
    registry := { c.registry with
      componentsByProcess := c.registry.componentsByProcess.insert pid components }
    removedComponents := [] }
  let list := componentsList components
  let c ← cleanupLoop mode climb pid list.length c list
  .ok { c with registry := { c.registry with
    componentsByProcess := c.registry.componentsByProcess.erase pid } }

end ComponentRegistry

/-! ## What a change leaves alone -/

/-- The fields that decide what a cleanup does. -/
structure Core where
  kind : Kind
  id : Int
  parent : Option Nat
  children : List ChildComponentRef

namespace Components

variable {cs cs' cs'' : Components} {a : Nat} {path : List Nat}

/-- The core of a component. -/
def coreOf (cs : Components) (a : Nat) : Option Core :=
  (cs.object a).map fun c => ⟨c.kind, c.id, c.parent, c.children⟩

/-- The components on the way from the first one to the one without a parent. -/
def IsPath (cs : Components) : List Nat → Prop
  | [] => False
  | [a] => ∃ c, cs.object a = some c ∧ c.parent = none
  | a :: b :: path => (∃ c, cs.object a = some c ∧ c.parent = some b) ∧ cs.IsPath (b :: path)

/-- Nothing but the other fields of the components on the path has changed. -/
structure Near (path : List Nat) (cs cs' : Components) : Prop where
  count : cs'.count = cs.count
  core : cs'.coreOf = cs.coreOf
  others : ∀ a, a ∉ path → cs'.object a = cs.object a

theorem Near.refl (path : List Nat) (cs : Components) : Near path cs cs := ⟨rfl, rfl, fun _ _ => rfl⟩

theorem Near.trans (h : Near path cs cs') (h' : Near path cs' cs'') : Near path cs cs'' :=
  ⟨h'.count.trans h.count, h'.core.trans h.core, fun a ha => (h'.others a ha).trans (h.others a ha)⟩

theorem Near.mono {path' : List Nat} (h : Near path cs cs') (hsub : ∀ a, a ∈ path → a ∈ path') :
    Near path' cs cs' :=
  ⟨h.count, h.core, fun a ha => h.others a fun hmem => ha (hsub a hmem)⟩

theorem near_put {c d : Component} (ha : cs.object a = some c)
    (hcore : (⟨d.kind, d.id, d.parent, d.children⟩ : Core) = ⟨c.kind, c.id, c.parent, c.children⟩) :
    Near [a] cs (cs.put a d) := by
  refine ⟨rfl, ?_, fun b hb => ?_⟩
  · funext b
    by_cases hb : b = a
    · subst hb
      simp [coreOf, put, ha, hcore]
    · simp [coreOf, put, update_of_ne hb]
  · exact update_of_ne (by simpa using hb) ..

theorem IsPath.congr (h : cs.IsPath path)
    (hparents : ∀ a ∈ path, (cs'.coreOf a).map Core.parent = (cs.coreOf a).map Core.parent) :
    cs'.IsPath path := by
  have hkept : ∀ {a c}, a ∈ path → cs.object a = some c →
      ∃ c', cs'.object a = some c' ∧ c'.parent = c.parent := by
    intro a c hmem ha
    have hc := hparents a hmem
    rw [coreOf, coreOf, ha, Option.map_map, Option.map_map, Option.map_some] at hc
    exact Option.map_eq_some_iff.1 hc
  induction path with
  | nil => exact h
  | cons a path ih =>
    cases path with
    | nil =>
      obtain ⟨c, ha, hp⟩ := h
      obtain ⟨c', ha', hp'⟩ := hkept (by simp) ha
      exact ⟨c', ha', hp'.trans hp⟩
    | cons b path =>
      obtain ⟨⟨c, ha, hp⟩, hrest⟩ := h
      obtain ⟨c', ha', hp'⟩ := hkept (by simp) ha
      exact ⟨⟨c', ha', hp'.trans hp⟩, ih hrest (fun d hd => hparents d (List.mem_cons_of_mem a hd))
        fun hd => hkept (List.mem_cons_of_mem a hd)⟩

theorem IsPath.of_core (h : cs.IsPath path) (hcore : cs'.coreOf = cs.coreOf) : cs'.IsPath path :=
  h.congr fun _ _ => by rw [hcore]

theorem IsPath.head (h : cs.IsPath (a :: path)) :
    ∃ c, cs.object a = some c ∧ c.parent = path.head? ∧ (path ≠ [] → cs.IsPath path) := by
  cases path with
  | nil =>
    obtain ⟨c, ha, hp⟩ := h
    exact ⟨c, ha, hp, fun hne => absurd rfl hne⟩
  | cons b path =>
    obtain ⟨⟨c, ha, hp⟩, hrest⟩ := h
    exact ⟨c, ha, hp, fun _ => hrest⟩

variable {depth comp : Nat} {this : Core}

theorem markChildrenFor_near (req : BitVec 32) (h : cs.IsPath (a :: path))
    (hdepth : path.length < depth) :
    ∃ cs', markChildrenFor req depth cs a = .ok cs' ∧ Near (a :: path) cs cs' := by
  induction path generalizing cs a depth with
  | nil =>
    obtain ⟨this, ha, hp, -⟩ := h.head
    obtain ⟨depth, rfl⟩ := Nat.exists_eq_succ_of_ne_zero (by omega : depth ≠ 0)
    refine ⟨_, ?_, near_put ha (d := { this with
      childRequirements := this.childRequirements ||| req }) rfl⟩
    simp [markChildrenFor, get, ha, bind, Except.bind, hp]
  | cons b path ih =>
    obtain ⟨this, ha, hp, hrest⟩ := h.head
    obtain ⟨depth, rfl⟩ := Nat.exists_eq_succ_of_ne_zero (by omega : depth ≠ 0)
    have hput := near_put ha (d := { this with
      childRequirements := this.childRequirements ||| req }) rfl
    obtain ⟨cs', hcs', hnear⟩ := ih ((hrest (List.cons_ne_nil b path)).of_core hput.core)
      (by simpa using hdepth)
    refine ⟨cs', ?_, (hput.mono (by simp)).trans (hnear.mono fun c hc => List.mem_cons_of_mem a hc)⟩
    rw [hp] at hcs'
    simp only [markChildrenFor, get, ha, bind, Except.bind, hp, List.head?_cons]
    exact hcs'

theorem markFor_near (req : BitVec 32) (h : cs.IsPath (a :: path)) (hdepth : path.length ≤ depth) :
    ∃ cs', markFor req depth cs a = .ok cs' ∧ Near (a :: path) cs cs' := by
  obtain ⟨this, ha, hp, hrest⟩ := h.head
  have hput := near_put ha (d := { this with requirements := this.requirements ||| req }) rfl
  cases path with
  | nil =>
    refine ⟨_, ?_, hput⟩
    simp [markFor, get, ha, bind, Except.bind, hp]
  | cons b path =>
    obtain ⟨cs', hcs', hnear⟩ := markChildrenFor_near req
      ((hrest (List.cons_ne_nil b path)).of_core hput.core) (show path.length < depth from hdepth)
    refine ⟨cs', ?_, (hput.mono (by simp)).trans (hnear.mono fun c hc => List.mem_cons_of_mem a hc)⟩
    rw [hp] at hcs'
    simp only [markFor, get, ha, bind, Except.bind, hp, List.head?_cons]
    exact hcs'

theorem markDirtyRect_near (mode : ModeInfo) (h : cs.IsPath (a :: path))
    (hdepth : path.length < depth) (rect : Rectangle) :
    ∃ cs', markDirtyRect mode depth cs a rect = .ok cs' ∧ Near (a :: path) cs cs' := by
  induction path generalizing a depth rect with
  | nil =>
    obtain ⟨this, ha, hp, -⟩ := h.head
    obtain ⟨depth, rfl⟩ := Nat.exists_eq_succ_of_ne_zero (by omega : depth ≠ 0)
    simp only [markDirtyRect, get, ha, bind, Except.bind, hp]
    split
    · exact ⟨_, rfl, rfl, rfl, fun _ _ => rfl⟩
    · exact ⟨cs, rfl, Near.refl _ cs⟩
  | cons b path ih =>
    obtain ⟨this, ha, hp, hrest⟩ := h.head
    obtain ⟨depth, rfl⟩ := Nat.exists_eq_succ_of_ne_zero (by omega : depth ≠ 0)
    simp only [markDirtyRect, get, ha, bind, Except.bind, hp, List.head?_cons]
    split
    · exact ⟨_, rfl, rfl, rfl, fun _ _ => rfl⟩
    · obtain ⟨cs', hcs', hnear⟩ := ih (hrest (List.cons_ne_nil b path)) (by simpa using hdepth)
        (.of (rect.x + this.bounds.x) (rect.y + this.bounds.y) rect.width rect.height)
      exact ⟨cs', hcs', hnear.mono fun c hc => List.mem_cons_of_mem a hc⟩

theorem setVisible_near (mode : ModeInfo) (h : cs.IsPath (a :: path))
    (hdepth : path.length < depth) (visible : Bool) :
    ∃ cs', setVisible mode depth cs a visible = .ok cs' ∧ Near (a :: path) cs cs' := by
  obtain ⟨this, ha, -⟩ := h.head
  have hput := near_put ha (d := { this with visible := visible }) rfl
  have hpath1 := h.of_core hput.core
  obtain ⟨this1, ha1, -⟩ := hpath1.head
  obtain ⟨cs2, h2, hnear2⟩ := markDirtyRect_near mode hpath1 hdepth
    (.of 0 0 this1.bounds.width this1.bounds.height)
  obtain ⟨cs3, h3, hnear3⟩ := markFor_near requirementAll (hpath1.of_core hnear2.core) (Nat.le_of_lt hdepth)
  refine ⟨cs3, ?_, ((hput.mono (by simp)).trans hnear2).trans hnear3⟩
  simp only [setVisible, markDirty, get, ha, ha1, bind, Except.bind]
  rw [h2]
  exact h3

theorem coreOf_put (cs : Components) (a : Nat) (c : Component) :
    (cs.put a c).coreOf =
      update cs.coreOf a (some ⟨c.kind, c.id, c.parent, c.children⟩) := by
  funext b
  by_cases hb : b = a
  · subst hb
    simp [coreOf, put]
  · simp [coreOf, put, update_of_ne hb]

theorem relink_spec {c d : Component} (list : List ChildComponentRef) (p : Option Nat)
    (h : cs.IsPath (a :: path)) (hdepth : path.length ≤ depth) (hc : cs.object a = some c)
    (hd : cs.object comp = some d) (hnot : comp ∉ a :: path) :
    (cs.put a { c with children := list }).object comp = some d ∧
    ∃ cs', markFor requirementLayout depth
        ((cs.put a { c with children := list }).put comp { d with parent := p }) a = .ok cs' ∧
      cs'.count = cs.count ∧ (∀ b, b ∉ comp :: a :: path → cs'.object b = cs.object b) ∧
      cs'.coreOf = update
        (update cs.coreOf a (some ⟨c.kind, c.id, c.parent, list⟩))
        comp (some ⟨d.kind, d.id, p, d.children⟩) := by
  have hne := List.ne_of_not_mem_cons hnot
  have hcore1 := coreOf_put cs a { c with children := list }
  have hd1 : (cs.put a { c with children := list }).object comp = some d :=
    (update_of_ne hne ..).trans hd
  have hcore2 := coreOf_put (cs.put a { c with children := list }) comp { d with parent := p }
  have hpath2 : ((cs.put a { c with children := list }).put comp { d with parent := p }).IsPath
      (a :: path) := by
    refine h.congr fun b hb => ?_
    rw [hcore2, update_of_ne (by rintro rfl; exact hnot hb), hcore1]
    by_cases hba : b = a
    · subst hba
      simp [coreOf, hc]
    · rw [update_of_ne hba]
  obtain ⟨cs', hmark, hnear⟩ := markFor_near requirementLayout hpath2 hdepth
  refine ⟨hd1, cs', hmark, hnear.count, fun b hb => ?_, ?_⟩
  · have hb1 := List.ne_of_not_mem_cons hb
    have hb2 := List.not_mem_of_not_mem_cons hb
    rw [hnear.others b hb2]
    exact (update_of_ne hb1 ..).trans
      (update_of_ne (List.ne_of_not_mem_cons hb2) ..)
  · rw [hnear.core, hcore2, hcore1]

theorem removeChild_spec (depth : Nat) {this child : Core} (h : cs.IsPath (a :: path))
    (hdepth : path.length ≤ depth) (ha : cs.coreOf a = some this) (hcomp : cs.coreOf comp = some child)
    (hnot : comp ∉ a :: path) :
    ∃ cs', removeChild depth cs a comp = .ok cs' ∧ cs'.count = cs.count ∧
      (∀ b, b ∉ comp :: a :: path → cs'.object b = cs.object b) ∧
      cs'.coreOf = update
        (update cs.coreOf a (some { this with
          children := this.children.filter fun ref => ref.component ≠ comp }))
        comp (some { child with parent := none }) := by
  obtain ⟨c, hc, rfl⟩ := Option.map_eq_some_iff.1 ha
  obtain ⟨d, hd, rfl⟩ := Option.map_eq_some_iff.1 hcomp
  obtain ⟨hd1, cs', hmark, hspec⟩ := relink_spec
    (c.children.filter fun ref => ref.component ≠ comp) none h hdepth hc hd hnot
  refine ⟨cs', ?_, hspec⟩
  simp only [removeChild, get, hc, bind, Except.bind, hd1]
  exact hmark

theorem addChildTo_spec (zs : ZSort) (depth : Nat) {this child : Core} (refType : ChildComponentRefType)
    (h : cs.IsPath (a :: path)) (hdepth : path.length ≤ depth) (ha : cs.coreOf a = some this)
    (hcomp : cs.coreOf comp = some child) (hparent : child.parent = none) (hnot : comp ∉ a :: path) :
    ∃ cs' list, addChildTo zs depth cs a comp refType = .ok cs' ∧
      list.Perm (this.children ++ [⟨comp, refType⟩]) ∧ cs'.count = cs.count ∧
      (∀ b, b ∉ comp :: a :: path → cs'.object b = cs.object b) ∧
      cs'.coreOf = update
        (update cs.coreOf a (some { this with children := list }))
        comp (some { child with parent := some a }) := by
  obtain ⟨c, hc, rfl⟩ := Option.map_eq_some_iff.1 ha
  obtain ⟨d, hd, rfl⟩ := Option.map_eq_some_iff.1 hcomp
  obtain ⟨hd1, cs', hmark, hspec⟩ := relink_spec
    (zs.sort cs.zIndexOf (c.children ++ [⟨comp, refType⟩])) (some a) h hdepth hc hd hnot
  refine ⟨cs', _, ?_, zs.perm .., hspec⟩
  replace hparent : d.parent = none := hparent
  simp only [addChildTo, pushChild, get, hd, bind, Except.bind, hparent, hc, hd1]
  exact hmark

theorem coreOf_create (cs : Components) (c : Component) :
    (cs.create c).coreOf =
      update cs.coreOf cs.count (some ⟨c.kind, c.id, c.parent, c.children⟩) := by
  funext b
  by_cases hb : b = cs.count
  · subst hb
    simp [coreOf, create]
  · simp [coreOf, create, update_of_ne hb]

theorem exists_of_coreOf (ha : cs.coreOf a = some this) :
    ∃ c, cs.object a = some c ∧ c.kind = this.kind ∧ c.id = this.id ∧ c.parent = this.parent ∧
      c.children = this.children := by
  obtain ⟨c, hc, rfl⟩ := Option.map_eq_some_iff.1 ha
  exact ⟨c, hc, rfl, rfl, rfl, rfl⟩

theorem IsPath.cons {b : Nat} (h : cs.IsPath (b :: path)) (ha : cs.coreOf a = some this)
    (hparent : this.parent = some b) : cs.IsPath (a :: b :: path) := by
  obtain ⟨c, hc, -, -, hp, -⟩ := exists_of_coreOf ha
  exact ⟨⟨c, hc, hp.trans hparent⟩, h⟩

end Components

/-! ## Removing a window -/

namespace ComponentRegistry

open Components

variable {mode : ModeInfo} {climb : Nat} {pid : Int}

theorem removeComponent_of_not_registered {r : ComponentRegistry} {id : Int} (pid : Int)
    (h : r.get id = none) : r.removeComponent pid id = .ok r := by
  rw [removeComponent, if_neg]
  rw [get] at h
  simp [Std.TreeMap.contains_eq_isSome_getElem?, h]

theorem removeProcessComponents_embedded (mode : ModeInfo) (pid : Int) (depth : Nat) {c : Cleaning}
    {e w : Nat} {path : List Nat}
    {leaf this : Core} (hleaf : c.components.coreOf e = some leaf) (hparent : leaf.parent = some w)
    (hchildren : leaf.children = []) (hw : c.components.coreOf w = some this)
    (hpath : c.components.IsPath (w :: path)) (hclimb : path.length + 1 < climb)
    (hnot : e ∉ w :: path) (hid : c.registry.get leaf.id = none) (hremoved : e ∉ c.removedComponents)
    (href : (this.children.find? fun ref => ref.component = e) = some ⟨e, .internal⟩) :
    ∃ cs', removeProcessComponents mode climb pid (depth + 1) c e =
        .ok { c with components := cs', removedComponents := c.removedComponents ++ [e] } ∧
      cs'.count = c.components.count ∧
      (∀ b, b ∉ e :: w :: path → cs'.object b = c.components.object b) ∧
      cs'.coreOf = update
        (update c.components.coreOf w (some { this with
          children := this.children.filter fun ref => ref.component ≠ e }))
        e (some { leaf with parent := none }) := by
  obtain ⟨cs1, hvisible, hnear1⟩ := setVisible_near mode (hpath.cons hleaf hparent) hclimb false
  have hleaf1 : cs1.coreOf e = some leaf := by rw [hnear1.core, hleaf]
  have hw1 : cs1.coreOf w = some this := by rw [hnear1.core, hw]
  obtain ⟨cs2, hremove, hcount2, hothers2, hcore2⟩ := removeChild_spec climb
    (hpath.of_core hnear1.core) (Nat.le_of_lt (Nat.lt_of_succ_lt hclimb)) hw1 hleaf1 hnot
  obtain ⟨d, hd, -, hdid, hdparent, hdchildren⟩ := exists_of_coreOf hleaf1
  obtain ⟨dw, hdw, -, -, -, hdwchildren⟩ := exists_of_coreOf hw1
  refine ⟨cs2, ?_, hcount2.trans hnear1.count, fun b hb => ?_, by rw [hcore2, hnear1.core]⟩
  · have hkept : canBeDeleted dw e = false := by
      rw [canBeDeleted, hdwchildren, href]
      rfl
    rw [removeProcessComponents, if_neg hremoved, hvisible]
    simp only [bind, Except.bind, Components.get, hd, hdchildren, hchildren, List.length_nil, removeChildren,
      hdid, removeComponent_of_not_registered pid hid, hdparent, hparent, hdw, hkept, hremove]
    rfl
  · rw [hothers2 b hb, hnear1.others b hb]

end ComponentRegistry

namespace Components

/-- The screen holds what is on it by default references. -/
structure ScreenAt (cs : Components) (screen : Nat) (this : Core) : Prop where
  core : cs.coreOf screen = some this
  kind : this.kind = .screen
  parent : this.parent = none
  default : ∀ ref ∈ this.children, ref.refType = .default

/-- A window on the screen, with its embedded components in some order and nothing below them. -/
structure WindowAt (cs : Components) (screen w title content : Nat) (id : Int) : Prop where
  window : ∃ first second, cs.coreOf w =
      some ⟨.window title content, id, some screen, [⟨first, .internal⟩, ⟨second, .internal⟩]⟩ ∧
    ((first = title ∧ second = content) ∨ (first = content ∧ second = title))
  title : cs.coreOf title = some ⟨.label, -1, some w, []⟩
  content : cs.coreOf content = some ⟨.panel, -1, some w, []⟩

theorem ne_of_coreOf {cs : Components} {a b : Nat} {this other : Core} (ha : cs.coreOf a = some this)
    (hb : cs.coreOf b = some other) (hkind : this.kind ≠ other.kind) : a ≠ b := by
  rintro rfl
  exact hkind (congrArg Core.kind (Option.mem_unique ha hb))

/-- A window that is deleted takes the font of its title along. -/
theorem coreOf_delete {cs : Components} {a title content : Nat} {this label panel : Core} {font font' : Font}
    (ha : cs.coreOf a = some this) (hkind : this.kind = .window title content)
    (htitle : cs.coreOf title = some label) (hlabel : label.kind = .label)
    (hcontent : cs.coreOf content = some panel) (hpanel : panel.kind = .panel)
    (hfont : font.release = .ok font') :
    ∃ cs', cs.delete font a = .ok (cs', font', [a, title, content]) ∧ cs'.count = cs.count ∧
      (∀ b ∈ [a, title, content], cs'.object b = none) ∧
      ∀ b, b ∉ [a, title, content] → cs'.object b = cs.object b := by
  obtain ⟨c, hc, hckind, -⟩ := exists_of_coreOf ha
  obtain ⟨t, ht, htkind, -⟩ := exists_of_coreOf htitle
  obtain ⟨p, hp, hpkind, -⟩ := exists_of_coreOf hcontent
  refine ⟨{ cs with
    object := fun b => if b ∈ [a, title, content] then none else cs.object b }, ?_, rfl,
    fun b hb => if_pos hb, fun b hb => if_neg hb⟩
  simp [delete, get, hc, ht, hp, bind, Except.bind, hckind, hkind, htkind, hlabel, hpkind, hpanel,
    Kind.embedded, Kind.hasFont, hfont, pure, Except.pure]

end Components

namespace ComponentRegistry

variable {mode : ModeInfo} {climb : Nat} {pid : Int}

open Components

theorem removeProcessComponents_window (mode : ModeInfo) (depth : Nat) {c : Cleaning}
    {screen w title content : Nat}
    {id : Int} {this : Core} {registry : ComponentRegistry} {font : Font}
    (hscreen : c.components.ScreenAt screen this)
    (hwindow : c.components.WindowAt screen w title content id) (hclimb : 2 < climb)
    (hfree : c.registry.get (-1) = none)
    (hremoved : ∀ a, a = w ∨ a = title ∨ a = content → a ∉ c.removedComponents)
    (hregistry : c.registry.removeComponent pid id = .ok registry) (hfont : c.font.release = .ok font) :
    ∃ c', removeProcessComponents mode climb pid (depth + 2) c w = .ok c' ∧
      c'.registry = registry ∧ c'.font = font ∧ c'.deleted = c.deleted ++ [w, title, content] ∧
      (∀ a, a ∈ c'.removedComponents ↔
        a ∈ c.removedComponents ∨ a = w ∨ a = title ∨ a = content) ∧
      c'.components.count = c.components.count ∧
      c'.components.coreOf screen = some { this with
        children := this.children.filter fun ref => ref.component ≠ w } ∧
      ∀ b, b ≠ screen → c'.components.object b =
        if b ∈ [w, title, content] then none else c.components.object b := by
  obtain ⟨first, second, hw, horder⟩ := hwindow.window
  have hfirst : ∃ kind, c.components.coreOf first = some ⟨kind, -1, some w, []⟩ := by
    rcases horder with ⟨rfl, -⟩ | ⟨rfl, -⟩
    · exact ⟨_, hwindow.title⟩
    · exact ⟨_, hwindow.content⟩
  have hsecond : ∃ kind, c.components.coreOf second = some ⟨kind, -1, some w, []⟩ := by
    rcases horder with ⟨-, rfl⟩ | ⟨-, rfl⟩
    · exact ⟨_, hwindow.content⟩
    · exact ⟨_, hwindow.title⟩
  have htc : title ≠ content := ne_of_coreOf hwindow.title hwindow.content (by simp)
  have htw : title ≠ w := ne_of_coreOf hwindow.title hw (by simp)
  have hcw : content ≠ w := ne_of_coreOf hwindow.content hw (by simp)
  have hts : title ≠ screen := ne_of_coreOf hwindow.title hscreen.core (by rw [hscreen.kind]; simp)
  have hcs : content ≠ screen := ne_of_coreOf hwindow.content hscreen.core (by rw [hscreen.kind]; simp)
  have hws : w ≠ screen := ne_of_coreOf hw hscreen.core (by rw [hscreen.kind]; simp)
  have hfs : first ≠ second := by rcases horder with ⟨rfl, rfl⟩ | ⟨rfl, rfl⟩ <;> [exact htc; exact htc.symm]
  have hfw : first ≠ w := by rcases horder with ⟨rfl, -⟩ | ⟨rfl, -⟩ <;> assumption
  have hsw : second ≠ w := by rcases horder with ⟨-, rfl⟩ | ⟨-, rfl⟩ <;> assumption
  have hfscreen : first ≠ screen := by rcases horder with ⟨rfl, -⟩ | ⟨rfl, -⟩ <;> assumption
  have hsscreen : second ≠ screen := by rcases horder with ⟨-, rfl⟩ | ⟨-, rfl⟩ <;> assumption
  obtain ⟨kindf, hcoref⟩ := hfirst
  obtain ⟨kinds, hcores⟩ := hsecond
  -- the window is hidden
  have hpath : c.components.IsPath [screen] := by
    obtain ⟨d, hd, -, -, hp, -⟩ := exists_of_coreOf hscreen.core
    exact ⟨d, hd, hp.trans hscreen.parent⟩
  have hpathw := hpath.cons hw rfl
  obtain ⟨cs1, hvisible, hnear1⟩ := setVisible_near mode hpathw
    (by simpa using Nat.lt_of_succ_lt hclimb) false
  -- the embedded components are taken out, one after the other
  have hremoved2 : first ∉ c.removedComponents ++ [w] := by
    simp only [List.mem_append, List.mem_singleton, not_or]
    refine ⟨hremoved first ?_, hfw⟩
    rcases horder with ⟨rfl, -⟩ | ⟨rfl, -⟩ <;> simp
  obtain ⟨cs2, hremove2, hcount2, hothers2, hcore2⟩ := removeProcessComponents_embedded
    mode pid depth
    (c := { c with components := cs1, removedComponents := c.removedComponents ++ [w] })
    (hnear1.core ▸ hcoref) rfl rfl (hnear1.core ▸ hw) (hpathw.of_core hnear1.core) hclimb
    (by simp [hfw, hfscreen]) hfree hremoved2 (by simp)
  rw [hnear1.core] at hcore2
  have hw2 : cs2.coreOf w = some ⟨.window title content, id, some screen, [⟨second, .internal⟩]⟩ := by
    rw [hcore2, update_of_ne hfw.symm, update_self]
    simp [hfs.symm]
  have hs2 : cs2.coreOf second = some ⟨kinds, -1, some w, []⟩ := by
    rw [hcore2, update_of_ne hfs.symm, update_of_ne hsw, hcores]
  have hscreen2 : cs2.coreOf screen = some this := by
    rw [hcore2, update_of_ne hfscreen.symm, update_of_ne hws.symm, hscreen.core]
  have hpath2 : cs2.IsPath [screen] := by
    obtain ⟨d, hd, -, -, hp, -⟩ := exists_of_coreOf hscreen2
    exact ⟨d, hd, hp.trans hscreen.parent⟩
  have hremoved3 : second ∉ (c.removedComponents ++ [w]) ++ [first] := by
    simp only [List.mem_append, List.mem_singleton, not_or]
    refine ⟨⟨hremoved second ?_, hsw⟩, hfs.symm⟩
    rcases horder with ⟨-, rfl⟩ | ⟨-, rfl⟩ <;> simp
  obtain ⟨cs3, hremove3, hcount3, hothers3, hcore3⟩ := removeProcessComponents_embedded
    mode pid depth
    (c := { c with components := cs2, removedComponents := (c.removedComponents ++ [w]) ++ [first] })
    hs2 rfl rfl hw2 (hpath2.cons hw2 rfl) hclimb
    (by simp [hsw, hsscreen]) hfree hremoved3 (by simp)
  have hw3 : cs3.coreOf w = some ⟨.window title content, id, some screen, []⟩ := by
    rw [hcore3, update_of_ne hsw.symm, update_self]
    simp
  have hscreen3 : cs3.coreOf screen = some this := by
    rw [hcore3, update_of_ne hsscreen.symm, update_of_ne hws.symm, hscreen2]
  have hpath3 : cs3.IsPath [screen] := by
    obtain ⟨d, hd, -, -, hp, -⟩ := exists_of_coreOf hscreen3
    exact ⟨d, hd, hp.trans hscreen.parent⟩
  -- the screen lets go of the window
  obtain ⟨cs4, hremove4, hcount4, hothers4, hcore4⟩ := removeChild_spec climb hpath3
    (Nat.zero_le _) hscreen3 hw3 (by simp [hws])
  have hw4 : cs4.coreOf w = some ⟨.window title content, id, none, []⟩ := by
    rw [hcore4, update_self]
  have hleaf4 : ∀ e kind, e = first ∨ e = second → c.components.coreOf e = some ⟨kind, -1, some w, []⟩ →
      cs4.coreOf e = some ⟨kind, -1, none, []⟩ := by
    rintro e kind (rfl | rfl) he
    · rw [hcore4, update_of_ne hfw, update_of_ne hfscreen, hcore3, update_of_ne hfs, update_of_ne hfw, hcore2,
        update_self, Option.some.inj (hcoref.symm.trans he)]
    · rw [hcore4, update_of_ne hsw, update_of_ne hsscreen, hcore3, update_self,
        Option.some.inj (hcores.symm.trans he)]
  have htitle4 := hleaf4 title .label (by tauto) hwindow.title
  have hcontent4 := hleaf4 content .panel (by tauto) hwindow.content
  obtain ⟨cs5, hdelete, hcount5, hgone5, hothers5⟩ :=
    coreOf_delete hw4 rfl htitle4 rfl hcontent4 rfl hfont
  obtain ⟨d1, hd1, -, -, -, hchildren1⟩ := exists_of_coreOf (hnear1.core.symm ▸ hw)
  obtain ⟨d2, hd2, -, -, -, hchildren2⟩ := exists_of_coreOf hw2
  obtain ⟨d3, hd3, -, hid3, hparent3, hchildren3⟩ := exists_of_coreOf hw3
  obtain ⟨dscreen, hdscreen, -, -, -, hchildrens⟩ := exists_of_coreOf hscreen3
  refine ⟨{ c with
    components := cs5
    registry := registry
    removedComponents := c.removedComponents ++ [w] ++ [first] ++ [second]
    font := font
    deleted := c.deleted ++ [w, title, content] }, ?_, rfl, rfl, rfl, ?_, ?_, ?_, ?_⟩
  · -- the second child stands where it stood in the buffer
    have hloop : removeChildren (removeProcessComponents mode climb pid (depth + 1)) w 2 0
        [⟨first, .internal⟩, ⟨second, .internal⟩]
        { c with components := cs1, removedComponents := c.removedComponents ++ [w] } =
        .ok { c with
          components := cs3
          removedComponents := c.removedComponents ++ [w] ++ [first] ++ [second] } := by
      have hbuffer : ([⟨second, .internal⟩] ++ List.drop 1
          [⟨first, .internal⟩, ⟨second, .internal⟩] : List ChildComponentRef)[1]? =
          some ⟨second, .internal⟩ := rfl
      simp only [removeChildren, List.getElem?_cons_zero, bind, Except.bind, hremove2, Components.get, hd2,
        hchildren2, List.length_cons, List.length_nil, hbuffer, Nat.zero_add, hremove3, hd3]
    have hfind : canBeDeleted dscreen w = true := by
      rw [canBeDeleted]
      split
      next childReference hfound =>
        have hmem := List.mem_of_find?_eq_some hfound
        rw [hchildrens] at hmem
        rw [hscreen.default _ hmem]
        rfl
      next => rfl
    rw [removeProcessComponents, if_neg (hremoved w (.inl rfl)), hvisible]
    simp only [bind, Except.bind, Components.get, hd1, hchildren1, List.length_cons, List.length_nil,
      hloop, hd3, hid3, hregistry, hparent3, hdscreen, hremove4]
    rw [if_pos hfind, hdelete]
  · intro a
    rcases horder with ⟨rfl, rfl⟩ | ⟨rfl, rfl⟩ <;> grind
  · rw [hcount5, hcount4, hcount3, hcount2, hnear1.count]
  · have hnot : screen ∉ [w, title, content] := by simp [hws.symm, hts.symm, hcs.symm]
    rw [coreOf, hothers5 screen hnot, ← coreOf, hcore4, update_of_ne hws.symm,
      update_self]
  · intro b hb
    by_cases hmem : b ∈ [w, title, content]
    · rw [if_pos hmem]
      exact hgone5 b hmem
    · rw [if_neg hmem, hothers5 b hmem]
      simp only [List.mem_cons, List.not_mem_nil, or_false, not_or] at hmem
      obtain ⟨hbw, hbt, hbc⟩ := hmem
      have hbf : b ≠ first := by rcases horder with ⟨rfl, -⟩ | ⟨rfl, -⟩ <;> assumption
      have hbs : b ≠ second := by rcases horder with ⟨-, rfl⟩ | ⟨-, rfl⟩ <;> assumption
      rw [hothers4 b (by simp [hbw, hb]), hothers3 b (by simp [hbs, hbw, hb]),
        hothers2 b (by simp [hbf, hbw, hb]), hnear1.others b (by simp [hbw, hb])]

end ComponentRegistry

end MeetixOS.ZipNET
