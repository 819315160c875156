import MeetixOS.Lib.Layers
import MeetixOS.Userspace.ZipNET.CursorPointers

/-! # The order of the children

`Component_t::addChild`, `removeChild` and `bringChildToFront` on the components of the window server, seen
through the z-indices and the lists of children. `std::sort` promises some sorted permutation, another one
in every call; `bringChildToFront` does not look at the z-index. -/

open Function (update update_of_ne update_self)

namespace MeetixOS.ZipNET

open Components

open Lib (Layered PlacedAbove System)

namespace Components

/-! ## The source -/

/-- `Component_t::bringChildToFront`. -/
def bringChildToFront (mode : ModeInfo) (depth : Nat) (cs : Components) (a comp : Nat) :
    Except Stop Components := do
  let this ← cs.get a
  if this.children.any fun ref => ref.component = comp then do
    let child ← cs.get comp
    markDirtyRect mode depth (cs.put a { this with children := toFront comp this.children }) a child.bounds
  else .ok cs

theorem toFront_of_not_any {comp : Nat} {l : List ChildComponentRef}
    (h : (l.any fun ref => ref.component = comp) = false) : toFront comp l = l := by
  induction l with
  | nil => rfl
  | cons ref l ih =>
    simp only [List.any_cons, Bool.or_eq_false_iff, decide_eq_false_iff_not] at h
    rw [toFront, if_neg h.1, ih h.2]

theorem toFront_of_any {comp : Nat} {l : List ChildComponentRef}
    (h : (l.any fun ref => ref.component = comp) = true) :
    ∃ below ref above, l = below ++ ref :: above ∧ ref.component = comp ∧
      toFront comp l = below ++ above ++ [ref] := by
  induction l with
  | nil => simp at h
  | cons ref l ih =>
    by_cases href : ref.component = comp
    · refine ⟨[], ref, l, rfl, href, ?_⟩
      rw [toFront, if_pos href, List.nil_append]
    · simp only [List.any_cons, href, decide_false, Bool.false_or] at h
      obtain ⟨below, child, above, hl, hchild, hfront⟩ := ih h
      refine ⟨ref :: below, child, above, ?_, hchild, ?_⟩
      · rw [hl, List.cons_append]
      · rw [toFront, if_neg href, hfront]
        rfl

end Components

/-- A call for the children of `a`; each sort of `addChild` has an order of its own. -/
inductive StackCall
  | addChild (zs : ZSort) (a comp : Nat) (refType : ChildComponentRefType)
  | removeChild (a comp : Nat)
  | bringChildToFront (a comp : Nat)

/-- A call, with a bound for the recursions along the parents. -/
def StackCall.perform (mode : ModeInfo) (depth : Nat) (cs : Components) : StackCall → Except Stop Components
  | .addChild zs a comp refType => cs.addChildTo zs depth a comp refType
  | .removeChild a comp => cs.removeChild depth a comp
  | .bringChildToFront a comp => cs.bringChildToFront mode depth a comp

/-! ## The stacks -/

/-- The z-indices and the children of the components. -/
structure Stacks where
  z : Nat → Int
  children : Nat → List ChildComponentRef

namespace Stacks

/-- The z-index of a reference. -/
def key (s : Stacks) (ref : ChildComponentRef) : Int := s.z ref.component

/-- The children of every component are ordered by their z-index. -/
def Ordered (s : Stacks) : Prop := ∀ a, Layered s.key (s.children a)

/-- One component has another list of children. -/
def set (s : Stacks) (a : Nat) (list : List ChildComponentRef) : Stacks :=
  ⟨s.z, update s.children a list⟩

/-- A component is taken out of a list. -/
def remove (s : Stacks) (a comp : Nat) : Stacks :=
  s.set a ((s.children a).filter fun ref => ref.component ≠ comp)

theorem set_self (s : Stacks) (a : Nat) : s.set a (s.children a) = s := by
  rw [set, Function.update_eq_self]

theorem Ordered.set {s : Stacks} (h : s.Ordered) {a : Nat} {list : List ChildComponentRef}
    (hlist : Layered s.key list) : (s.set a list).Ordered := by
  intro b
  by_cases hb : b = a
  · subst hb
    show Layered s.key (update s.children b list b)
    rw [update_self]
    exact hlist
  · show Layered s.key (update s.children a list b)
    rw [update_of_ne hb]
    exact h b

theorem Ordered.remove {s : Stacks} (h : s.Ordered) (a comp : Nat) : (s.remove a comp).Ordered :=
  h.set ((h a).filter _)

end Stacks

namespace Components

/-- The stacks of the components. -/
def stacking (cs : Components) : Stacks :=
  ⟨cs.zIndexOf, fun a => ((cs.object a).map Component.children).getD []⟩

/-- What is taken out first when a component is added: it has a parent already. -/
def detached (cs : Components) (comp : Nat) : Stacks :=
  match (cs.object comp).bind Component.parent with
  | some parent => cs.stacking.remove parent comp
  | none => cs.stacking

section

variable {cs : Components} {a comp : Nat}

theorem stacking_put {c d : Component} (ha : cs.object a = some c) (hz : d.zIndex = c.zIndex) :
    (cs.put a d).stacking = cs.stacking.set a d.children := by
  have hzIndex : (cs.put a d).zIndexOf = cs.zIndexOf := by
    funext b
    by_cases hb : b = a
    · subst hb
      simp [zIndexOf, put, ha, hz]
    · simp [zIndexOf, put, update_of_ne hb]
  rw [stacking, hzIndex, Stacks.set, stacking]
  congr 1
  funext b
  by_cases hb : b = a
  · subst hb
    simp [put]
  · simp [put, update_of_ne hb]

theorem stacking_put_same {c d : Component} (ha : cs.object a = some c) (hz : d.zIndex = c.zIndex)
    (hchildren : d.children = c.children) : (cs.put a d).stacking = cs.stacking := by
  have hlist : d.children = cs.stacking.children a := by simp [stacking, ha, hchildren]
  rw [stacking_put ha hz, hlist, Stacks.set_self]

theorem markChildrenFor_stacking (req : BitVec 32) (depth : Nat) (cs : Components) (a : Nat) :
    Leaves (fun _ => True) (fun cs' => cs'.stacking = cs.stacking) (markChildrenFor req depth cs a) := by
  induction depth generalizing cs a with
  | zero => trivial
  | succ depth ih =>
    refine Leaves.get_bind fun this ha => ?_
    have hput := stacking_put_same ha
      (d := { this with childRequirements := this.childRequirements ||| req }) rfl rfl
    split
    · exact (ih _ _).mono (fun _ h => h) fun _ h => h.trans hput
    · exact hput

theorem markFor_stacking (req : BitVec 32) (depth : Nat) (cs : Components) (a : Nat) :
    Leaves (fun _ => True) (fun cs' => cs'.stacking = cs.stacking) (markFor req depth cs a) := by
  refine Leaves.get_bind fun this ha => ?_
  have hput := stacking_put_same ha (d := { this with requirements := this.requirements ||| req }) rfl rfl
  split
  · exact (markChildrenFor_stacking req depth _ _).mono (fun _ h => h) fun _ h => h.trans hput
  · exact hput

theorem markDirtyRect_stacking (mode : ModeInfo) (depth : Nat) (cs : Components) (a : Nat)
    (rect : Rectangle) :
    Leaves (fun _ => True) (fun cs' => cs'.stacking = cs.stacking) (markDirtyRect mode depth cs a rect) := by
  induction depth generalizing a rect with
  | zero => trivial
  | succ depth ih =>
    refine Leaves.get_bind fun this ha => ?_
    split
    · rfl
    · split
      · exact ih _ _
      · rfl

theorem removeChild_stacking (depth : Nat) (cs : Components) (a comp : Nat) :
    Leaves (fun _ => True) (fun cs' => cs'.stacking = cs.stacking.remove a comp)
      (removeChild depth cs a comp) := by
  refine Leaves.get_bind fun this ha => Leaves.get_bind fun child hcomp => ?_
  have hfirst := stacking_put ha
    (d := { this with children := this.children.filter fun ref => ref.component ≠ comp }) rfl
  have hsecond := stacking_put_same hcomp (d := { child with parent := none }) rfl rfl
  have hlist : cs.stacking.children a = this.children := by simp [stacking, ha]
  refine (markFor_stacking requirementLayout depth _ a).mono (fun _ h => h) fun cs' h => ?_
  rw [h, hsecond, hfirst, Stacks.remove, hlist]

section

variable (zs : ZSort) (depth : Nat) (cs : Components) (a comp : Nat)
  (refType : ChildComponentRefType)

theorem pushChild_stacking :
    Leaves (fun _ => True)
      (fun cs' => cs'.stacking =
        cs.stacking.set a (zs.sort cs.stacking.z (cs.stacking.children a ++ [⟨comp, refType⟩])))
      (pushChild zs depth cs a comp refType) := by
  refine Leaves.get_bind fun this ha => Leaves.get_bind fun child hcomp => ?_
  have hfirst := stacking_put ha
    (d := { this with children := zs.sort cs.zIndexOf (this.children ++ [⟨comp, refType⟩]) }) rfl
  have hsecond := stacking_put_same hcomp (d := { child with parent := some a }) rfl rfl
  have hlist : cs.stacking.children a = this.children := by simp [stacking, ha]
  refine (markFor_stacking requirementLayout depth _ a).mono (fun _ h => h) fun cs' h => ?_
  rw [h, hsecond, hfirst, hlist]
  rfl

theorem addChildTo_stacking :
    Leaves (fun _ => True)
      (fun cs' => cs'.stacking = (cs.detached comp).set a
        (zs.sort (cs.detached comp).z ((cs.detached comp).children a ++ [⟨comp, refType⟩])))
      (addChildTo zs depth cs a comp refType) := by
  refine Leaves.get_bind fun child hcomp => ?_
  split
  next parent hparent =>
    have hdetached : cs.detached comp = cs.stacking.remove parent comp := by simp [detached, hcomp,
      hparent]
    refine (removeChild_stacking depth cs parent comp).bind fun cs1 h1 => ?_
    rw [hdetached, ← h1]
    exact pushChild_stacking zs depth cs1 a comp refType
  next hparent =>
    have hdetached : cs.detached comp = cs.stacking := by simp [detached, hcomp, hparent]
    rw [hdetached]
    exact pushChild_stacking zs depth cs a comp refType

end

theorem bringChildToFront_stacking (mode : ModeInfo) (depth : Nat) (cs : Components) (a comp : Nat) :
    Leaves (fun _ => True)
      (fun cs' => cs'.stacking = cs.stacking.set a (toFront comp (cs.stacking.children a)))
      (bringChildToFront mode depth cs a comp) := by
  refine Leaves.get_bind fun this ha => ?_
  have hlist : cs.stacking.children a = this.children := by simp [stacking, ha]
  split
  next hany =>
    refine Leaves.get_bind fun child _ => ?_
    have hput := stacking_put ha (d := { this with children := toFront comp this.children }) rfl
    refine (markDirtyRect_stacking mode depth _ a child.bounds).mono (fun _ h => h) fun cs' h => ?_
    rw [h, hput, hlist]
  next hany =>
    have hsame : toFront comp this.children = this.children := by
      rw [Bool.not_eq_true] at hany
      exact toFront_of_not_any hany
    show cs.stacking = cs.stacking.set a _
    rw [hlist, hsame, ← hlist, Stacks.set_self]

end

end Components

/-! ## What a call does -/

/-- A component has another place in a list, if any; the others are as they were. -/
def OnlyMoves (comp : Nat) (before after : List ChildComponentRef) : Prop :=
  after.Perm before ∧
    (after.filter fun ref => ref.component ≠ comp) = before.filter fun ref => ref.component ≠ comp

/-- The children are ordered after a call; one added is above those with its z-index and the others keep
their order, and one brought to the front is the only one that moves. -/
def StackCall.KeepsOrder (cs : Components) (call : StackCall) (cs' : Components) : Prop :=
  cs'.stacking.Ordered ∧
    match call with
    | .addChild _ a comp refType =>
      PlacedAbove (cs.detached comp).key ⟨comp, refType⟩ ((cs.detached comp).children a)
        (cs'.stacking.children a)
    | .removeChild _ _ => True
    | .bringChildToFront a comp =>
      OnlyMoves comp (cs.stacking.children a) (cs'.stacking.children a) ∧
        ∀ b, b ≠ a → cs'.stacking.children b = cs.stacking.children b

/-- No two siblings have the same z-index, and none of a child brought to the front has a greater
one. -/
def StackCall.Unambiguous (cs : Components) : StackCall → Prop
  | .addChild _ a comp refType =>
    (((cs.detached comp).children a ++ [ChildComponentRef.mk comp refType]).map (cs.detached comp).key).Nodup
  | .removeChild _ _ => True
  | .bringChildToFront a comp =>
    (∃ ref ∈ cs.stacking.children a, ref.component = comp) →
      ∀ ref ∈ cs.stacking.children a, cs.stacking.key ref ≤ cs.stacking.z comp

theorem detached_ordered {cs : Components} (h : cs.stacking.Ordered) (comp : Nat) :
    (cs.detached comp).Ordered := by
  unfold detached
  split
  · exact h.remove _ _
  · exact h

theorem toFront_onlyMoves (comp : Nat) (l : List ChildComponentRef) :
    OnlyMoves comp l (toFront comp l) := by
  cases hany : l.any fun ref => ref.component = comp with
  | false =>
    rw [toFront_of_not_any hany]
    exact ⟨List.Perm.refl _, rfl⟩
  | true =>
    obtain ⟨below, ref, above, rfl, href, hfront⟩ := toFront_of_any hany
    rw [hfront]
    constructor
    · exact (List.perm_append_singleton ref _).trans List.perm_middle.symm
    · simp [List.filter_append, href]

theorem toFront_layered_iff {s : Stacks} {a comp : Nat} (h : s.Ordered) :
    Layered s.key (toFront comp (s.children a)) ↔
      ((∃ ref ∈ s.children a, ref.component = comp) → ∀ ref ∈ s.children a, s.key ref ≤ s.z comp) := by
  have ha := h a
  cases hany : (s.children a).any fun ref => ref.component = comp with
  | false =>
    rw [toFront_of_not_any hany]
    have hnone : ¬∃ ref ∈ s.children a, ref.component = comp := by simpa using hany
    exact iff_of_true ha fun hsome => absurd hsome hnone
  | true =>
    have hsome : ∃ ref ∈ s.children a, ref.component = comp := by simpa using hany
    obtain ⟨below, ref, above, hlist, href, hfront⟩ := toFront_of_any hany
    have hkey : s.z comp = s.key ref := by rw [Stacks.key, href]
    rw [hlist] at ha
    rw [hfront, Lib.layered_moved_iff ha, hkey, ← hlist]
    exact ⟨fun hall _ => hall, fun hall => hall hsome⟩

/-- The sort that leaves equal elements in the reverse order. -/
def ZSort.reversing : ZSort where
  sort z l := Lib.insertionOrder (fun ref : ChildComponentRef => z ref.component) l.reverse
  perm _ l := (List.perm_insertionSort _ _).trans (List.reverse_perm l)
  sorted _ _ := List.pairwise_insertionSort _ _

theorem keepsOrder_of_unambiguous (mode : ModeInfo) (depth : Nat) {cs : Components} (h : cs.stacking.Ordered)
    {call : StackCall} (hcall : call.Unambiguous cs) :
    Leaves (fun _ => True) (call.KeepsOrder cs) (call.perform mode depth cs) := by
  cases call with
  | addChild zs a comp refType =>
    have hdetached := detached_ordered h comp
    refine (addChildTo_stacking zs depth cs a comp refType).mono (fun _ h => h) fun cs' hcs' => ?_
    constructor
    · rw [hcs']
      exact hdetached.set (zs.sorted _ _)
    · simp only [hcs', Stacks.set, update_self]
      exact Lib.placedAbove_of_nodup (hdetached a) hcall (zs.perm _ _) (zs.sorted _ _)
  | removeChild a comp =>
    refine (removeChild_stacking depth cs a comp).mono (fun _ h => h) fun cs' hcs' => ?_
    refine ⟨?_, trivial⟩
    rw [hcs']
    exact h.remove a comp
  | bringChildToFront a comp =>
    refine (bringChildToFront_stacking mode depth cs a comp).mono (fun _ h => h)
      fun cs' hcs' => ?_
    refine ⟨?_, ?_, ?_⟩
    · rw [hcs']
      exact h.set ((toFront_layered_iff h).2 hcall)
    · simp only [hcs', Stacks.set, update_self]
      exact toFront_onlyMoves comp _
    · intro b hb
      simp [hcs', Stacks.set, update_of_ne hb]

/-! ## Runs -/

/-- The components, with calls for any parents, in any order. -/
def stackSystem (mode : ModeInfo) : System Components (StackCall × Nat) where
  init cs := cs.stacking.Ordered
  step cs call :=
    match call.1.perform mode call.2 cs with
    | .ok cs' => some cs'
    | .error _ => none

theorem stackSystem_step (mode : ModeInfo) (call : StackCall × Nat) {cs cs' : Components}
    (h : cs.stacking.Ordered) (hcall : call.1.Unambiguous cs)
    (hstep : (stackSystem mode).step cs call = some cs') : call.1.KeepsOrder cs cs' := by
  have hkeeps := keepsOrder_of_unambiguous mode call.2 h hcall
  unfold stackSystem at hstep
  cases hperform : call.1.perform mode call.2 cs with
  | error stop => simp [hperform] at hstep
  | ok result =>
    obtain rfl : result = cs' := by simpa [hperform] using hstep
    rwa [hperform] at hkeeps

/-- Where all calls meet the condition, the children are ordered, and every call keeps the order. -/
theorem calls_keepOrder (mode : ModeInfo) {cs : Components}
    (h : (stackSystem mode).Reachable (fun cs call => call.1.Unambiguous cs) cs) :
    cs.stacking.Ordered ∧ ∀ call cs', call.1.Unambiguous cs → (stackSystem mode).step cs call = some cs' →
      call.1.KeepsOrder cs cs' := by
  have hordered : cs.stacking.Ordered := by
    refine h.invariant (fun _ hinit => hinit) ?_
    intro before call after hbefore hcall hstep
    exact (stackSystem_step mode call hbefore hcall hstep).1
  exact ⟨hordered, fun call cs' hcall hstep => stackSystem_step mode call hordered hcall hstep⟩

/-- Three components that are not linked, with the z-indices of the second and the third. -/
def apart (z1 z2 : Int) : Components where
  object a :=
    if a = 0 then some { kind := .screen }
    else if a = 1 then some { kind := .panel, zIndex := z1 }
    else if a = 2 then some { kind := .panel, zIndex := z2 }
    else none
  count := 3
  invalid := .empty

theorem apart_ordered (z1 z2 : Int) : (apart z1 z2).stacking.Ordered := by
  intro a
  have hnone : (apart z1 z2).stacking.children a = [] := by
    simp only [stacking, apart]
    split_ifs <;> rfl
  rw [hnone]
  exact List.Pairwise.nil

/-- The components after a call. -/
def performed (mode : ModeInfo) (cs : Components) (call : StackCall × Nat) : Components :=
  ((stackSystem mode).step cs call).getD cs

theorem calls_keepOrder_two :
    let mode : ModeInfo := ⟨800, 600, 32, by decide⟩
    let cs1 := performed mode (apart 5 7) (.addChild .insertion 0 2 .default, 3)
    let cs2 := performed mode cs1 (.addChild .insertion 0 1 .default, 3)
    let cs3 := performed mode cs2 (.bringChildToFront 0 2, 3)
    cs2.stacking.Ordered ∧ (StackCall.bringChildToFront 0 2).KeepsOrder cs2 cs3 := by
  intro mode cs1 cs2 cs3
  have h0 : (stackSystem mode).Reachable (fun cs call => call.1.Unambiguous cs) (apart 5 7) :=
    .init (apart_ordered 5 7)
  have h1 := h0.step (a := (.addChild .insertion 0 2 .default, 3))
    (by unfold StackCall.Unambiguous; decide) rfl
  have h2 := h1.step (a := (.addChild .insertion 0 1 .default, 3))
      (by unfold StackCall.Unambiguous; decide) rfl
  obtain ⟨hordered, hcalls⟩ := calls_keepOrder mode h2
  have hfront : (StackCall.bringChildToFront 0 2).Unambiguous cs2 := by
    intro _
    decide
  exact ⟨hordered, hcalls (.bringChildToFront 0 2, 3) cs3 hfront rfl⟩

/-- The lower of two children is brought to the front: unordered. A sort may put a new child below
its equal. -/
theorem calls_breakOrder :
    let mode : ModeInfo := ⟨800, 600, 32, by decide⟩
    let cs1 := performed mode (apart 5 7) (.addChild .insertion 0 2 .default, 3)
    let cs2 := performed mode cs1 (.addChild .insertion 0 1 .default, 3)
    let equal1 := performed mode (apart 5 5) (.addChild .insertion 0 2 .default, 3)
    cs2.stacking.Ordered ∧
      ¬(StackCall.bringChildToFront 0 1).KeepsOrder cs2 (performed mode cs2 (.bringChildToFront 0 1, 3)) ∧
      ¬(StackCall.addChild .reversing 0 1 .default).KeepsOrder equal1
        (performed mode equal1 (.addChild .reversing 0 1 .default, 3)) := by
  intro mode cs1 cs2 equal1
  have h1 : cs1.stacking.Ordered :=
    (stackSystem_step mode (.addChild .insertion 0 2 .default, 3) (apart_ordered 5 7)
      (by unfold StackCall.Unambiguous; decide) rfl).1
  have h2 : cs2.stacking.Ordered :=
    (stackSystem_step mode (.addChild .insertion 0 1 .default, 3) h1
      (by unfold StackCall.Unambiguous; decide) rfl).1
  refine ⟨h2, ?_, ?_⟩
  · rintro ⟨hordered, -⟩
    have hpair : [(⟨2, .default⟩ : ChildComponentRef), ⟨1, .default⟩].Sublist
        ((performed mode cs2 (.bringChildToFront 0 1, 3)).stacking.children 0) := by decide
    have hle := List.pairwise_iff_forall_sublist.1 (hordered 0) hpair
    exact absurd hle (by decide)
  · rintro ⟨-, below, above, hbefore, hafter, hapart⟩
    have hbefore' : below ++ above = [⟨2, .default⟩] := by
      rw [← hbefore]
      decide
    have hafter' : below ++ ⟨1, .default⟩ :: above = [⟨1, .default⟩, ⟨2, .default⟩] := by
      rw [← hafter]
      decide
    cases below with
    | nil =>
      -- the sibling is above the new child, and has the same z-index
      obtain rfl : above = [⟨2, .default⟩] := hbefore'
      exact hapart _ (List.mem_singleton_self _) (by decide)
    | cons first below =>
      obtain ⟨rfl, -⟩ := List.cons.inj hafter'
      obtain ⟨hne, -⟩ := List.cons.inj hbefore'
      exact absurd hne (by decide)

end MeetixOS.ZipNET
