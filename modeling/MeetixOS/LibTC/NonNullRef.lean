import MeetixOS.Lib.Runs
import Mathlib.Algebra.Group.Nat.Defs
import Mathlib.Data.Fintype.Card

/-! # Counted references

`NonNullRef` and the count in the `Shareable` that it points to. A reference that was moved from is null.
The operators exchange pointers with a temporary reference, so between two steps of an operator the count
of an object is that of the references to it with the temporary one (`Balanced`). A failed `VERIFY`, and an
access to an object that was deleted, give `none`. -/

open Option (bind_eq_bind bind_some map_some ne_none_iff_exists')

namespace LibTC

open MeetixOS.Lib (System)

/-- The references at the places `ι`, each with its `m_shared_ptr`, and the live objects, each with its
`m_ref_count`. -/
structure RefState (ι : Type) where
  refs : ι → Option (Option Nat)
  objects : Nat → Option Nat

namespace RefState

section

variable {ι : Type}

/-! ## The source -/

def setObject (s : RefState ι) (o : Nat) (count : Option Nat) : RefState ι :=
  { s with objects := Function.update s.objects o count }

variable [DecidableEq ι]

def setRef (s : RefState ι) (r : ι) (p : Option (Option Nat)) : RefState ι :=
  { s with refs := Function.update s.refs r p }

/-- `Shareable::add_ref`, unless the pointer is null. -/
def addRef (p : Option Nat) (s : RefState ι) : Option (RefState ι) :=
  match p with
  | none => some s
  | some o => do
      let oldRefCount ← s.objects o
      if oldRefCount > 0 then some (s.setObject o (some ((oldRefCount + 1) % 2 ^ 32))) else none

/-- `Shareable::dec_ref`, with the object that it deletes, whose destructor looks at the count
again. -/
def decRef (p : Option Nat) (s : RefState ι) : Option (RefState ι × Option Nat) :=
  match p with
  | none => some (s, none)
  | some o => do
      let oldRefCount ← s.objects o
      if oldRefCount ≥ 1 then
        let refCount := (oldRefCount + (2 ^ 32 - 1)) % 2 ^ 32
        if oldRefCount - 1 = 0 then
          if refCount = 0 then some (s.setObject o none, some o) else none
        else some (s.setObject o (some refCount), none)
      else none

/-- `exchange`: the pointer of a reference for another one. -/
def exchange (r : ι) (p : Option Nat) (s : RefState ι) : Option (Option Nat × RefState ι) :=
  (s.refs r).map fun old => (old, s.setRef r (some p))

/-- `make_ref`; `o` is where the object is. -/
def makeRef (r : ι) (o : Nat) (s : RefState ι) : RefState ι :=
  (s.setObject o (some 1)).setRef r (some (some o))

/-- `NonNullRef(NonNullRef const&)`. -/
def copyConstruct (r rhs : ι) (s : RefState ι) : Option (RefState ι) := do
  let p ← s.refs rhs
  let s ← s.addRef p
  some (s.setRef r (some p))

/-- `NonNullRef(NonNullRef&&)`. -/
def moveConstruct (r rhs : ι) (s : RefState ι) : Option (RefState ι) := do
  let (p, s) ← s.exchange rhs none
  some (s.setRef r (some p))

/-- `operator=(NonNullRef const&)`. -/
def copyAssign (r rhs : ι) (s : RefState ι) : Option (RefState ι × Option Nat) :=
  if r = rhs then some (s, none)
  else do
    let p ← s.refs rhs
    let s ← s.addRef p
    let (old, s) ← s.exchange r p
    s.decRef old

/-- `operator=(NonNullRef&&)`. -/
def moveAssign (r rhs : ι) (s : RefState ι) : Option (RefState ι × Option Nat) := do
  let (p, s) ← s.exchange rhs none
  let (old, s) ← s.exchange r p
  s.decRef old

/-- `NonNullRef::swap`. -/
def swap (r rhs : ι) (s : RefState ι) : Option (RefState ι) := do
  let p ← s.refs r
  let q ← s.refs rhs
  some ((s.setRef r (some q)).setRef rhs (some p))

/-- `~NonNullRef`. -/
def destroy (r : ι) (s : RefState ι) : Option (RefState ι × Option Nat) := do
  let p ← s.refs r
  (s.setRef r none).decRef p

inductive Call (ι : Type)
  | makeRef (r : ι) (o : Nat)
  | copyConstruct (r rhs : ι)
  | moveConstruct (r rhs : ι)
  | copyAssign (r rhs : ι)
  | moveAssign (r rhs : ι)
  | swap (r rhs : ι)
  | destroy (r : ι)

/-- What a call does, and which object it deletes. -/
def call (s : RefState ι) : Call ι → Option (RefState ι × Option Nat)
  | .makeRef r o => some (s.makeRef r o, none)
  | .copyConstruct r rhs => (s.copyConstruct r rhs).map (·, none)
  | .moveConstruct r rhs => (s.moveConstruct r rhs).map (·, none)
  | .copyAssign r rhs => s.copyAssign r rhs
  | .moveAssign r rhs => s.moveAssign r rhs
  | .swap r rhs => (s.swap r rhs).map (·, none)
  | .destroy r => s.destroy r

/-- A reference is constructed where none stands, and used where one stands; a new object is where none
is alive. -/
def Fits (s : RefState ι) : Call ι → Prop
  | .makeRef r o => s.refs r = none ∧ s.objects o = none
  | .copyConstruct r rhs | .moveConstruct r rhs => s.refs r = none ∧ s.refs rhs ≠ none
  | .copyAssign r rhs | .moveAssign r rhs | .swap r rhs => s.refs r ≠ none ∧ s.refs rhs ≠ none
  | .destroy r => s.refs r ≠ none

instance (s : RefState ι) (c : Call ι) : Decidable (s.Fits c) := by
  cases c <;> (unfold Fits; infer_instance)

/-- Programs that use references, from the start. -/
def program : System (RefState ι) (Call ι) where
  init s := s = ⟨fun _ => none, fun _ => none⟩
  step s c := (s.call c).map Prod.fst

end

/-! ## Counting -/

variable {ι : Type} [Fintype ι]

/-- How many references point to the object. -/
def refsTo (s : RefState ι) (o : Nat) : Nat :=
  (Finset.univ.filter fun r => s.refs r = some (some o)).card

/-- The objects are alive as long as there are references to them, which they count. The temporary
reference `p` counts too. -/
def Balanced (s : RefState ι) (p : Option Nat) : Prop :=
  ∀ o, s.objects o =
    if s.refsTo o + (if p = some o then 1 else 0) = 0 then none
    else some (s.refsTo o + if p = some o then 1 else 0)

variable {s s' : RefState ι} {p q : Option Nat} {r : ι} {o : Nat}

theorem refsTo_le (s : RefState ι) (o : Nat) : s.refsTo o ≤ Fintype.card ι := Finset.card_le_univ _

theorem refsTo_pos (h : s.refs r = some (some o)) : 0 < s.refsTo o :=
  Finset.card_pos.2 ⟨r, Finset.mem_filter.2 ⟨Finset.mem_univ r, h⟩⟩

theorem refsTo_setObject (s : RefState ι) (o : Nat) (count : Option Nat) (o' : Nat) :
    (s.setObject o count).refsTo o' = s.refsTo o' := rfl

omit [Fintype ι] in
theorem objects_setObject (s : RefState ι) (o : Nat) (count : Option Nat) (o' : Nat) :
    (s.setObject o count).objects o' = if o' = o then count else s.objects o' :=
  Function.update_apply ..

theorem Balanced.addRef (hslots : Fintype.card ι ≤ 2 ^ 30) (h : s.Balanced none) (hp : s.refs r = some p) :
    ∃ s', s.addRef p = some s' ∧ s'.refs = s.refs ∧ s'.Balanced p ∧
      ∀ o, s'.objects o = none ↔ s.objects o = none := by
  cases p with
  | none => exact ⟨s, rfl, rfl, h, fun _ => Iff.rfl⟩
  | some o =>
    have hpos := refsTo_pos hp
    have hle := refsTo_le s o
    have hobject : s.objects o = some (s.refsTo o) := by simp [h o, Nat.ne_of_gt hpos]
    refine ⟨s.setObject o (some ((s.refsTo o + 1) % 2 ^ 32)), ?_, rfl, ?_, ?_⟩
    · simp only [RefState.addRef, hobject, bind_eq_bind, bind_some]
      exact if_pos hpos
    · intro o'
      rw [refsTo_setObject, objects_setObject]
      by_cases heq : o' = o
      · subst heq
        rw [if_pos rfl, if_pos rfl, if_neg (Nat.succ_ne_zero _), Nat.mod_eq_of_lt (by omega)]
      · have hne : ¬some o = some o' := fun h => heq (Option.some.inj h).symm
        rw [if_neg heq, h o']
        simp [hne]
    · intro o'
      rw [objects_setObject]
      split
      next heq => simp [heq, hobject]
      next => exact Iff.rfl

theorem Balanced.decRef (hslots : Fintype.card ι ≤ 2 ^ 30) (h : s.Balanced p) :
    ∃ s' deleted, s.decRef p = some (s', deleted) ∧ s'.refs = s.refs ∧ s'.Balanced none ∧
      ∀ o, deleted = some o ↔ p = some o ∧ s.refsTo o = 0 := by
  cases p with
  | none => exact ⟨s, none, rfl, rfl, h, by simp⟩
  | some o =>
    have hle := refsTo_le s o
    have hobject : s.objects o = some (s.refsTo o + 1) := by simp [h o]
    have hothers : ∀ o' ≠ o, s.objects o' = if s.refsTo o' + 0 = 0 then none else some (s.refsTo o' + 0) := by
      intro o' hne
      rw [h o', if_neg (fun heq => hne (Option.some.inj heq).symm)]
    have hmod : (s.refsTo o + 1 + (2 ^ 32 - 1)) % 2 ^ 32 = s.refsTo o := by omega
    simp only [RefState.decRef, hobject, bind_eq_bind, bind_some, Nat.add_sub_cancel, hmod,
      if_pos (Nat.le_add_left 1 (s.refsTo o))]
    by_cases hlast : s.refsTo o = 0
    · rw [if_pos hlast, if_pos hlast]
      refine ⟨_, some o, rfl, rfl, ?_, ?_⟩
      · intro o'
        rw [refsTo_setObject, objects_setObject]
        split
        next heq => simp [heq, RefState.refsTo, ← hlast]
        next hne => exact hothers o' hne
      · intro o'
        rw [Option.some.injEq]
        exact ⟨fun heq => ⟨heq, heq ▸ hlast⟩, And.left⟩
    · rw [if_neg hlast]
      refine ⟨_, none, rfl, rfl, ?_, ?_⟩
      · intro o'
        rw [refsTo_setObject, objects_setObject]
        split
        next heq =>
          subst heq
          exact (if_neg hlast).symm
        next hne => exact hothers o' hne
      · rintro o'
        refine iff_of_false nofun ?_
        rintro ⟨heq, hzero⟩
        exact hlast (Option.some.inj heq ▸ hzero)

/-- The call deletes the object that has lost its last reference, if there is one. -/
def Deletes (s s' : RefState ι) (deleted : Option Nat) : Prop :=
  ∀ o, deleted = some o ↔ s.refsTo o ≠ 0 ∧ s'.refsTo o = 0

theorem Balanced.refsTo_ne_zero_iff (h : s.Balanced none) (o : Nat) :
    s.refsTo o ≠ 0 ↔ s.objects o ≠ none := by
  simp [h o]

theorem Balanced.deletes_none (h : s.Balanced none) (h' : s'.Balanced none)
    (hkept : ∀ o, s'.objects o = none → s.objects o = none) : Deletes s s' none := by
  intro o
  rw [h.refsTo_ne_zero_iff]
  refine iff_of_false nofun fun hlost => hlost.1 (hkept o ?_)
  by_contra hne
  exact (h'.refsTo_ne_zero_iff o).2 hne hlost.2

theorem Balanced.deletes {s0 : RefState ι} {deleted : Option Nat} (h0 : s0.Balanced none) (h : s.Balanced p)
    (hkept : ∀ o, s.objects o = none ↔ s0.objects o = none) (hrefs : s'.refs = s.refs)
    (hdeleted : ∀ o, deleted = some o ↔ p = some o ∧ s.refsTo o = 0) : Deletes s0 s' deleted := by
  intro o
  have hsame : s'.refsTo o = s.refsTo o := by rw [refsTo, hrefs, refsTo]
  rw [hdeleted, hsame, and_congr_left_iff]
  intro hzero
  rw [h0.refsTo_ne_zero_iff, Ne, ← hkept, h o, hzero]
  simp

theorem Balanced.create (h : s.Balanced none) (ho : s.objects o = none) :
    (s.setObject o (some 1)).Balanced (some o) := by
  have hzero : s.refsTo o = 0 := by
    by_contra hne
    exact (h.refsTo_ne_zero_iff o).1 hne ho
  intro o'
  rw [objects_setObject, refsTo_setObject]
  by_cases heq : o' = o
  · simp [heq, hzero]
  · have hne : ¬some o = some o' := fun h => heq (Option.some.inj h).symm
    rw [if_neg heq, h o']
    simp [hne]

variable [DecidableEq ι]

theorem refsTo_setRef (s : RefState ι) (r : ι) (x : Option (Option Nat)) (o : Nat) :
    (s.setRef r x).refsTo o + (if s.refs r = some (some o) then 1 else 0) =
      s.refsTo o + if x = some (some o) then 1 else 0 := by
  have hsplit : ∀ s : RefState ι, s.refsTo o = (if s.refs r = some (some o) then 1 else 0) +
      ((Finset.univ.erase r).filter fun r => s.refs r = some (some o)).card := by
    intro s
    rw [refsTo, ← Finset.insert_erase (Finset.mem_univ r), Finset.filter_insert]
    split
    · rw [Finset.card_insert_of_notMem (by simp), Nat.add_comm, Finset.erase_insert (by simp)]
    · rw [Nat.zero_add, Finset.erase_insert (by simp)]
  have hothers : ((Finset.univ.erase r).filter fun r' => (s.setRef r x).refs r' = some (some o)) =
      (Finset.univ.erase r).filter fun r' => s.refs r' = some (some o) := by
    refine Finset.filter_congr fun r' hr' => ?_
    simp [setRef, Function.update_of_ne (Finset.ne_of_mem_erase hr')]
  have hself : (s.setRef r x).refs r = x := Function.update_self ..
  rw [hsplit (s.setRef r x), hsplit s, hothers, hself]
  omega

theorem Balanced.setRef (h : s.Balanced p) (hr : (s.refs r).join = q) {x : Option (Option Nat)}
    (hx : x.join = p) : (s.setRef r x).Balanced q := by
  intro o
  have hcount := refsTo_setRef s r x o
  have hold : (s.refs r = some (some o)) ↔ q = some o := by rw [← hr, Option.join_eq_some_iff]
  have hnew : x = some (some o) ↔ p = some o := by rw [← hx, Option.join_eq_some_iff]
  simp only [hold, hnew] at hcount
  rw [hcount]
  exact h o

theorem Balanced.exchange (h : s.Balanced p) (hr : s.refs r ≠ none) :
    ∃ old s', s.exchange r p = some (old, s') ∧ s.refs r = some old ∧ s' = s.setRef r (some p) ∧
      s'.Balanced old := by
  obtain ⟨old, hold⟩ := ne_none_iff_exists'.1 hr
  exact ⟨old, _, by rw [RefState.exchange, hold, map_some], hold, rfl, h.setRef (by rw [hold]; rfl) rfl⟩

/-! ## Calls -/

theorem Balanced.place (h : s.Balanced p) (hr : s.refs r = none) : (s.setRef r (some p)).Balanced none :=
  h.setRef (by rw [hr]; rfl) rfl

omit [Fintype ι] in
theorem refs_setRef_ne_none {r' : ι} {x : Option Nat} (h : s.refs r' ≠ none) :
    (s.setRef r (some x)).refs r' ≠ none := by
  simp only [setRef, Function.update_apply]
  split
  · nofun
  · exact h

theorem Balanced.call (hslots : Fintype.card ι ≤ 2 ^ 30) (h : s.Balanced none) {c : Call ι}
    (hfits : s.Fits c) :
    ∃ s' deleted, s.call c = some (s', deleted) ∧ s'.Balanced none ∧ Deletes s s' deleted := by
  cases c with
  | makeRef r o =>
    obtain ⟨hr, ho⟩ := hfits
    have h' : (s.makeRef r o).Balanced none := (h.create ho).place hr
    refine ⟨_, none, rfl, h', h.deletes_none h' fun o' ho' => ?_⟩
    have hobjects : (s.makeRef r o).objects o' = if o' = o then some 1 else s.objects o' :=
      objects_setObject ..
    rw [hobjects] at ho'
    split at ho'
    · cases ho'
    · exact ho'
  | copyConstruct r rhs =>
    obtain ⟨hr, hrhs⟩ := hfits
    obtain ⟨p, hp⟩ := ne_none_iff_exists'.1 hrhs
    obtain ⟨s1, hadd, hrefs, h1, hkept⟩ := h.addRef hslots hp
    have h' := h1.place (by rw [hrefs, hr])
    refine ⟨_, none, ?_, h', h.deletes_none h' fun o ho => (hkept o).1 ho⟩
    simp [RefState.call, copyConstruct, hp, hadd]
  | moveConstruct r rhs =>
    obtain ⟨hr, hrhs⟩ := hfits
    obtain ⟨p, s1, hexchange, -, rfl, h1⟩ := h.exchange hrhs
    have hne : r ≠ rhs := fun heq => hrhs (heq ▸ hr)
    have h' := h1.place (r := r) (by simp [RefState.setRef, Function.update_of_ne hne, hr])
    refine ⟨_, none, ?_, h', h.deletes_none h' fun o ho => ho⟩
    simp [RefState.call, moveConstruct, hexchange]
  | copyAssign r rhs =>
    obtain ⟨hr, hrhs⟩ := hfits
    by_cases heq : r = rhs
    · exact ⟨s, none, if_pos heq, h, h.deletes_none h fun o ho => ho⟩
    · obtain ⟨p, hp⟩ := ne_none_iff_exists'.1 hrhs
      obtain ⟨s1, hadd, hrefs, h1, hkept⟩ := h.addRef hslots hp
      obtain ⟨old, s2, hexchange, -, rfl, h2⟩ := h1.exchange (r := r) (by rwa [hrefs])
      obtain ⟨s', deleted, hdec, hrefs', h', hdeleted⟩ := h2.decRef hslots
      refine ⟨s', deleted, ?_, h', h.deletes h2 hkept hrefs' hdeleted⟩
      simp [RefState.call, copyAssign, if_neg heq, hp, hadd, hexchange, hdec]
  | moveAssign r rhs =>
    obtain ⟨hr, hrhs⟩ := hfits
    obtain ⟨p, s1, htake, -, rfl, h1⟩ := h.exchange hrhs
    obtain ⟨old, s2, hexchange, -, rfl, h2⟩ := h1.exchange (refs_setRef_ne_none hr)
    obtain ⟨s', deleted, hdec, hrefs', h', hdeleted⟩ := h2.decRef hslots
    refine ⟨s', deleted, ?_, h', h.deletes h2 (fun _ => Iff.rfl) hrefs' hdeleted⟩
    simp [RefState.call, moveAssign, htake, hexchange, hdec]
  | swap r rhs =>
    obtain ⟨hr, hrhs⟩ := hfits
    obtain ⟨p, hp⟩ := ne_none_iff_exists'.1 hr
    obtain ⟨q, hq⟩ := ne_none_iff_exists'.1 hrhs
    have hfirst : (s.setRef r (some q)).refs rhs = some q := by
      simp [RefState.setRef, Function.update_apply, hq]
    have h' : ((s.setRef r (some q)).setRef rhs (some p)).Balanced none := by
      intro o
      have hcount := refsTo_setRef s r (some q) o
      have hcount' := refsTo_setRef (s.setRef r (some q)) rhs (some p) o
      rw [hp] at hcount
      rw [hfirst] at hcount'
      have hsame : ((s.setRef r (some q)).setRef rhs (some p)).refsTo o = s.refsTo o := by omega
      rw [hsame]
      exact h o
    refine ⟨_, none, ?_, h', h.deletes_none h' fun o ho => ho⟩
    simp [RefState.call, RefState.swap, hp, hq]
  | destroy r =>
    obtain ⟨p, hp⟩ := ne_none_iff_exists'.1 hfits
    have h1 : (s.setRef r none).Balanced p := h.setRef (by rw [hp]; rfl) rfl
    obtain ⟨s', deleted, hdec, hrefs', h', hdeleted⟩ := h1.decRef hslots
    refine ⟨s', deleted, ?_, h', h.deletes h1 (fun _ => Iff.rfl) hrefs' hdeleted⟩
    simp [RefState.call, destroy, hp, hdec]

/-- After any calls, the count of every live object is the number of the references to it. Whatever
comes next succeeds, and deletes an object exactly where its last reference goes away. The places are at
most as many as there are aligned addresses. -/
theorem nonNullRef_counts (hslots : Fintype.card ι ≤ 2 ^ 30) (h : program.Reachable Fits s) :
    (∀ o, s.objects o = if s.refsTo o = 0 then none else some (s.refsTo o)) ∧
      ∀ c, s.Fits c → ∃ s' deleted, s.call c = some (s', deleted) ∧ Deletes s s' deleted := by
  have hbalanced : s.Balanced none := by
    refine h.invariant (I := fun s => s.Balanced none) ?_ ?_
    · rintro s rfl o
      simp [refsTo]
    · intro s c s' hs hfits hstep
      obtain ⟨s1, deleted, hcall, h1, -⟩ := hs.call hslots hfits
      simp only [program, hcall, map_some, Option.some.injEq] at hstep
      exact hstep ▸ h1
  refine ⟨fun o => by simpa using hbalanced o, fun c hfits => ?_⟩
  obtain ⟨s', deleted, hcall, -, hdeletes⟩ := hbalanced.call hslots hfits
  exact ⟨s', deleted, hcall, hdeletes⟩

theorem nonNullRef_counts_two : ∃ s : RefState (Fin 3), program.Reachable Fits s ∧
    (∀ o, s.objects o = if s.refsTo o = 0 then none else some (s.refsTo o)) ∧
      ∀ c, s.Fits c → ∃ s' deleted, s.call c = some (s', deleted) ∧ Deletes s s' deleted := by
  let calls : List (Call (Fin 3)) := [.makeRef 0 16, .makeRef 1 32, .copyAssign 1 0, .moveAssign 1 1,
    .destroy 0]
  have hrun : (program.runGuarded Fits ⟨fun _ => none, fun _ => none⟩ calls).isSome := by decide
  obtain ⟨s, hs⟩ := Option.isSome_iff_exists.1 hrun
  have hreach : program.Reachable Fits s := .of_runGuarded (.init rfl) hs
  exact ⟨s, hreach, nonNullRef_counts (by decide) hreach⟩

end RefState

end LibTC
