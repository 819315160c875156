import MeetixOS.Kernel.Filesystem.Names

/-! # Directory iteration

`FsTransactionHandlerReadDirectory`: an iterator is a position in the child list of its folder, and new
nodes go to the front of that list, so that the next call returns a child once more. The other threads,
and the refresh that `fsReadDirectory` starts itself, are any VFS calls before and between the reads. -/

namespace MeetixOS.Kernel

open MeetixOS.Lib FileSystem

structure FsDirectoryIterator where
  nodeID : Nat
  position : Nat := 0

/-- `FsReadDirectoryStatus`, with what is in the entry buffer. -/
inductive FsReadDirectory
  | successful (nodeID : Nat) (nodeType : FsNodeType) (name : List Char)
  | eod
  | error

/-- `FsTransactionHandlerReadDirectory::finishTransaction`; `causing` is the status of the refresh
before, if any. -/
def readDirectory (fs : FileSystem) (causing : Option FsDirectoryRefreshStatus)
    (iterator : FsDirectoryIterator) : Option (FsDirectoryIterator × FsReadDirectory) :=
  if causing ≠ none ∧ causing ≠ some .successful then some (iterator, .error)
  else
    match (fs.childrenOf iterator.nodeID)[iterator.position]? with
    | none => some (iterator, .eod)
    | some item => do
        let node ← fs.nodes.get item
        let name ← node.name
        some ({ iterator with position := iterator.position + 1 }, .successful item node.type name)

/-! ## One iteration -/

/-- The iteration and the VFS; `returned` are the nodes that the calls returned so far. -/
structure Iteration where
  vfs : Vfs
  iterator : FsDirectoryIterator
  returned : List Nat := []
  ended : Bool := false

/-- A call on the iterator, or a call of another thread. -/
inductive DirectoryEvent
  | read (causing : Option FsDirectoryRefreshStatus)
  | call (call : VfsCall)

namespace Iteration

/-- What the result of a call adds to the iteration. -/
def receive (t : Iteration) (iterator : FsDirectoryIterator) : FsReadDirectory → Iteration
  | .successful nodeID _ _ => { t with iterator, returned := nodeID :: t.returned }
  | .eod => { t with iterator, ended := true }
  | .error => { t with iterator }

/-- One event. After `FS_READ_DIRECTORY_EOD` the iteration is over. -/
def step (t : Iteration) (event : DirectoryEvent) : Option Iteration :=
  if t.ended then none
  else
    match event with
    | .read causing =>
      (readDirectory t.vfs.fs causing t.iterator).map fun (iterator, result) =>
        t.receive iterator result
    | .call call => (t.vfs.call call).map fun vfs => { t with vfs }

/-- The children of the folder. -/
def children (t : Iteration) : List Nat := t.vfs.fs.childrenOf t.iterator.nodeID

/-- An iteration of the folder `nodeID` begins. -/
def start (vfs : Vfs) (nodeID : Nat) : Iteration := { vfs, iterator := { nodeID } }

end Iteration

/-- All iterations of all folders, from every state that the VFS can be in. -/
def iterations : System Iteration DirectoryEvent where
  init t := ∃ vfs nodeID, vfsCalls.Reachable (fun _ _ => True) vfs ∧ vfs.fs.Has nodeID ∧
    t = .start vfs nodeID
  step := Iteration.step

/-- Nodes are added only while none of the `n` children that were there at the start has been returned. -/
def Undisturbed (n : Nat) : Iteration → List DirectoryEvent → Prop
  | _, [] => True
  | t, event :: events =>
    match t.step event with
    | none => True
    | some t' =>
      (t'.children.length = t.children.length ∨
        t.iterator.position + n ≤ t.children.length) ∧ Undisturbed n t' events

instance (n : Nat) : ∀ (t : Iteration) (events : List DirectoryEvent),
    Decidable (Undisturbed n t events)
  | _, [] => inferInstanceAs (Decidable True)
  | t, event :: events =>
    match h : t.step event with
    | none => decidable_of_iff True (by simp only [Undisturbed, h])
    | some t' =>
      have := instDecidableUndisturbed n t' events
      decidable_of_iff
        ((t'.children.length = t.children.length ∨
          t.iterator.position + n ≤ t.children.length) ∧ Undisturbed n t' events)
        (by simp only [Undisturbed, h])

/-! ## The children only get more -/

theorem childrenOf_grows {C : FileSystem → Nat → Option (List Char) → Prop} {fs fs' : FileSystem}
    {id : Nat} (ht : fs.Tree) (hid : fs.Has id) (hg : Grows C fs fs') :
    fs'.Has id ∧ ∃ new, fs'.childrenOf id = new ++ fs.childrenOf id := by
  induction hg with
  | refl => exact ⟨hid, [], rfl⟩
  | tail hg hw ih =>
    obtain ⟨hhas, new, hnew⟩ := ih
    rcases hw with hs | ⟨parent, name, -, -, ha⟩
    · exact ⟨(hs.has id).2 hhas, new, by rw [hs.childrenOf, hnew]⟩
    · refine ⟨(ha.has id).2 (Or.inr hhas), ?_⟩
      rw [ha.childrenOf_of_has (ht.grows hg) hhas]
      split
      next => exact ⟨_ :: new, by rw [hnew, List.cons_append]⟩
      next => exact ⟨new, hnew⟩

namespace Iteration

/-- The iteration of a folder that began with the children `original`. -/
structure Inv (original : List Nat) (t : Iteration) : Prop where
  tree : t.vfs.fs.Tree
  has : t.vfs.fs.Has t.iterator.nodeID
  suffix : ∃ new, t.children = new ++ original
  position_le : t.iterator.position ≤ t.children.length

/-- How often the `j`-th of the original children has been returned, and once more if it is still to
come. -/
def due (original : List Nat) (t : Iteration) (j : Nat) : Nat :=
  t.returned.count (original.getD j 0) +
    if t.children.length + j < t.iterator.position + original.length then 0 else 1

/-- What one event does to the iteration. -/
structure Step (original : List Nat) (t t' : Iteration) : Prop where
  inv : t'.Inv original
  le : t.children.length ≤ t'.children.length
  due_eq : ∀ j < original.length, t'.due original j = t.due original j +
    if t.children.length + j < t.iterator.position + original.length ∧
      t.iterator.position + original.length ≤ t'.children.length + j then 1 else 0

variable {t t' : Iteration} {original : List Nat}

/-- A call of another thread returns nothing; a child that it moves behind the position is due once
more. -/
theorem step_call {original new : List Nat} (h : t.Inv original)
    (htree : t'.vfs.fs.Tree) (hhas : t'.vfs.fs.Has t'.iterator.nodeID)
    (hiterator : t'.iterator = t.iterator) (hreturned : t'.returned = t.returned)
    (hchildren : t'.children = new ++ t.children) : Step original t t' := by
  obtain ⟨before, hbefore⟩ := h.suffix
  have hlen : t'.children.length = new.length + t.children.length := by
    rw [hchildren, List.length_append]
  have hpos := h.position_le
  refine ⟨⟨htree, hhas, ⟨new ++ before, ?_⟩, ?_⟩, by omega, fun j _ => ?_⟩
  · rw [hchildren, hbefore, List.append_assoc]
  · rw [hiterator]
    omega
  · rw [due, due, hiterator, hreturned]
    by_cases hpast : t.children.length + j < t.iterator.position + original.length
    · by_cases hdue : t.iterator.position + original.length ≤ t'.children.length + j
      · rw [if_neg (by omega), if_pos hpast, if_pos ⟨hpast, hdue⟩]
      · rw [if_pos (by omega), if_pos hpast, if_neg (by omega)]
    · rw [if_neg (by omega), if_neg hpast, if_neg (by omega)]

theorem step_successful {item : Nat} (h : t.Inv original)
    (hitem : t.children[t.iterator.position]? = some item) (hvfs : t'.vfs = t.vfs)
    (hnodeID : t'.iterator.nodeID = t.iterator.nodeID)
    (hposition : t'.iterator.position = t.iterator.position + 1)
    (hreturned : t'.returned = item :: t.returned) : Step original t t' := by
  obtain ⟨new, hnew⟩ := h.suffix
  have hchildren : t'.children = t.children := by rw [children, children, hvfs, hnodeID]
  have hlt : t.iterator.position < t.children.length := (List.getElem?_eq_some_iff.1 hitem).1
  have hlen : t.children.length = new.length + original.length := by
    rw [hnew, List.length_append]
  have hnodup : (new ++ original).Nodup := hnew ▸ h.tree.nodup t.iterator.nodeID
  refine ⟨⟨hvfs ▸ h.tree, ?_, hchildren ▸ h.suffix, ?_⟩, by rw [hchildren], fun j hj => ?_⟩
  · rw [hvfs, hnodeID]
    exact h.has
  · rw [hposition, hchildren]
    exact hlt
  -- the item is the `j`-th original child exactly if the position has come to it
  have hiff : item = original.getD j 0 ↔ t.iterator.position = new.length + j := by
    have hj' : t.children[new.length + j]? = some (original.getD j 0) := by
      rw [hnew, List.getElem?_append_right (by omega), Nat.add_sub_cancel_left,
        List.getElem?_eq_getElem hj, List.getD_eq_getElem _ _ hj]
    constructor
    · intro heq
      rw [heq, hnew] at hitem
      rw [hnew] at hj'
      exact (List.getElem?_inj (by rw [← hnew]; exact hlt) hnodup).1 (hitem.trans hj'.symm)
    · intro heq
      rw [heq, hj'] at hitem
      exact (Option.some.inj hitem).symm
  rw [due, due, hchildren, hposition, hreturned]
  by_cases hpos : t.iterator.position = new.length + j
  · rw [hiff.2 hpos, List.count_cons_self, if_pos (by omega), if_neg (by omega), if_neg (by omega)]
  · rw [List.count_cons_of_ne (fun heq => hpos (hiff.1 heq))]
    by_cases hpast : new.length + j < t.iterator.position
    · rw [if_pos (by omega), if_pos (by omega), if_neg (by omega)]
    · rw [if_neg (by omega), if_neg (by omega), if_neg (by omega)]

theorem step_none (h : t.Inv original)
    (hvfs : t'.vfs = t.vfs) (hiterator : t'.iterator = t.iterator)
    (hreturned : t'.returned = t.returned) : Step original t t' := by
  have hchildren : t'.children = t.children := by rw [children, children, hvfs, hiterator]
  refine ⟨⟨hvfs ▸ h.tree, ?_, hchildren ▸ h.suffix, ?_⟩, by rw [hchildren], fun j _ => ?_⟩
  · rw [hvfs, hiterator]
    exact h.has
  · rw [hiterator, hchildren]
    exact h.position_le
  · rw [due, due, hchildren, hiterator, hreturned, if_neg (by omega : ¬ (_ ∧ _)), Nat.add_zero]

theorem step_spec {event : DirectoryEvent} (h : t.Inv original) (hstep : t.step event = some t') :
    Step original t t' ∧ (t'.ended → t.children.length ≤ t.iterator.position ∧
      t'.iterator = t.iterator ∧ t'.children = t.children) := by
  unfold step at hstep
  split at hstep
  next => cases hstep
  next hended =>
    cases event with
    | call call =>
      obtain ⟨vfs, hcall, rfl⟩ := Option.map_eq_some_iff.1 hstep
      have hg := Vfs.grows_call h.tree hcall
      obtain ⟨hhas, new, hnew⟩ := childrenOf_grows h.tree h.has hg
      exact ⟨step_call h (h.tree.grows hg) hhas rfl rfl hnew, fun hend => absurd hend hended⟩
    | read causing =>
      obtain ⟨⟨iterator, result⟩, hread, rfl⟩ := Option.map_eq_some_iff.1 hstep
      rw [readDirectory] at hread
      split at hread
      next =>
        cases hread
        exact ⟨step_none h rfl rfl rfl, fun hend => absurd hend hended⟩
      next =>
        split at hread
        next hnone =>
          cases hread
          exact ⟨step_none h rfl rfl rfl, fun _ => ⟨List.getElem?_eq_none_iff.1 hnone, rfl, rfl⟩⟩
        next item hitem =>
          obtain ⟨node, -, hread⟩ := Option.bind_eq_some_iff.1 hread
          obtain ⟨name, -, hread⟩ := Option.bind_eq_some_iff.1 hread
          cases hread
          exact ⟨step_successful h hitem rfl rfl rfl rfl, fun hend => absurd hend hended⟩

/-! ## Whole iterations -/

/-- Over a run no child becomes less often due, and none more often exactly if it was undisturbed. -/
theorem run_spec {events : List DirectoryEvent}
    (h : t.Inv original) (hrun : iterations.run t events = some t') :
    t'.Inv original ∧ (∀ j < original.length, t.due original j ≤ t'.due original j) ∧
      (Undisturbed original.length t events ↔
        ∀ j < original.length, t'.due original j = t.due original j) := by
  induction events generalizing t with
  | nil =>
    cases hrun
    exact ⟨h, fun _ _ => le_refl _, by simp [Undisturbed]⟩
  | cons event events ih =>
    obtain ⟨t1, hstep, hrun⟩ := Option.bind_eq_some_iff.1 hrun
    obtain ⟨hs, -⟩ := step_spec h hstep
    obtain ⟨hinv, hle, hiff⟩ := ih hs.inv hrun
    have hmono : ∀ j < original.length, t.due original j ≤ t1.due original j := by
      intro j hj
      rw [hs.due_eq j hj]
      exact Nat.le_add_right _ _
    -- a disturbing event moves the child in front of the position behind it
    have hgood : (t1.children.length = t.children.length ∨
        t.iterator.position + original.length ≤ t.children.length) ↔
          ∀ j < original.length, t1.due original j = t.due original j := by
      constructor
      · intro hgood j hj
        rw [hs.due_eq j hj, if_neg (by omega), Nat.add_zero]
      · intro hdue
        by_contra hbad
        obtain ⟨new, hnew⟩ := h.suffix
        have hlen : t.children.length = new.length + original.length := by
          rw [hnew, List.length_append]
        have hpos := h.position_le
        have hj : t.iterator.position - new.length - 1 < original.length := by omega
        have heq := hs.due_eq _ hj
        rw [hdue _ hj, if_pos] at heq
        · omega
        · have hle1 := hs.le
          omega
    refine ⟨hinv, fun j hj => (hmono j hj).trans (hle j hj), ?_⟩
    rw [Undisturbed]
    simp only [show t.step event = some t1 from hstep]
    rw [hgood, hiff]
    constructor
    · rintro ⟨hfirst, hrest⟩ j hj
      rw [hrest j hj, hfirst j hj]
    · intro hall
      have hfirst : ∀ j < original.length, t1.due original j = t.due original j := fun j hj =>
        le_antisymm ((hle j hj).trans (hall j hj).le) (hmono j hj)
      exact ⟨hfirst, fun j hj => by rw [hall j hj, hfirst j hj]⟩

theorem run_ended {events : List DirectoryEvent}
    (h : t.Inv original) (hopen : t.ended = false) (hrun : iterations.run t events = some t')
    (hend : t'.ended = true) : t'.children.length ≤ t'.iterator.position := by
  induction events generalizing t with
  | nil =>
    cases hrun
    rw [hopen] at hend
    cases hend
  | cons event events ih =>
    obtain ⟨t1, hstep, hrun⟩ := Option.bind_eq_some_iff.1 hrun
    obtain ⟨hs, hlast⟩ := step_spec h hstep
    cases hended : t1.ended with
    | false => exact ih hs.inv hended hrun
    | true =>
      obtain ⟨hle, hiterator, hchildren⟩ := hlast hended
      cases events with
      | nil =>
        cases hrun
        rw [hiterator, hchildren]
        exact hle
      | cons event' events =>
        obtain ⟨t2, hstep2, -⟩ := Option.bind_eq_some_iff.1 hrun
        have hover : t1.step event' = none := by
          unfold step
          rw [if_pos hended]
        rw [show iterations.step t1 event' = t1.step event' from rfl, hover] at hstep2
        cases hstep2

/-- Every child at the start is returned exactly once, if and only if no node is added once one has
been returned. -/
theorem each_child_returned_once_iff {t t' : Iteration} {events : List DirectoryEvent}
    (hinit : iterations.init t) (hrun : iterations.run t events = some t') (hend : t'.ended = true) :
    (∀ child ∈ t.children, t'.returned.count child = 1) ↔
      Undisturbed t.children.length t events := by
  obtain ⟨vfs, nodeID, hreach, hhas, rfl⟩ := hinit
  obtain ⟨original, horiginal⟩ : ∃ original, original = (start vfs nodeID).children := ⟨_, rfl⟩
  rw [← horiginal]
  have hinv : (start vfs nodeID).Inv original :=
    ⟨Vfs.reachable_tree hreach, hhas, ⟨[], horiginal.symm⟩, Nat.zero_le _⟩
  obtain ⟨hinv', -, hiff⟩ := run_spec hinv hrun
  have hbehind := run_ended hinv rfl hrun hend
  -- at the start every child is due once, at the end none is still to come
  have hstart : ∀ j < original.length, (start vfs nodeID).due original j = 1 := by
    intro j hj
    rw [due, ← horiginal, if_neg (by simp [start])]
    rfl
  have hfinal : ∀ j < original.length,
      t'.due original j = t'.returned.count (original.getD j 0) := by
    intro j hj
    rw [due, if_pos (by omega), Nat.add_zero]
  rw [hiff]
  constructor
  · intro hall j hj
    rw [hstart j hj, hfinal j hj]
    exact hall _ (by rw [List.getD_eq_getElem _ _ hj]; exact List.getElem_mem hj)
  · intro hall child hchild
    obtain ⟨j, hj, rfl⟩ := List.getElem_of_mem hchild
    rw [← List.getD_eq_getElem original 0 hj, ← hfinal j hj, hall j hj, hstart j hj]

theorem each_child_returned_once_in_sample : ∃ t : Iteration,
    iterations.run (.start Vfs.sample 0)
      [.call (.refresh 0 0), .read (some .successful), .call (.fsCreateNode 0 "c".toList .file 7),
        .read none, .read none, .read none] = some t ∧
    t.returned = [1, 4, 4] ∧
    ∀ child ∈ (Iteration.start Vfs.sample 0).children, t.returned.count child = 1 := by
  have hinit : iterations.init (.start Vfs.sample 0) :=
    ⟨Vfs.sample, 0, .init rfl, by decide +kernel, rfl⟩
  obtain ⟨t, ht, hreturned, hend⟩ : ∃ t ∈ iterations.run (.start Vfs.sample 0)
      [.call (.refresh 0 0), .read (some .successful), .call (.fsCreateNode 0 "c".toList .file 7),
        .read none, .read none, .read none], t.returned = [1, 4, 4] ∧ t.ended = true := by
    decide +kernel
  exact ⟨t, ht, hreturned, (each_child_returned_once_iff hinit ht hend).2 (by decide +kernel)⟩

/-- An iteration of `/mount`: a delegate is registered after the first of its two children has been
returned. -/
theorem child_returned_twice : ¬ ∀ (t t' : Iteration) (events : List DirectoryEvent),
    iterations.init t → iterations.run t events = some t' → t'.ended = true →
      ∀ child ∈ t.children, t'.returned.count child = 1 := by
  intro h
  have hinit : iterations.init (.start Vfs.sample 1) :=
    ⟨Vfs.sample, 1, .init rfl, by decide +kernel, rfl⟩
  obtain ⟨t, ht, hreturned, hend⟩ : ∃ t ∈ iterations.run (.start Vfs.sample 1)
      [.call (.refresh 1 0), .read (some .successful), .call (.createDelegate 8 "disk".toList 0 true),
        .read none, .read none, .read none], t.returned = [2, 3, 3] ∧ t.ended = true := by
    decide +kernel
  have honce := h _ t _ hinit ht hend 3 (by decide +kernel)
  rw [hreturned] at honce
  exact absurd honce (by decide)

end Iteration

end MeetixOS.Kernel
