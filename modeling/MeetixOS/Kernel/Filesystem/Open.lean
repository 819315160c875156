import Mathlib.Data.List.Find
import MeetixOS.Kernel.Filesystem.Names

/-! # The open call

`SYSCALL_HANDLER(fsOpen)` with its two handlers: `FsTransactionHandlerDiscoveryOpen` discovers the path, one
node a round from the root, and `FsTransactionHandlerOpen` opens what was found. Where the last round finds
the rest of the path, `finishTransaction` does the after-work again.

A request to a tasked delegate fails at once, and what is left in its transaction storage, `storage`, is
taken as the answer. A round that reads `FS_DISCOVERY_SUCCESSFUL` there makes no node and is repeated.
`resolve` is one walk along the path that amounts to the rounds (`fsOpen_outcome`). -/

namespace MeetixOS.Kernel

open MeetixOS.Lib FileSystem

/-! ## The delegates -/

/-- What an `FsDelegateTasked` finds in its transaction storage. -/
structure TransactionStorage where
  discoveryStatus : FsDiscoveryStatus
  openStatus : FsOpenStatus

namespace Vfs

/-- `requestDiscovery` and `finishDiscovery` of a delegate. -/
def delegateDiscovery (storage : Tid → TransactionStorage) (s : Vfs) (delegate : FsDelegate)
    (parent : Nat) (child : List Char) : Option (Vfs × FsDiscoveryStatus) :=
  match delegate with
  | .ramdisk => s.requestDiscovery parent child
  | .mount => some (s, .notFound)
  | .pipe => some (s, .error)
  | .tasked thread => some (s, (storage thread).discoveryStatus)

/-- `requestOpen` and `finishOpen` of a delegate. -/
def delegateOpen (storage : Tid → TransactionStorage) (s : Vfs) (delegate : FsDelegate)
    (node : Nat) (filename : List Char) (flags : Int) (discoveryStatus : FsDiscoveryStatus) :
    Option (Vfs × Nat × FsOpenStatus) :=
  match delegate with
  | .ramdisk => s.requestOpen node filename flags discoveryStatus
  | .mount => some (s, node, .error)
  | .pipe => some (s, node, .error)
  | .tasked thread => some (s, node, (storage thread).openStatus)

end Vfs

/-! ## The call -/

/-- The caller and the inputs of `SyscallFsOpen`. -/
structure OpenCall where
  pid : Pid
  workingDirectory : List Char
  path : List Char
  flags : Int
  storage : Tid → TransactionStorage

/-- The path that is discovered. -/
def OpenCall.absolutePath (c : OpenCall) : List Char :=
  concatAsAbsolutePath c.workingDirectory c.path

/-- The VFS and the outputs of `SyscallFsOpen`; `created` are the descriptors made, the last one
first. -/
structure OpenState where
  vfs : Vfs
  openFd : Int
  openStatus : FsOpenStatus
  created : List Int := []

/-- `FsTransactionHandlerOpen::finishTransaction`. -/
def finishOpen (c : OpenCall) (t : OpenState) (vfs : Vfs) (node : FsNode) (status : FsOpenStatus) :
    OpenState :=
  if status = .successful then
    let (fs, openFd) := vfs.fs.mapFile c.pid node c.flags (-1)
    { vfs := { vfs with fs }
      openFd
      openStatus := status
      created := if isOpenable node then openFd :: t.created else t.created }
  else { t with vfs, openFd := -1, openStatus := status }

/-- `FsTransactionHandlerDiscoveryOpen::afterFinishTransaction`, with the open that it starts. -/
def afterFinishTransaction (c : OpenCall) (t : OpenState) (status : FsDiscoveryStatus)
    (discoveredNode : Nat) : Option OpenState :=
  if status = .successful ∨ status = .notFound then
    match t.vfs.fs.getDelegate discoveredNode with
    | none => some { t with openStatus := .error }
    | some delegate => do
        let (vfs, node, openStatus) ←
          t.vfs.delegateOpen c.storage delegate discoveredNode c.path c.flags status
        let node ← vfs.fs.nodes.get node
        some (finishOpen c t vfs node openStatus)
  else some { t with openFd := -1, openStatus := .error }

/-- How `FsTransactionHandlerDiscovery::startTransaction` ends. -/
inductive DiscoveryStart
  | immediateFinish (t : OpenState) (node : Nat)
  | failed (t : OpenState)
  | withWaiter (t : OpenState) (status : FsDiscoveryStatus) (lastDiscoveredParent : Nat)

/-- `FsTransactionHandlerDiscovery::startTransaction`. Where it calls `finishTransaction`, all nodes
have been discovered. -/
def startTransaction (c : OpenCall) (t : OpenState) : Option DiscoveryStart :=
  let existing := t.vfs.fs.findExisting c.absolutePath
  match existing.child with
  | some child =>
    (afterFinishTransaction c t .successful child).map fun t => .immediateFinish t child
  | none =>
    match t.vfs.fs.getDelegate existing.parent with
    | none => (afterFinishTransaction c t .error existing.parent).map .failed
    | some delegate => do
        let (vfs, status) ←
          t.vfs.delegateDiscovery c.storage delegate existing.parent existing.nameCurrent
        some (.withWaiter { t with vfs } status existing.parent)

/-- The waiter calls `FsTransactionHandlerDiscovery::finishTransaction` until it is done, for at most
`rounds` rounds. -/
def finishTransactions (c : OpenCall) :
    (rounds : Nat) → OpenState → FsDiscoveryStatus → (lastDiscoveredParent : Nat) → Option OpenState
  | 0, _, _, _ => none
  | rounds + 1, t, status, lastDiscoveredParent =>
    if status = .successful then do
      match ← startTransaction c t with
      | .failed t => some t
      | .withWaiter t status parent => finishTransactions c rounds t status parent
      | .immediateFinish t node => afterFinishTransaction c t .successful node
    else afterFinishTransaction c t status lastDiscoveredParent

/-- `SYSCALL_HANDLER(fsOpen)`, to the end of the call. -/
def fsOpen (c : OpenCall) (rounds : Nat) (t : OpenState) : Option OpenState :=
  if pathMax ≤ c.absolutePath.length then none
  else do
    match ← startTransaction c t with
    | .immediateFinish t _ => some t
    | .failed t => some { t with openStatus := .error }
    | .withWaiter t status parent => finishTransactions c rounds t status parent

/-! ## One walk along the path -/

/-- Where a path leads. -/
inductive Resolution
  /-- To a node; `discovered` says that nodes on the way were made for the call. -/
  | found (node : Nat) (discovered : Bool)
  /-- To a node without the child `name`; `rest` are the names behind it. -/
  | missing (parent : Nat) (name : List Char) (rest : List (List Char)) (status : FsDiscoveryStatus)
  | noDelegate (parent : Nat)
  deriving DecidableEq

/-- Follows names from `current`; the delegates are asked for missing nodes, perhaps forever. -/
def resolveFrom (c : OpenCall) (s : Vfs) (current : Nat) (discovered : Bool) :
    List (List Char) → Option (Vfs × Resolution)
  | [] => some (s, .found current discovered)
  | name :: names =>
    if name = dotDot then
      resolveFrom c s ((s.fs.parentOf current).getD current) discovered names
    else if name = dot then resolveFrom c s current discovered names
    else
      match s.fs.findChild current name with
      | some next => resolveFrom c s next discovered names
      | none =>
        match s.fs.getDelegate current with
        | none => some (s, .noDelegate current)
        | some delegate =>
          match s.delegateDiscovery c.storage delegate current name with
          | none => none
          | some (s', status) =>
            if status = .successful then
              match s'.fs.findChild current name with
              | some next => resolveFrom c s' next true names
              | none => none
            else some (s', .missing current name names status)

/-- Follows the path of the call. -/
def resolve (c : OpenCall) (s : Vfs) : Option (Vfs × Resolution) :=
  resolveFrom c s s.fs.root false (pathNames c.absolutePath)

/-- What the call does with the node that it has found, or the last one before it was missing. -/
def Outcome (c : OpenCall) (t : OpenState) (s : Vfs) (t' : OpenState) : Resolution → Prop
  | .found node false => afterFinishTransaction c { t with vfs := s } .successful node = some t'
  | .found node true =>
    (afterFinishTransaction c { t with vfs := s } .successful node).bind
      (fun t1 => afterFinishTransaction c t1 .successful node) = some t'
  | .missing parent _ _ status => afterFinishTransaction c { t with vfs := s } status parent = some t'
  | .noDelegate _ => t' = { t with vfs := s, openFd := -1, openStatus := .error }

/-! ## Walks and rounds -/

namespace FileSystem

variable {fs fs' : FileSystem}

theorem findExistingFrom_split {c : Nat} {names : List (List Char)}
    (h : (fs.findExistingFrom c names).child = none) :
    ∃ before rest, names = before ++ (fs.findExistingFrom c names).nameCurrent :: rest ∧
      (fs.findExistingFrom c before).child = some (fs.findExistingFrom c names).parent ∧
      fs.findChild (fs.findExistingFrom c names).parent (fs.findExistingFrom c names).nameCurrent =
        none ∧
      (fs.findExistingFrom c names).nameCurrent ≠ dotDot ∧
      (fs.findExistingFrom c names).nameCurrent ≠ dot := by
  induction names generalizing c with
  | nil => cases h
  | cons n names ih =>
    rw [findExistingFrom] at h ⊢
    by_cases hdots : n = dotDot
    · rw [if_pos hdots] at h ⊢
      obtain ⟨before, rest, hnames, hfound, hrest⟩ := ih h
      refine ⟨n :: before, rest, by rw [List.cons_append, ← hnames], ?_, hrest⟩
      rw [findExistingFrom, if_pos hdots, hfound]
    · rw [if_neg hdots] at h ⊢
      by_cases hdot : n = dot
      · rw [if_pos hdot] at h ⊢
        obtain ⟨before, rest, hnames, hfound, hrest⟩ := ih h
        refine ⟨n :: before, rest, by rw [List.cons_append, ← hnames], ?_, hrest⟩
        rw [findExistingFrom, if_neg hdots, if_pos hdot, hfound]
      · rw [if_neg hdot] at h ⊢
        cases hfind : fs.findChild c n with
        | none => exact ⟨[], names, rfl, rfl, hfind, hdots, hdot⟩
        | some next =>
          rw [hfind] at h
          obtain ⟨before, rest, hnames, hfound, hrest⟩ := ih h
          refine ⟨n :: before, rest, by rw [List.cons_append, ← hnames], ?_, hrest⟩
          rw [findExistingFrom, if_neg hdots, if_neg hdot, hfind]
          exact hfound

theorem findChild_adds {parent q x : Nat} {n m : List Char} (ht : fs.Tree)
    (ha : Adds fs fs' parent (some n)) (hnone : fs.findChild parent n = none)
    (h : fs.findChild q m = some x) : fs'.findChild q m = some x := by
  have hne : ¬ (q = parent ∧ m = n) := by
    rintro ⟨rfl, rfl⟩
    rw [hnone] at h
    cases h
  have hq : fs.Has q := by
    by_contra hq
    rw [Has, Bool.not_eq_true, Option.isSome_eq_false_iff, Option.isNone_iff_eq_none] at hq
    rw [findChild, childrenOf, hq] at h
    cases h
  have hold : (fs.childrenOf q).find? (fun child => fs'.nameOf child = some m) = some x := by
    rw [← h, findChild]
    refine List.find?_congr fun child hchild => ?_
    rw [ha.nameOf_of_has ht (ht.child q child hchild).1]
  rw [findChild, ha.childrenOf_of_has ht hq]
  split
  next hp =>
    rw [List.find?_cons_of_neg, hold]
    rw [ha.nameOf, if_pos rfl]
    simp only [Option.some.injEq, decide_eq_true_eq]
    exact fun heq => hne ⟨hp, heq.symm⟩
  next => exact hold

variable {n : List Char} {parent : Nat}

theorem findExistingFrom_adds {parent c q : Nat} {names : List (List Char)} (ht : fs.Tree)
    (hc : fs.Has c) (ha : Adds fs fs' parent (some n)) (hnone : fs.findChild parent n = none)
    (h : (fs.findExistingFrom c names).child = some q) :
    (fs'.findExistingFrom c names).child = some q := by
  induction names generalizing c with
  | nil => exact h
  | cons m names ih =>
    rw [findExistingFrom] at h ⊢
    split at h
    next hdots =>
      rw [if_pos hdots, ha.parentOf_of_has ht hc]
      refine ih ?_ h
      cases hp : fs.parentOf c with
      | none => exact hc
      | some p => exact (ht.of_parentOf hp).2.1
    next hdots =>
      rw [if_neg hdots]
      split at h
      next hdot =>
        rw [if_pos hdot]
        exact ih hc h
      next hdot =>
        rw [if_neg hdot]
        cases hfind : fs.findChild c m with
        | none => rw [hfind] at h; cases h
        | some next =>
          rw [hfind] at h
          rw [findChild_adds ht ha hnone hfind]
          exact ih (has_of_nameOf (findChild_spec hfind).2) h

theorem findChild_created (ht : fs.Tree) (hp : fs.Has parent)
    (ha : Adds fs fs' parent (some n)) : fs'.findChild parent n = some fs.nodeNextID := by
  rw [findChild, ha.childrenOf_of_has ht hp, if_pos rfl, List.find?_cons_of_pos]
  simp [ha.nameOf]

end FileSystem

section

variable {c : OpenCall} {s s' : Vfs}

variable {d : Bool} {names : List (List Char)} {delegate : FsDelegate} {current : Nat}

theorem resolveFrom_append {before names : List (List Char)} {current next : Nat}
    (h : (s.fs.findExistingFrom current before).child = some next) :
    resolveFrom c s current d (before ++ names) = resolveFrom c s next d names := by
  induction before generalizing current with
  | nil =>
    cases h
    rfl
  | cons n before ih =>
    rw [findExistingFrom] at h
    rw [List.cons_append, resolveFrom]
    split at h
    next hdots =>
      rw [if_pos hdots]
      exact ih h
    next hdots =>
      rw [if_neg hdots]
      split at h
      next hdot =>
        rw [if_pos hdot]
        exact ih h
      next hdot =>
        rw [if_neg hdot]
        cases hfind : s.fs.findChild current n with
        | none => rw [hfind] at h; cases h
        | some child =>
          rw [hfind] at h
          exact ih h

theorem resolveFrom_existing {current node : Nat}
    (h : (s.fs.findExistingFrom current names).child = some node) :
    resolveFrom c s current d names = some (s, .found node d) := by
  have happend : resolveFrom c s current d (names ++ []) = resolveFrom c s node d [] :=
    resolveFrom_append h
  rwa [List.append_nil] at happend

theorem delegateDiscovery_successful {parent : Nat} {child : List Char}
    (h : s.delegateDiscovery c.storage delegate parent child = some (s', .successful)) :
    s' = s ∨ (s.fs.Has parent ∧ ∃ entry : RamdiskEntry, entry.name = child ∧
      s' = { s with fs := (s.fs.createVfsNode entry parent).1 }) := by
  cases delegate with
  | ramdisk =>
    obtain ⟨hhas, ⟨rfl, -⟩ | ⟨-, hentry⟩⟩ := Vfs.requestDiscovery_eq h
    · exact Or.inl rfl
    · exact Or.inr ⟨hhas, hentry⟩
  | mount | pipe => cases h
  | tasked thread =>
    rw [Vfs.delegateDiscovery, Option.some.injEq, Prod.mk.injEq] at h
    exact Or.inl h.1.symm

theorem resolveFrom_round (ht : s.fs.Tree)
    (hmissing : (s.fs.findExistingFrom s.fs.root names).child = none)
    (hdelegate : s.fs.getDelegate (s.fs.findExistingFrom s.fs.root names).parent = some delegate)
    (hround : s.delegateDiscovery c.storage delegate
      (s.fs.findExistingFrom s.fs.root names).parent
      (s.fs.findExistingFrom s.fs.root names).nameCurrent = some (s', .successful)) (d : Bool) :
    s'.fs.Tree ∧ resolveFrom c s s.fs.root d names = resolveFrom c s' s'.fs.root true names := by
  obtain ⟨before, rest, hnames, hbefore, hnone, hdots, hdot⟩ := findExistingFrom_split hmissing
  generalize (s.fs.findExistingFrom s.fs.root names).parent = parent at *
  generalize (s.fs.findExistingFrom s.fs.root names).nameCurrent = name at *
  -- where the walk stands, the delegate is asked
  have hwalk : ∀ d, resolveFrom c s s.fs.root d names =
      match s'.fs.findChild parent name with
      | some next => resolveFrom c s' next true rest
      | none => none := by
    intro d
    rw [hnames, resolveFrom_append hbefore, resolveFrom, if_neg hdots, if_neg hdot, hnone]
    simp [hdelegate, hround]
  rcases delegateDiscovery_successful hround with rfl | ⟨hhas, entry, rfl, rfl⟩
  · refine ⟨ht, ?_⟩
    rw [hwalk, hwalk]
  · have ha := adds_createVfsNode ht hhas entry
    refine ⟨ht.adds hhas ha, ?_⟩
    have hroot := ha.root
    have hfound := findExistingFrom_adds ht ht.root_mem ha hnone hbefore
    have hnew := findChild_created ht hhas ha
    rw [hwalk, hnames, hroot, resolveFrom_append hfound, resolveFrom, if_neg hdots, if_neg hdot]
    simp [hnew]

theorem resolveFrom_noDelegate (hmissing : (s.fs.findExistingFrom current names).child = none)
    (hdelegate : s.fs.getDelegate (s.fs.findExistingFrom current names).parent = none) :
    resolveFrom c s current d names =
      some (s, .noDelegate (s.fs.findExistingFrom current names).parent) := by
  obtain ⟨before, rest, hnames, hbefore, hnone, hdots, hdot⟩ := findExistingFrom_split hmissing
  generalize (s.fs.findExistingFrom current names).parent = parent at *
  generalize (s.fs.findExistingFrom current names).nameCurrent = name at *
  rw [hnames, resolveFrom_append hbefore, resolveFrom, if_neg hdots, if_neg hdot, hnone]
  simp [hdelegate]

theorem resolveFrom_missing {status : FsDiscoveryStatus}
    (hmissing : (s.fs.findExistingFrom current names).child = none)
    (hdelegate : s.fs.getDelegate (s.fs.findExistingFrom current names).parent = some delegate)
    (hround : s.delegateDiscovery c.storage delegate
      (s.fs.findExistingFrom current names).parent
      (s.fs.findExistingFrom current names).nameCurrent = some (s', status))
    (hstatus : status ≠ .successful) :
    ∃ name rest, resolveFrom c s current d names =
      some (s', .missing (s.fs.findExistingFrom current names).parent name rest status) := by
  obtain ⟨before, rest, hnames, hbefore, hnone, hdots, hdot⟩ := findExistingFrom_split hmissing
  generalize (s.fs.findExistingFrom current names).parent = parent at *
  generalize (s.fs.findExistingFrom current names).nameCurrent = name at *
  refine ⟨name, rest, ?_⟩
  rw [hnames, resolveFrom_append hbefore, resolveFrom, if_neg hdots, if_neg hdot, hnone]
  simp [hdelegate, hround, if_neg hstatus]

end

/-! ## What the rounds amount to -/

section

variable {c : OpenCall} {t t' : OpenState}

theorem startTransaction_cases {start : DiscoveryStart} (h : startTransaction c t = some start) :
    (∃ t1 node, start = .immediateFinish t1 node ∧
      (t.vfs.fs.findExisting c.absolutePath).child = some node ∧
      afterFinishTransaction c t .successful node = some t1) ∨
    ((t.vfs.fs.findExisting c.absolutePath).child = none ∧
      t.vfs.fs.getDelegate (t.vfs.fs.findExisting c.absolutePath).parent = none ∧
      start = .failed { t with openFd := -1, openStatus := .error }) ∨
    (∃ delegate vfs status, (t.vfs.fs.findExisting c.absolutePath).child = none ∧
      t.vfs.fs.getDelegate (t.vfs.fs.findExisting c.absolutePath).parent = some delegate ∧
      t.vfs.delegateDiscovery c.storage delegate (t.vfs.fs.findExisting c.absolutePath).parent
        (t.vfs.fs.findExisting c.absolutePath).nameCurrent = some (vfs, status) ∧
      start = .withWaiter { t with vfs } status
        (t.vfs.fs.findExisting c.absolutePath).parent) := by
  rw [startTransaction] at h
  cases hchild : (t.vfs.fs.findExisting c.absolutePath).child with
  | some node =>
    rw [hchild] at h
    obtain ⟨t1, hafter, rfl⟩ := Option.map_eq_some_iff.1 h
    exact Or.inl ⟨t1, node, rfl, rfl, hafter⟩
  | none =>
    rw [hchild] at h
    cases hdelegate : t.vfs.fs.getDelegate (t.vfs.fs.findExisting c.absolutePath).parent with
    | none =>
      rw [hdelegate] at h
      refine Or.inr (Or.inl ⟨rfl, rfl, ?_⟩)
      simpa [afterFinishTransaction] using h.symm
    | some delegate =>
      rw [hdelegate] at h
      obtain ⟨⟨vfs, status⟩, hround, h⟩ := Option.bind_eq_some_iff.1 h
      cases h
      exact Or.inr (Or.inr ⟨delegate, vfs, status, rfl, rfl, hround, rfl⟩)

theorem finishTransactions_outcome {rounds : Nat} {t1 : OpenState} {status : FsDiscoveryStatus}
    {parent : Nat} (ht : t.vfs.fs.Tree) (hstart : startTransaction c t = some (.withWaiter t1 status parent))
    (h : finishTransactions c rounds t1 status parent = some t') (d : Bool) :
    ∃ s r, resolveFrom c t.vfs t.vfs.fs.root d (pathNames c.absolutePath) = some (s, r) ∧
      Outcome c t s t' r := by
  induction rounds generalizing t t1 status parent d with
  | zero => cases h
  | succ rounds ih =>
    obtain ⟨_, _, hwrong, -⟩ | ⟨-, -, hwrong⟩ | ⟨delegate, vfs, status', hmissing, hdelegate, hround, heq⟩ :=
      startTransaction_cases hstart
    · cases hwrong
    · cases hwrong
    · cases heq
      rw [finishTransactions] at h
      by_cases hstatus : status = .successful
      · subst hstatus
        obtain ⟨next, hnext, h⟩ := Option.bind_eq_some_iff.1 h
        obtain ⟨ht1, hwalk⟩ := resolveFrom_round ht hmissing hdelegate hround d
        rw [hwalk]
        rcases startTransaction_cases hnext with
          ⟨t2, node, rfl, hfound, hafter⟩ | ⟨hnone, hno, rfl⟩ | ⟨_, _, _, _, _, _, hwait⟩
        · refine ⟨vfs, .found node true, resolveFrom_existing hfound, ?_⟩
          rw [Outcome, hafter]
          exact h
        · refine ⟨vfs, _, resolveFrom_noDelegate hnone hno, ?_⟩
          cases h
          rfl
        · rw [hwait] at h hnext
          exact ih ht1 hnext h true
      · rw [if_neg hstatus] at h
        obtain ⟨name, rest, hwalk⟩ := resolveFrom_missing hmissing hdelegate hround hstatus
        exact ⟨vfs, _, hwalk, h⟩

theorem fsOpen_outcome {rounds : Nat} (ht : t.vfs.fs.Tree) (h : fsOpen c rounds t = some t') :
    ∃ s r, resolve c t.vfs = some (s, r) ∧ Outcome c t s t' r := by
  rw [fsOpen] at h
  split at h
  next => cases h
  next =>
    obtain ⟨start, hstart, h⟩ := Option.bind_eq_some_iff.1 h
    rcases startTransaction_cases hstart with
      ⟨t1, node, rfl, hfound, hafter⟩ | ⟨hnone, hno, rfl⟩ | ⟨_, _, _, _, _, _, hwait⟩
    · cases h
      exact ⟨t.vfs, .found node false, resolveFrom_existing hfound, hafter⟩
    · cases h
      exact ⟨t.vfs, _, resolveFrom_noDelegate hnone hno, rfl⟩
    · rw [hwait] at h hstart
      exact finishTransactions_outcome ht hstart h false

end

end MeetixOS.Kernel
