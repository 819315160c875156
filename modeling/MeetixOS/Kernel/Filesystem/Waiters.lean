import MeetixOS.Kernel.Filesystem.References

/-! # Transactions that wait on a pipe

A read or write that a pipe cannot serve yet leaves a handler behind a `WaiterFsTransaction`, and the
scheduler repeats the request until it is finished. The handler holds raw pointers to the descriptor and the
node, while `close` and `clonefd` delete a descriptor at once. A pointer is the key of the object;
`unmapped` records that the object itself is gone. -/

open Option (bind_eq_bind bind_eq_some_iff map_eq_some_iff map_some)

namespace MeetixOS.Kernel

open MeetixOS.Lib FileDescriptors

/-! ## Handlers and their waiters -/

/-- A read or write handler that a thread of `pid` waits for, with the status that the
`FsTransactionStore` holds for it. -/
structure PendingTransaction where
  id : Nat
  pid : Pid
  fd : Int
  nodeID : Nat
  isWrite : Bool
  length : Nat
  status : FsTransactionStatus
  unmapped : Bool := false
  deriving DecidableEq

/-- The file system with the transactions that are waited for. -/
structure Transactions where
  fs : FileSystem
  nextTransaction : Nat := 0
  pending : List PendingTransaction := []

/-- The descriptors whose objects a call deletes. `clonefd` deletes in the process of the source. -/
def FileCall.unmaps (fs : FileSystem) (call : FileCall) (q : Pid) (j : Int) : Bool :=
  match call with
  | .close pid fd status =>
    status = .successful && (fs.lookup pid fd).isSome && (q = pid && j = fd)
  | .clonefd sourceFd sourcePid targetFd targetPid =>
    (fs.lookup sourcePid sourceFd).isSome && targetFd ≠ -1 &&
      (fs.lookup targetPid targetFd).isSome && (q = sourcePid && j = targetFd)
  | .processForked source fork =>
    (fs.lookup source j).isSome && (fs.lookup fork j).isSome && q = source
  | .processClosed pid => q = pid
  | .createVfsNode _ _ | .openNode _ _ _ | .pipe _ _ => false

/-- What a call does to the waiting transactions. A closed process takes its own along. -/
def FileCall.pendingAfter (fs : FileSystem) (call : FileCall) (pending : List PendingTransaction) :
    List PendingTransaction :=
  match call with
  | .processClosed pid => pending.filter fun p => p.pid ≠ pid
  | _ => pending.map fun p => { p with unmapped := p.unmapped || call.unmaps fs p.pid p.fd }

namespace FileSystem

/-- A write through the pointer to the pipe `id`. -/
def setPipe (fs : FileSystem) (id : Nat) (pipe : Option Pipe) : FileSystem :=
  match pipe with
  | some pipe => { fs with pipes := fs.pipes.update id pipe }
  | none => fs

/-- `requestRead` or `requestWrite` of the pipe delegate for the node. -/
def requestPipe (fs : FileSystem) (pid : Pid) (node : FsNode) (isWrite : Bool)
    (buffer : List UInt8) : Option (FileSystem × FsTransactionStatus) :=
  let pipe := fs.pipes.get node.physFsID
  if isWrite then
    (FsDelegatePipe.requestWrite pipe pid node.isBlocking buffer).map fun reply =>
      (fs.setPipe node.physFsID reply.pipe, reply.transaction)
  else
    (FsDelegatePipe.requestRead pipe pid node.isBlocking buffer).map fun reply =>
      (fs.setPipe node.physFsID reply.pipe, reply.transaction)

end FileSystem

/-! ## Steps -/

/-- What can happen: a call of some thread, a read or write of a pipe, a check of a waiter, or the
end of a waiting thread. -/
inductive TransactionEvent
  | fileCall (call : FileCall)
  | start (pid : Pid) (fd : Int) (isWrite : Bool) (buffer : List UInt8)
  | checkWaiting (id : Nat) (buffer : List UInt8)
  | threadRemoved (id : Nat)

namespace Transactions

/-- `startTransaction` of a new handler. A request that has to be repeated is repeated at once, and then
the waiter is installed whatever became of it. -/
def startTransaction (s : Transactions) (pid : Pid) (node : FsNode) (fd : Int) (isWrite : Bool)
    (buffer : List UInt8) : Option Transactions := do
  let (fs, status) ← s.fs.requestPipe pid node isWrite buffer
  let p : PendingTransaction :=
    { id := s.nextTransaction, pid, fd, nodeID := node.id, isWrite, length := buffer.length, status }
  let s := { s with fs, nextTransaction := s.nextTransaction + 1 }
  match status with
  | .finished => some s
  | .waiting => some { s with pending := p :: s.pending }
  | .repeat =>
    let (fs, status) ← s.fs.requestPipe pid node isWrite buffer
    some { s with fs, pending := { p with status } :: s.pending }

/-- `WaiterFsTransaction::isTransactionWaiting` for a handler that waits. -/
def isTransactionWaiting (s : Transactions) (p : PendingTransaction) (buffer : List UInt8) :
    Option Transactions :=
  match p.status with
  | .waiting => some s
  | .repeat => do
      let node ← s.fs.nodes.get p.nodeID
      let (fs, status) ← s.fs.requestPipe p.pid node p.isWrite buffer
      some { s with fs, pending := s.pending.map fun r => if r.id = p.id then { r with status } else r }
  | .finished => some { s with pending := s.pending.filter fun r => r.id ≠ p.id }

/-- One step. What is not a pipe has another delegate; the buffer of a check has its contents by
then. -/
def step (s : Transactions) : TransactionEvent → Option Transactions
  | .fileCall call =>
    (s.fs.call call).map fun r => { s with fs := r.1, pending := call.pendingAfter s.fs s.pending }
  | .start pid fd isWrite buffer =>
    match s.fs.lookup pid fd with
    | none => some s
    | some (node, _) =>
      if node.type = .pipe then s.startTransaction pid node fd isWrite buffer else none
  | .checkWaiting id buffer => do
      let p ← s.pending.find? fun p => p.id = id
      if p.length = buffer.length then s.isTransactionWaiting p buffer else none
  | .threadRemoved id => some { s with pending := s.pending.filter fun p => p.id ≠ id }

end Transactions

/-- All runs from the initial resources on. -/
def transactions : System Transactions TransactionEvent where
  init s := s = { fs := FileSystem.initialResources }
  step := Transactions.step

/-! ## What a handler relies on -/

/-- The descriptor and the pipe that the handler uses when it repeats its request are still there. -/
structure PendingTransaction.Served (fs : FileSystem) (p : PendingTransaction) : Prop where
  mapped : p.unmapped = false
  descriptor : ∃ content, fs.descriptor p.pid p.fd = some content ∧ content.nodeID = p.nodeID
  pipe : ∃ node, fs.nodes.get p.nodeID = some node ∧ node.type = .pipe ∧
    (fs.pipes.get node.physFsID).isSome

/-- A call keeps the pipes' references right and deletes no descriptor that another thread's handler
holds. -/
def TransactionEvent.KeepsHandlers (s : Transactions) : TransactionEvent → Prop
  | .fileCall call => call.KeepsReferences s.fs ∧
      ∀ p ∈ s.pending, call.unmaps s.fs p.pid p.fd = true → call = .processClosed p.pid
  | .start _ _ _ _ | .checkWaiting _ _ | .threadRemoved _ => True

instance (call : FileCall) (pid : Pid) : Decidable (call = .processClosed pid) :=
  match call with
  | .processClosed _ => decidable_of_iff (_ = pid) ⟨congrArg _, FileCall.processClosed.inj⟩
  | .createVfsNode _ _ | .openNode _ _ _ | .close _ _ _ | .pipe _ _ | .clonefd _ _ _ _
  | .processForked _ _ => isFalse nofun

instance (s : Transactions) (event : TransactionEvent) : Decidable (event.KeepsHandlers s) :=
  match event with
  | .fileCall _ => inferInstanceAs (Decidable (_ ∧ ∀ p ∈ s.pending, _))
  | .start _ _ _ _ | .checkWaiting _ _ | .threadRemoved _ => isTrue trivial

namespace FileSystem

variable {fs fs' : FileSystem}

/-! ## What a call leaves alone -/

/-- The descriptor `fd` of `pid`, if it is open, is the same in both states, and so is the kind of its
node. -/
def Kept (fs fs' : FileSystem) (pid : Pid) (fd : Int) : Prop :=
  ∀ content k, fs.descriptor pid fd = some content → fs.kind content.nodeID = some k →
    fs'.descriptor pid fd = some content ∧ fs'.kind content.nodeID = some k

variable {fd j : Int} {pid q : Pid}

theorem Kept.trans {a b c : FileSystem} (h : Kept a b pid fd)
    (h' : Kept b c pid fd) : Kept a c pid fd := by
  intro content k hopen hkind
  obtain ⟨hopen, hkind⟩ := h content k hopen hkind
  exact h' content k hopen hkind

theorem SameNodes.kept (hs : SameNodes fs fs')
    (hd : fs'.descriptor pid fd = fs.descriptor pid fd) : Kept fs fs' pid fd := by
  intro content k hopen hkind
  rw [hd, hs.kind]
  exact ⟨hopen, hkind⟩

theorem SameView.kept (hv : SameView fs fs') (pid : Pid) (fd : Int) : Kept fs fs' pid fd :=
  hv.toSameNodes.kept (hv.descriptor pid fd)

theorem AddsNode.kept {k : NodeKind} (ha : AddsNode fs fs' k) (h : fs.NodeInv) (pid : Pid) (fd : Int) :
    Kept fs fs' pid fd := by
  intro content k' hopen hkind
  rw [ha.descriptor, ha.kind, if_neg]
  · exact ⟨hopen, hkind⟩
  · exact (h.id_eq _ _ hkind).2.ne

theorem kept_mapFile {node : FsNode} {openFlags fd : Int}
    (hfree : fs.descriptor pid ((fs.table pid).number fd) = none) (q : Pid) (j : Int) :
    Kept fs (fs.mapFile pid node openFlags fd).1 q j := by
  intro content k hopen hkind
  rw [descriptor_mapFile, if_neg, (mapFile_pipes fs pid node openFlags fd).1.kind]
  · exact ⟨hopen, hkind⟩
  · rintro ⟨⟨rfl, -⟩, rfl⟩
    rw [hfree] at hopen
    cases hopen

theorem kept_openNode (hfree : fs.NextFree pid) (nodeID : Nat) (flags : Int) (q : Pid)
    (j : Int) : Kept fs (fs.openNode pid nodeID flags).1 q j := by
  rw [openNode]
  split
  · split
    · refine kept_mapFile ?_ q j
      exact hfree.2
    · exact fun _ _ hopen hkind => ⟨hopen, hkind⟩
  · exact fun _ _ hopen hkind => ⟨hopen, hkind⟩

theorem kept_pipe (h : fs.CountInv) {block : PipeBlock} {outWrite outRead : Int}
    (hwrite : fs.NextFree pid)
    (hread : fs.descriptor pid (s32 ((fs.table pid).nextFileDescriptor + 1)) = none)
    (hpipe : fs.pipe pid block = (fs', outWrite, outRead)) (q : Pid) (j : Int) :
    Kept fs fs' q j := by
  have hnumber : ∀ table : FileDescriptorTable, table.number (-1) = table.nextFileDescriptor :=
    fun table => if_pos rfl
  have hadds := addsNode_createPipeNode h block
  obtain ⟨fs0, hfs0⟩ : ∃ fs0, fs0 = (fs.createPipeNode block).1 := ⟨_, rfl⟩
  obtain ⟨node, hnode⟩ : ∃ node, node = (fs.createPipeNode block).2 := ⟨_, rfl⟩
  have htable : ∀ q, fs0.table q = fs.table q := by
    intro q
    rw [hfs0, table_createPipeNode]
  have hopenable : isOpenable node = true := by
    rw [hnode, createPipeNode_node]
    rfl
  simp only [FileSystem.pipe, ← hfs0, ← hnode] at hpipe
  cases hpipe
  rw [← hfs0] at hadds
  -- the node and the pipe first, then the write end, then the read end
  refine (hadds.kept h.toNodeInv q j).trans ((kept_mapFile ?_ q j).trans (kept_mapFile ?_ q j))
  · rw [hnumber, descriptor, htable]
    exact hwrite.2
  · rw [hnumber, table_mapFile, if_pos ⟨rfl, hopenable⟩, FileDescriptorTable.next_mapped, if_pos rfl,
      htable, descriptor_mapFile, hnumber, htable, if_neg (fun hc => s32_add_one_ne _ hc.2),
      descriptor, htable]
    exact hread

theorem kept_close (h : fs.RefInv) {status : FsCloseStatus}
    (hno : (FileCall.close pid fd status).unmaps fs q j = false) :
    Kept fs (fs.close pid fd status) q j := by
  have hv := sameView_getProcessTable fs pid
  simp only [FileSystem.close, nodeForDescriptor_eq]
  split
  next node content hlookup =>
    obtain ⟨hopen, hnode⟩ := kind_of_lookup hlookup
    split
    next hstatus =>
      simp only [FileCall.unmaps, hstatus, hlookup, decide_true, Option.isSome_some, Bool.true_and,
        Bool.and_eq_false_iff, decide_eq_false_iff_not] at hno
      have hid := h.keyed pid fd content hopen
      have hopenable : isOpenable node = true := by
        obtain ⟨-, k, hk, hopenable⟩ := h.named _ _ _ hopen
        obtain rfl : k = kindOf node := Option.mem_unique hk hnode
        exact hopenable
      have hopen' : (getProcessTable fs pid).1.descriptor pid content.id =
          some content := by
        rw [hv.descriptor, hid, hopen]
      refine (hv.kept q j).trans ((unmapFile_pipes _ _ _ _).1.kept ?_)
      rw [descriptor_unmapFile hopen' hopenable, if_neg]
      rintro ⟨rfl, rfl⟩
      rcases hno with hno | hno
      · exact hno rfl
      · exact hno hid
    · exact hv.kept q j
  · exact hv.kept q j

variable {status : FsCloneFdStatus} {created targetFd : Int} {targetPid : Pid}

theorem sameNodes_openTarget {sourceNode : FsNode} {sourceFdContent : FileDescriptorContent}
    {sourceAlive : Bool}
    (h : fs.openTarget sourceNode sourceFdContent sourceAlive targetFd targetPid =
      some (fs', created, status)) : SameNodes fs fs' := by
  obtain ⟨hmapped, -⟩ := mapFile_pipes fs targetPid sourceNode 0 targetFd
  have hv := sameView_getProcessTable (fs.mapFile targetPid sourceNode 0 targetFd).1 targetPid
  have hv' := sameView_getProcessTable (getProcessTable
    (fs.mapFile targetPid sourceNode 0 targetFd).1 targetPid).1 targetPid
  rcases openTarget_cases h with ⟨rfl, -, -⟩ | ⟨rfl, -, -, -⟩ | ⟨-, -, -, -, rfl⟩
  · exact hmapped
  · exact hmapped.trans hv.toSameNodes
  · exact (hmapped.trans hv.toSameNodes).trans ⟨hv'.kind, hv'.nodeNextID, hv'.pipeNextID⟩

theorem kept_clonefd (h : fs.RefInv) {sourceFd targetFd created : Int} {sourcePid targetPid : Pid}
    (hok : fs.CloneKeeps sourceFd sourcePid targetFd targetPid)
    (hclone : fs.clonefd sourceFd sourcePid targetFd targetPid = some (fs', created, status))
    (hno : (FileCall.clonefd sourceFd sourcePid targetFd targetPid).unmaps fs q j = false) :
    Kept fs fs' q j := by
  have hv := sameView_getProcessTable fs sourcePid
  rw [clonefd_eq] at hclone
  split at hclone
  · cases hclone
    exact hv.kept q j
  next node content hlookup =>
    have hclosed := (h.congr hv).closeTarget hok.getProcessTable
    intro c k hopen hkind
    -- the target itself is not open, or `clonefd` would unmap it
    have htarget : ¬(q = targetPid ∧ j = (((getProcessTable fs sourcePid).1.closeTarget
        sourcePid targetFd targetPid).table targetPid).number targetFd) := by
      rintro ⟨rfl, hj⟩
      rw [CloneKeeps] at hok
      split at hok
      next himplicit =>
        rw [himplicit, closeTarget_implicit, table_getProcessTable,
          FileDescriptorTable.number, if_pos rfl] at hj
        rw [hj, hok.2] at hopen
        cases hopen
      next hexplicit =>
        rw [FileDescriptorTable.number, if_neg hexplicit] at hj
        subst hj
        obtain ⟨rfl, -⟩ := hok (by rw [hopen]; rfl)
        have htarget : (fs.lookup sourcePid j).isSome = true := by
          rw [Option.isSome_iff_ne_none]
          intro hnone
          rw [h.lookup_eq_none hnone] at hopen
          cases hopen
        simp [FileCall.unmaps, hlookup, hexplicit, htarget] at hno
    have hframe : ((getProcessTable fs sourcePid).1.closeTarget sourcePid targetFd
        targetPid).descriptor q j = fs.descriptor q j := by
      by_cases hexplicit : targetFd = -1
      · rw [hexplicit, closeTarget_implicit, hv.descriptor]
      · rw [hclosed.frame q j, hv.descriptor]
        rintro ⟨rfl, rfl⟩
        exact htarget ⟨rfl, by rw [FileDescriptorTable.number, if_neg hexplicit]⟩
    rw [descriptor_openTarget hclone q j (fun hq hj => htarget ⟨hq, hj⟩), hframe,
      (sameNodes_openTarget hclone).kind, hclosed.kind, hv.kind]
    exact ⟨hopen, hkind⟩

theorem kept_processForked (h : fs.RefInv) {source fork : Pid}
    (hfree : ∀ fd, (fs.descriptor source fd).isSome → fs.descriptor fork fd = none)
    (hforked : fs.processForked source fork = some fs') (q : Pid) (j : Int) : Kept fs fs' q j := by
  refine (h.processForked_induction (I := fun a => Kept fs a q j) hfree hforked
    ((sameView_getProcessTable fs source).kept q j) ?_).2
  intro a b fd created status ha hkept hok hnone hclone
  refine hkept.trans (kept_clonefd ha hok hclone ?_)
  have hlookup : a.lookup fork fd = none := by
    rw [lookup, hnone, Option.bind_none]
  simp [FileCall.unmaps, hlookup]

theorem kept_processClosed (fs : FileSystem) (hq : q ≠ pid) (j : Int) :
    Kept fs (fs.processClosed pid) q j := by
  have hv := sameView_getProcessTable fs pid
  have hentry : ∀ (a : FileSystem) (entry : Int × FileDescriptorContent),
      Kept a (closeEntry pid a entry) q j := by
    intro a entry
    rw [closeEntry]
    split
    next node hnode =>
      refine (unmapFile_pipes a pid node entry.2).1.kept ?_
      rw [descriptor, table_unmapFile, if_neg (fun hc => hq hc.1), descriptor]
    · exact fun _ _ hopen hkind => ⟨hopen, hkind⟩
  have hwalk : ∀ (entries : List (Int × FileDescriptorContent)) (a : FileSystem),
      Kept a (entries.foldl (closeEntry pid) a) q j := by
    intro entries
    induction entries with
    | nil => exact fun a _ _ hopen hkind => ⟨hopen, hkind⟩
    | cons entry entries ih => exact fun a => (hentry a entry).trans (ih _)
  have hall : ∀ a : FileSystem, Kept a (unmapAll a pid) q j := by
    intro a
    have hv' := sameView_getProcessTable a pid
    have hs : SameNodes a (unmapAll a pid) :=
      ⟨hv'.kind, hv'.nodeNextID, hv'.pipeNextID⟩
    refine hs.kept ?_
    rw [descriptor, table_unmapAll, if_neg hq, descriptor]
  simp only [FileSystem.processClosed]
  exact (hv.kept q j).trans ((hwalk _ _).trans (hall _))

theorem RefInv.kept_call (h : fs.RefInv) {call : FileCall} {fds : List Int}
    (hok : call.KeepsReferences fs) (hcall : fs.call call = some (fs', fds))
    (hno : call.unmaps fs q j = false) : Kept fs fs' q j := by
  cases call with
  | createVfsNode ramdiskNode parent =>
    obtain ⟨rfl, -⟩ := hcall
    have htype : (if ramdiskNode.type = .file then FsNodeType.file else .folder) ≠ .pipe := by
      split <;> exact FsNodeType.noConfusion
    exact ((addsNode_createNode fs htype).kept h.toNodeInv q j).trans
      ((sameView_addChild _ parent fs.nodeNextID).kept q j)
  | openNode pid nodeID flags =>
    obtain ⟨rfl, -⟩ := hcall
    exact kept_openNode hok nodeID flags q j
  | close pid fd status =>
    obtain ⟨rfl, -⟩ := hcall
    exact kept_close h hno
  | pipe pid block =>
    rcases hpipe : fs.pipe pid block with ⟨fs1, outWrite, outRead⟩
    simp only [FileSystem.call, hpipe, Option.some.injEq, Prod.mk.injEq] at hcall
    obtain ⟨rfl, -⟩ := hcall
    exact kept_pipe h.toCountInv hok.1 hok.2.2 hpipe q j
  | clonefd sourceFd sourcePid targetFd targetPid =>
    rw [FileSystem.call, bind_eq_bind, bind_eq_some_iff] at hcall
    obtain ⟨⟨fs1, created, status⟩, hclone, heq⟩ := hcall
    cases heq
    exact kept_clonefd h hok hclone hno
  | processForked source fork =>
    rw [FileSystem.call, map_eq_some_iff] at hcall
    obtain ⟨fs1, hforked, heq⟩ := hcall
    cases heq
    exact kept_processForked h hok hforked q j
  | processClosed pid =>
    simp only [FileSystem.call, Option.some.injEq, Prod.mk.injEq] at hcall
    obtain ⟨rfl, -⟩ := hcall
    exact kept_processClosed fs (of_decide_eq_false hno) j

/-! ## What a request leaves alone -/

theorem RefInv.setPipe (h : fs.RefInv) {id : Nat} {pipe : Option Pipe}
    (hrefs : pipe.map Pipe.references = (fs.pipes.get id).map Pipe.references) :
    (fs.setPipe id pipe).RefInv := by
  cases pipe with
  | none => exact h
  | some pipe =>
    obtain ⟨old, hold, hsame⟩ := map_eq_some_iff.1 hrefs.symm
    have hget : ∀ j, (fs.pipes.update id pipe).get j =
        if j = id then some pipe else fs.pipes.get j := by
      intro j
      rw [HashMap.get_update, hold, map_some]
    have hnodes : SameNodes fs (fs.setPipe id (some pipe)) := ⟨fun _ => rfl, rfl, rfl⟩
    have hreferences : ∀ j, (fs.setPipe id (some pipe)).references j = fs.references j := by
      intro j
      simp only [references, FileSystem.setPipe, hget]
      by_cases hj : j = id
      · rw [if_pos hj, hj, hold]
        exact hsame.symm
      · rw [if_neg hj]
    refine ⟨⟨h.toNodeInv.congr hnodes ?_, h.keyed, h.named, ?_⟩, ?_⟩
    · intro j p hp
      rw [FileSystem.setPipe, hget] at hp
      split at hp
      next hj => exact ⟨old, hj ▸ hold⟩
      · exact ⟨p, hp⟩
    · intro n k hk hpipe q
      rw [hreferences]
      exact h.counted n k hk hpipe q
    · intro j p hp
      rw [FileSystem.setPipe, hget] at hp
      split at hp
      · cases hp
        rw [← hsame]
        exact h.referenced id old hold
      · exact h.referenced j p hp

theorem kept_setPipe (fs : FileSystem) (id : Nat) (pipe : Option Pipe) (q : Pid) (j : Int) :
    Kept fs (fs.setPipe id pipe) q j := by
  cases pipe <;> exact fun _ _ hopen hkind => ⟨hopen, hkind⟩

end FileSystem

variable {p p' : Pipe} {buffer : List UInt8}

theorem Pipe.takeBytes_references {length : Nat} {out out' : List UInt8}
    (h : p.takeBytes length out = some (p', out')) : p'.references = p.references := by
  simp only [takeBytes, bind_eq_bind] at h
  split at h
  · obtain ⟨first, -, h⟩ := bind_eq_some_iff.1 h
    obtain ⟨rest, -, h⟩ := bind_eq_some_iff.1 h
    cases h
    rfl
  · obtain ⟨bytes, -, h⟩ := bind_eq_some_iff.1 h
    cases h
    rfl

variable {bytes : List UInt8} {isBlocking : Bool} {pipe : Option Pipe} {requester : Pid}

theorem Pipe.copyIn_references {dst : Nat}
    (h : p.copyIn dst bytes = some p') : p'.references = p.references := by
  rw [copyIn] at h
  split at h
  · cases h
    rfl
  · cases h

theorem Pipe.putBytes_references
    (h : p.putBytes bytes = some p') : p'.references = p.references := by
  simp only [putBytes, bind_eq_bind] at h
  split at h
  · obtain ⟨p1, h1, h⟩ := bind_eq_some_iff.1 h
    obtain ⟨p2, h2, h⟩ := bind_eq_some_iff.1 h
    cases h
    exact (copyIn_references h2).trans (copyIn_references h1)
  · obtain ⟨p1, h1, h⟩ := bind_eq_some_iff.1 h
    have hrefs := copyIn_references h1
    cases h
    exact hrefs

theorem requestRead_references {reply : ReadReply}
    (h : FsDelegatePipe.requestRead pipe requester isBlocking buffer = some reply) :
    reply.pipe.map Pipe.references = pipe.map Pipe.references := by
  cases pipe with
  | none =>
    cases h
    rfl
  | some p =>
    simp only [FsDelegatePipe.requestRead, bind_eq_bind] at h
    obtain ⟨⟨p', buffer'⟩, htake, h⟩ := bind_eq_some_iff.1 h
    have hrefs := congrArg some (Pipe.takeBytes_references htake)
    repeat' split at h
    all_goals
      cases h
      exact hrefs

theorem requestWrite_references {reply : WriteReply}
    (h : FsDelegatePipe.requestWrite pipe requester isBlocking buffer = some reply) :
    reply.pipe.map Pipe.references = pipe.map Pipe.references := by
  cases pipe with
  | none =>
    cases h
    rfl
  | some p =>
    simp only [FsDelegatePipe.requestWrite, bind_eq_bind] at h
    split at h
    · obtain ⟨p', hput, h⟩ := bind_eq_some_iff.1 h
      have hrefs := congrArg some (Pipe.putBytes_references hput)
      cases h
      exact hrefs
    · repeat' split at h
      all_goals
        cases h
        rfl

theorem FileSystem.RefInv.requestPipe {fs fs' : FileSystem} (h : fs.RefInv) {pid : Pid}
    {node : FsNode} {isWrite : Bool} {status : FsTransactionStatus}
    (hrequest : fs.requestPipe pid node isWrite buffer = some (fs', status)) :
    fs'.RefInv ∧ ∀ q j, Kept fs fs' q j := by
  rw [FileSystem.requestPipe] at hrequest
  split at hrequest
  · obtain ⟨reply, hreply, heq⟩ := map_eq_some_iff.1 hrequest
    cases heq
    exact ⟨h.setPipe (requestWrite_references hreply), kept_setPipe fs _ _⟩
  · obtain ⟨reply, hreply, heq⟩ := map_eq_some_iff.1 hrequest
    cases heq
    exact ⟨h.setPipe (requestRead_references hreply), kept_setPipe fs _ _⟩

/-! ## Runs -/

namespace Transactions

/-- The descriptor of a handler is the one it was made for, and names a pipe. -/
structure HandlerInv (fs : FileSystem) (p : PendingTransaction) : Prop where
  mapped : p.unmapped = false
  descriptor : ∃ content k, fs.descriptor p.pid p.fd = some content ∧ content.nodeID = p.nodeID ∧
    fs.kind content.nodeID = some k ∧ k.type = .pipe

/-- The invariant of the guarded runs. -/
structure Inv (s : Transactions) : Prop where
  refs : s.fs.RefInv
  handlers : ∀ p ∈ s.pending, HandlerInv s.fs p

variable {fs fs' : FileSystem} {s s' : Transactions}

variable {p : PendingTransaction} {buffer : List UInt8}

theorem HandlerInv.kept (h : HandlerInv fs p)
    (hkept : FileSystem.Kept fs fs' p.pid p.fd) : HandlerInv fs' p := by
  obtain ⟨content, k, hopen, hnode, hkind, hpipe⟩ := h.descriptor
  obtain ⟨hopen, hkind⟩ := hkept content k hopen hkind
  exact ⟨h.mapped, content, k, hopen, hnode, hkind, hpipe⟩

theorem HandlerInv.served (hrefs : fs.RefInv) (h : HandlerInv fs p) : p.Served fs := by
  obtain ⟨content, k, hopen, hnode, hkind, hpipe⟩ := h.descriptor
  have hmem := hrefs.mem_references hopen hkind hpipe
  obtain ⟨node, hget, rfl⟩ := map_eq_some_iff.1 hkind
  refine ⟨h.mapped, ⟨content, hopen, hnode⟩, node, hnode ▸ hget, hpipe, ?_⟩
  cases hexists : fs.pipes.get node.physFsID with
  | some pipe => rfl
  | none =>
    rw [FileSystem.references, show (FileSystem.kindOf node).physFsID = node.physFsID from rfl,
      hexists] at hmem
    cases hmem

section

variable (h : s.Inv)
include h

theorem Inv.call {call : FileCall} {fds : List Int}
    (hok : (TransactionEvent.fileCall call).KeepsHandlers s)
    (hcall : s.fs.call call = some (fs', fds)) :
    ({ s with fs := fs', pending := call.pendingAfter s.fs s.pending } : Transactions).Inv := by
  obtain ⟨hrefs, hheld⟩ := hok
  refine ⟨h.refs.call hrefs hcall, ?_⟩
  by_cases hclosed : ∃ pid, call = .processClosed pid
  · obtain ⟨pid, rfl⟩ := hclosed
    intro p hp
    obtain ⟨hmem, hpid⟩ := List.mem_filter.1 hp
    refine (h.handlers p hmem).kept (h.refs.kept_call hrefs hcall ?_)
    exact decide_eq_false (of_decide_eq_true hpid)
  · have hafter : call.pendingAfter s.fs s.pending = s.pending.map fun p =>
        { p with unmapped := p.unmapped || call.unmaps s.fs p.pid p.fd } := by
      cases call with
      | processClosed pid => exact absurd ⟨pid, rfl⟩ hclosed
      | _ => rfl
    rw [hafter]
    intro p hp
    obtain ⟨old, hmem, rfl⟩ := List.mem_map.1 hp
    have hno : call.unmaps s.fs old.pid old.fd = false := by
      cases hunmaps : call.unmaps s.fs old.pid old.fd with
      | false => rfl
      | true => exact absurd ⟨old.pid, hheld old hmem hunmaps⟩ hclosed
    have hold := (h.handlers old hmem).kept (h.refs.kept_call hrefs hcall hno)
    rw [hno, Bool.or_false]
    exact hold

variable {isWrite : Bool} {node : FsNode}

theorem Inv.requestPipe {pid : Pid} {status : FsTransactionStatus}
    (hrequest : s.fs.requestPipe pid node isWrite buffer = some (fs', status)) :
    ({ s with fs := fs' } : Transactions).Inv := by
  obtain ⟨hrefs, hkept⟩ := h.refs.requestPipe hrequest
  exact ⟨hrefs, fun p hp => (h.handlers p hp).kept (hkept p.pid p.fd)⟩

theorem Inv.startTransaction {pid : Pid} {fd : Int}
    {content : FileDescriptorContent} (hlookup : s.fs.lookup pid fd = some (node, content))
    (hpipe : node.type = .pipe) (hstart : s.startTransaction pid node fd isWrite buffer = some s') :
    s'.Inv := by
  obtain ⟨hopen, hkind⟩ := FileSystem.kind_of_lookup hlookup
  have hid : node.id = content.nodeID := (h.refs.id_eq _ _ hkind).1
  have hnew : ∀ status, HandlerInv s.fs
      { id := s.nextTransaction
        pid, fd, nodeID := node.id, isWrite, length := buffer.length, status } :=
    fun status => ⟨rfl, content, _, hopen, hid.symm, hkind, hpipe⟩
  rw [Transactions.startTransaction, bind_eq_bind, bind_eq_some_iff] at hstart
  obtain ⟨⟨fs1, status⟩, hfirst, hstart⟩ := hstart
  have h1 := h.requestPipe hfirst
  have hkept1 := (h.refs.requestPipe hfirst).2
  cases status with
  | finished =>
    cases hstart
    exact ⟨h1.refs, h1.handlers⟩
  | waiting =>
    cases hstart
    exact ⟨h1.refs, List.forall_mem_cons.2 ⟨(hnew _).kept (hkept1 pid fd), h1.handlers⟩⟩
  | «repeat» =>
    obtain ⟨⟨fs2, status⟩, hsecond, hstart⟩ := bind_eq_some_iff.1 hstart
    have h2 := h1.requestPipe hsecond
    have hkept2 := (h1.refs.requestPipe hsecond).2
    cases hstart
    exact ⟨h2.refs, List.forall_mem_cons.2
      ⟨((hnew _).kept (hkept1 pid fd)).kept (hkept2 pid fd), h2.handlers⟩⟩

theorem Inv.filter (keep : PendingTransaction → Bool) :
    ({ s with pending := s.pending.filter keep } : Transactions).Inv :=
  ⟨h.refs, fun p hp => h.handlers p (List.mem_filter.1 hp).1⟩

theorem Inv.isTransactionWaiting (hcheck : s.isTransactionWaiting p buffer = some s') : s'.Inv := by
  rw [Transactions.isTransactionWaiting] at hcheck
  split at hcheck
  · cases hcheck
    exact h
  · obtain ⟨node, -, hcheck⟩ := bind_eq_some_iff.1 hcheck
    obtain ⟨⟨fs1, status⟩, hrequest, hcheck⟩ := bind_eq_some_iff.1 hcheck
    have h1 := h.requestPipe hrequest
    cases hcheck
    refine ⟨h1.refs, fun r hr => ?_⟩
    obtain ⟨old, hmem, rfl⟩ := List.mem_map.1 hr
    have hold := h1.handlers old hmem
    split
    · exact ⟨hold.mapped, hold.descriptor⟩
    · exact hold
  · cases hcheck
    exact h.filter _

theorem Inv.step {event : TransactionEvent} (hok : event.KeepsHandlers s)
    (hstep : s.step event = some s') : s'.Inv := by
  cases event with
  | fileCall call =>
    obtain ⟨⟨fs1, fds⟩, hcall, rfl⟩ := map_eq_some_iff.1 hstep
    exact h.call hok hcall
  | start pid fd isWrite buffer =>
    rw [Transactions.step] at hstep
    split at hstep
    · cases hstep
      exact h
    next node content hlookup =>
      split at hstep
      next hpipe => exact h.startTransaction hlookup hpipe hstep
      · cases hstep
  | checkWaiting id buffer =>
    rw [Transactions.step, bind_eq_bind, bind_eq_some_iff] at hstep
    obtain ⟨p, -, hstep⟩ := hstep
    split at hstep
    · exact h.isTransactionWaiting hstep
    · cases hstep
  | threadRemoved id =>
    cases hstep
    exact h.filter _

end

end Transactions

/-- Where no call deletes a descriptor that a handler holds, every handler finds its descriptor and
its pipe. -/
theorem pending_transactions_served {s : Transactions}
    (hs : transactions.Reachable (fun s event => event.KeepsHandlers s) s) :
    ∀ p ∈ s.pending, p.Served s.fs := by
  have hinv : s.Inv := by
    refine hs.invariant ?_ ?_
    · rintro s rfl
      exact ⟨FileSystem.initialResources_refInv, nofun⟩
    · intro s event s' h hok hstep
      exact h.step hok hstep
  exact fun p hp => (hinv.handlers p hp).served hinv.refs

theorem pending_transactions_served_reader :
    ∃ s, transactions.Reachable (fun s event => event.KeepsHandlers s) s ∧
      (s.pending.map fun p => (p.fd, p.status)) = [(4, .repeat)] ∧
      ∀ p ∈ s.pending, p.Served s.fs := by
  obtain ⟨s, hs, hpending⟩ : ∃ s ∈ transactions.runGuarded (fun s event => event.KeepsHandlers s)
      { fs := FileSystem.initialResources } [.fileCall (.pipe 1 zeroBlock), .fileCall (.clonefd 3 1 3 2),
        .start 1 4 false [0], .fileCall (.pipe 3 zeroBlock), .fileCall (.close 2 3 .successful)],
      (s.pending.map fun p => (p.fd, p.status)) = [(4, .repeat)] := by
    decide +kernel
  have hreach := System.Reachable.of_runGuarded (.init rfl) hs
  exact ⟨s, hreach, hpending, pending_transactions_served hreach⟩

/-- While the thread waits all ends are closed: descriptor and pipe are deleted, the handler is
not. -/
theorem handler_outlives_descriptor_and_pipe :
    ∃ s p, transactions.Reachable (fun _ _ => True) s ∧ p ∈ s.pending ∧ p.status = .repeat ∧
      p.unmapped = true ∧ s.fs.descriptor p.pid p.fd = none ∧
      (s.fs.nodes.get p.nodeID).map (fun node => (node.type, node.physFsID)) = some (.pipe, 0) ∧
      (s.fs.pipes.get 0).isNone ∧ ¬ p.Served s.fs := by
  obtain ⟨s, hs, hpending, hclosed, hnode, hgone⟩ :
      ∃ s ∈ transactions.run { fs := FileSystem.initialResources }
          [.fileCall (.pipe 1 zeroBlock), .fileCall (.clonefd 3 1 3 2), .start 1 4 false [0],
            .fileCall (.close 1 4 .successful), .fileCall (.close 1 3 .successful),
            .fileCall (.close 2 3 .successful)],
        s.pending = [⟨0, 1, 4, 4, false, 1, .repeat, true⟩] ∧ s.fs.descriptor 1 4 = none ∧
          (s.fs.nodes.get 4).map (fun node => (node.type, node.physFsID)) = some (.pipe, 0) ∧
          (s.fs.pipes.get 0).isNone := by
    decide +kernel
  refine ⟨s, _, System.reachable_of_run rfl hs, hpending ▸ List.mem_cons_self, rfl, rfl, hclosed,
    hnode, hgone, fun hserved => ?_⟩
  cases hserved.mapped

end MeetixOS.Kernel
