import MeetixOS.Kernel.Filesystem.Descriptors

/-! # Pipe references

A pipe lives as long as its reference list is not empty, and the list should hold a process once for each of
its descriptors that names the pipe's node. `RefInv` relates the two, and each operation keeps it where a
created descriptor replaces no open one and a closed one is closed in its own process. `clonefd` closes an
old target with the pid of the source. -/

open Option (bind_eq_some_iff bind_some map_eq_some_iff map_some)

namespace MeetixOS.Kernel

open MeetixOS.Lib FileDescriptors HashMap

namespace FileSystem

/-! ## The relation between references and descriptors -/

/-- The reference list of a pipe; empty if the pipe is gone. -/
def references (fs : FileSystem) (id : Nat) : List Pid :=
  match fs.pipes.get id with
  | some pipe => pipe.references
  | none => []

/-- How many descriptors of `pid` name the node `nodeID`. -/
def naming (fs : FileSystem) (pid : Pid) (nodeID : Nat) : Nat :=
  (fs.table pid).descriptors.count fun content => content.nodeID = nodeID

/-- What the relation needs of a node; parents and children do not matter. -/
structure NodeKind where
  id : Nat
  type : FsNodeType
  physFsID : Nat
  name : Option (List Char)

/-- The kind of a node. -/
def kindOf (node : FsNode) : NodeKind := ⟨node.id, node.type, node.physFsID, node.name⟩

/-- The kind of the node stored under `n`. -/
def kind (fs : FileSystem) (n : Nat) : Option NodeKind := (fs.nodes.get n).map kindOf

/-- What is known about the nodes: each is stored under its id, pipe nodes are nameless, and no two of
them share a pipe. -/
structure NodeInv (fs : FileSystem) : Prop where
  id_eq : ∀ n k, fs.kind n = some k → k.id = n ∧ n < fs.nodeNextID
  pipe_lt : ∀ n k, fs.kind n = some k → k.type = .pipe →
    k.physFsID < fs.pipeNextID ∧ k.name = none
  pipe_inj : ∀ n m k k', fs.kind n = some k → fs.kind m = some k' →
    k.type = .pipe → k'.type = .pipe → k.physFsID = k'.physFsID → n = m
  owned : ∀ id pipe, fs.pipes.get id = some pipe →
    ∃ n k, fs.kind n = some k ∧ k.type = .pipe ∧ k.physFsID = id

/-- The types of node that a descriptor can name. -/
def NodeKind.isOpenable (k : NodeKind) : Bool := k.type = .file || k.type = .pipe

/-- The descriptors are well keyed and name nodes that can be open, and the references of a pipe count
the descriptors that name its node. -/
structure CountInv (fs : FileSystem) : Prop extends NodeInv fs where
  keyed : ∀ pid, (fs.table pid).WellKeyed
  named : ∀ pid fd content, fs.descriptor pid fd = some content →
    fd ≠ -1 ∧ ∃ k, fs.kind content.nodeID = some k ∧ k.isOpenable
  counted : ∀ n k, fs.kind n = some k → k.type = .pipe →
    ∀ pid, (fs.references k.physFsID).count pid = fs.naming pid n

/-- The invariant between two calls: no pipe is kept without a reference. -/
structure RefInv (fs : FileSystem) : Prop extends CountInv fs where
  referenced : ∀ id pipe, fs.pipes.get id = some pipe → pipe.references ≠ []

variable {fs fs' : FileSystem}

/-- What mapping and unmapping leave alone: the kinds of the nodes and the two counters. -/
structure SameNodes (fs fs' : FileSystem) : Prop where
  kind : ∀ n, fs'.kind n = fs.kind n
  nodeNextID : fs'.nodeNextID = fs.nodeNextID
  pipeNextID : fs'.pipeNextID = fs.pipeNextID

/-- Two states that the invariants do not tell apart. -/
structure SameView (fs fs' : FileSystem) : Prop extends SameNodes fs fs' where
  descriptor : ∀ q fd, fs'.descriptor q fd = fs.descriptor q fd
  pipes : fs'.pipes = fs.pipes

theorem SameNodes.trans {a b c : FileSystem} (h : SameNodes a b) (h' : SameNodes b c) :
    SameNodes a c :=
  ⟨fun n => (h'.kind n).trans (h.kind n), h'.nodeNextID.trans h.nodeNextID,
    h'.pipeNextID.trans h.pipeNextID⟩

theorem SameNodes.of_nodes_eq (hnodes : fs'.nodes = fs.nodes)
    (hnode : fs'.nodeNextID = fs.nodeNextID) (hpipe : fs'.pipeNextID = fs.pipeNextID) :
    SameNodes fs fs' :=
  ⟨fun n => by rw [FileSystem.kind, hnodes, FileSystem.kind], hnode, hpipe⟩

theorem sameView_getProcessTable (fs : FileSystem) (pid : Pid) :
    SameView fs (getProcessTable fs pid).1 := by
  have hdesc : ∀ q fd, (getProcessTable fs pid).1.descriptor q fd =
      fs.descriptor q fd := by
    intro q fd
    rw [descriptor, table_getProcessTable, descriptor]
  refine ⟨.of_nodes_eq (by simp) ?_ ?_, hdesc, by simp⟩ <;>
  · rw [getProcessTable]
    split <;> rfl

theorem NodeInv.congr (h : fs.NodeInv) (hs : SameNodes fs fs')
    (hpipes : ∀ id pipe, fs'.pipes.get id = some pipe → ∃ old, fs.pipes.get id = some old) :
    fs'.NodeInv := by
  refine ⟨?_, ?_, ?_, ?_⟩
  · simp only [hs.kind, hs.nodeNextID]
    exact h.id_eq
  · simp only [hs.kind, hs.pipeNextID]
    exact h.pipe_lt
  · simp only [hs.kind]
    exact h.pipe_inj
  · intro id pipe hget
    obtain ⟨old, hold⟩ := hpipes id pipe hget
    simp only [hs.kind]
    exact h.owned id old hold

theorem CountInv.congr (h : fs.CountInv) (hv : SameView fs fs') : fs'.CountInv := by
  refine ⟨h.toNodeInv.congr hv.toSameNodes ?_, ?_, ?_, ?_⟩
  · rw [hv.pipes]
    exact fun id pipe hget => ⟨pipe, hget⟩
  · exact fun pid fd content hget => h.keyed pid fd content ((hv.descriptor pid fd).symm.trans hget)
  · simp only [hv.descriptor, hv.kind]
    exact h.named
  · intro n k hk hpipe pid
    rw [hv.kind] at hk
    rw [references, hv.pipes, ← references, h.counted n k hk hpipe pid]
    exact count_congr fun fd => (hv.descriptor pid fd).symm

theorem RefInv.congr (h : fs.RefInv) (hv : SameView fs fs') : fs'.RefInv :=
  ⟨h.toCountInv.congr hv, by rw [hv.pipes]; exact h.referenced⟩

variable {content : FileDescriptorContent} {fd openFlags sourceFd targetFd : Int} {k : NodeKind}
  {pid sourcePid targetPid : Pid} {node : FsNode}

theorem CountInv.mem_references (h : fs.CountInv) (hopen : fs.descriptor pid fd = some content)
    (hkind : fs.kind content.nodeID = some k) (hpipe : k.type = .pipe) :
    pid ∈ fs.references k.physFsID := by
  rw [← List.count_pos_iff, h.counted _ k hkind hpipe pid]
  exact count_pos.2 ⟨fd, content, hopen, by simp⟩

/-! ## What mapping and unmapping do to the pipes -/

section

variable (fs : FileSystem)

theorem pipes_get_addReference (id : Nat) (pid : Pid) (j : Nat) :
    (Pipes.addReference fs id pid).pipes.get j =
      if j = id then (fs.pipes.get id).map fun pipe =>
        { pipe with references := pid :: pipe.references }
      else fs.pipes.get j := by
  rw [Pipes.addReference]
  cases hpipe : fs.pipes.get id with
  | some pipe => simp [get_update, hpipe]
  | none =>
    simp only [Option.map_none]
    split
    next hj => rw [hj, hpipe]
    · rfl

theorem pipes_get_removeReference (id : Nat) (pid : Pid) (j : Nat) :
    (Pipes.removeReference fs id pid).pipes.get j =
      if j = id then (fs.pipes.get id).bind fun pipe =>
        if pipe.references.erase pid = [] then none
        else some { pipe with references := pipe.references.erase pid }
      else fs.pipes.get j := by
  rw [Pipes.removeReference]
  cases hpipe : fs.pipes.get id with
  | some pipe =>
    simp only [bind_some]
    by_cases hempty : pipe.references.erase pid = []
    · simp only [if_pos hempty, get_erase, get_update]
      split <;> rfl
    · simp only [if_neg hempty, get_update, hpipe, map_some]
  | none =>
    simp only [Option.bind_none]
    split
    next hj => rw [hj, hpipe]
    · rfl

theorem sameNodes_map (pid : Pid) (nodeID : Nat) (fd openFlags : Int) :
    SameNodes fs (map fs pid nodeID fd openFlags).1 ∧
      (map fs pid nodeID fd openFlags).1.pipes = fs.pipes := by
  have hv := sameView_getProcessTable fs pid
  exact ⟨⟨hv.kind, hv.nodeNextID, hv.pipeNextID⟩, hv.pipes⟩

theorem sameNodes_unmap (pid : Pid) (fd : Int) :
    SameNodes fs (unmap fs pid fd) ∧
      (unmap fs pid fd).pipes = fs.pipes := by
  have hv := sameView_getProcessTable fs pid
  simp only [unmap]
  split
  · exact ⟨⟨hv.kind, hv.nodeNextID, hv.pipeNextID⟩, hv.pipes⟩
  · exact ⟨hv.toSameNodes, hv.pipes⟩

theorem sameNodes_addReference (id : Nat) (pid : Pid) :
    SameNodes fs (Pipes.addReference fs id pid) := by
  rw [Pipes.addReference]
  split <;> exact ⟨fun _ => rfl, rfl, rfl⟩

theorem sameNodes_removeReference (id : Nat) (pid : Pid) :
    SameNodes fs (Pipes.removeReference fs id pid) := by
  rw [Pipes.removeReference]
  split
  · simp only
    split <;> exact ⟨fun _ => rfl, rfl, rfl⟩
  · exact ⟨fun _ => rfl, rfl, rfl⟩

theorem mapFile_pipes (pid : Pid) (node : FsNode) (openFlags fd : Int) :
    SameNodes fs (fs.mapFile pid node openFlags fd).1 ∧ ∀ j,
      (fs.mapFile pid node openFlags fd).1.pipes.get j =
        if node.type = .pipe ∧ j = node.physFsID then (fs.pipes.get j).map fun pipe =>
          { pipe with references := pid :: pipe.references }
        else fs.pipes.get j := by
  rw [mapFile]
  cases htype : node.type with
  | pipe =>
    obtain ⟨hnodes, hpipes⟩ := sameNodes_map (Pipes.addReference fs node.physFsID pid) pid node.id
      fd openFlags
    refine ⟨(sameNodes_addReference fs node.physFsID pid).trans hnodes, fun j => ?_⟩
    simp only [hpipes, pipes_get_addReference, true_and]
    split
    next hj => rw [hj]
    · rfl
  | file =>
    obtain ⟨hnodes, hpipes⟩ := sameNodes_map fs pid node.id fd openFlags
    exact ⟨hnodes, fun j => by simp [hpipes]⟩
  | none | root | mountpoint | folder =>
    exact ⟨⟨fun _ => rfl, rfl, rfl⟩, fun j => by simp⟩

theorem unmapFile_pipes (pid : Pid) (node : FsNode) (content : FileDescriptorContent) :
    SameNodes fs (fs.unmapFile pid node content).1 ∧ ∀ j,
      (fs.unmapFile pid node content).1.pipes.get j =
        if node.type = .pipe ∧ j = node.physFsID then (fs.pipes.get j).bind fun pipe =>
          if pipe.references.erase pid = [] then none
          else some { pipe with references := pipe.references.erase pid }
        else fs.pipes.get j := by
  rw [unmapFile]
  cases htype : node.type with
  | pipe =>
    obtain ⟨hnodes, hpipes⟩ := sameNodes_unmap (Pipes.removeReference fs node.physFsID pid) pid
      content.id
    refine ⟨(sameNodes_removeReference fs node.physFsID pid).trans hnodes, fun j => ?_⟩
    simp only [hpipes, pipes_get_removeReference, true_and]
    split
    next hj => rw [hj]
    · rfl
  | file =>
    obtain ⟨hnodes, hpipes⟩ := sameNodes_unmap fs pid content.id
    exact ⟨hnodes, fun j => by simp [hpipes]⟩
  | none | root | mountpoint | folder =>
    exact ⟨⟨fun _ => rfl, rfl, rfl⟩, fun j => by simp⟩

end

/-! ## Creating a descriptor -/

theorem references_mapFile (fs : FileSystem) (pid : Pid) (openFlags fd : Int)
    (hpresent : node.type = .pipe → (fs.pipes.get node.physFsID).isSome) (id : Nat) :
    (fs.mapFile pid node openFlags fd).1.references id =
      if node.type = .pipe ∧ id = node.physFsID then pid :: fs.references id
      else fs.references id := by
  rw [references, (mapFile_pipes fs pid node openFlags fd).2]
  split
  next hid hpipe =>
    split at hpipe
    next hj =>
      obtain ⟨old, hold, rfl⟩ := map_eq_some_iff.1 hpipe
      rw [if_pos hj, references, hold]
    next hj => rw [if_neg hj, references, hpipe]
  next hpipe =>
    split at hpipe
    next hj =>
      have hsome := hpresent hj.1
      rw [← hj.2, Option.isSome_iff_ne_none] at hsome
      exact absurd (Option.map_eq_none_iff.1 hpipe) hsome
    next hj => rw [if_neg hj, references, hpipe]

theorem naming_mapFile {fs : FileSystem}
    (hfree : fs.descriptor pid ((fs.table pid).number fd) = none) (q : Pid) (n : Nat) :
    (fs.mapFile pid node openFlags fd).1.naming q n =
      fs.naming q n + if (q = pid ∧ isOpenable node) ∧ n = node.id then 1 else 0 := by
  rw [naming, table_mapFile]
  by_cases hq : q = pid ∧ isOpenable node
  · rw [if_pos hq, count_insert hfree (FileDescriptorTable.get_mapped _ _ _ _), naming, hq.1]
    simp [hq.2, eq_comm]
  · rw [if_neg hq, if_neg (fun h => hq h.1), naming, Nat.add_zero]

theorem CountInv.mapFile (h : fs.CountInv) (hnode : fs.kind node.id = some (kindOf node))
    (hfree : fs.descriptor pid ((fs.table pid).number fd) = none)
    (hnumber : (fs.table pid).number fd ≠ -1)
    (hpresent : node.type = .pipe → (fs.pipes.get node.physFsID).isSome) :
    (fs.mapFile pid node openFlags fd).1.CountInv := by
  obtain ⟨hnodes, hpipes⟩ := mapFile_pipes fs pid node openFlags fd
  have hdesc : ∀ q j content,
      (fs.mapFile pid node openFlags fd).1.descriptor q j = some content →
        fs.descriptor q j = some content ∨ content.id = j ∧ j ≠ -1 ∧ content.nodeID = node.id ∧
          isOpenable node := by
    intro q j content hget
    rw [descriptor_mapFile] at hget
    split at hget
    next hnew =>
      cases hget
      exact Or.inr ⟨hnew.2.symm, hnew.2 ▸ hnumber, rfl, hnew.1.2⟩
    · exact Or.inl hget
  refine ⟨h.toNodeInv.congr hnodes ?_, ?_, ?_, ?_⟩
  · intro id pipe hget
    rw [hpipes] at hget
    split at hget
    · obtain ⟨old, hold, -⟩ := map_eq_some_iff.1 hget
      exact ⟨old, hold⟩
    · exact ⟨pipe, hget⟩
  · intro q j content hget
    rcases hdesc q j content hget with hold | hnew
    · exact h.keyed q j content hold
    · exact hnew.1
  · intro q j content hget
    simp only [hnodes.kind]
    rcases hdesc q j content hget with hold | ⟨-, hne, hid, hopenable⟩
    · exact h.named q j content hold
    · exact ⟨hne, kindOf node, hid ▸ hnode, hopenable⟩
  · intro n k hk hpipe q
    rw [hnodes.kind] at hk
    rw [references_mapFile fs pid openFlags fd hpresent, naming_mapFile hfree,
      ← h.counted n k hk hpipe q]
    by_cases hn : n = node.id
    · -- the node that was opened: it is the pipe node whose list grew
      subst hn
      obtain rfl : k = kindOf node := Option.mem_unique hk hnode
      have htype : node.type = .pipe := hpipe
      have hopenable : isOpenable node = true := by
        rw [isOpenable, htype]
        rfl
      rw [if_pos ⟨htype, rfl⟩]
      by_cases hq : q = pid
      · rw [hq, List.count_cons_self, if_pos ⟨⟨rfl, hopenable⟩, rfl⟩]
      · rw [List.count_cons_of_ne (Ne.symm hq), if_neg (fun hc => hq hc.1.1), Nat.add_zero]
    · have hother : ¬(node.type = .pipe ∧ k.physFsID = node.physFsID) := by
        rintro ⟨hp, hphys⟩
        exact hn (h.pipe_inj n node.id k _ hk hnode hpipe hp hphys)
      rw [if_neg hother, if_neg (fun hc => hn hc.2), Nat.add_zero]

theorem referenced_mapFile
    (h : ∀ id pipe, fs.pipes.get id = some pipe →
      (node.type = .pipe ∧ id = node.physFsID) ∨ pipe.references ≠ []) :
    ∀ id pipe, (fs.mapFile pid node openFlags fd).1.pipes.get id = some pipe →
      pipe.references ≠ [] := by
  intro id pipe hget
  rw [(mapFile_pipes fs pid node openFlags fd).2] at hget
  split at hget
  · obtain ⟨old, -, rfl⟩ := map_eq_some_iff.1 hget
    exact List.cons_ne_nil _ _
  next hne =>
    rcases h id pipe hget with hsame | hrefs
    · exact absurd hsame hne
    · exact hrefs

/-! ## Closing a descriptor -/

theorem references_unmapFile (fs : FileSystem) (pid : Pid) (node : FsNode)
    (content : FileDescriptorContent) (id : Nat) :
    (fs.unmapFile pid node content).1.references id =
      if node.type = .pipe ∧ id = node.physFsID then (fs.references id).erase pid
      else fs.references id := by
  simp only [references, (unmapFile_pipes fs pid node content).2]
  by_cases hid : node.type = .pipe ∧ id = node.physFsID
  · simp only [if_pos hid]
    cases fs.pipes.get id with
    | none => rfl
    | some pipe =>
      by_cases hempty : pipe.references.erase pid = []
      · simp only [bind_some, if_pos hempty]
        exact hempty.symm
      · simp only [bind_some, if_neg hempty]
  · simp [if_neg hid]

theorem descriptor_unmapFile (hopen : fs.descriptor pid content.id = some content)
    (hopenable : isOpenable node) (q : Pid) (j : Int) :
    (fs.unmapFile pid node content).1.descriptor q j =
      if q = pid ∧ j = content.id then none else fs.descriptor q j := by
  rw [descriptor] at hopen
  rw [descriptor, table_unmapFile]
  by_cases hq : q = pid
  · rw [if_pos ⟨hq, hopenable⟩, FileDescriptorTable.unmapped, hopen]
    simp [get_erase, descriptor, hq]
  · rw [if_neg (fun h => hq h.1), if_neg (fun h => hq h.1), descriptor]

theorem naming_unmapFile (hopen : fs.descriptor pid content.id = some content)
    (hopenable : isOpenable node) (q : Pid) (n : Nat) :
    fs.naming q n = (fs.unmapFile pid node content).1.naming q n +
      if q = pid ∧ n = content.nodeID then 1 else 0 := by
  have hdesc := descriptor_unmapFile hopen hopenable q
  by_cases hq : q = pid
  · subst hq
    simp only [true_and] at hdesc ⊢
    rw [naming, naming, count_remove hopen hdesc]
    simp [eq_comm]
  · rw [if_neg (fun h => hq h.1), Nat.add_zero]
    apply count_congr
    intro j
    have hj := hdesc j
    rw [if_neg (fun h => hq h.1)] at hj
    exact hj.symm

theorem RefInv.unmapFile (h : fs.RefInv) (hopen : fs.descriptor pid content.id = some content)
    (hnode : fs.kind content.nodeID = some (kindOf node)) :
    (fs.unmapFile pid node content).1.RefInv := by
  obtain ⟨hnodes, hpipes⟩ := unmapFile_pipes fs pid node content
  have hopenable : isOpenable node = true := by
    obtain ⟨-, k, hk, hopenable⟩ := h.named pid content.id content hopen
    obtain rfl : k = kindOf node := Option.mem_unique hk hnode
    exact hopenable
  have hdesc : ∀ q j c, (fs.unmapFile pid node content).1.descriptor q j = some c →
      fs.descriptor q j = some c := by
    intro q j c hget
    rw [descriptor_unmapFile hopen hopenable] at hget
    split at hget
    · cases hget
    · exact hget
  refine ⟨⟨h.toNodeInv.congr hnodes ?_, ?_, ?_, ?_⟩, ?_⟩
  · intro id pipe hget
    rw [hpipes] at hget
    split at hget
    · obtain ⟨old, hold, -⟩ := bind_eq_some_iff.1 hget
      exact ⟨old, hold⟩
    · exact ⟨pipe, hget⟩
  · exact fun q j c hget => h.keyed q j c (hdesc q j c hget)
  · intro q j c hget
    simp only [hnodes.kind]
    exact h.named q j c (hdesc q j c hget)
  · intro n k hk hpipe q
    rw [hnodes.kind] at hk
    have hcount := h.counted n k hk hpipe q
    rw [naming_unmapFile hopen hopenable] at hcount
    rw [references_unmapFile]
    by_cases hn : n = content.nodeID
    · subst hn
      obtain rfl : k = kindOf node := Option.mem_unique hk hnode
      rw [if_pos ⟨hpipe, rfl⟩]
      by_cases hq : q = pid
      · rw [if_pos ⟨hq, rfl⟩] at hcount
        rw [hq] at hcount ⊢
        rw [List.count_erase_self, hcount, Nat.add_sub_cancel]
      · rw [if_neg (fun hc => hq hc.1), Nat.add_zero] at hcount
        rw [List.count_erase_of_ne hq, hcount]
    · have hother : ¬(node.type = .pipe ∧ k.physFsID = node.physFsID) := by
        rintro ⟨hp, hphys⟩
        exact hn (h.pipe_inj n _ k _ hk hnode hpipe hp hphys)
      rw [if_neg (fun hc => hn hc.2), Nat.add_zero] at hcount
      rw [if_neg hother, hcount]
  · intro id pipe hget
    rw [hpipes] at hget
    split at hget
    · obtain ⟨old, -, hnew⟩ := bind_eq_some_iff.1 hget
      split at hnew
      · cases hnew
      next hne =>
        cases hnew
        exact hne
    · exact h.referenced id pipe hget

/-! ## Cloning -/

theorem descriptor_setDescriptor {old content : FileDescriptorContent}
    (hold : fs.descriptor pid fd = some old) (q : Pid) (j : Int) :
    (fs.setDescriptor pid fd content).descriptor q j =
      if q = pid ∧ j = fd then some content else fs.descriptor q j := by
  rw [descriptor] at hold
  rw [descriptor, table_setDescriptor]
  by_cases hq : q = pid
  · subst hq
    simp [get_update, hold, descriptor]
  · rw [if_neg hq, if_neg (fun h => hq h.1), descriptor]

theorem RefInv.setDescriptor (h : fs.RefInv) {old content : FileDescriptorContent}
    (hold : fs.descriptor pid fd = some old) (hid : content.id = fd)
    (hnode : content.nodeID = old.nodeID) : (fs.setDescriptor pid fd content).RefInv := by
  have hv := sameView_getProcessTable fs pid
  have hnodes : SameNodes fs (fs.setDescriptor pid fd content) :=
    ⟨hv.kind, hv.nodeNextID, hv.pipeNextID⟩
  have hpipes : (fs.setDescriptor pid fd content).pipes = fs.pipes := hv.pipes
  have hdesc : ∀ q j, (fs.setDescriptor pid fd content).descriptor q j =
      if q = pid ∧ j = fd then some content else fs.descriptor q j :=
    descriptor_setDescriptor hold
  have hnaming : ∀ q n, (fs.setDescriptor pid fd content).naming q n = fs.naming q n := by
    intro q n
    rw [naming, table_setDescriptor]
    split
    next hq =>
      rw [naming, hq]
      exact count_update hold (by rw [hnode])
    · rfl
  refine ⟨⟨h.toNodeInv.congr hnodes ?_, ?_, ?_, ?_⟩, ?_⟩
  · rw [hpipes]
    exact fun id pipe hget => ⟨pipe, hget⟩
  · intro q j c hget
    have hget' := (hdesc q j).symm.trans hget
    split at hget'
    next hq =>
      cases hget'
      rw [hid, hq.2]
    · exact h.keyed q j c hget'
  · intro q j c hget
    rw [hdesc] at hget
    simp only [hnodes.kind]
    split at hget
    next hq =>
      cases hget
      rw [hq.2, hnode]
      exact h.named pid fd old hold
    · exact h.named q j c hget
  · intro n k hk hpipe q
    rw [hnodes.kind] at hk
    rw [references, hpipes, hnaming]
    exact h.counted n k hk hpipe q
  · rw [hpipes]
    exact h.referenced

/-- The next implicit number of a process is a descriptor number and is not open. -/
def NextFree (fs : FileSystem) (pid : Pid) : Prop :=
  (fs.table pid).nextFileDescriptor ≠ -1 ∧
    fs.descriptor pid (fs.table pid).nextFileDescriptor = none

/-- `clonefd` does not replace an open descriptor by an implicit number, and closes an explicit target
only in the source's own process, and not the source. -/
def CloneKeeps (fs : FileSystem) (sourceFd : Int) (sourcePid : Pid) (targetFd : Int)
    (targetPid : Pid) : Prop :=
  if targetFd = -1 then fs.NextFree targetPid
  else (fs.descriptor targetPid targetFd).isSome → sourcePid = targetPid ∧ sourceFd ≠ targetFd

theorem CloneKeeps.getProcessTable (hok : fs.CloneKeeps sourceFd sourcePid targetFd targetPid) :
    (getProcessTable fs sourcePid).1.CloneKeeps sourceFd sourcePid targetFd targetPid := by
  simpa only [CloneKeeps, NextFree, (sameView_getProcessTable fs sourcePid).descriptor,
    table_getProcessTable] using hok

theorem kind_of_lookup (h : fs.lookup pid fd = some (node, content)) :
    fs.descriptor pid fd = some content ∧ fs.kind content.nodeID = some (kindOf node) := by
  obtain ⟨hopen, hnode⟩ := lookup_eq_some h
  exact ⟨hopen, by rw [kind, hnode, map_some]⟩

theorem CountInv.lookup_eq_none (h : fs.CountInv)
    (hlookup : fs.lookup pid fd = none) : fs.descriptor pid fd = none := by
  cases hopen : fs.descriptor pid fd with
  | none => rfl
  | some content =>
    obtain ⟨-, k, hk, -⟩ := h.named pid fd content hopen
    obtain ⟨node, hnode, -⟩ := map_eq_some_iff.1 hk
    rw [lookup, hopen, bind_some, hnode] at hlookup
    cases hlookup

/-- What the closing half of `clonefd` leaves: the source is still open, and the number that the target
will get is free. -/
structure TargetClosed (fs fs1 : FileSystem) (sourceFd : Int) (sourcePid : Pid) (targetFd : Int)
    (targetPid : Pid) : Prop where
  inv : fs1.RefInv
  kind : ∀ n, fs1.kind n = fs.kind n
  source : fs1.descriptor sourcePid sourceFd = fs.descriptor sourcePid sourceFd
  free : fs1.descriptor targetPid ((fs1.table targetPid).number targetFd) = none
  valid : (fs1.table targetPid).number targetFd ≠ -1
  frame : ∀ q j, ¬(q = targetPid ∧ j = targetFd) → fs1.descriptor q j = fs.descriptor q j

theorem RefInv.closeTarget (h : fs.RefInv)
    (hok : fs.CloneKeeps sourceFd sourcePid targetFd targetPid) :
    TargetClosed fs (fs.closeTarget sourcePid targetFd targetPid) sourceFd sourcePid targetFd
      targetPid := by
  rw [CloneKeeps] at hok
  by_cases himplicit : targetFd = -1
  · subst himplicit
    refine ⟨h, fun _ => rfl, rfl, ?_, ?_, fun _ _ _ => rfl⟩ <;>
      rw [FileDescriptorTable.number, if_pos rfl]
    · exact hok.2
    · exact hok.1
  · rw [if_neg himplicit] at hok
    have hv := sameView_getProcessTable fs targetPid
    have hdesc := hv.descriptor
    have hnumber : ∀ table : FileDescriptorTable, table.number targetFd = targetFd :=
      fun table => if_neg himplicit
    rw [FileSystem.closeTarget, if_pos himplicit]
    cases hlookup : fs.lookup targetPid targetFd with
    | none =>
      refine ⟨h.congr hv, hv.kind, hdesc _ _, ?_, ?_, fun q j _ => hdesc q j⟩
      · rw [hnumber, hdesc]
        exact h.lookup_eq_none hlookup
      · rwa [hnumber]
    | some target =>
      obtain ⟨node, content⟩ := target
      obtain ⟨hopen, hnode⟩ := kind_of_lookup hlookup
      obtain ⟨rfl, hne⟩ := hok (by rw [hopen]; rfl)
      have hid : content.id = targetFd := h.keyed _ _ _ hopen
      have hopen' : (getProcessTable fs sourcePid).1.descriptor sourcePid
          content.id = some content := by
        rw [hdesc, hid, hopen]
      have hopenable : isOpenable node = true := by
        obtain ⟨-, k, hk, hopenable⟩ := h.named _ _ _ hopen
        obtain rfl : k = kindOf node := Option.mem_unique hk hnode
        exact hopenable
      have hframe := descriptor_unmapFile hopen' hopenable
      simp only [hid] at hframe
      refine ⟨(h.congr hv).unmapFile hopen' ((hv.kind _).trans hnode), ?_, ?_, ?_, ?_, ?_⟩
      · intro n
        exact ((unmapFile_pipes _ _ _ _).1.kind n).trans (hv.kind n)
      · rw [hframe, if_neg (fun hc => hne hc.2), hdesc]
      · rw [hnumber, hframe, if_pos ⟨rfl, rfl⟩]
      · rwa [hnumber]
      · intro q j hqj
        rw [hframe, if_neg hqj, hdesc]

theorem RefInv.openTarget (h : fs.RefInv) {sourceNode : FsNode}
    {sourceFdContent : FileDescriptorContent} {sourceAlive : Bool} {sourceFd targetFd created : Int}
    {status : FsCloneFdStatus} (hsource : fs.descriptor sourcePid sourceFd = some sourceFdContent)
    (hnode : fs.kind sourceFdContent.nodeID = some (kindOf sourceNode))
    (hfree : fs.descriptor targetPid ((fs.table targetPid).number targetFd) = none)
    (hvalid : (fs.table targetPid).number targetFd ≠ -1)
    (hopen : fs.openTarget sourceNode sourceFdContent sourceAlive targetFd targetPid =
      some (fs', created, status)) : fs'.RefInv := by
  have hid : sourceNode.id = sourceFdContent.nodeID := (h.id_eq _ _ hnode).1
  have hopenable : isOpenable sourceNode = true := by
    obtain ⟨-, k, hk, hopenable⟩ := h.named _ _ _ hsource
    obtain rfl : k = kindOf sourceNode := Option.mem_unique hk hnode
    exact hopenable
  rcases openTarget_cases hopen with ⟨-, -, hno⟩ | ⟨-, -, -, hno⟩ | ⟨-, -, -, -, rfl⟩
  · exact absurd (hno hopenable) hvalid
  · rw [hid] at hno
    rw [kind, hno] at hnode
    cases hnode
  · have hpresent : sourceNode.type = .pipe → (fs.pipes.get sourceNode.physFsID).isSome := by
      intro hpipe
      have hmem := h.mem_references hsource hnode hpipe
      rw [references] at hmem
      cases hget : fs.pipes.get (kindOf sourceNode).physFsID with
      | none =>
        rw [hget] at hmem
        cases hmem
      | some pipe =>
        show (fs.pipes.get (kindOf sourceNode).physFsID).isSome = true
        rw [hget]
        rfl
    have hmapped : (fs.mapFile targetPid sourceNode 0 targetFd).1.RefInv :=
      ⟨h.toCountInv.mapFile (by rw [hid, hnode]) hfree hvalid hpresent,
        referenced_mapFile fun id pipe hget => Or.inr (h.referenced id pipe hget)⟩
    have hv := sameView_getProcessTable (fs.mapFile targetPid sourceNode 0 targetFd).1 targetPid
    have hcreated := descriptor_mapFile fs targetPid targetPid sourceNode 0 targetFd
      ((fs.table targetPid).number targetFd)
    rw [if_pos ⟨⟨rfl, hopenable⟩, rfl⟩, ← hv.descriptor] at hcreated
    exact (hmapped.congr hv).setDescriptor hcreated rfl hid.symm

theorem RefInv.clonefd (h : fs.RefInv) {sourceFd targetFd created : Int}
    {status : FsCloneFdStatus} (hok : fs.CloneKeeps sourceFd sourcePid targetFd targetPid)
    (hclone : fs.clonefd sourceFd sourcePid targetFd targetPid = some (fs', created, status)) :
    fs'.RefInv ∧ (targetFd ≠ -1 → ∀ q j, ¬(q = targetPid ∧ j = targetFd) →
      fs'.descriptor q j = fs.descriptor q j) := by
  have hv := sameView_getProcessTable fs sourcePid
  rw [clonefd_eq] at hclone
  split at hclone
  · cases hclone
    exact ⟨h.congr hv, fun _ q j _ => hv.descriptor q j⟩
  next node content hlookup =>
    obtain ⟨hsource, hnode⟩ := kind_of_lookup hlookup
    have hclosed := (h.congr hv).closeTarget hok.getProcessTable
    have hsource1 := hclosed.source.trans ((hv.descriptor sourcePid sourceFd).trans hsource)
    have hnode1 := (hclosed.kind content.nodeID).trans ((hv.kind content.nodeID).trans hnode)
    refine ⟨hclosed.inv.openTarget hsource1 hnode1 hclosed.free hclosed.valid hclone,
      fun hexplicit q j hqj => ?_⟩
    · rw [descriptor_openTarget hclone q j, hclosed.frame q j hqj, hv.descriptor]
      rintro rfl rfl
      exact hqj ⟨rfl, if_neg hexplicit⟩

/-! ## Forking and closing processes -/

theorem entries_ids {table : FileDescriptorTable} (h : table.WellKeyed) :
    (table.descriptors.entries.map fun entry => entry.2.id).Nodup := by
  have hkeys : table.descriptors.entries.map (fun entry => entry.2.id) =
      chainKeys table.descriptors.entries := by
    apply List.map_congr_left
    rintro ⟨fd, content⟩ hentry
    exact h fd content (mem_entries.1 hentry)
  rw [hkeys]
  exact table.descriptors.entries_keys_nodup

section

variable {source fork : Pid} (h : fs.RefInv)
  (hfree : ∀ fd, (fs.descriptor source fd).isSome → fs.descriptor fork fd = none)
  (hforked : fs.processForked source fork = some fs')
include h hfree hforked

theorem RefInv.processForked_induction {I : FileSystem → Prop}
    (hinit : I (getProcessTable fs source).1)
    (hstep : ∀ a b fd created status, a.RefInv → I a → a.CloneKeeps fd source fd fork →
      a.descriptor fork fd = none → a.clonefd fd source fd fork = some (b, created, status) → I b) :
    fs'.RefInv ∧ I fs' := by
  have hv := sameView_getProcessTable fs source
  simp only [FileSystem.processForked, getProcessTable_snd] at hforked
  have hwalk : ∀ (entries : List (Int × FileDescriptorContent)) (a b : FileSystem), a.RefInv → I a →
      (entries.map fun entry => entry.2.id).Nodup →
      (∀ entry ∈ entries, entry.2.id ≠ -1 ∧ a.descriptor fork entry.2.id = none) →
      entries.foldlM (fun fs entry => (fs.clonefd entry.2.id source entry.2.id fork).map Prod.fst) a =
        some b → b.RefInv ∧ I b := by
    intro entries
    induction entries with
    | nil =>
      intro a b ha hI _ _ hfold
      cases hfold
      exact ⟨ha, hI⟩
    | cons entry entries ih =>
      intro a b ha hI hnodup hentries hfold
      rw [List.foldlM_cons, Option.bind_eq_bind, bind_eq_some_iff] at hfold
      obtain ⟨a1, hfirst, hrest⟩ := hfold
      obtain ⟨⟨fs1, created, status⟩, hclone, rfl⟩ := map_eq_some_iff.1 hfirst
      obtain ⟨hne, hnone⟩ := hentries entry List.mem_cons_self
      have hok : a.CloneKeeps entry.2.id source entry.2.id fork := by
        rw [CloneKeeps, if_neg hne, hnone]
        intro hsome
        cases hsome
      obtain ⟨ha1, hframe⟩ := ha.clonefd hok hclone
      rw [List.map_cons, List.nodup_cons] at hnodup
      refine ih fs1 b ha1 (hstep a fs1 _ created status ha hI hok hnone hclone) hnodup.2 ?_ hrest
      intro e he
      have hdiff : e.2.id ≠ entry.2.id := by
        intro heq
        exact hnodup.1 (heq ▸ List.mem_map_of_mem he)
      rw [hframe hne fork e.2.id (fun hc => hdiff hc.2)]
      exact hentries e (List.mem_cons_of_mem _ he)
  refine hwalk _ _ _ (h.congr hv) hinit (entries_ids (h.keyed source)) ?_ hforked
  rintro ⟨fd, content⟩ hentry
  have hget : fs.descriptor source fd = some content := mem_entries.1 hentry
  simp only [h.keyed source fd content hget, hv.descriptor]
  exact ⟨(h.named source fd content hget).1, hfree fd (by rw [hget]; rfl)⟩

theorem RefInv.processForked : fs'.RefInv :=
  (h.processForked_induction (I := fun _ => True) hfree hforked trivial
    fun _ _ _ _ _ _ _ _ _ _ => trivial).1

end

theorem RefInv.unmapAll (h : fs.RefInv) (hnone : ∀ fd, fs.descriptor pid fd = none) :
    (unmapAll fs pid).RefInv := by
  have hv := sameView_getProcessTable fs pid
  refine h.congr ⟨⟨hv.kind, hv.nodeNextID, hv.pipeNextID⟩, ?_, hv.pipes⟩
  intro q fd
  rw [descriptor, table_unmapAll]
  split
  next hq =>
    rw [hq, hnone]
    exact get_empty fd
  · rfl

theorem RefInv.processClosed (h : fs.RefInv) (pid : Pid) : (fs.processClosed pid).RefInv := by
  have hv := sameView_getProcessTable fs pid
  simp only [FileSystem.processClosed, getProcessTable_snd]
  -- what is still open in the process is what the walk has still to visit
  have hwalk : ∀ (entries : List (Int × FileDescriptorContent)) (a : FileSystem), a.RefInv →
      (entries.map fun entry => entry.2.id).Nodup →
      (∀ fd content, a.descriptor pid fd = some content ↔
        ∃ entry ∈ entries, entry.2 = content ∧ content.id = fd) →
      (entries.foldl (closeEntry pid) a).RefInv ∧
      ∀ fd, (entries.foldl (closeEntry pid) a).descriptor pid fd = none := by
    intro entries
    induction entries with
    | nil =>
      intro a ha _ hopen
      refine ⟨ha, fun fd => ?_⟩
      show a.descriptor pid fd = none
      cases hget : a.descriptor pid fd with
      | none => rfl
      | some content =>
        obtain ⟨entry, hmem, -⟩ := (hopen fd content).1 hget
        cases hmem
    | cons entry entries ih =>
      intro a ha hnodup hopen
      have hget := (hopen _ _).2 ⟨entry, List.mem_cons_self, rfl, rfl⟩
      obtain ⟨-, k, hk, hopenable⟩ := ha.named _ _ _ hget
      obtain ⟨node, hnode, rfl⟩ := map_eq_some_iff.1 hk
      rw [List.map_cons, List.nodup_cons] at hnodup
      simp only [List.foldl_cons, closeEntry, hnode]
      refine ih _ (ha.unmapFile hget hk) hnodup.2 ?_
      intro fd content
      rw [descriptor_unmapFile hget hopenable]
      by_cases hfd : fd = entry.2.id
      · rw [if_pos ⟨rfl, hfd⟩]
        constructor
        · intro hc
          cases hc
        · rintro ⟨e, he, rfl, hid⟩
          exact absurd (List.mem_map.2 ⟨e, he, hid.trans hfd⟩) hnodup.1
      · rw [if_neg (fun hc => hfd hc.2), hopen]
        constructor
        · rintro ⟨e, he, rfl, hid⟩
          rcases List.mem_cons.1 he with rfl | he
          · exact absurd hid.symm hfd
          · exact ⟨e, he, rfl, hid⟩
        · rintro ⟨e, he, hec, hid⟩
          exact ⟨e, List.mem_cons_of_mem _ he, hec, hid⟩
  obtain ⟨hinv, hnone⟩ := hwalk (fs.table pid).descriptors.entries _ (h.congr hv)
    (entries_ids (h.keyed pid)) (by
      intro fd content
      rw [hv.descriptor]
      constructor
      · intro hget
        exact ⟨(fd, content), mem_entries.2 hget, rfl, h.keyed pid fd content hget⟩
      · rintro ⟨⟨key, c⟩, hentry, rfl, rfl⟩
        have hget : fs.descriptor pid key = some c := mem_entries.1 hentry
        rw [h.keyed pid key c hget, hget])
  exact hinv.unmapAll hnone

theorem RefInv.close (h : fs.RefInv) (pid : Pid) (fd : Int) (status : FsCloseStatus) :
    (fs.close pid fd status).RefInv := by
  have hv := sameView_getProcessTable fs pid
  simp only [FileSystem.close, nodeForDescriptor_eq]
  split
  next node content hlookup =>
    obtain ⟨hopen, hnode⟩ := kind_of_lookup hlookup
    split
    · refine (h.congr hv).unmapFile ?_ ?_
      · rw [hv.descriptor, h.keyed pid fd content hopen, hopen]
      · rw [hv.kind, hnode]
    · exact h.congr hv
  · exact h.congr hv

/-! ## New nodes -/

theorem kind_modifyNode (fs : FileSystem) (id : Nat) {f : FsNode → FsNode}
    (hf : ∀ node, kindOf (f node) = kindOf node) (n : Nat) : (fs.modifyNode id f).kind n = fs.kind n := by
  rw [modifyNode]
  split
  next node hnode =>
    simp only [kind, get_update, hnode, map_some]
    split
    next hn => rw [hn, hnode, map_some, map_some, hf]
    · rfl
  · rfl

theorem sameView_addChild (fs : FileSystem) (parent child : Nat) :
    SameView fs (fs.addChild parent child) := by
  have hmodify : ∀ (fs : FileSystem) (id : Nat) (f : FsNode → FsNode),
      (∀ node, kindOf (f node) = kindOf node) → SameView fs (fs.modifyNode id f) := by
    intro fs id f hf
    refine ⟨⟨kind_modifyNode fs id hf, ?_, ?_⟩, ?_, ?_⟩
    · rw [modifyNode]
      split <;> rfl
    · rw [modifyNode]
      split <;> rfl
    · intro q fd
      rw [descriptor, table_modifyNode, descriptor]
    · rw [modifyNode]
      split <;> rfl
  have h1 := hmodify fs child (fun node => { node with parent := some parent }) fun _ => rfl
  have h2 := hmodify (fs.modifyNode child fun node => { node with parent := some parent }) parent
    (fun node => { node with children := child :: node.children }) fun _ => rfl
  exact ⟨h1.toSameNodes.trans h2.toSameNodes, fun q fd => (h2.descriptor q fd).trans
    (h1.descriptor q fd), h2.pipes.trans h1.pipes⟩

/-- A state with one node more, under the next id; its pipe, if any, has no references yet. -/
structure AddsNode (fs fs' : FileSystem) (k : NodeKind) : Prop where
  id_eq : k.id = fs.nodeNextID
  kind : ∀ n, fs'.kind n = if n = fs.nodeNextID then some k else fs.kind n
  nodeNextID : fs'.nodeNextID = fs.nodeNextID + 1
  descriptor : ∀ q fd, fs'.descriptor q fd = fs.descriptor q fd
  physFsID : k.type = .pipe → k.physFsID = fs.pipeNextID ∧ k.name = none
  pipeNextID : fs'.pipeNextID = if k.type = .pipe then fs.pipeNextID + 1 else fs.pipeNextID
  pipes : ∀ id pipe, fs'.pipes.get id = some pipe →
    fs.pipes.get id = some pipe ∨ k.type = .pipe ∧ id = fs.pipeNextID
  references : ∀ id, fs'.references id = fs.references id

theorem CountInv.addsNode (h : fs.CountInv) (ha : AddsNode fs fs' k) : fs'.CountInv := by
  have hnew : ∀ k', fs.kind fs.nodeNextID = some k' → False := by
    intro k' hk'
    exact lt_irrefl _ (h.id_eq _ _ hk').2
  have hphys : ∀ n k', fs.kind n = some k' → k'.type = .pipe → k'.physFsID ≠ fs.pipeNextID :=
    fun n k' hk' hp => (h.pipe_lt n k' hk' hp).1.ne
  refine ⟨⟨?_, ?_, ?_, ?_⟩, ?_, ?_, ?_⟩
  · intro n k' hk'
    rw [ha.kind] at hk'
    rw [ha.nodeNextID]
    split at hk'
    next hn =>
      cases hk'
      exact ⟨ha.id_eq.trans hn.symm, by omega⟩
    · have := h.id_eq n k' hk'
      exact ⟨this.1, by omega⟩
  · intro n k' hk' hpipe
    rw [ha.kind] at hk'
    rw [ha.pipeNextID]
    split at hk'
    next hn =>
      cases hk'
      rw [if_pos hpipe, (ha.physFsID hpipe).1]
      exact ⟨Nat.lt_succ_self _, (ha.physFsID hpipe).2⟩
    · have hlt := h.pipe_lt n k' hk' hpipe
      refine ⟨?_, hlt.2⟩
      split <;> omega
  · intro n m k1 k2 h1 h2 hp1 hp2 heq
    rw [ha.kind] at h1 h2
    split at h1
    next hn =>
      split at h2
      next hm => rw [hn, hm]
      · cases h1
        rw [(ha.physFsID hp1).1] at heq
        exact absurd heq.symm (hphys m k2 h2 hp2)
    · split at h2
      · cases h2
        rw [(ha.physFsID hp2).1] at heq
        exact absurd heq (hphys n k1 h1 hp1)
      · exact h.pipe_inj n m k1 k2 h1 h2 hp1 hp2 heq
  · intro id pipe hget
    rcases ha.pipes id pipe hget with hold | ⟨hp, hid⟩
    · obtain ⟨n, k', hk', hp', hid'⟩ := h.owned id pipe hold
      refine ⟨n, k', ?_, hp', hid'⟩
      rw [ha.kind, if_neg]
      · exact hk'
      · rintro rfl
        exact hnew k' hk'
    · exact ⟨fs.nodeNextID, k, by rw [ha.kind, if_pos rfl], hp, (ha.physFsID hp).1.trans hid.symm⟩
  · exact fun pid fd c hget => h.keyed pid fd c ((ha.descriptor pid fd).symm.trans hget)
  · intro pid fd c hget
    rw [ha.descriptor] at hget
    obtain ⟨hne, k', hk', hopenable⟩ := h.named pid fd c hget
    refine ⟨hne, k', ?_, hopenable⟩
    rw [ha.kind, if_neg]
    · exact hk'
    · intro hc
      exact hnew k' (hc ▸ hk')
  · intro n k' hk' hpipe pid
    have hnaming : fs'.naming pid n = fs.naming pid n :=
      count_congr (ha.descriptor pid)
    rw [ha.references, hnaming]
    rw [ha.kind] at hk'
    split at hk'
    next hn =>
      -- the new pipe is not in the map yet, and no descriptor names the new node
      cases hk'
      have hnone : fs.pipes.get k.physFsID = none := by
        cases hget : fs.pipes.get k.physFsID with
        | none => rfl
        | some pipe =>
          obtain ⟨m, k2, hk2, hp2, hid2⟩ := h.owned _ pipe hget
          rw [(ha.physFsID hpipe).1] at hid2
          exact absurd hid2 (hphys m k2 hk2 hp2)
      rw [FileSystem.references, hnone, List.count_nil]
      by_contra hpos
      obtain ⟨fd, c, hget, hc⟩ := count_pos.1 (Nat.pos_of_ne_zero (Ne.symm hpos))
      obtain ⟨-, k2, hk2, -⟩ := h.named pid fd c hget
      rw [decide_eq_true_eq] at hc
      rw [hc, hn] at hk2
      exact hnew k2 hk2
    · exact h.counted n k' hk' hpipe pid

theorem addsNode_createNode (fs : FileSystem) (htype : node.type ≠ .pipe) :
    AddsNode fs (fs.createNode node).1 (kindOf (fs.createNode node).2) where
  id_eq := rfl
  kind n := by
    simp only [FileSystem.kind, createNode, get_add]
    split <;> rfl
  nodeNextID := rfl
  descriptor q fd := rfl
  physFsID hpipe := absurd hpipe htype
  pipeNextID := (if_neg htype).symm
  pipes id pipe hget := Or.inl hget
  references id := rfl

theorem AddsNode.trans {fs'' : FileSystem} (h : AddsNode fs fs' k)
    (hv : SameView fs' fs'') : AddsNode fs fs'' k where
  id_eq := h.id_eq
  kind n := (hv.kind n).trans (h.kind n)
  nodeNextID := hv.nodeNextID.trans h.nodeNextID
  descriptor q fd := (hv.descriptor q fd).trans (h.descriptor q fd)
  physFsID := h.physFsID
  pipeNextID := hv.pipeNextID.trans h.pipeNextID
  pipes id pipe hget := h.pipes id pipe (hv.pipes ▸ hget)
  references id := by rw [FileSystem.references, hv.pipes, ← FileSystem.references, h.references]

theorem RefInv.createVfsNode (h : fs.RefInv) (ramdiskNode : RamdiskEntry) (parent : Nat) :
    (fs.createVfsNode ramdiskNode parent).1.RefInv := by
  have htype : (if ramdiskNode.type = .file then FsNodeType.file else .folder) ≠ .pipe := by
    split <;> exact FsNodeType.noConfusion
  have hadds : AddsNode fs (fs.createVfsNode ramdiskNode parent).1 _ :=
    (addsNode_createNode fs htype).trans (sameView_addChild _ parent fs.nodeNextID)
  refine ⟨h.toCountInv.addsNode hadds, fun id pipe hget => ?_⟩
  rcases hadds.pipes id pipe hget with hold | ⟨hpipe, -⟩
  · exact h.referenced id pipe hold
  · exact absurd hpipe htype

theorem CountInv.pipe_fresh (h : fs.CountInv) : fs.pipes.get fs.pipeNextID = none := by
  cases hget : fs.pipes.get fs.pipeNextID with
  | none => rfl
  | some pipe =>
    obtain ⟨n, k, hk, hpipe, hid⟩ := h.owned _ pipe hget
    exact absurd hid (h.pipe_lt n k hk hpipe).1.ne

theorem addsNode_createPipeNode (h : fs.CountInv) (block : PipeBlock) :
    AddsNode fs (fs.createPipeNode block).1
      ⟨fs.nodeNextID, .pipe, fs.pipeNextID, none⟩ := by
  obtain ⟨fs1, hfs1⟩ : ∃ fs1, fs1 = (((Pipes.create fs block).1.createNode
    { id := 0, type := .pipe, physFsID := fs.pipeNextID }).1) := ⟨_, rfl⟩
  have hadds : AddsNode fs fs1 ⟨fs.nodeNextID, .pipe, fs.pipeNextID, none⟩ := by
    rw [hfs1]
    refine ⟨rfl, ?_, rfl, fun _ _ => rfl, fun _ => ⟨rfl, rfl⟩, rfl, ?_, ?_⟩
    · intro n
      simp only [kind, createNode, Pipes.create, get_add]
      split <;> rfl
    · intro id pipe hget
      simp only [createNode, Pipes.create, get_add] at hget
      split at hget
      next hid => exact Or.inr ⟨rfl, hid⟩
      · exact Or.inl hget
    · intro id
      simp only [references, createNode, Pipes.create, get_add]
      by_cases hid : id = fs.pipeNextID
      · rw [if_pos hid, hid, h.pipe_fresh]
        rfl
      · rw [if_neg hid]
  rw [show (fs.createPipeNode block).1 = fs1.addChild fs1.pipeRoot fs.nodeNextID by rw [hfs1]; rfl]
  exact hadds.trans (sameView_addChild _ _ _)

theorem createPipeNode_pipe (fs : FileSystem) (block : PipeBlock) :
    (fs.createPipeNode block).1.pipes.get fs.pipeNextID = some (Pipe.ofBlock block) := by
  have hsame : (fs.createPipeNode block).1.pipes = fs.pipes.add fs.pipeNextID (Pipe.ofBlock block) :=
    (sameView_addChild _ _ _).pipes
  rw [hsame, get_add, if_pos rfl]

theorem createPipeNode_node (fs : FileSystem) (block : PipeBlock) :
    (fs.createPipeNode block).2 =
      { id := fs.nodeNextID, type := .pipe, physFsID := fs.pipeNextID } := rfl

theorem RefInv.pipe (h : fs.RefInv) {block : PipeBlock} {outWrite outRead : Int}
    (hwrite : fs.NextFree pid)
    (hread : s32 ((fs.table pid).nextFileDescriptor + 1) ≠ -1 ∧
      fs.descriptor pid (s32 ((fs.table pid).nextFileDescriptor + 1)) = none)
    (hpipe : fs.pipe pid block = (fs', outWrite, outRead)) : fs'.RefInv := by
  obtain ⟨fs0, hfs0⟩ : ∃ fs0, fs0 = (fs.createPipeNode block).1 := ⟨_, rfl⟩
  obtain ⟨node, hnode⟩ : ∃ node, node = (fs.createPipeNode block).2 := ⟨_, rfl⟩
  have hnode' := hnode.trans (createPipeNode_node fs block)
  have hadds := addsNode_createPipeNode h.toCountInv block
  rw [← hfs0] at hadds
  have htable : ∀ q, fs0.table q = fs.table q := by
    intro q
    rw [hfs0, table_createPipeNode]
  have hnumber : ∀ table : FileDescriptorTable, table.number (-1) = table.nextFileDescriptor :=
    fun table => if_pos rfl
  have hkind : fs0.kind node.id = some (kindOf node) := by
    rw [hadds.kind, hnode', if_pos rfl]
    rfl
  have h0 : fs0.CountInv := h.toCountInv.addsNode hadds
  have hpresent0 : (fs0.pipes.get node.physFsID).isSome := by
    rw [hfs0, hnode', createPipeNode_pipe]
    rfl
  -- the write end: afterwards the pipe is referenced
  obtain ⟨fs1, hfs1⟩ : ∃ fs1, fs1 = (fs0.mapFile pid node 0 (-1)).1 := ⟨_, rfl⟩
  have h1 : fs1.RefInv := by
    rw [hfs1]
    refine ⟨h0.mapFile hkind ?_ ?_ fun _ => hpresent0, referenced_mapFile fun id pipe hget => ?_⟩
    · rw [hnumber, descriptor, htable]
      exact hwrite.2
    · rw [hnumber, htable]
      exact hwrite.1
    · rcases hadds.pipes id pipe hget with hold | ⟨-, hid⟩
      · exact Or.inr (h.referenced id pipe hold)
      · rw [hnode']
        exact Or.inl ⟨rfl, hid⟩
  have hopenable : isOpenable node = true := by
    rw [hnode']
    rfl
  have hnext1 : (fs1.table pid).nextFileDescriptor = s32 ((fs.table pid).nextFileDescriptor + 1) := by
    rw [hfs1, table_mapFile, if_pos ⟨rfl, hopenable⟩, FileDescriptorTable.next_mapped, if_pos rfl,
      htable]
  obtain ⟨hnodes1, hpipes1⟩ := mapFile_pipes fs0 pid node 0 (-1)
  have h2 : (fs1.mapFile pid node 0 (-1)).1.RefInv := by
    refine ⟨h1.toCountInv.mapFile ?_ ?_ ?_ ?_, referenced_mapFile fun id pipe hget =>
      Or.inr (h1.referenced id pipe hget)⟩
    · rw [hfs1, hnodes1.kind, hkind]
    · rw [hnumber, hnext1, hfs1, descriptor_mapFile, hnumber, htable,
        if_neg (fun hc => s32_add_one_ne _ hc.2), descriptor, htable]
      exact hread.2
    · rw [hnumber, hnext1]
      exact hread.1
    · intro _
      rw [hfs1, hpipes1, hnode', if_pos ⟨rfl, rfl⟩, Option.isSome_map]
      rwa [hnode'] at hpresent0
  simp only [FileSystem.pipe, ← hfs0, ← hnode, ← hfs1] at hpipe
  cases hpipe
  exact h2

theorem RefInv.openNode (h : fs.RefInv) (hfree : fs.NextFree pid) (nodeID : Nat)
    (flags : Int) : (fs.openNode pid nodeID flags).1.RefInv := by
  rw [FileSystem.openNode]
  split
  next node hnode =>
    have hkind : fs.kind nodeID = some (kindOf node) := by rw [kind, hnode, map_some]
    have hid : node.id = nodeID := (h.id_eq _ _ hkind).1
    split
    next hname =>
      have htype : node.type ≠ .pipe := by
        intro hpipe
        have hnone : node.name = none := (h.pipe_lt _ _ hkind hpipe).2
        rw [hnone] at hname
        cases hname
      have hnumber : (fs.table pid).number (-1) = (fs.table pid).nextFileDescriptor := if_pos rfl
      refine ⟨h.toCountInv.mapFile (by rw [hid, hkind]) ?_ ?_ fun hpipe => absurd hpipe htype,
        referenced_mapFile fun id pipe hget => Or.inr (h.referenced id pipe hget)⟩
      · rw [hnumber]
        exact hfree.2
      · rw [hnumber]
        exact hfree.1
    · exact h
  · exact h

theorem empty_refInv : FileSystem.empty.RefInv where
  id_eq n k hk := by simp [kind, empty] at hk
  pipe_lt n k hk := by simp [kind, empty] at hk
  pipe_inj n m k k' hk := by simp [kind, empty] at hk
  owned id pipe hget := by simp [empty] at hget
  keyed pid fd content hget := by simp [table, empty] at hget
  named pid fd content hget := by simp [descriptor, table, empty] at hget
  counted n k hk := by simp [kind, empty] at hk
  referenced id pipe hget := by simp [empty] at hget

theorem RefInv.createNode (h : fs.RefInv) (htype : node.type ≠ .pipe) :
    (fs.createNode node).1.RefInv :=
  ⟨h.toCountInv.addsNode (addsNode_createNode fs htype), h.referenced⟩

theorem RefInv.createMountpoint (h : fs.RefInv) (parent : Nat) (name : List Char)
    (delegate : FsDelegate) : (fs.createMountpoint parent name delegate).1.RefInv :=
  (h.createNode FsNodeType.noConfusion).congr (sameView_addChild _ parent _)

theorem RefInv.setRoots (h : fs.RefInv) (root mountRoot pipeRoot : Nat) :
    ({ fs with root, mountRoot, pipeRoot } : FileSystem).RefInv :=
  h.congr ⟨⟨fun _ => rfl, rfl, rfl⟩, fun _ _ => rfl, rfl⟩

theorem initialResources_refInv : initialResources.RefInv := by
  apply RefInv.setRoots
  iterate 3 apply RefInv.createMountpoint
  exact empty_refInv.createNode FsNodeType.noConfusion

end FileSystem

/-! ## Runs -/

/-- An implicit number is not open yet, an open explicit target of `clonefd` belongs to the source's
process and is not the source, and a fork finds none of its numbers open. -/
def FileCall.KeepsReferences (fs : FileSystem) : FileCall → Prop
  | .openNode pid _ _ => fs.NextFree pid
  | .pipe pid _ => fs.NextFree pid ∧
      s32 ((fs.table pid).nextFileDescriptor + 1) ≠ -1 ∧
      fs.descriptor pid (s32 ((fs.table pid).nextFileDescriptor + 1)) = none
  | .clonefd sourceFd sourcePid targetFd targetPid =>
    fs.CloneKeeps sourceFd sourcePid targetFd targetPid
  | .processForked source fork =>
    ∀ fd, (fs.descriptor source fd).isSome → fs.descriptor fork fd = none
  | .createVfsNode _ _ | .close _ _ _ | .processClosed _ => True

instance (fs : FileSystem) (call : FileCall) : Decidable (call.KeepsReferences fs) :=
  match call with
  | .openNode _ _ _ => inferInstanceAs (Decidable (_ ∧ _))
  | .pipe _ _ => inferInstanceAs (Decidable ((_ ∧ _) ∧ _ ∧ _))
  | .clonefd _ _ targetFd targetPid =>
    inferInstanceAs (Decidable (if targetFd = -1 then _ ∧ _ else
      (fs.descriptor targetPid targetFd).isSome → _))
  | .processForked source fork =>
    decidable_of_iff (∀ e ∈ (fs.table source).descriptors.entries, fs.descriptor fork e.1 = none) <| by
      refine ⟨fun h fd hopen => ?_, fun h e he => h e.1 (Option.isSome_iff_exists.2 ⟨_, mem_entries.1 he⟩)⟩
      obtain ⟨content, hcontent⟩ := Option.isSome_iff_exists.1 hopen
      exact h (fd, content) (mem_entries.2 hcontent)
  | .createVfsNode _ _ | .close _ _ _ | .processClosed _ => isTrue trivial

namespace FileSystem

variable {fs fs' : FileSystem}

theorem RefInv.call (h : fs.RefInv) {call : FileCall} {fds : List Int}
    (hok : call.KeepsReferences fs) (hcall : fs.call call = some (fs', fds)) : fs'.RefInv := by
  cases call with
  | createVfsNode ramdiskNode parent =>
    obtain ⟨rfl, -⟩ := hcall
    exact h.createVfsNode ramdiskNode parent
  | openNode pid nodeID flags =>
    obtain ⟨rfl, -⟩ := hcall
    exact h.openNode hok nodeID flags
  | close pid fd status =>
    obtain ⟨rfl, -⟩ := hcall
    exact h.close pid fd status
  | pipe pid block =>
    rcases hpipe : fs.pipe pid block with ⟨fs1, outWrite, outRead⟩
    simp only [FileSystem.call, hpipe, Option.some.injEq, Prod.mk.injEq] at hcall
    obtain ⟨rfl, -⟩ := hcall
    exact h.pipe hok.1 hok.2 hpipe
  | clonefd sourceFd sourcePid targetFd targetPid =>
    rw [FileSystem.call, Option.bind_eq_bind, bind_eq_some_iff] at hcall
    obtain ⟨⟨fs1, created, status⟩, hclone, heq⟩ := hcall
    cases heq
    exact (h.clonefd hok hclone).1
  | processForked source fork =>
    rw [FileSystem.call, map_eq_some_iff] at hcall
    obtain ⟨fs1, hforked, heq⟩ := hcall
    cases heq
    exact h.processForked hok hforked
  | processClosed pid =>
    simp only [FileSystem.call, Option.some.injEq, Prod.mk.injEq] at hcall
    obtain ⟨rfl, -⟩ := hcall
    exact h.processClosed pid

theorem reachable_refInv
    (hfs : fileSystemCalls.Reachable (fun fs call => call.KeepsReferences fs) fs) : fs.RefInv := by
  refine hfs.invariant ?_ ?_
  · rintro s rfl
    exact initialResources_refInv
  · intro s call s' hs hok hstep
    obtain ⟨⟨s1, fds⟩, hcall, rfl⟩ := map_eq_some_iff.1 hstep
    exact hs.call hok hcall

/-- Every pipe has a node, its list holds each process as often as its descriptors name that node, and
the pipe is there as long as some descriptor does. -/
structure ReferencesCount (fs : FileSystem) : Prop where
  owned : ∀ id pipe, fs.pipes.get id = some pipe →
    ∃ n node, fs.nodes.get n = some node ∧ node.type = .pipe ∧ node.physFsID = id
  counted : ∀ n node, fs.nodes.get n = some node → node.type = .pipe →
    ∀ pid, (fs.references node.physFsID).count pid = fs.naming pid n
  alive : ∀ n node, fs.nodes.get n = some node → node.type = .pipe →
    ((fs.pipes.get node.physFsID).isSome ↔
      ∃ pid fd content, fs.descriptor pid fd = some content ∧ content.nodeID = n)

theorem RefInv.referencesCount (h : fs.RefInv) : fs.ReferencesCount := by
  have hkind : ∀ {n node}, fs.nodes.get n = some node → fs.kind n = some (kindOf node) :=
    fun hnode => by rw [kind, hnode, map_some]
  refine ⟨?_, fun n node hnode hpipe => h.counted n _ (hkind hnode) hpipe, ?_⟩
  · intro id pipe hget
    obtain ⟨n, k, hk, hpipe, hid⟩ := h.owned id pipe hget
    obtain ⟨node, hnode, rfl⟩ := map_eq_some_iff.1 hk
    exact ⟨n, node, hnode, hpipe, hid⟩
  · intro n node hnode hpipe
    have hcount := h.counted n _ (hkind hnode) hpipe
    constructor
    · -- a pipe has a reference, and its process a descriptor
      intro hsome
      obtain ⟨pipe, hget⟩ := Option.isSome_iff_exists.1 hsome
      obtain ⟨pid, hpid⟩ := List.exists_mem_of_ne_nil _ (h.referenced _ pipe hget)
      have hpos : 0 < (fs.references (kindOf node).physFsID).count pid := by
        rw [List.count_pos_iff, references, show (kindOf node).physFsID = node.physFsID from rfl,
          hget]
        exact hpid
      rw [hcount] at hpos
      obtain ⟨fd, content, hopen, hnamed⟩ := count_pos.1 hpos
      exact ⟨pid, fd, content, hopen, of_decide_eq_true hnamed⟩
    · rintro ⟨pid, fd, content, hopen, rfl⟩
      have hmem := h.mem_references hopen (hkind hnode) hpipe
      cases hget : fs.pipes.get node.physFsID with
      | some pipe => rfl
      | none =>
        rw [references, show (kindOf node).physFsID = node.physFsID from rfl, hget] at hmem
        cases hmem

end FileSystem

/-- In every run whose calls meet the condition, the references count the descriptors and keep a pipe
alive exactly as long as there is one. -/
theorem references_count_descriptors {fs : FileSystem}
    (hfs : fileSystemCalls.Reachable (fun fs call => call.KeepsReferences fs) fs) :
    fs.ReferencesCount :=
  (FileSystem.reachable_refInv hfs).referencesCount

theorem references_count_descriptors_after_close :
    ∃ fs, fileSystemCalls.Reachable (fun fs call => call.KeepsReferences fs) fs ∧
      fs.descriptor 1 3 = some { id := 3, nodeID := 4 } ∧ fs.ReferencesCount := by
  obtain ⟨fs, hfs, hopen⟩ : ∃ fs ∈ fileSystemCalls.runGuarded (fun fs call => call.KeepsReferences fs)
      FileSystem.initialResources [.pipe 1 zeroBlock, .close 1 4 .successful],
      fs.descriptor 1 3 = some { id := 3, nodeID := 4 } := by
    decide +kernel
  have hreach := System.Reachable.of_runGuarded (.init rfl) hfs
  exact ⟨fs, hreach, hopen, references_count_descriptors hreach⟩

/-- Processes 1 and 2 each make a pipe with the ends 3 and 4; end 4 of process 1 is cloned over end 3 of
process 2. `clonefd` closes descriptor 3 of process 1 instead: each pipe has two references with one
descriptor left. -/
theorem clonefd_over_open_target_miscounts :
    ∃ fs fs' : FileSystem, fileSystemCalls.Reachable (fun _ _ => True) fs ∧
      fs.call (.clonefd 4 1 3 2) = some (fs', []) ∧
      (fs'.references 0 = [2, 1, 1] ∧ fs'.naming 1 4 = 1) ∧
      (fs'.references 1 = [2, 2] ∧ fs'.naming 2 5 = 1) ∧ ¬ fs'.ReferencesCount := by
  obtain ⟨fs, hfs, ⟨fs', fds⟩, hcall, rfl, hfirst, hsecond, node, hnode, htype, hid⟩ :
      ∃ fs ∈ fileSystemCalls.run FileSystem.initialResources [.pipe 1 zeroBlock, .pipe 2 zeroBlock],
        ∃ r ∈ fs.call (.clonefd 4 1 3 2), r.2 = [] ∧
          (r.1.references 0 = [2, 1, 1] ∧ r.1.naming 1 4 = 1) ∧
          (r.1.references 1 = [2, 2] ∧ r.1.naming 2 5 = 1) ∧
          ∃ node ∈ r.1.nodes.get 4, node.type = .pipe ∧ node.physFsID = 0 := by
    decide +kernel
  refine ⟨fs, fs', System.reachable_of_run rfl hfs, hcall, hfirst, hsecond, fun hcount => ?_⟩
  have htwo := hcount.counted 4 node hnode htype 1
  rw [hid, hfirst.1, hfirst.2] at htwo
  exact absurd htwo (by decide)

end MeetixOS.Kernel
