import MeetixOS.Kernel.Filesystem.FileSystem

/-! # Descriptor numbers

What the file operations do to the descriptor tables, each in one lemma about every table, and when the
numbers they hand out are fresh. An implicit number comes from `nextFileDescriptor`, which explicit ones
(`clonefd` with a target, `processForked`) do not advance; `NumbersBelow` says that none is at or above it. -/

open Option (bind_eq_some_iff map_eq_some_iff map_some)

namespace MeetixOS.Kernel

open MeetixOS.Lib FileDescriptorTable HashMap

/-! ## Tables -/

namespace FileDescriptorTable

/-- The number that `createDescriptor` uses. -/
def number (table : FileDescriptorTable) (overrideFile : Int) : Int :=
  if overrideFile = -1 then table.nextFileDescriptor else overrideFile

/-- The table after `FileDescriptors::map`. -/
def mapped (table : FileDescriptorTable) (nodeID : Nat) (fd : Int) (openFlags : Int) :
    FileDescriptorTable :=
  let (table, desc) := FileDescriptors.createDescriptor table fd
  { table with descriptors := table.descriptors.update desc.id { desc with nodeID, openFlags } }

/-- The table after `FileDescriptors::unmap`. -/
def unmapped (table : FileDescriptorTable) (fd : Int) : FileDescriptorTable :=
  match table.descriptors.get fd with
  | some content => { table with descriptors := table.descriptors.erase content.id }
  | none => table

theorem get_mapped (table : FileDescriptorTable) (nodeID : Nat) (fd : Int)
    (openFlags : Int) (j : Int) :
    (table.mapped nodeID fd openFlags).descriptors.get j =
      if j = table.number fd then some { id := table.number fd, nodeID, openFlags }
      else table.descriptors.get j := by
  have hdesc : (table.mapped nodeID fd openFlags).descriptors =
      (table.descriptors.add (table.number fd) { id := table.number fd }).update (table.number fd)
        { id := table.number fd, nodeID, openFlags } := rfl
  rw [hdesc, get_update, get_add, get_add, if_pos rfl, map_some]
  by_cases hj : j = table.number fd
  · rw [if_pos hj, if_pos hj]
  · rw [if_neg hj, if_neg hj, if_neg hj]

theorem next_mapped (table : FileDescriptorTable) (nodeID : Nat) (fd : Int) (openFlags : Int) :
    (table.mapped nodeID fd openFlags).nextFileDescriptor =
      if fd = -1 then s32 (table.nextFileDescriptor + 1) else table.nextFileDescriptor := rfl

theorem next_unmapped (table : FileDescriptorTable) (fd : Int) :
    (table.unmapped fd).nextFileDescriptor = table.nextFileDescriptor := by
  rw [unmapped]
  split <;> rfl

theorem get_unmapped_of_some {table : FileDescriptorTable} {fd j : Int}
    {content : FileDescriptorContent} (h : (table.unmapped fd).descriptors.get j = some content) :
    table.descriptors.get j = some content := by
  rw [unmapped] at h
  split at h
  · rw [get_erase] at h
    split at h
    · cases h
    · exact h
  · exact h

/-- Every descriptor is stored under its own number. -/
def WellKeyed (table : FileDescriptorTable) : Prop :=
  ∀ fd content, table.descriptors.get fd = some content → content.id = fd

end FileDescriptorTable

/-! ## What each operation does to the tables -/

namespace FileSystem

/-- The descriptor table of a process; empty if there is none yet. -/
def table (fs : FileSystem) (pid : Pid) : FileDescriptorTable :=
  (fs.processDescriptorTableMap.get pid).getD {}

/-- The open descriptor `fd` of a process. -/
def descriptor (fs : FileSystem) (pid : Pid) (fd : Int) : Option FileDescriptorContent :=
  (fs.table pid).descriptors.get fd

end FileSystem

namespace FileDescriptors

section

variable (fs : FileSystem)

@[simp] theorem getProcessTable_snd (pid : Pid) : (getProcessTable fs pid).2 = fs.table pid := by
  rw [getProcessTable, FileSystem.table]
  cases fs.processDescriptorTableMap.get pid <;> rfl

@[simp] theorem getProcessTable_nodes (pid : Pid) :
    (getProcessTable fs pid).1.nodes = fs.nodes := by
  rw [getProcessTable]
  split <;> rfl

@[simp] theorem getProcessTable_pipes (pid : Pid) :
    (getProcessTable fs pid).1.pipes = fs.pipes := by
  rw [getProcessTable]
  split <;> rfl

@[simp] theorem table_getProcessTable (pid q : Pid) :
    (getProcessTable fs pid).1.table q = fs.table q := by
  rw [getProcessTable]
  split
  · rfl
  next h =>
    simp only [FileSystem.table, get_add]
    by_cases hq : q = pid
    · rw [if_pos hq, hq, h]
      rfl
    · rw [if_neg hq]

theorem table_setProcessTable (pid q : Pid) (t : FileDescriptorTable) :
    (setProcessTable (getProcessTable fs pid).1 pid t).table q =
      if q = pid then t else fs.table q := by
  have hpresent : ∃ t0, (getProcessTable fs pid).1.processDescriptorTableMap.get pid = some t0 := by
    rw [getProcessTable]
    split
    next t0 h => exact ⟨t0, h⟩
    · exact ⟨{}, by rw [get_add, if_pos rfl]⟩
  obtain ⟨t0, ht0⟩ := hpresent
  have hother := table_getProcessTable fs pid q
  simp only [FileSystem.table, setProcessTable, get_update, ht0, map_some] at hother ⊢
  split
  · rfl
  · exact hother

theorem map_eq (pid : Pid) (nodeID : Nat) (fd : Int) (openFlags : Int) :
    map fs pid nodeID fd openFlags =
      (setProcessTable (getProcessTable fs pid).1 pid ((fs.table pid).mapped nodeID fd openFlags),
        (fs.table pid).number fd) := by
  simp only [map, getProcessTable_snd]
  rfl

theorem table_map (pid q : Pid) (nodeID : Nat) (fd : Int) (openFlags : Int) :
    (map fs pid nodeID fd openFlags).1.table q =
      if q = pid then (fs.table pid).mapped nodeID fd openFlags else fs.table q := by
  rw [map_eq, table_setProcessTable]

theorem table_unmap (pid q : Pid) (fd : Int) :
    (unmap fs pid fd).table q = if q = pid then (fs.table pid).unmapped fd else fs.table q := by
  simp only [unmap, unmapped, getProcessTable_snd]
  cases (fs.table pid).descriptors.get fd with
  | some content => exact table_setProcessTable ..
  | none =>
    simp only [table_getProcessTable]
    split
    next hq => rw [hq]
    · rfl

theorem table_unmapAll (pid q : Pid) :
    (unmapAll fs pid).table q = if q = pid then {} else fs.table q := by
  have hother := table_getProcessTable fs pid q
  simp only [unmapAll, FileSystem.table, get_erase] at hother ⊢
  by_cases hq : q = pid
  · rw [if_pos hq, if_pos hq]
    rfl
  · rw [if_neg hq, if_neg hq]
    exact hother

end

end FileDescriptors

open FileDescriptors (getProcessTable getProcessTable_snd table_getProcessTable)
namespace Pipes

section

variable (fs : FileSystem) (id : Nat)

@[simp] theorem table_addReference (pid q : Pid) :
    (addReference fs id pid).table q = fs.table q := by
  rw [addReference]
  split <;> rfl

@[simp] theorem nodes_addReference (pid : Pid) : (addReference fs id pid).nodes = fs.nodes := by
  rw [addReference]
  split <;> rfl

@[simp] theorem table_removeReference (pid q : Pid) :
    (removeReference fs id pid).table q = fs.table q := by
  rw [removeReference]
  split
  · simp only
    split <;> rfl
  · rfl

end

end Pipes

namespace FileSystem

/-- The types of node that can be opened. -/
def isOpenable (node : FsNode) : Bool := node.type = .file || node.type = .pipe

theorem table_mapFile (fs : FileSystem) (pid q : Pid) (node : FsNode) (openFlags : Int) (fd : Int) :
    (fs.mapFile pid node openFlags fd).1.table q =
      if q = pid ∧ isOpenable node then (fs.table pid).mapped node.id fd openFlags
      else fs.table q := by
  rw [mapFile, isOpenable]
  cases node.type <;> simp [FileDescriptors.table_map]

theorem mapFile_snd (fs : FileSystem) (pid : Pid) (node : FsNode) (openFlags : Int) (fd : Int) :
    (fs.mapFile pid node openFlags fd).2 =
      if isOpenable node then (fs.table pid).number fd else -1 := by
  rw [mapFile, isOpenable]
  cases node.type <;> simp [FileDescriptors.map_eq]

@[simp] theorem nodes_mapFile (fs : FileSystem) (pid : Pid) (node : FsNode) (openFlags : Int)
    (fd : Int) : (fs.mapFile pid node openFlags fd).1.nodes = fs.nodes := by
  rw [mapFile]
  cases node.type <;> simp [FileDescriptors.map_eq, FileDescriptors.setProcessTable]

theorem table_unmapFile (fs : FileSystem) (pid q : Pid) (node : FsNode)
    (content : FileDescriptorContent) :
    (fs.unmapFile pid node content).1.table q =
      if q = pid ∧ isOpenable node then (fs.table pid).unmapped content.id else fs.table q := by
  rw [unmapFile, isOpenable]
  cases node.type <;> simp [FileDescriptors.table_unmap]

/-- The open descriptor `fd` of a process with its node, as `nodeForDescriptor` finds them. -/
def lookup (fs : FileSystem) (pid : Pid) (fd : Int) :
    Option (FsNode × FileDescriptorContent) :=
  (fs.descriptor pid fd).bind fun content =>
    (fs.nodes.get content.nodeID).map fun node => (node, content)

theorem lookup_eq_some {fs : FileSystem} {pid : Pid} {fd : Int} {node : FsNode}
    {content : FileDescriptorContent} (h : fs.lookup pid fd = some (node, content)) :
    fs.descriptor pid fd = some content ∧ fs.nodes.get content.nodeID = some node := by
  rw [lookup, bind_eq_some_iff] at h
  obtain ⟨c, hc, hn⟩ := h
  obtain ⟨n, hn, heq⟩ := map_eq_some_iff.1 hn
  cases heq
  exact ⟨hc, hn⟩

theorem nodeForDescriptor_eq (fs : FileSystem) (pid : Pid) (fd : Int) :
    fs.nodeForDescriptor pid fd =
      ((getProcessTable fs pid).1, fs.lookup pid fd) := by
  simp [nodeForDescriptor, FileDescriptors.get, getProcessTable_snd,
    FileDescriptors.getProcessTable_nodes, lookup, descriptor]

/-- A write through the pointer to the open descriptor `fd`. -/
def setDescriptor (fs : FileSystem) (pid : Pid) (fd : Int)
    (content : FileDescriptorContent) : FileSystem :=
  FileDescriptors.setProcessTable (getProcessTable fs pid).1 pid
    { fs.table pid with descriptors := (fs.table pid).descriptors.update fd content }

/-- The first half of `clonefd`: the old target descriptor, if it is open, is closed. -/
def closeTarget (fs : FileSystem) (sourcePid : Pid) (targetFd : Int) (targetPid : Pid) :
    FileSystem :=
  if targetFd ≠ -1 then
    let fs' := (getProcessTable fs targetPid).1
    match fs.lookup targetPid targetFd with
    | some (node, content) => (fs'.unmapFile sourcePid node content).1
    | none => fs'
  else fs

/-- The second half: the descriptor is created and gets the contents of the source. -/
def openTarget (fs : FileSystem) (sourceNode : FsNode) (sourceFdContent : FileDescriptorContent)
    (sourceAlive : Bool) (targetFd : Int) (targetPid : Pid) :
    Option (FileSystem × Int × FsCloneFdStatus) :=
  let (fs, created) := fs.mapFile targetPid sourceNode 0 targetFd
  if created ≠ -1 then
    match fs.lookup targetPid created with
    | none => some ((getProcessTable fs targetPid).1, -1, .error)
    | some (_, createdFdContent) =>
      if sourceAlive then
        some ((getProcessTable fs targetPid).1.setDescriptor targetPid created
          (sourceFdContent.cloneInto createdFdContent), created, .successful)
      else none
  else some (fs, -1, .error)

theorem clonefd_eq (fs : FileSystem) (sourceFd : Int) (sourcePid : Pid)
    (targetFd : Int) (targetPid : Pid) :
    fs.clonefd sourceFd sourcePid targetFd targetPid =
      let fs0 := (getProcessTable fs sourcePid).1
      match fs.lookup sourcePid sourceFd with
      | none => some (fs0, -1, .invalidSourceFd)
      | some (sourceNode, sourceFdContent) =>
        let fs1 := fs0.closeTarget sourcePid targetFd targetPid
        fs1.openTarget sourceNode sourceFdContent (fs1.descriptor sourcePid sourceFd).isSome
          targetFd targetPid := by
  simp only [clonefd, nodeForDescriptor_eq, FileDescriptors.get,
    getProcessTable_snd]
  cases fs.lookup sourcePid sourceFd with
  | none => rfl
  | some source =>
    by_cases htarget : targetFd ≠ -1
    · rw [closeTarget, if_pos htarget, if_pos htarget]
      cases (getProcessTable fs sourcePid).1.lookup targetPid targetFd
      all_goals simp only [openTarget, setDescriptor, descriptor]
      all_goals rfl
    · rw [closeTarget, if_neg htarget, if_neg htarget]
      all_goals rfl

end FileSystem

/-! ## Numbers below the counter -/

/-- No open descriptor has reached the counter that implicit numbers come from. -/
structure FileDescriptorTable.NumbersBelow (table : FileDescriptorTable) : Prop where
  keyed : table.WellKeyed
  next_ge : 3 ≤ table.nextFileDescriptor
  below : ∀ fd content, table.descriptors.get fd = some content →
    fd < table.nextFileDescriptor ∧ fd ≠ -1

/-- The counter can be advanced, and an explicit number stays below it. -/
def FileDescriptorTable.Admits (table : FileDescriptorTable) (fd : Int) : Prop :=
  if fd = -1 then table.nextFileDescriptor < 2 ^ 31 - 1 else fd < table.nextFileDescriptor

namespace FileDescriptorTable.NumbersBelow

variable {table : FileDescriptorTable}

theorem empty : ({} : FileDescriptorTable).NumbersBelow where
  keyed fd content h := by simp at h
  next_ge := le_rfl
  below fd content h := by simp at h

variable {fd : Int}

section

variable (h : table.NumbersBelow)
include h

theorem fresh (hfd : table.nextFileDescriptor ≤ fd) : table.descriptors.get fd = none := by
  cases hget : table.descriptors.get fd with
  | none => rfl
  | some content =>
    have := (h.below fd content hget).1
    omega

theorem next_mapped_of_admits (hfd : table.Admits fd) (nodeID : Nat) (openFlags : Int) :
    (table.mapped nodeID fd openFlags).nextFileDescriptor =
      if fd = -1 then table.nextFileDescriptor + 1 else table.nextFileDescriptor := by
  have hge := h.next_ge
  rw [next_mapped]
  by_cases himplicit : fd = -1
  · rw [Admits, if_pos himplicit] at hfd
    rw [if_pos himplicit, if_pos himplicit, s32_of_range (by omega) (by omega)]
  · rw [if_neg himplicit, if_neg himplicit]

theorem mapped (hfd : table.Admits fd) (nodeID : Nat) (openFlags : Int) :
    (table.mapped nodeID fd openFlags).NumbersBelow := by
  have hnext := h.next_mapped_of_admits hfd nodeID openFlags
  have hge := h.next_ge
  have hmono : table.nextFileDescriptor ≤
      (table.mapped nodeID fd openFlags).nextFileDescriptor := by
    rw [hnext]
    split <;> omega
  refine ⟨?_, by omega, ?_⟩
  · intro j content hget
    rw [get_mapped] at hget
    split at hget
    next hj =>
      cases hget
      exact hj.symm
    · exact h.keyed j content hget
  · intro j content hget
    rw [get_mapped] at hget
    split at hget
    next hj =>
      rw [hj, hnext, number]
      by_cases himplicit : fd = -1
      · rw [if_pos himplicit, if_pos himplicit]
        omega
      · rw [Admits, if_neg himplicit] at hfd
        rw [if_neg himplicit, if_neg himplicit]
        exact ⟨hfd, himplicit⟩
    · have hold := h.below j content hget
      exact ⟨lt_of_lt_of_le hold.1 hmono, hold.2⟩

theorem unmapped (fd : Int) : (table.unmapped fd).NumbersBelow := by
  have hnext := next_unmapped table fd
  refine ⟨fun j content hget => h.keyed j content (get_unmapped_of_some hget), ?_, ?_⟩
  · rw [hnext]
    exact h.next_ge
  · intro j content hget
    rw [hnext]
    exact h.below j content (get_unmapped_of_some hget)

theorem update {content : FileDescriptorContent} (hid : content.id = fd) :
    ({ table with descriptors := table.descriptors.update fd content } :
      FileDescriptorTable).NumbersBelow := by
  refine ⟨?_, h.next_ge, ?_⟩
  · intro j c hget
    rw [get_update] at hget
    split at hget
    next hj =>
      obtain ⟨-, -, rfl⟩ := map_eq_some_iff.1 hget
      rw [hid, hj]
    · exact h.keyed j c hget
  · intro j c hget
    rw [get_update] at hget
    split at hget
    next hj =>
      obtain ⟨old, hold, -⟩ := map_eq_some_iff.1 hget
      exact hj ▸ h.below fd old hold
    · exact h.below j c hget

end

end FileDescriptorTable.NumbersBelow

namespace FileSystem

/-- Every table keeps its numbers below its counter. -/
def NumbersBelow (fs : FileSystem) : Prop := ∀ pid, (fs.table pid).NumbersBelow

section

variable {fs : FileSystem} (h : fs.NumbersBelow)
include h

theorem NumbersBelow.congr {fs' : FileSystem} (htable : ∀ q, fs'.table q = fs.table q) :
    fs'.NumbersBelow :=
  fun q => htable q ▸ h q

theorem NumbersBelow.mapFile {pid : Pid} {fd : Int} (hfd : (fs.table pid).Admits fd) (node : FsNode)
    (openFlags : Int) : (fs.mapFile pid node openFlags fd).1.NumbersBelow := by
  intro q
  rw [table_mapFile]
  split
  · exact (h pid).mapped hfd _ _
  · exact h q

theorem NumbersBelow.unmapFile (pid : Pid) (node : FsNode) (content : FileDescriptorContent) :
    (fs.unmapFile pid node content).1.NumbersBelow := by
  intro q
  rw [table_unmapFile]
  split
  · exact (h pid).unmapped _
  · exact h q

end

theorem table_setDescriptor (fs : FileSystem) (pid q : Pid) (fd : Int)
    (content : FileDescriptorContent) :
    (fs.setDescriptor pid fd content).table q =
      if q = pid then { fs.table pid with
        descriptors := (fs.table pid).descriptors.update fd content } else fs.table q :=
  FileDescriptors.table_setProcessTable ..

theorem NumbersBelow.setDescriptor {fs : FileSystem} (h : fs.NumbersBelow) (pid : Pid)
    {fd : Int} {content : FileDescriptorContent} (hid : content.id = fd) :
    (fs.setDescriptor pid fd content).NumbersBelow := by
  intro q
  rw [table_setDescriptor]
  split
  · exact (h pid).update hid
  · exact h q

theorem NumbersBelow.closeTarget {fs : FileSystem} (h : fs.NumbersBelow) (sourcePid : Pid)
    (targetFd : Int) (targetPid : Pid) :
    (fs.closeTarget sourcePid targetFd targetPid).NumbersBelow := by
  rw [FileSystem.closeTarget]
  split
  · have h' := h.congr (table_getProcessTable fs targetPid)
    split
    · exact h'.unmapFile _ _ _
    · exact h'
  · exact h

theorem next_closeTarget (fs : FileSystem) (sourcePid : Pid) (targetFd : Int) (targetPid q : Pid) :
    ((fs.closeTarget sourcePid targetFd targetPid).table q).nextFileDescriptor =
      (fs.table q).nextFileDescriptor := by
  rw [closeTarget]
  split
  · simp only
    split
    · rw [table_unmapFile]
      split
      next hq => rw [next_unmapped, table_getProcessTable, hq.1]
      · rw [table_getProcessTable]
    · rw [table_getProcessTable]
  · rfl

theorem descriptor_mapFile (fs : FileSystem) (pid q : Pid) (node : FsNode) (openFlags : Int)
    (fd j : Int) :
    (fs.mapFile pid node openFlags fd).1.descriptor q j =
      if (q = pid ∧ isOpenable node) ∧ j = (fs.table pid).number fd then
        some { id := (fs.table pid).number fd, nodeID := node.id, openFlags }
      else fs.descriptor q j := by
  rw [descriptor, table_mapFile]
  by_cases hq : q = pid ∧ isOpenable node
  · rw [if_pos hq, get_mapped, descriptor, hq.1]
    simp [hq.2]
  · rw [if_neg hq, if_neg (fun h => hq h.1), descriptor]

variable {sourceAlive : Bool} {sourceFdContent : FileDescriptorContent} {status : FsCloneFdStatus}
  {sourceNode : FsNode} {created targetFd : Int} {targetPid : Pid}

variable {fs fs' : FileSystem}

theorem openTarget_cases
    (h : fs.openTarget sourceNode sourceFdContent sourceAlive targetFd targetPid =
      some (fs', created, status)) :
    let mapped := (fs.mapFile targetPid sourceNode 0 targetFd).1
    let number := (fs.table targetPid).number targetFd
    (fs' = mapped ∧ created = -1 ∧ (isOpenable sourceNode → number = -1)) ∨
    (fs' = (getProcessTable mapped targetPid).1 ∧ created = -1 ∧
      isOpenable sourceNode ∧ fs.nodes.get sourceNode.id = none) ∨
    (isOpenable sourceNode ∧ sourceAlive ∧ created = number ∧ number ≠ -1 ∧
      fs' = (getProcessTable mapped targetPid).1.setDescriptor targetPid number
        { sourceFdContent with id := number }) := by
  intro mapped number
  rw [openTarget] at h
  simp only at h
  have hsnd := mapFile_snd fs targetPid sourceNode 0 targetFd
  by_cases hopen : isOpenable sourceNode = true
  · rw [if_pos hopen] at hsnd
    rw [hsnd] at h
    have hcreated : mapped.descriptor targetPid number =
        some { id := number, nodeID := sourceNode.id, openFlags := 0 } := by
      rw [descriptor_mapFile, if_pos ⟨⟨rfl, hopen⟩, rfl⟩]
    have hlookup : mapped.lookup targetPid number = (fs.nodes.get sourceNode.id).map fun node =>
        (node, { id := number, nodeID := sourceNode.id, openFlags := 0 }) := by
      rw [lookup, hcreated, Option.bind_some, nodes_mapFile]
    by_cases hnumber : number = -1
    · rw [if_neg (not_not.2 hnumber)] at h
      cases h
      exact Or.inl ⟨rfl, rfl, fun _ => hnumber⟩
    · rw [if_pos hnumber, hlookup] at h
      cases hnode : fs.nodes.get sourceNode.id with
      | none =>
        rw [hnode] at h
        cases h
        exact Or.inr (Or.inl ⟨rfl, rfl, hopen, rfl⟩)
      | some node =>
        rw [hnode] at h
        simp only [map_some] at h
        split at h
        next halive =>
          cases h
          exact Or.inr (Or.inr ⟨hopen, halive, rfl, hnumber, rfl⟩)
        · cases h
  · rw [if_neg hopen] at hsnd
    rw [hsnd, if_neg (not_not.2 rfl)] at h
    cases h
    exact Or.inl ⟨rfl, rfl, fun hno => absurd hno hopen⟩

theorem NumbersBelow.openTarget (hfs : fs.NumbersBelow)
    (hfd : (fs.table targetPid).Admits targetFd)
    (h : fs.openTarget sourceNode sourceFdContent sourceAlive targetFd targetPid =
      some (fs', created, status)) : fs'.NumbersBelow := by
  have hmapped := hfs.mapFile hfd sourceNode 0
  rcases openTarget_cases h with ⟨rfl, -, -⟩ | ⟨rfl, -, -, -⟩ | ⟨-, -, -, -, rfl⟩
  · exact hmapped
  · exact hmapped.congr (table_getProcessTable _ _)
  · exact (hmapped.congr (table_getProcessTable _ _)).setDescriptor _ rfl

theorem descriptor_openTarget
    (h : fs.openTarget sourceNode sourceFdContent sourceAlive targetFd targetPid =
      some (fs', created, status)) (q : Pid) (fd : Int)
    (hfd : q = targetPid → fd ≠ (fs.table targetPid).number targetFd) :
    fs'.descriptor q fd = fs.descriptor q fd := by
  have hmap : (fs.mapFile targetPid sourceNode 0 targetFd).1.descriptor q fd =
      fs.descriptor q fd := by
    rw [descriptor_mapFile, if_neg (fun hq => hfd hq.1.1 hq.2)]
  rcases openTarget_cases h with ⟨rfl, -, -⟩ | ⟨rfl, -, -, -⟩ | ⟨-, -, -, -, rfl⟩
  · exact hmap
  · rw [descriptor, table_getProcessTable]
    exact hmap
  · rw [descriptor, table_setDescriptor, table_getProcessTable]
    split
    next hq =>
      subst hq
      rw [get_update, if_neg (hfd rfl)]
      exact hmap
    · rw [table_getProcessTable]
      exact hmap

theorem next_openTarget
    (h : fs.openTarget sourceNode sourceFdContent sourceAlive targetFd targetPid =
      some (fs', created, status)) (hexplicit : targetFd ≠ -1) (q : Pid) :
    (fs'.table q).nextFileDescriptor = (fs.table q).nextFileDescriptor := by
  have hmap : ((fs.mapFile targetPid sourceNode 0 targetFd).1.table q).nextFileDescriptor =
      (fs.table q).nextFileDescriptor := by
    rw [table_mapFile]
    split
    next hq => rw [next_mapped, if_neg hexplicit, hq.1]
    · rfl
  rcases openTarget_cases h with ⟨rfl, -, -⟩ | ⟨rfl, -, -, -⟩ | ⟨-, -, -, -, rfl⟩
  · exact hmap
  · rw [table_getProcessTable]
    exact hmap
  · rw [table_setDescriptor, table_getProcessTable]
    split
    next hq =>
      subst hq
      exact hmap
    · rw [table_getProcessTable]
      exact hmap

theorem NumbersBelow.clonefd (hfs : fs.NumbersBelow)
    {sourceFd targetFd created : Int} {sourcePid targetPid : Pid}
    (hfd : (fs.table targetPid).Admits targetFd)
    (h : fs.clonefd sourceFd sourcePid targetFd targetPid = some (fs', created, status)) :
    fs'.NumbersBelow ∧ (targetFd ≠ -1 → ∀ q,
      (fs'.table q).nextFileDescriptor = (fs.table q).nextFileDescriptor) := by
  have hsame := table_getProcessTable fs sourcePid
  have hfs0 := hfs.congr hsame
  rw [clonefd_eq] at h
  split at h
  · cases h
    exact ⟨hfs0, fun _ q => by rw [hsame]⟩
  · have hnext : ∀ q, (((getProcessTable fs sourcePid).1.closeTarget sourcePid
        targetFd targetPid).table q).nextFileDescriptor = (fs.table q).nextFileDescriptor := by
      intro q
      rw [next_closeTarget, hsame]
    refine ⟨(hfs0.closeTarget _ _ _).openTarget ?_ h, fun hexplicit q => ?_⟩
    · rwa [Admits, hnext]
    · rw [next_openTarget h hexplicit, hnext]

section

variable (fs : FileSystem)

@[simp] theorem table_modifyNode (id : Nat) (f : FsNode → FsNode) (q : Pid) :
    (fs.modifyNode id f).table q = fs.table q := by
  rw [modifyNode]
  split <;> rfl

@[simp] theorem table_createVfsNode (ramdiskNode : RamdiskEntry) (parent : Nat) (q : Pid) :
    (fs.createVfsNode ramdiskNode parent).1.table q = fs.table q := by
  simp only [createVfsNode, addChild, table_modifyNode]
  rfl

@[simp] theorem table_createPipeNode (block : PipeBlock) (q : Pid) :
    (fs.createPipeNode block).1.table q = fs.table q := by
  simp only [createPipeNode, addChild, table_modifyNode]
  rfl

end

section

variable {fs : FileSystem} (h : fs.NumbersBelow)
include h

theorem NumbersBelow.close (pid : Pid) (fd : Int) (status : FsCloseStatus) :
    (fs.close pid fd status).NumbersBelow := by
  have h' := h.congr (table_getProcessTable fs pid)
  simp only [FileSystem.close, nodeForDescriptor_eq]
  split
  · split
    · exact h'.unmapFile _ _ _
    · exact h'
  · exact h'

theorem NumbersBelow.processClosed (pid : Pid) : (fs.processClosed pid).NumbersBelow := by
  simp only [FileSystem.processClosed, getProcessTable_snd]
  have hwalk : ∀ (entries : List (Int × FileDescriptorContent)) (fs' : FileSystem),
      fs'.NumbersBelow → (entries.foldl (closeEntry pid) fs').NumbersBelow := by
    intro entries
    induction entries with
    | nil => exact fun _ h => h
    | cons entry entries ih =>
      intro fs' h'
      apply ih
      rw [closeEntry]
      split
      · exact h'.unmapFile _ _ _
      · exact h'
  intro q
  rw [FileDescriptors.table_unmapAll]
  split
  · exact NumbersBelow.empty
  · exact hwalk _ _ (h.congr (table_getProcessTable fs pid)) q

theorem NumbersBelow.processForked {fs' : FileSystem} {source fork : Pid}
    (hfd : ∀ fd content, fs.descriptor source fd = some content → fd < (fs.table fork).nextFileDescriptor)
    (hforked : fs.processForked source fork = some fs') : fs'.NumbersBelow := by
  have hsame := table_getProcessTable fs source
  simp only [FileSystem.processForked, getProcessTable_snd] at hforked
  have hwalk : ∀ (entries : List (Int × FileDescriptorContent)) (a b : FileSystem),
      a.NumbersBelow →
      (∀ entry ∈ entries, entry.2.id ≠ -1 ∧ entry.2.id < (a.table fork).nextFileDescriptor) →
      entries.foldlM (fun fs entry => (fs.clonefd entry.2.id source entry.2.id fork).map Prod.fst) a =
        some b → b.NumbersBelow := by
    intro entries
    induction entries with
    | nil =>
      intro a b ha _ hfold
      cases hfold
      exact ha
    | cons entry entries ih =>
      intro a b ha hentries hfold
      rw [List.foldlM_cons, Option.bind_eq_bind, bind_eq_some_iff] at hfold
      obtain ⟨a1, hstep, hrest⟩ := hfold
      obtain ⟨⟨fs1, created, status⟩, hclone, rfl⟩ := map_eq_some_iff.1 hstep
      obtain ⟨hne, hlt⟩ := hentries entry List.mem_cons_self
      have hadmits : (a.table fork).Admits entry.2.id := by
        rwa [Admits, if_neg hne]
      obtain ⟨ha1, hnext⟩ := ha.clonefd hadmits hclone
      refine ih fs1 b ha1 ?_ hrest
      intro e he
      rw [hnext hne]
      exact hentries e (List.mem_cons_of_mem _ he)
  refine hwalk _ _ _ (h.congr hsame) ?_ hforked
  rintro ⟨fd, content⟩ hentry
  have hget := mem_entries.1 hentry
  simp only [(h source).keyed fd content hget, hsame]
  exact ⟨((h source).below fd content hget).2, hfd fd content hget⟩

end

@[simp] theorem tables_modifyNode (fs : FileSystem) (id : Nat) (f : FsNode → FsNode) :
    (fs.modifyNode id f).processDescriptorTableMap = fs.processDescriptorTableMap := by
  rw [modifyNode]
  split <;> rfl

theorem initialResources_numbersBelow : initialResources.NumbersBelow := by
  intro q
  have hempty : initialResources.table q = {} := by
    simp [initialResources, createMountpoint, createNode, addChild, table, tables_modifyNode, empty,
      get_empty]
  rw [hempty]
  exact NumbersBelow.empty

end FileSystem

/-! ## Runs -/

/-- Implicit numbers do not run out of the `int`, and explicit ones are below the counter of their
table. -/
def FileCall.KeepsNumbersBelow (fs : FileSystem) : FileCall → Prop
  | .openNode pid _ _ => (fs.table pid).nextFileDescriptor < 2 ^ 31 - 1
  | .pipe pid _ => (fs.table pid).nextFileDescriptor < 2 ^ 31 - 2
  | .clonefd _ _ targetFd targetPid => (fs.table targetPid).Admits targetFd
  | .processForked source fork => ∀ fd content, fs.descriptor source fd = some content →
      fd < (fs.table fork).nextFileDescriptor
  | .createVfsNode _ _ | .close _ _ _ | .processClosed _ => True

/-- The descriptors `fds` that a call hands out are new in the table of `pid`, and none is
replaced. -/
structure HandsOutFresh (fs fs' : FileSystem) (pid : Pid) (fds : List Int) : Prop where
  distinct : fds.Nodup
  fresh : ∀ fd ∈ fds, fs.descriptor pid fd = none
  kept : fds ≠ [] → ∀ q fd content, fs.descriptor q fd = some content →
    fs'.descriptor q fd = some content

theorem HandsOutFresh.nil {fs fs' : FileSystem} {pid : Pid} : HandsOutFresh fs fs' pid [] :=
  ⟨List.nodup_nil, by simp, fun h => absurd rfl h⟩

namespace FileSystem

variable {fs fs' : FileSystem}

theorem NumbersBelow.mapFile_kept (h : fs.NumbersBelow) {pid q : Pid} {node : FsNode}
    {openFlags fd : Int} {content : FileDescriptorContent}
    (hopen : fs.descriptor q fd = some content) :
    (fs.mapFile pid node openFlags (-1)).1.descriptor q fd = some content := by
  have hne : ¬((q = pid ∧ isOpenable node) ∧ fd = (fs.table pid).number (-1)) := by
    rintro ⟨⟨rfl, -⟩, rfl⟩
    have hfresh := (h q).fresh (le_refl _)
    rw [descriptor, number, if_pos rfl, hfresh] at hopen
    cases hopen
  rw [descriptor_mapFile, if_neg hne, hopen]

variable {pid : Pid}

theorem NumbersBelow.openNode (h : fs.NumbersBelow) {nodeID : Nat} {flags fd : Int}
    (hnext : (fs.table pid).nextFileDescriptor < 2 ^ 31 - 1)
    (hopen : fs.openNode pid nodeID flags = (fs', fd)) :
    fs'.NumbersBelow ∧ HandsOutFresh fs fs' pid (if fd = -1 then [] else [fd]) := by
  have hfailed : (fs, -1) = (fs', fd) →
      fs'.NumbersBelow ∧ HandsOutFresh fs fs' pid (if fd = -1 then [] else [fd]) := by
    intro heq
    cases heq
    exact ⟨h, HandsOutFresh.nil⟩
  rw [FileSystem.openNode] at hopen
  split at hopen
  next node hnode =>
    split at hopen
    swap
    · exact hfailed hopen
    have hfd : (fs.mapFile pid node flags (-1)).2 = fd := congrArg Prod.snd hopen
    obtain rfl := congrArg Prod.fst hopen
    rw [mapFile_snd] at hfd
    refine ⟨h.mapFile (by rwa [Admits, if_pos rfl]) _ _, ?_⟩
    split
    · exact HandsOutFresh.nil
    next hcreated =>
      refine ⟨List.nodup_singleton _, ?_, fun _ q fd content hkept => h.mapFile_kept hkept⟩
      intro j hj
      rw [List.mem_singleton] at hj
      split at hfd
      · rw [hj, ← hfd, number, if_pos rfl]
        exact (h pid).fresh (le_refl _)
      · exact absurd hfd.symm hcreated
  · exact hfailed hopen

theorem NumbersBelow.pipe (h : fs.NumbersBelow) {block : PipeBlock}
    {outWrite outRead : Int} (hnext : (fs.table pid).nextFileDescriptor < 2 ^ 31 - 2)
    (hpipe : fs.pipe pid block = (fs', outWrite, outRead)) :
    fs'.NumbersBelow ∧ HandsOutFresh fs fs' pid [outWrite, outRead] := by
  obtain ⟨fs0, hfs0⟩ : ∃ fs0, fs0 = (fs.createPipeNode block).1 := ⟨_, rfl⟩
  obtain ⟨node, hnode⟩ : ∃ node, node = (fs.createPipeNode block).2 := ⟨_, rfl⟩
  have hopenable : isOpenable node = true := by
    rw [hnode]
    rfl
  have htable : ∀ q, fs0.table q = fs.table q := by
    intro q
    rw [hfs0, table_createPipeNode]
  have h0 : fs0.NumbersBelow := h.congr htable
  have hadmits : (fs0.table pid).Admits (-1) := by
    rw [Admits, if_pos rfl, htable]
    omega
  -- the table between the two mappings
  have htable1 : (fs0.mapFile pid node 0 (-1)).1.table pid =
      (fs0.table pid).mapped node.id (-1) 0 := by
    rw [table_mapFile, if_pos ⟨rfl, hopenable⟩]
  have hnext1 : ((fs0.mapFile pid node 0 (-1)).1.table pid).nextFileDescriptor =
      (fs.table pid).nextFileDescriptor + 1 := by
    rw [htable1, (h0 pid).next_mapped_of_admits hadmits, if_pos rfl, htable]
  have h1 := h0.mapFile hadmits node 0
  have hadmits1 : ((fs0.mapFile pid node 0 (-1)).1.table pid).Admits (-1) := by
    rw [Admits, if_pos rfl, hnext1]
    omega
  have hwrite : (fs0.mapFile pid node 0 (-1)).2 = (fs.table pid).nextFileDescriptor := by
    rw [mapFile_snd, if_pos hopenable, number, if_pos rfl, htable]
  have hread : ((fs0.mapFile pid node 0 (-1)).1.mapFile pid node 0 (-1)).2 =
      (fs.table pid).nextFileDescriptor + 1 := by
    rw [mapFile_snd, if_pos hopenable, number, if_pos rfl, hnext1]
  simp only [FileSystem.pipe, ← hfs0, ← hnode, hwrite, hread, Prod.mk.injEq] at hpipe
  obtain ⟨rfl, rfl, rfl⟩ := hpipe
  refine ⟨h1.mapFile hadmits1 node 0, by simp, ?_, ?_⟩
  · intro fd hfd
    apply (h pid).fresh
    simp only [List.mem_cons, List.not_mem_nil, or_false] at hfd
    omega
  · intro _ q fd content hopen
    apply h1.mapFile_kept
    apply h0.mapFile_kept
    rwa [descriptor, htable]

theorem closeTarget_implicit (fs : FileSystem) (sourcePid targetPid : Pid) :
    fs.closeTarget sourcePid (-1) targetPid = fs :=
  if_neg (not_not.2 rfl)

theorem NumbersBelow.clonefd_fresh (h : fs.NumbersBelow) {sourceFd targetFd created : Int}
    {sourcePid targetPid : Pid} {status : FsCloneFdStatus}
    (hclone : fs.clonefd sourceFd sourcePid targetFd targetPid = some (fs', created, status)) :
    HandsOutFresh fs fs' targetPid (if targetFd = -1 ∧ created ≠ -1 then [created] else []) := by
  split
  next himplicit =>
    obtain ⟨rfl, hcreated⟩ := himplicit
    have hsame := table_getProcessTable fs sourcePid
    rw [clonefd_eq] at hclone
    simp only [closeTarget_implicit] at hclone
    split at hclone
    · cases hclone
      exact absurd rfl hcreated
    · have hnumber : created = (fs.table targetPid).nextFileDescriptor := by
        rcases openTarget_cases hclone with ⟨-, hno, -⟩ | ⟨-, hno, -, -⟩ | ⟨-, -, hnumber, -, -⟩
        · exact absurd hno hcreated
        · exact absurd hno hcreated
        · rw [hnumber, hsame, number, if_pos rfl]
      have hfresh := (h targetPid).fresh (le_refl _)
      refine ⟨List.nodup_singleton _, ?_, ?_⟩
      · intro fd hfd
        rw [List.mem_singleton] at hfd
        rw [hfd, hnumber]
        exact hfresh
      · intro _ q fd content hopen
        rw [descriptor_openTarget hclone q fd, descriptor, hsame]
        · exact hopen
        · rintro rfl rfl
          rw [hsame, number, if_pos rfl, descriptor, hfresh] at hopen
          cases hopen
  · exact HandsOutFresh.nil

theorem NumbersBelow.call (h : fs.NumbersBelow) {call : FileCall} {fds : List Int}
    (hok : call.KeepsNumbersBelow fs) (hcall : fs.call call = some (fs', fds)) :
    fs'.NumbersBelow ∧ HandsOutFresh fs fs' call.receiver fds := by
  cases call with
  | createVfsNode ramdiskNode parent =>
    obtain ⟨rfl, rfl⟩ := hcall
    exact ⟨h.congr (table_createVfsNode fs ramdiskNode parent), HandsOutFresh.nil⟩
  | openNode pid nodeID flags =>
    rcases hopen : fs.openNode pid nodeID flags with ⟨fs1, fd⟩
    simp only [FileSystem.call, hopen, Option.some.injEq, Prod.mk.injEq] at hcall
    obtain ⟨rfl, rfl⟩ := hcall
    exact h.openNode hok hopen
  | close pid fd status =>
    obtain ⟨rfl, rfl⟩ := hcall
    exact ⟨h.close pid fd status, HandsOutFresh.nil⟩
  | pipe pid block =>
    rcases hpipe : fs.pipe pid block with ⟨fs1, outWrite, outRead⟩
    simp only [FileSystem.call, hpipe, Option.some.injEq, Prod.mk.injEq] at hcall
    obtain ⟨rfl, rfl⟩ := hcall
    exact h.pipe hok hpipe
  | clonefd sourceFd sourcePid targetFd targetPid =>
    rw [FileSystem.call, Option.bind_eq_bind, bind_eq_some_iff] at hcall
    obtain ⟨⟨fs1, created, status⟩, hclone, heq⟩ := hcall
    cases heq
    exact ⟨(h.clonefd hok hclone).1, h.clonefd_fresh hclone⟩
  | processForked source fork =>
    rw [FileSystem.call, map_eq_some_iff] at hcall
    obtain ⟨fs1, hforked, heq⟩ := hcall
    cases heq
    exact ⟨h.processForked hok hforked, HandsOutFresh.nil⟩
  | processClosed pid =>
    simp only [FileSystem.call, Option.some.injEq, Prod.mk.injEq] at hcall
    obtain ⟨rfl, rfl⟩ := hcall
    exact ⟨h.processClosed pid, HandsOutFresh.nil⟩

theorem reachable_numbersBelow
    (hfs : fileSystemCalls.Reachable (fun fs call => call.KeepsNumbersBelow fs) fs) :
    fs.NumbersBelow := by
  refine hfs.invariant ?_ ?_
  · rintro s rfl
    exact initialResources_numbersBelow
  · intro s call s' hs hok hstep
    obtain ⟨⟨s1, fds⟩, hcall, rfl⟩ := map_eq_some_iff.1 hstep
    exact (hs.call hok hcall).1

end FileSystem

/-- In every run whose calls meet the condition, the descriptors handed out without an explicit number
are new in that table and different from each other, and replace none. -/
theorem implicit_descriptors_fresh {fs fs' : FileSystem} {call : FileCall} {fds : List Int}
    (hfs : fileSystemCalls.Reachable (fun fs call => call.KeepsNumbersBelow fs) fs)
    (hok : call.KeepsNumbersBelow fs) (hcall : fs.call call = some (fs', fds)) :
    HandsOutFresh fs fs' call.receiver fds :=
  ((FileSystem.reachable_numbersBelow hfs).call hok hcall).2

theorem implicit_descriptors_fresh_after_pipe :
    ∃ fs fs' : FileSystem,
      fileSystemCalls.Reachable (fun fs call => call.KeepsNumbersBelow fs) fs ∧
      fs.call (.clonefd 3 1 (-1) 1) = some (fs', [5]) ∧ HandsOutFresh fs fs' 1 [5] := by
  have hok : (FileCall.pipe 1 zeroBlock).KeepsNumbersBelow FileSystem.initialResources := by
    show (FileSystem.initialResources.table 1).nextFileDescriptor < 2 ^ 31 - 2
    decide +kernel
  obtain ⟨fs, hfs⟩ : ∃ fs, fs = (FileSystem.initialResources.pipe 1 zeroBlock).1 := ⟨_, rfl⟩
  have hreach : fileSystemCalls.Reachable (fun fs call => call.KeepsNumbersBelow fs) fs :=
    hfs ▸ .step (.init rfl) hok rfl
  have hok' : (FileCall.clonefd 3 1 (-1) 1).KeepsNumbersBelow fs := by
    show (fs.table 1).nextFileDescriptor < 2 ^ 31 - 1
    rw [hfs]
    decide +kernel
  have hcall : (fs.call (.clonefd 3 1 (-1) 1)).map Prod.snd = some [5] := by
    rw [hfs]
    decide +kernel
  obtain ⟨⟨fs', fds⟩, hcall, rfl⟩ := map_eq_some_iff.1 hcall
  exact ⟨fs, fs', hreach, hcall, implicit_descriptors_fresh hreach hok' hcall⟩

/-- Process 1 forks process 2, whose counter is still 3: the next pipe replaces two open
descriptors. -/
theorem pipe_after_fork_replaces_descriptors :
    ∃ fs fs' : FileSystem,
      fileSystemCalls.Reachable (fun _ _ => True) fs ∧
      fs.call (.pipe 2 zeroBlock) = some (fs', [3, 4]) ∧
      fs.descriptor 2 3 = some { id := 3, nodeID := 4 } ∧
      fs'.descriptor 2 3 = some { id := 3, nodeID := 5 } ∧
      ¬ HandsOutFresh fs fs' 2 [3, 4] := by
  obtain ⟨fs, hfs, hbefore, ⟨fs', fds⟩, hcall, rfl, hafter⟩ :
      ∃ fs ∈ fileSystemCalls.run FileSystem.initialResources [.pipe 1 zeroBlock, .processForked 1 2],
        fs.descriptor 2 3 = some { id := 3, nodeID := 4 } ∧ ∃ r ∈ fs.call (.pipe 2 zeroBlock),
          r.2 = [3, 4] ∧ r.1.descriptor 2 3 = some { id := 3, nodeID := 5 } := by
    decide +kernel
  refine ⟨fs, fs', System.reachable_of_run rfl hfs, hcall, hbefore, hafter, fun hfresh => ?_⟩
  have hnone := hfresh.fresh 3 List.mem_cons_self
  rw [hbefore] at hnone
  cases hnone

end MeetixOS.Kernel
