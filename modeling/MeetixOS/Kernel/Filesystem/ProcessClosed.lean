import MeetixOS.Kernel.Filesystem.References

/-! # The end of a process, node by node

`FileSystem::processClosed` closes the descriptors of a process with an iterator of the hash map. In
`FileSystem.processClosed` a deleted map node keeps its contents; here the iterator stops where it is
advanced from one. Closing a file or a pipe erases the descriptor that the iterator stands on
(`processClosed_iff_nothing_open`). -/

namespace MeetixOS.Kernel

open MeetixOS.Lib FileDescriptors HashMap

namespace FileSystem

/-! ## The walk -/

/-- The loop of `processClosed`, with the descriptors that it visits; `none` behind a deleted
node. -/
def closeLoop (pid : Pid) : Nat → FileSystem → Iterator Int →
    Option (FileSystem × List FileDescriptorContent)
  | 0, _, _ => none
  | n + 1, fs, it =>
    match it.current with
    | none => some (fs, [])
    | some key => do
        let content ← (fs.table pid).descriptors.get key
        let fs := closeEntry pid fs (key, content)
        let it ← (fs.table pid).descriptors.next it
        let (fs, visited) ← closeLoop pid n fs it
        some (fs, content :: visited)

/-- `processClosed` with the iterator. A walk takes a round for each entry, and one to see the
end. -/
def processClosedIterated (fs : FileSystem) (pid : Pid) :
    Option (FileSystem × List FileDescriptorContent) :=
  let (fs, table) := getProcessTable fs pid
  (closeLoop pid (table.descriptors.entries.length + 1) fs table.descriptors.begin).map
    fun (fs, visited) => (unmapAll fs pid, visited)

/-! ## What it should do -/

/-- The descriptors of a process that name the node of a pipe. -/
def pipeDescriptors (fs : FileSystem) (pid : Pid) (id : Nat) : Nat :=
  (fs.table pid).descriptors.count fun content =>
    match fs.nodes.get content.nodeID with
    | some node => node.type = .pipe && node.physFsID = id
    | none => false

/-- Every descriptor was visited once, its pipe lost a reference, and only that table is gone. -/
structure ClosesProcess (fs fs' : FileSystem) (pid : Pid) (visited : List FileDescriptorContent) :
    Prop where
  visits : visited.Perm ((fs.table pid).descriptors.entries.map Prod.snd)
  references : ∀ id, (fs'.references id).count pid =
    (fs.references id).count pid - fs.pipeDescriptors pid id
  gone : fs'.processDescriptorTableMap.get pid = none
  tables : ∀ q, q ≠ pid →
    fs'.processDescriptorTableMap.get q = fs.processDescriptorTableMap.get q
  others : ∀ q id, q ≠ pid → (fs'.references id).count q = (fs.references id).count q

/-- No descriptor of the process names a file or a pipe. -/
def NothingOpen (fs : FileSystem) (pid : Pid) : Prop :=
  ∀ fd content node, fs.descriptor pid fd = some content →
    fs.nodes.get content.nodeID = some node → isOpenable node = false

variable {fs fs' : FileSystem} {pid : Pid}

theorem closeEntry_of_not_openable {entry : Int × FileDescriptorContent}
    (h : ∀ node, fs.nodes.get entry.2.nodeID = some node → isOpenable node = false) :
    closeEntry pid fs entry = fs := by
  rw [closeEntry]
  split
  next node hnode =>
    have hnot := h node hnode
    rw [isOpenable] at hnot
    rw [unmapFile]
    cases htype : node.type <;> simp [htype] at hnot ⊢
  · rfl

theorem closeEntry_erases {key : Int} {content : FileDescriptorContent} {node : FsNode}
    (hget : (fs.table pid).descriptors.get key = some content) (hid : content.id = key)
    (hnode : fs.nodes.get content.nodeID = some node) (hopen : isOpenable node = true) :
    ((closeEntry pid fs (key, content)).table pid).descriptors.get key = none := by
  rw [closeEntry]
  simp only [hnode]
  rw [table_unmapFile, if_pos ⟨rfl, hopen⟩, FileDescriptorTable.unmapped, hid, hget]
  simp [get_erase, hid]

theorem closeLoop_visits {n : Nat} {it : Iterator Int} {visited : List FileDescriptorContent}
    (hkeyed : (fs.table pid).WellKeyed) (h : closeLoop pid n fs it = some (fs', visited)) :
    fs' = fs ∧ ∀ content ∈ visited, ∀ node, fs.nodes.get content.nodeID = some node →
      isOpenable node = false := by
  induction n generalizing it visited with
  | zero => cases h
  | succ n ih =>
    rw [closeLoop] at h
    split at h
    · cases h
      exact ⟨rfl, nofun⟩
    next key hcurrent =>
      simp only [Option.bind_eq_bind, Option.bind_eq_some_iff] at h
      obtain ⟨content, hget, it', hnext, ⟨fs1, rest⟩, hloop, heq⟩ := h
      have hclosed : ∀ node, fs.nodes.get content.nodeID = some node → isOpenable node = false := by
        intro node hnode
        by_contra hopen
        -- the iterator would stand on a deleted node
        rw [next_of_erased hcurrent (closeEntry_erases hget (hkeyed key content hget) hnode
          (by simpa using hopen))] at hnext
        cases hnext
      rw [closeEntry_of_not_openable hclosed] at hloop
      cases heq
      obtain ⟨rfl, hrest⟩ := ih hloop
      refine ⟨rfl, fun c hc => ?_⟩
      rcases List.mem_cons.1 hc with rfl | hc
      · exact hclosed
      · exact hrest c hc

theorem closeLoop_of_nothingOpen (hopen : fs.NothingOpen pid) {n : Nat} {it : Iterator Int}
    {rest : List (Int × FileDescriptorContent)} (hat : (fs.table pid).descriptors.AtEntries it rest)
    (hmem : ∀ e ∈ rest, e ∈ (fs.table pid).descriptors.entries) (hn : rest.length < n) :
    closeLoop pid n fs it = some (fs, rest.map Prod.snd) := by
  induction n generalizing it rest with
  | zero => exact absurd hn (Nat.not_lt_zero _)
  | succ n ih =>
    cases rest with
    | nil =>
      rw [closeLoop, hat.1]
      rfl
    | cons e rest =>
      have hget := mem_entries.1 (hmem e List.mem_cons_self)
      have hsame : closeEntry pid fs (e.1, e.2) = fs :=
        closeEntry_of_not_openable fun node hnode => hopen e.1 e.2 node hget hnode
      obtain ⟨it', hnext, hat'⟩ := hat.next
      rw [closeLoop, hat.1]
      simp [hget, hsame, hnext, ih hat' (fun e' he' => hmem e' (List.mem_cons_of_mem _ he'))
          (by simpa using hn)]

theorem processClosedIterated_eq (fs : FileSystem) (pid : Pid) :
    fs.processClosedIterated pid =
      (closeLoop pid ((fs.table pid).descriptors.entries.length + 1)
        (getProcessTable fs pid).1 (fs.table pid).descriptors.begin).map
          fun r => (unmapAll r.1 pid, r.2) := by
  simp [processClosedIterated, getProcessTable_snd]

theorem get_unmapAll (fs : FileSystem) (pid q : Pid) :
    (unmapAll fs pid).processDescriptorTableMap.get q =
      if q = pid then none else fs.processDescriptorTableMap.get q := by
  simp only [unmapAll, get_erase]
  by_cases hq : q = pid
  · rw [if_pos hq, if_pos hq]
  · rw [if_neg hq, if_neg hq, getProcessTable]
    split
    · rfl
    · simp [get_add, if_neg hq]

theorem pipes_unmapAll (fs : FileSystem) (pid : Pid) : (unmapAll fs pid).pipes = fs.pipes := by
  simp [unmapAll, getProcessTable_pipes]

end FileSystem

open FileSystem in
/-- The walk over a process' descriptors ends and does what it should, without advancing from a deleted
node, if and only if no descriptor names a file or a pipe. `createDescriptor` stores them under their
numbers. -/
theorem processClosed_iff_nothing_open (fs : FileSystem) (pid : Pid)
    (hkeyed : (fs.table pid).WellKeyed) :
    (∃ fs' visited, fs.processClosedIterated pid = some (fs', visited) ∧
      ClosesProcess fs fs' pid visited) ↔ fs.NothingOpen pid := by
  have hv := sameView_getProcessTable fs pid
  have htable := table_getProcessTable fs pid
  constructor
  · rintro ⟨fs', visited, hclosed, hcloses⟩
    rw [processClosedIterated_eq] at hclosed
    obtain ⟨⟨fs1, visited1⟩, hloop, heq⟩ := Option.map_eq_some_iff.1 hclosed
    cases heq
    obtain ⟨-, hvisited⟩ := closeLoop_visits (by rw [htable]; exact hkeyed) hloop
    intro fd content node hget hnode
    have hmem : content ∈ visited1 :=
      hcloses.visits.mem_iff.2 (List.mem_map_of_mem (mem_entries.2 hget))
    exact hvisited content hmem node (by rw [getProcessTable_nodes]; exact hnode)
  · intro hopen
    let fs0 := (getProcessTable fs pid).1
    have hopen0 : fs0.NothingOpen pid := by
      intro fd content node hget hnode
      rw [hv.descriptor] at hget
      rw [getProcessTable_nodes] at hnode
      exact hopen fd content node hget hnode
    have hloop := closeLoop_of_nothingOpen hopen0
      (by rw [htable]; exact atEntries_begin _) (by rw [htable]; exact fun _ h => h)
      (Nat.lt_succ_self _)
    refine ⟨unmapAll fs0 pid, (fs.table pid).descriptors.entries.map Prod.snd, ?_, ?_⟩
    · rw [processClosedIterated_eq, hloop, Option.map_some]
    · have hreferences : ∀ id, (unmapAll fs0 pid).references id = fs.references id := by
        intro id
        rw [references, pipes_unmapAll, hv.pipes, references]
      -- no descriptor names a pipe
      have hnone : ∀ id, fs.pipeDescriptors pid id = 0 := by
        intro id
        refine Nat.eq_zero_of_not_pos ?_
        rw [pipeDescriptors, count_pos]
        rintro ⟨fd, content, hget, hpipe⟩
        split at hpipe
        next node hnode =>
          have hnot := hopen fd content node hget hnode
          rw [isOpenable] at hnot
          simp_all
        · cases hpipe
      refine ⟨List.Perm.refl _, fun id => by rw [hreferences, hnone, Nat.sub_zero], ?_, ?_, ?_⟩
      · rw [get_unmapAll, if_pos rfl]
      · intro q hq
        rw [get_unmapAll, if_neg hq]
        simp only [fs0, getProcessTable]
        split
        · rfl
        · rw [get_add, if_neg hq]
      · exact fun q id _ => by rw [hreferences]

theorem wellKeyed_of_entries {table : FileDescriptorTable}
    (h : table.descriptors.entries.all (fun e => e.2.id = e.1) = true) : table.WellKeyed := by
  intro fd content hget
  have := List.all_eq_true.1 h (fd, content) (mem_entries.2 hget)
  simpa using this

theorem processClosed_without_descriptors :
    ∃ fs, fs = (FileSystem.initialResources.pipe 1 zeroBlock).1 ∧ (fs.table 2).WellKeyed ∧
      fs.NothingOpen 2 ∧ ∃ fs' visited, fs.processClosedIterated 2 = some (fs', visited) ∧
        FileSystem.ClosesProcess fs fs' 2 visited := by
  refine ⟨_, rfl, ?_⟩
  have hempty : ((FileSystem.initialResources.pipe 1 zeroBlock).1.table 2).descriptors.entries = [] := by
    decide +kernel
  have hkeyed := wellKeyed_of_entries (by rw [hempty]; rfl)
  have hopen : (FileSystem.initialResources.pipe 1 zeroBlock).1.NothingOpen 2 := by
    intro fd content node hget _
    have hmem := mem_entries.2 hget
    rw [hempty] at hmem
    cases hmem
  exact ⟨hkeyed, hopen, (processClosed_iff_nothing_open _ 2 hkeyed).2 hopen⟩

/-- With one pipe open, the first descriptor is closed, and the iterator is advanced from its node. -/
theorem processClosed_reads_erased_node :
    ∃ fs, fileSystemCalls.Reachable (fun _ _ => True) fs ∧ (fs.table 1).WellKeyed ∧
      fs.processClosedIterated 1 = none ∧
      ¬ ∃ fs' visited, fs.processClosedIterated 1 = some (fs', visited) ∧
        FileSystem.ClosesProcess fs fs' 1 visited := by
  have hreach : fileSystemCalls.Reachable (fun _ _ => True)
      (FileSystem.initialResources.pipe 1 zeroBlock).1 :=
    .step (a := .pipe 1 zeroBlock) (.init rfl) trivial rfl
  have hnone : ((FileSystem.initialResources.pipe 1 zeroBlock).1.processClosedIterated 1).isNone :=
    by decide +kernel
  rw [Option.isNone_iff_eq_none] at hnone
  refine ⟨_, hreach, wellKeyed_of_entries (by decide +kernel), hnone, ?_⟩
  rintro ⟨fs', visited, hclosed, -⟩
  rw [hnone] at hclosed
  cases hclosed

end MeetixOS.Kernel
