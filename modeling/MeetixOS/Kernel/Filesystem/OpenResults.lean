import MeetixOS.Kernel.Filesystem.Open

/-! # What an open call leaves behind

Two results about whole open calls, both through `fsOpen_outcome`: when a call adds exactly the
descriptor that it returns, and which nodes a creating open makes. The after-work of the discovery runs
twice for a path that needed a round and was found, and then there are two descriptors; a file that an
open creates is named by the whole path of the call. -/

namespace MeetixOS.Kernel

open MeetixOS.Lib FileSystem

variable {c : OpenCall} {s s' : Vfs} {t t' : OpenState}

/-! ## The request to the delegate -/

/-- What the delegate of a node answers to an open. -/
def opening (c : OpenCall) (s : Vfs) (status : FsDiscoveryStatus) (node : Nat) :
    Option (Vfs × Nat × FsOpenStatus) :=
  (s.fs.getDelegate node).bind fun delegate =>
    s.delegateOpen c.storage delegate node c.path c.flags status

variable {status : FsDiscoveryStatus} {node id current parent : Nat} {openStatus : FsOpenStatus}
  {fs : FileSystem} {d : Bool} {names rest : List (List Char)} {r : Resolution} {name : List Char}

theorem afterFinishTransaction_cases (h : afterFinishTransaction c t status node = some t') :
    (¬ (status = .successful ∨ status = .notFound) ∧
      t' = { t with openFd := -1, openStatus := .error }) ∨
    ((status = .successful ∨ status = .notFound) ∧ t.vfs.fs.getDelegate node = none ∧
      t' = { t with openStatus := .error }) ∨
    ((status = .successful ∨ status = .notFound) ∧ ∃ vfs id fsNode openStatus,
      opening c t.vfs status node = some (vfs, id, openStatus) ∧
      vfs.fs.nodes.get id = some fsNode ∧ t' = finishOpen c t vfs fsNode openStatus) := by
  rw [afterFinishTransaction] at h
  split at h
  next hstatus =>
    cases hdelegate : t.vfs.fs.getDelegate node with
    | none =>
      rw [hdelegate] at h
      cases h
      exact Or.inr (Or.inl ⟨hstatus, rfl, rfl⟩)
    | some delegate =>
      rw [hdelegate] at h
      obtain ⟨⟨vfs, id, openStatus⟩, hopen, h⟩ := Option.bind_eq_some_iff.1 h
      obtain ⟨fsNode, hnode, h⟩ := Option.bind_eq_some_iff.1 h
      cases h
      refine Or.inr (Or.inr ⟨hstatus, vfs, id, fsNode, openStatus, ?_, hnode, rfl⟩)
      rw [opening, hdelegate]
      exact hopen
  next hstatus =>
    cases h
    exact Or.inl ⟨hstatus, rfl⟩

theorem opening_noDelegate (h : s.fs.getDelegate node = none) : opening c s status node = none := by
  rw [opening, h, Option.bind_none]

variable {flags : Int} {filename : List Char} {fs fs' : FileSystem} {t1 : OpenState}

theorem requestOpen_cases
    (h : s.requestOpen node filename flags status = some (s', id, openStatus)) :
    (s'.fs = s.fs ∧ id = node ∧ ¬ (status = .notFound ∧ isCreate flags) ∧
      (openStatus ≠ .successful → s' = s)) ∨
    (status = .notFound ∧ isCreate flags ∧ openStatus = .successful ∧ s.fs.Has node ∧
      id = s.fs.nodeNextID ∧ ∃ entry : RamdiskEntry, entry.type = .file ∧ entry.name = filename ∧
        s'.fs = (s.fs.createVfsNode entry node).1) := by
  obtain ⟨fsNode, hnode, h⟩ := Option.bind_eq_some_iff.1 h
  split at h
  next =>
    obtain ⟨entry, -, h⟩ := Option.bind_eq_some_iff.1 h
    split at h
    next =>
      cases h
      exact Or.inl ⟨rfl, rfl, by simp, fun _ => rfl⟩
    next =>
      split at h
      next =>
        cases h
        exact Or.inl ⟨rfl, rfl, by simp, fun hs => absurd rfl hs⟩
      next =>
        cases h
        exact Or.inl ⟨rfl, rfl, by simp, fun hs => absurd rfl hs⟩
  next =>
    split at h
    next hcreate =>
      obtain ⟨entry, -, h⟩ := Option.bind_eq_some_iff.1 h
      cases h
      refine Or.inr ⟨rfl, hcreate, rfl, by rw [Has, hnode]; rfl, rfl, _, rfl, rfl, rfl⟩
    next hcreate =>
      cases h
      exact Or.inl ⟨rfl, rfl, fun hboth => hcreate hboth.2, fun _ => rfl⟩
  next hfound hmissing =>
    cases h
    exact Or.inl ⟨rfl, rfl, fun hboth => hmissing hboth.1, fun _ => rfl⟩

theorem table_opening (h : opening c s status node = some (s', id, openStatus)) (pid : Pid) :
    s'.fs.table pid = s.fs.table pid := by
  obtain ⟨delegate, -, h⟩ := Option.bind_eq_some_iff.1 h
  cases delegate with
  | ramdisk =>
    rcases requestOpen_cases h with ⟨hfs, -⟩ | ⟨-, -, -, -, -, entry, -, -, hfs⟩
    · rw [hfs]
    · rw [hfs, table_createVfsNode]
  | mount | pipe | tasked thread => cases h; rfl

/-! ## Opening the same node again -/

theorem getDelegate_congr (h : fs'.nodes = fs.nodes) (id : Nat) :
    fs'.getDelegate id = fs.getDelegate id := by
  have hwithin : ∀ depth id, fs'.getDelegateWithin depth id = fs.getDelegateWithin depth id := by
    intro depth
    induction depth with
    | zero => exact fun _ => rfl
    | succ depth ih =>
      intro id
      simp [getDelegateWithin, h, ih]
  exact hwithin _ id

theorem find?_modify_truncate (headers : List RamdiskEntry) (id : Nat) :
    (headers.modify (headers.findIdx fun e => e.id = id) Vfs.truncate).find? (fun e => e.id = id) =
      (headers.find? fun e => e.id = id).map Vfs.truncate := by
  induction headers with
  | nil => rfl
  | cons e headers ih =>
    have hid : (Vfs.truncate e).id = e.id := by
      rw [Vfs.truncate]
      split <;> rfl
    by_cases he : e.id = id
    · rw [List.findIdx_cons, decide_eq_true he]
      simp [he, hid]
    · rw [List.findIdx_cons, decide_eq_false he]
      simp [he, ih]

theorem requestOpen_again
    (h : s.requestOpen node filename flags .successful = some (s', id, .successful))
    (hfs : fs.nodes = s.fs.nodes) :
    ∃ s2, ({ s' with fs } : Vfs).requestOpen node filename flags .successful =
      some (s2, node, .successful) := by
  obtain ⟨fsNode, hnode, h⟩ := Option.bind_eq_some_iff.1 h
  obtain ⟨entry, hentry, h⟩ := Option.bind_eq_some_iff.1 h
  have htype : entry.type = .file := by
    by_contra hne
    rw [if_pos hne] at h
    cases h
  have hfile : ∃ entry', s'.ramdisk.findById fsNode.physFsID = some entry' ∧
      entry'.type = .file := by
    rw [if_neg (not_not.2 htype)] at h
    split at h
    next =>
      cases h
      rw [Ramdisk.findById] at hentry ⊢
      split
      next hzero =>
        rw [if_pos hzero] at hentry
        exact ⟨entry, hentry, htype⟩
      next hzero =>
        rw [if_neg hzero] at hentry
        refine ⟨Vfs.truncate entry, by rw [find?_modify_truncate, hentry]; rfl, ?_⟩
        rw [Vfs.truncate]
        split <;> exact htype
    next =>
      cases h
      exact ⟨entry, hentry, htype⟩
  obtain ⟨entry', hentry', htype'⟩ := hfile
  rw [← hfs] at hnode
  simp only [Vfs.requestOpen, hnode, hentry', htype', Option.bind_eq_bind, Option.bind_some]
  split
  next hne => exact absurd rfl hne
  next =>
    split
    next => exact ⟨_, rfl⟩
    next => exact ⟨_, rfl⟩

theorem opening_found (h : opening c s .successful node = some (s', id, openStatus)) :
    s'.fs = s.fs ∧ id = node ∧ (openStatus ≠ .successful → s' = s) := by
  obtain ⟨delegate, -, h⟩ := Option.bind_eq_some_iff.1 h
  cases delegate with
  | mount | pipe | tasked thread => cases h; exact ⟨rfl, rfl, fun _ => rfl⟩
  | ramdisk =>
    rw [Vfs.delegateOpen] at h
    rcases requestOpen_cases h with ⟨hfs, hid, -, hsame⟩ | ⟨hwrong, -⟩
    · exact ⟨hfs, hid, hsame⟩
    · cases hwrong

theorem opening_again (h : opening c s .successful node = some (s', id, .successful))
    (hfs : fs.nodes = s'.fs.nodes) :
    ∃ s2 id2, opening c { s' with fs } .successful node = some (s2, id2, .successful) := by
  have hnodes : fs.nodes = s.fs.nodes := hfs.trans (congrArg FileSystem.nodes (opening_found h).1)
  obtain ⟨delegate, hdelegate, h⟩ := Option.bind_eq_some_iff.1 h
  -- the nodes are as before, so the same delegate is asked
  have hasked : ({ s' with fs } : Vfs).fs.getDelegate node = some delegate := by
    rw [← hdelegate]
    exact getDelegate_congr hnodes node
  cases delegate with
  | mount | pipe => cases h
  | tasked thread =>
    simp only [Vfs.delegateOpen, Option.some.injEq, Prod.mk.injEq] at h
    refine ⟨{ s' with fs }, node, ?_⟩
    rw [opening, hasked, Option.bind_some, Vfs.delegateOpen, h.2.2]
  | ramdisk =>
    rw [Vfs.delegateOpen] at h
    obtain ⟨s2, hagain⟩ := requestOpen_again h hnodes
    refine ⟨s2, node, ?_⟩
    rw [opening, hasked, Option.bind_some]
    exact hagain

/-! ## Descriptors -/

/-- The call adds the descriptor that it returns and no other, or it fails and adds none. -/
structure AddsReturned (c : OpenCall) (t t' : OpenState) : Prop where
  successful : t'.openStatus = .successful → t'.created = [t'.openFd] ∧
    t.vfs.fs.descriptor c.pid t'.openFd = none ∧
    (t'.vfs.fs.descriptor c.pid t'.openFd).isSome ∧
    ∀ fd, fd ≠ t'.openFd → t'.vfs.fs.descriptor c.pid fd = t.vfs.fs.descriptor c.pid fd
  failed : t'.openStatus ≠ .successful → t'.created = [] ∧
    ∀ fd, t'.vfs.fs.descriptor c.pid fd = t.vfs.fs.descriptor c.pid fd

/-- The number that the next descriptor of a process gets is not in use. -/
def NumberFree (fs : FileSystem) (pid : Pid) : Prop :=
  fs.descriptor pid (fs.table pid).nextFileDescriptor = none

/-- If the delegate opens the node, it can be mapped, under a number that is not in use. -/
def OpensOne (c : OpenCall) (s : Vfs) (status : FsDiscoveryStatus) (node : Nat) : Prop :=
  ∀ s' id, opening c s status node = some (s', id, .successful) →
    (∀ fsNode, s'.fs.nodes.get id = some fsNode → isOpenable fsNode) ∧ NumberFree s.fs c.pid

/-- Where the path of the call leads, a successful open adds one descriptor: the path has needed no
round if it was found. -/
def OpensOnce (c : OpenCall) (s : Vfs) : Resolution → Prop
  | .found node discovered =>
    OpensOne c s .successful node ∧
      (discovered → ∀ s' id, opening c s .successful node ≠ some (s', id, .successful))
  | .missing parent _ _ status => status = .notFound → OpensOne c s .notFound parent
  | .noDelegate _ => True

theorem descriptor_of_table {pid : Pid} (h : fs'.table pid = fs.table pid)
    (fd : Int) : fs'.descriptor pid fd = fs.descriptor pid fd := by
  rw [descriptor, descriptor, h]

theorem finishOpen_failed {vfs : Vfs} {fsNode : FsNode} (h : openStatus ≠ .successful) :
    finishOpen c t vfs fsNode openStatus = { t with vfs, openFd := -1, openStatus } := by
  rw [finishOpen, if_neg h]

theorem finishOpen_addsReturned {vfs : Vfs} {fsNode : FsNode} (hcreated : t.created = [])
    (htable : vfs.fs.table c.pid = t.vfs.fs.table c.pid) :
    AddsReturned c t (finishOpen c t vfs fsNode .successful) ↔
      isOpenable fsNode ∧ NumberFree t.vfs.fs c.pid := by
  obtain ⟨next, hnext⟩ : ∃ next, next = (t.vfs.fs.table c.pid).nextFileDescriptor := ⟨_, rfl⟩
  have hfd : (finishOpen c t vfs fsNode .successful).openFd =
      if isOpenable fsNode then next else -1 := by
    rw [finishOpen, if_pos rfl]
    simp [mapFile_snd, htable, FileDescriptorTable.number, hnext]
  have hadded : (finishOpen c t vfs fsNode .successful).created =
      if isOpenable fsNode then [next] else [] := by
    rw [finishOpen, if_pos rfl]
    simp only [mapFile_snd, htable, FileDescriptorTable.number, if_true, hnext, hcreated]
    split <;> rfl
  have hstatus : (finishOpen c t vfs fsNode .successful).openStatus = .successful := by
    rw [finishOpen, if_pos rfl]
  constructor
  · intro h
    obtain ⟨hone, hfree, -⟩ := h.successful hstatus
    have hopen : isOpenable fsNode = true := by
      by_contra hno
      rw [hadded, if_neg hno] at hone
      cases hone
    rw [hfd, if_pos hopen, hnext] at hfree
    exact ⟨hopen, hfree⟩
  · rintro ⟨hopen, hfree⟩
    rw [if_pos hopen] at hfd hadded
    refine ⟨fun _ => ?_, fun hno => absurd hstatus hno⟩
    have hafter : ∀ fd, (finishOpen c t vfs fsNode .successful).vfs.fs.descriptor c.pid fd =
        if fd = next then some { id := next, nodeID := fsNode.id, openFlags := c.flags }
        else t.vfs.fs.descriptor c.pid fd := by
      intro fd
      rw [finishOpen, if_pos rfl]
      simp [descriptor, table_mapFile, hopen, FileDescriptorTable.get_mapped, htable,
        FileDescriptorTable.number, hnext]
    refine ⟨by rw [hadded, hfd], ?_, ?_, fun fd hne => ?_⟩
    · rw [hfd, hnext]
      exact hfree
    · rw [hafter, hfd, if_pos rfl]
      rfl
    · rw [hafter, if_neg (hfd ▸ hne)]

theorem afterFinishTransaction_addsReturned (hstatus : status = .successful ∨ status = .notFound)
    (hcreated : t.created = []) (h : afterFinishTransaction c t status node = some t') :
    AddsReturned c t t' ↔ OpensOne c t.vfs status node := by
  rcases afterFinishTransaction_cases h with
    ⟨hno, -⟩ | ⟨-, hnone, rfl⟩ | ⟨-, vfs, id, fsNode, openStatus, hopen, hnode, rfl⟩
  · exact absurd hstatus hno
  · refine iff_of_true ⟨fun hs => (by cases hs), fun _ => ⟨hcreated, fun _ => rfl⟩⟩ ?_
    intro s' id hs
    rw [opening_noDelegate hnone] at hs
    cases hs
  · have htable := table_opening hopen c.pid
    by_cases hs : openStatus = .successful
    · subst hs
      rw [finishOpen_addsReturned hcreated htable]
      constructor
      · rintro ⟨hopenable, hfree⟩ s' id' heq
        rw [hopen] at heq
        cases heq
        refine ⟨fun fsNode' hnode' => ?_, hfree⟩
        rw [hnode] at hnode'
        cases hnode'
        exact hopenable
      · intro hone
        obtain ⟨hall, hfree⟩ := hone vfs id hopen
        exact ⟨hall fsNode hnode, hfree⟩
    · rw [finishOpen_failed hs]
      refine iff_of_true ⟨fun h => absurd h hs, fun _ => ⟨hcreated, descriptor_of_table htable⟩⟩ ?_
      intro s' id' heq
      rw [hopen] at heq
      cases heq
      exact absurd rfl hs

theorem created_finishOpen (vfs : Vfs) (fsNode : FsNode) :
    (finishOpen c t vfs fsNode .successful).created.length =
      t.created.length + if isOpenable fsNode then 1 else 0 := by
  rw [finishOpen, if_pos rfl]
  dsimp only
  split <;> rfl

theorem afterFinishTransaction_twice (hcreated : t.created = [])
    (h1 : afterFinishTransaction c t .successful node = some t1)
    (h2 : afterFinishTransaction c t1 .successful node = some t') :
    AddsReturned c t t' ↔
      ∀ s' id, opening c t.vfs .successful node ≠ some (s', id, .successful) := by
  have hfound : FsDiscoveryStatus.successful = .successful ∨
      FsDiscoveryStatus.successful = .notFound := Or.inl rfl
  -- an open that fails changes nothing, so that the second is as good as the first
  have hfailed : t1.vfs = t.vfs → t1.created = [] →
      (∀ s' id, opening c t.vfs .successful node ≠ some (s', id, .successful)) →
      (AddsReturned c t t' ↔
        ∀ s' id, opening c t.vfs .successful node ≠ some (s', id, .successful)) := by
    intro hvfs hcreated1 hnever
    have hone : OpensOne c t1.vfs .successful node := by
      intro s' id heq
      rw [hvfs] at heq
      exact absurd heq (hnever s' id)
    have hadds := (afterFinishTransaction_addsReturned hfound hcreated1 h2).2 hone
    exact iff_of_true ⟨hvfs ▸ hadds.successful, hvfs ▸ hadds.failed⟩ hnever
  rcases afterFinishTransaction_cases h1 with
    ⟨hno, -⟩ | ⟨-, hnone, rfl⟩ | ⟨-, vfs, id, fsNode, openStatus, hopen, hnode, rfl⟩
  · exact absurd hfound hno
  · refine hfailed rfl hcreated fun s' id => ?_
    rw [opening_noDelegate hnone]
    simp
  · obtain ⟨hfs, hid, hsame⟩ := opening_found hopen
    by_cases hs : openStatus = .successful
    · subst hs
      have hmapped : (finishOpen c t vfs fsNode .successful).vfs =
          { vfs with fs := (vfs.fs.mapFile c.pid fsNode c.flags (-1)).1 } := by
        rw [finishOpen, if_pos rfl]
      have hnodes := nodes_mapFile vfs.fs c.pid fsNode c.flags (-1)
      obtain ⟨s2, id2, hagain⟩ := opening_again hopen hnodes
      obtain ⟨hfs2, rfl, -⟩ := opening_found hagain
      -- both opens are of the same node
      rcases afterFinishTransaction_cases h2 with
        ⟨hno, -⟩ | ⟨-, hnone, rfl⟩ | ⟨-, vfs2, id2, fsNode2, openStatus2, hopen2, hnode2, rfl⟩
      · exact absurd hfound hno
      · rw [← hmapped, opening_noDelegate hnone] at hagain
        cases hagain
      · rw [hmapped, hagain] at hopen2
        cases hopen2
        have hsameNode : fsNode2 = fsNode := by
          rw [hfs2, hnodes, ← hid, hnode] at hnode2
          exact (Option.some.inj hnode2).symm
        subst hsameNode
        refine iff_of_false ?_ (fun hall => hall vfs id hopen)
        intro h
        have hone := (h.successful (by rw [finishOpen, if_pos rfl])).1
        have hlen := congrArg List.length hone
        rw [created_finishOpen, created_finishOpen, hcreated, List.length_nil,
          List.length_singleton] at hlen
        split at hlen <;> omega
    · rw [finishOpen_failed hs] at hfailed
      refine hfailed (hsame hs) hcreated fun s' id' heq => ?_
      rw [hopen] at heq
      cases heq
      exact hs rfl

/-! ## What the walk leaves behind -/

theorem resolveFrom_keeps {I : Vfs → Prop}
    (hkeeps : ∀ s s' delegate parent name status, I s →
      s.delegateDiscovery c.storage delegate parent name = some (s', status) → I s') (hs : I s)
    (h : resolveFrom c s current d names = some (s', r)) : I s' := by
  induction names generalizing s current d with
  | nil =>
    cases h
    exact hs
  | cons name names ih =>
    rw [resolveFrom] at h
    split at h
    next => exact ih hs h
    next =>
      split at h
      next => exact ih hs h
      next =>
        split at h
        next => exact ih hs h
        next =>
          split at h
          next =>
            cases h
            exact hs
          next =>
            split at h
            next => cases h
            next s1 status hround =>
              have hs1 := hkeeps _ _ _ _ _ _ hs hround
              split at h
              next =>
                split at h
                next => exact ih hs1 h
                next => cases h
              next =>
                cases h
                exact hs1

theorem delegateDiscovery_cases {delegate : FsDelegate} {child : List Char}
    (h : s.delegateDiscovery c.storage delegate parent child = some (s', status)) :
    s' = s ∨ (status = .successful ∧ s.fs.Has parent ∧ ∃ entry : RamdiskEntry,
      s' = { s with fs := (s.fs.createVfsNode entry parent).1 }) := by
  cases delegate with
  | mount | pipe | tasked thread => cases h; exact Or.inl rfl
  | ramdisk =>
    obtain ⟨hhas, ⟨rfl, -⟩ | ⟨hstatus, entry, -, hs⟩⟩ := Vfs.requestDiscovery_eq h
    · exact Or.inl rfl
    · exact Or.inr ⟨hstatus, hhas, entry, hs⟩

theorem table_resolveFrom (h : resolveFrom c s current d names = some (s', r)) (pid : Pid) :
    s'.fs.table pid = s.fs.table pid := by
  refine resolveFrom_keeps (I := fun s1 => s1.fs.table pid = s.fs.table pid) ?_ rfl h
  intro s1 s2 delegate parent name status h1 hround
  rcases delegateDiscovery_cases hround with rfl | ⟨-, -, entry, rfl⟩
  · exact h1
  · rw [← h1]
    exact table_createVfsNode s1.fs entry parent pid

theorem tree_resolveFrom
    (ht : s.fs.Tree) (h : resolveFrom c s current d names = some (s', r)) : s'.fs.Tree := by
  refine resolveFrom_keeps (I := fun s1 => s1.fs.Tree) ?_ ht h
  intro s1 s2 delegate parent name status h1 hround
  rcases delegateDiscovery_cases hround with rfl | ⟨-, hhas, entry, rfl⟩
  · exact h1
  · exact h1.adds hhas (adds_createVfsNode h1 hhas entry)

theorem resolveFrom_eq_missing
    (h : resolveFrom c s current d names = some (s', .missing parent name rest status)) :
    status ≠ .successful ∧ name ∈ names ∧ ∃ delegate, s'.fs.getDelegate parent = some delegate ∧
      s'.delegateDiscovery c.storage delegate parent name = some (s', status) := by
  induction names generalizing s current d with
  | nil => cases h
  | cons n names ih =>
    rw [resolveFrom] at h
    have hrec : ∀ {s1 : Vfs} {current1 : Nat} {d1 : Bool},
        resolveFrom c s1 current1 d1 names = some (s', .missing parent name rest status) →
        status ≠ .successful ∧ name ∈ n :: names ∧ ∃ delegate,
          s'.fs.getDelegate parent = some delegate ∧
          s'.delegateDiscovery c.storage delegate parent name = some (s', status) := by
      intro s1 current1 d1 h1
      obtain ⟨hstatus, hmem, hrest⟩ := ih h1
      exact ⟨hstatus, List.mem_cons_of_mem _ hmem, hrest⟩
    split at h
    next => exact hrec h
    next =>
      split at h
      next => exact hrec h
      next =>
        split at h
        next => exact hrec h
        next =>
          split at h
          next => cases h
          next delegate hdelegate =>
            split at h
            next => cases h
            next s1 status1 hround =>
              split at h
              next =>
                split at h
                next => exact hrec h
                next => cases h
              next hstatus =>
                cases h
                rcases delegateDiscovery_cases hround with rfl | ⟨hsuccess, -⟩
                · exact ⟨hstatus, List.mem_cons_self, delegate, hdelegate, hround⟩
                · exact absurd hsuccess hstatus

/-! ## One descriptor for each call -/

theorem AddsReturned.congr (h : t1.vfs.fs.table c.pid = t.vfs.fs.table c.pid) :
    AddsReturned c t1 t' ↔ AddsReturned c t t' := by
  have hdesc := descriptor_of_table h
  constructor
  · rintro ⟨hs, hf⟩
    simp only [hdesc] at hs hf
    exact ⟨hs, hf⟩
  · rintro ⟨hs, hf⟩
    simp only [← hdesc] at hs hf
    exact ⟨hs, hf⟩

/-- A call adds exactly the descriptor that it returns if and only if a successful open, where its path
leads, is of a node that can be mapped, gets a free number, and needed no discovery. -/
theorem fsOpen_adds_returned_iff {rounds : Nat} {vfs : Vfs} {openFd : Int}
    {openStatus : FsOpenStatus} (ht : vfs.fs.Tree)
    (h : fsOpen c rounds { vfs, openFd, openStatus } = some t') :
    AddsReturned c { vfs, openFd, openStatus } t' ↔
      ∃ s r, resolve c vfs = some (s, r) ∧ OpensOnce c s r := by
  obtain ⟨s, r, hresolve, hout⟩ := fsOpen_outcome ht h
  have hunique : (∃ s r, resolve c vfs = some (s, r) ∧ OpensOnce c s r) ↔ OpensOnce c s r := by
    constructor
    · rintro ⟨s1, r1, h1, hone⟩
      rw [show resolve c vfs = some (s, r) from hresolve] at h1
      cases h1
      exact hone
    · exact fun hone => ⟨s, r, hresolve, hone⟩
  have htable := table_resolveFrom hresolve c.pid
  have hstart : AddsReturned c { vfs := s, openFd, openStatus } t' ↔
      AddsReturned c { vfs, openFd, openStatus } t' := AddsReturned.congr htable
  rw [hunique, ← hstart]
  cases r with
  | found node discovered =>
    cases discovered with
    | false =>
      rw [afterFinishTransaction_addsReturned (Or.inl rfl) rfl hout]
      simp [OpensOnce]
    | true =>
      obtain ⟨t1, h1, h2⟩ := Option.bind_eq_some_iff.1 hout
      rw [afterFinishTransaction_twice rfl h1 h2]
      constructor
      · exact fun hnever => ⟨fun s' id heq => absurd heq (hnever s' id), fun _ => hnever⟩
      · exact fun hone => hone.2 rfl
  | missing parent name rest status =>
    have hstatus := (resolveFrom_eq_missing hresolve).1
    by_cases hnotFound : status = .notFound
    · subst hnotFound
      rw [afterFinishTransaction_addsReturned (Or.inr rfl) rfl hout]
      simp [OpensOnce]
    · rcases afterFinishTransaction_cases hout with ⟨-, rfl⟩ | ⟨hyes, -⟩ | ⟨hyes, -⟩
      · refine iff_of_true ⟨fun hs => (by cases hs), fun _ => ⟨rfl, fun _ => rfl⟩⟩ ?_
        exact fun heq => absurd heq hnotFound
      · exact absurd hyes (by simp [hstatus, hnotFound])
      · exact absurd hyes (by simp [hstatus, hnotFound])
  | noDelegate parent =>
    subst hout
    exact iff_of_true ⟨fun hs => (by cases hs), fun _ => ⟨rfl, fun _ => rfl⟩⟩ trivial

/-- A process opens the file of the sample for reading. -/
def sampleCall : OpenCall where
  pid := 7
  workingDirectory := "/".toList
  path := "/a/b".toList
  flags := 1
  storage _ := { discoveryStatus := .error, openStatus := .error }

/-- The sample after its file has been discovered. -/
def discoveredSample : Vfs :=
  (vfsCalls.run .sample [.discover "/a/b".toList, .discover "/a/b".toList]).getD .sample

theorem discoveredSample_tree : discoveredSample.fs.Tree := by
  have hrun : (vfsCalls.run .sample
      [.discover "/a/b".toList, .discover "/a/b".toList]).isSome := by decide +kernel
  obtain ⟨s, hs⟩ := Option.isSome_iff_exists.1 hrun
  have hsample : discoveredSample = s := by rw [discoveredSample, hs, Option.getD_some]
  rw [hsample]
  exact Vfs.reachable_tree (System.reachable_of_run (show vfsCalls.init Vfs.sample from rfl) hs)

theorem fsOpen_adds_returned_discovered : ∃ t',
    fsOpen sampleCall 3 { vfs := discoveredSample, openFd := 0, openStatus := .error } = some t' ∧
    t'.openStatus = .successful ∧
    AddsReturned sampleCall { vfs := discoveredSample, openFd := 0, openStatus := .error } t' := by
  obtain ⟨t', ht', hstatus⟩ :
      ∃ t' ∈ fsOpen sampleCall 3 { vfs := discoveredSample, openFd := 0, openStatus := .error },
        t'.openStatus = .successful := by
    decide +kernel
  refine ⟨t', ht', hstatus, (fsOpen_adds_returned_iff discoveredSample_tree ht').2 ?_⟩
  have hfound : (discoveredSample.fs.findExistingFrom discoveredSample.fs.root
      (pathNames sampleCall.absolutePath)).child = some 5 := by decide +kernel
  refine ⟨discoveredSample, .found 5 false, resolveFrom_existing hfound, ?_, nofun⟩
  have hopening : ∀ r ∈ opening sampleCall discoveredSample .successful 5,
      (r.1.fs.nodes.get r.2.1).map isOpenable = some true := by
    decide +kernel
  intro s' id hs
  refine ⟨fun fsNode hnode => ?_, by unfold NumberFree; decide +kernel⟩
  have hmap := hopening _ hs
  rw [hnode] at hmap
  exact Option.some.inj hmap

/-- A file that is still to be discovered: the call opens it twice. -/
theorem fsOpen_adds_two_descriptors :
    ¬ ∀ (c : OpenCall) (rounds : Nat) (vfs : Vfs) (openFd : Int) (openStatus : FsOpenStatus)
      (t' : OpenState), vfs.fs.Tree → fsOpen c rounds { vfs, openFd, openStatus } = some t' →
        AddsReturned c { vfs, openFd, openStatus } t' := by
  intro h
  have hopen : (fsOpen sampleCall 3 { vfs := .sample, openFd := 0, openStatus := .error }).map
      (fun t' => (t'.openStatus, t'.openFd, t'.created)) = some (.successful, 4, [4, 3]) := by
    decide +kernel
  obtain ⟨t', ht', hresult⟩ := Option.map_eq_some_iff.1 hopen
  obtain ⟨hstatus, hresult⟩ := Prod.mk.inj hresult
  obtain ⟨hfd, hcreated⟩ := Prod.mk.inj hresult
  have hone := (h _ _ _ _ _ t' initialResources_tree.1 ht').successful hstatus
  rw [hcreated, hfd] at hone
  exact absurd hone.1 (by decide)

/-! ## Nodes of a creating open -/

/-- What an open with `FILE_FLAG_MODE_CREATE` should do where `name` is missing below `parent`: if it is
successful and `name` is the last of the path, one new node with that name, found under the path; no new
node if there are more names. -/
structure CreatesMissing (c : OpenCall) (s : Vfs) (parent : Nat) (name : List Char)
    (rest : List (List Char)) (t' : OpenState) : Prop where
  last : rest = [] → t'.openStatus = .successful → ∃ id, ¬ s.fs.Has id ∧
    (∀ j, t'.vfs.fs.Has j ↔ j = id ∨ s.fs.Has j) ∧ t'.vfs.fs.parentOf id = some parent ∧
    t'.vfs.fs.nameOf id = some name ∧ (t'.vfs.fs.findExisting c.path).child = some id
  inner : rest ≠ [] → ∀ j, t'.vfs.fs.Has j ↔ s.fs.Has j

theorem createsMissing_of_same (hsame : ∀ j, t'.vfs.fs.Has j ↔ s.fs.Has j) :
    CreatesMissing c s parent name rest t' ↔ (rest = [] → t'.openStatus ≠ .successful) := by
  constructor
  · intro h hrest hsuccess
    obtain ⟨id, hnew, hone, -⟩ := h.last hrest hsuccess
    exact hnew ((hsame id).1 ((hone id).2 (Or.inl rfl)))
  · intro h
    exact ⟨fun hrest hsuccess => absurd hsuccess (h hrest), fun _ => hsame⟩

theorem not_createsMissing_of_adds (ht : s.fs.Tree) (hslash : '/' ∈ c.path) (hname : '/' ∉ name)
    (ha : Adds s.fs fs parent (some c.path)) (hs : SameShape fs t'.vfs.fs)
    (hstatus : t'.openStatus = .successful) : ¬ CreatesMissing c s parent name rest t' := by
  have hhas : ∀ j, t'.vfs.fs.Has j ↔ j = s.fs.nodeNextID ∨ s.fs.Has j :=
    fun j => (hs.has j).trans (ha.has j)
  intro h
  by_cases hrest : rest = []
  · obtain ⟨id, hnew, hone, -, hid, -⟩ := h.last hrest hstatus
    have hnext : id = s.fs.nodeNextID :=
      ((hhas id).1 ((hone id).2 (Or.inl rfl))).resolve_right hnew
    rw [hs.nameOf, ha.nameOf, if_pos hnext] at hid
    exact hname (Option.some.inj hid ▸ hslash)
  · exact ht.not_has_next ((h.inner hrest _).1 ((hhas _).2 (Or.inl rfl)))

section

variable (t : OpenState) (vfs : Vfs) (fsNode : FsNode) (openStatus : FsOpenStatus)

theorem sameShape_finishOpen : SameShape vfs.fs (finishOpen c t vfs fsNode openStatus).vfs.fs := by
  rw [finishOpen]
  split
  next => exact sameShape_mapFile vfs.fs c.pid fsNode c.flags (-1)
  next => exact .of_nodes_eq ⟨rfl, rfl, rfl⟩ rfl rfl

theorem openStatus_finishOpen : (finishOpen c t vfs fsNode openStatus).openStatus = openStatus := by
  rw [finishOpen]
  split <;> rfl

end

/-- A creating open of a missing absolute path does what it should if and only if the ramdisk does not
serve the last node that exists, and no other delegate says that it has created the file. -/
theorem fsOpen_creates_missing_iff {rounds : Nat} {vfs s : Vfs} {openFd : Int}
    {openStatus : FsOpenStatus} {parent : Nat} {name : List Char} {rest : List (List Char)}
    {status : FsDiscoveryStatus} (ht : vfs.fs.Tree) (habsolute : c.path.head? = some '/')
    (hcreate : isCreate c.flags)
    (hmissing : resolve c vfs = some (s, .missing parent name rest status))
    (h : fsOpen c rounds { vfs, openFd, openStatus } = some t') :
    CreatesMissing c s parent name rest t' ↔
      s.fs.getDelegate parent ≠ some .ramdisk ∧
      ∀ thread, s.fs.getDelegate parent = some (.tasked thread) → rest = [] →
        status = .notFound → (c.storage thread).openStatus ≠ .successful := by
  obtain ⟨s1, r, hresolve, hout⟩ := fsOpen_outcome ht h
  rw [show resolve c vfs = some (s1, r) from hresolve] at hmissing
  cases hmissing
  have hts : s.fs.Tree := tree_resolveFrom ht hresolve
  obtain ⟨hnot, hmem, delegate, hdelegate, hround⟩ := resolveFrom_eq_missing hresolve
  have hname : '/' ∉ name := (mem_pathNames hmem).2
  have hslash : '/' ∈ c.path := List.mem_of_head? habsolute
  rw [hdelegate]
  rcases afterFinishTransaction_cases hout with
    ⟨hstatus, rfl⟩ | ⟨-, hnone, -⟩ | ⟨hstatus, vfs1, id, fsNode, openStatus1, hopen, hnode, rfl⟩
  · -- the discovery failed: nothing happens, and the ramdisk's never does
    have hnotRamdisk : delegate ≠ .ramdisk := by
      rintro rfl
      obtain ⟨-, ⟨-, hnot⟩ | ⟨hyes, -⟩⟩ := Vfs.requestDiscovery_eq hround
      · exact hstatus (Or.inr hnot)
      · exact hstatus (Or.inl hyes)
    have hfailed : FsOpenStatus.error ≠ .successful := by decide
    refine iff_of_true ⟨fun _ hs => absurd hs hfailed, fun _ _ => Iff.rfl⟩
      ⟨by simpa using hnotRamdisk, ?_⟩
    exact fun thread _ _ hnotFound => absurd (Or.inr hnotFound) hstatus
  · rw [hdelegate] at hnone
    cases hnone
  · rw [opening, hdelegate, Option.bind_some] at hopen
    have hnotFound : status = .notFound := hstatus.resolve_left hnot
    have hshape := sameShape_finishOpen (c := c) { vfs := s, openFd, openStatus } vfs1 fsNode openStatus1
    have hstatus1 :=
      openStatus_finishOpen (c := c) { vfs := s, openFd, openStatus } vfs1 fsNode openStatus1
    -- the other delegates do not change the nodes, whatever they answer
    have hother : vfs1 = s → (CreatesMissing c s parent name rest
        (finishOpen c { vfs := s, openFd, openStatus } vfs1 fsNode openStatus1) ↔
          (rest = [] → openStatus1 ≠ .successful)) := by
      rintro rfl
      rw [createsMissing_of_same hshape.has, hstatus1]
    cases delegate with
    | ramdisk =>
      refine iff_of_false ?_ fun hboth => hboth.1 rfl
      rcases requestOpen_cases hopen with
        ⟨-, -, hno, -⟩ | ⟨-, -, hsuccess, hhas, -, entry, -, hentry, hfs⟩
      · exact absurd ⟨hnotFound, hcreate⟩ hno
      · have ha := adds_createVfsNode hts hhas entry
        rw [← hfs, hentry] at ha
        exact not_createsMissing_of_adds hts hslash hname ha hshape (hstatus1.trans hsuccess)
    | mount | pipe =>
      cases hopen
      refine iff_of_true ((hother rfl).2 nofun) ⟨by simp, by simp⟩
    | tasked thread =>
      cases hopen
      rw [hother rfl]
      simp [hnotFound]

/-- A process opens a path with `FILE_FLAG_MODE_CREATE`. -/
def creatingCall (path : List Char) : OpenCall := { sampleCall with path, flags := 64 }

theorem fsOpen_creates_missing_below_mount : ∃ s t',
    resolve (creatingCall "/mount/x".toList) .sample =
      some (s, .missing 1 "x".toList [] .notFound) ∧
    fsOpen (creatingCall "/mount/x".toList) 3 { vfs := .sample, openFd := 0, openStatus := .busy } =
      some t' ∧
    t'.openStatus = .error ∧
    CreatesMissing (creatingCall "/mount/x".toList) s 1 "x".toList [] t' := by
  obtain ⟨t', ht', hstatus⟩ : ∃ t' ∈ fsOpen (creatingCall "/mount/x".toList) 3
      { vfs := .sample, openFd := 0, openStatus := .busy }, t'.openStatus = .error := by
    decide +kernel
  obtain ⟨⟨s, r⟩, hs, rfl, hmount⟩ : ∃ r ∈ resolve (creatingCall "/mount/x".toList) .sample,
      r.2 = .missing 1 "x".toList [] .notFound ∧ r.1.fs.getDelegate 1 = some .mount := by
    decide +kernel
  refine ⟨s, t', hs, ht', hstatus, ?_⟩
  refine (fsOpen_creates_missing_iff initialResources_tree.1 (by decide) (by decide) hs ht').2 ?_
  rw [hmount]
  exact ⟨by decide, nofun⟩

/-- Below the root the new node is named `/x`, and `/x` is not found. -/
theorem created_node_named_by_path :
    ¬ ∀ (c : OpenCall) (rounds : Nat) (vfs s : Vfs) (openFd : Int) (openStatus : FsOpenStatus)
      (parent : Nat) (name : List Char) (rest : List (List Char)) (status : FsDiscoveryStatus)
      (t' : OpenState), vfs.fs.Tree → c.path.head? = some '/' → isCreate c.flags →
        resolve c vfs = some (s, .missing parent name rest status) →
        fsOpen c rounds { vfs, openFd, openStatus } = some t' →
        CreatesMissing c s parent name rest t' := by
  intro h
  obtain ⟨t', ht', hstatus, hhas, hname⟩ :
      ∃ t' ∈ fsOpen (creatingCall "/x".toList) 3 { vfs := .sample, openFd := 0, openStatus := .busy },
        t'.openStatus = .successful ∧ t'.vfs.fs.Has 4 ∧ t'.vfs.fs.nameOf 4 = some "/x".toList := by
    decide +kernel
  obtain ⟨⟨s, r⟩, hs, rfl, hnew⟩ : ∃ r ∈ resolve (creatingCall "/x".toList) .sample,
      r.2 = .missing 0 "x".toList [] .notFound ∧ ¬ r.1.fs.Has 4 := by
    decide +kernel
  have hcreates := h _ _ _ _ _ _ _ _ _ _ t' initialResources_tree.1 (by decide) (by decide) hs ht'
  obtain ⟨id, -, hone, -, hid, -⟩ := hcreates.last rfl hstatus
  have hfour : 4 = id := ((hone 4).1 hhas).resolve_right hnew
  rw [← hfour, hname] at hid
  exact absurd hid (by decide)

end MeetixOS.Kernel
