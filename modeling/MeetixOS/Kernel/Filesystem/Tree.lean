import MeetixOS.Kernel.Filesystem.Vfs
import MeetixOS.Kernel.Filesystem.Descriptors

/-! # The nodes form a tree, and when their names tell them apart

`Tree` is the shape that every run of the VFS calls keeps: each node but the root is in the child list of
its parent, which is older, and in no other. `Named` adds what the names need for `findExisting`. Every call
is a sequence of writes that keep parents, children and names (`SameShape`) and of new nodes (`Adds`). -/

namespace MeetixOS.Kernel

open MeetixOS.Lib

namespace FileSystem

variable {fs fs' : FileSystem} {parent id : Nat} {name : Option (List Char)}

/-! ## Lookups after the writes -/

theorem get_modifyNode (fs : FileSystem) (id : Nat) (f : FsNode → FsNode) (j : Nat) :
    (fs.modifyNode id f).nodes.get j =
      if j = id then (fs.nodes.get id).map f else fs.nodes.get j := by
  unfold modifyNode
  cases hid : fs.nodes.get id with
  | none =>
    by_cases hj : j = id
    · rw [if_pos hj, hj]
      exact hid
    · rw [if_neg hj]
  | some node => simp [HashMap.get_update, hid]

theorem get_addNode (hnext : parent ≠ fs.nodeNextID) (node : FsNode) (j : Nat) :
    (fs.addNode parent node).nodes.get j =
      if j = fs.nodeNextID then some { node with id := fs.nodeNextID, parent := some parent }
      else if j = parent then
        (fs.nodes.get parent).map fun n => { n with children := fs.nodeNextID :: n.children }
      else fs.nodes.get j := by
  simp only [addNode, addChild, createNode, get_modifyNode, HashMap.get_add, if_true,
    Option.map_some, if_neg hnext]
  by_cases hj : j = fs.nodeNextID
  · rw [if_pos hj, if_pos hj, if_neg (by rw [hj]; exact Ne.symm hnext)]
  · rw [if_neg hj, if_neg hj, if_neg hj]

/-- The members of the record that no write to a node changes. -/
structure SameRoots (fs fs' : FileSystem) : Prop where
  root : fs'.root = fs.root
  mountRoot : fs'.mountRoot = fs.mountRoot
  pipeRoot : fs'.pipeRoot = fs.pipeRoot

theorem sameRoots_modifyNode (fs : FileSystem) (id : Nat) (f : FsNode → FsNode) :
    SameRoots fs (fs.modifyNode id f) := by
  unfold modifyNode
  split <;> exact ⟨rfl, rfl, rfl⟩

theorem nodeNextID_modifyNode (fs : FileSystem) (id : Nat) (f : FsNode → FsNode) :
    (fs.modifyNode id f).nodeNextID = fs.nodeNextID := by
  unfold modifyNode
  split <;> rfl

/-! ## Two kinds of writes -/

/-- Parents, children and names are the same. -/
structure SameShape (fs fs' : FileSystem) : Prop extends SameRoots fs fs' where
  has : ∀ id, fs'.Has id ↔ fs.Has id
  parentOf : ∀ id, fs'.parentOf id = fs.parentOf id
  childrenOf : ∀ id, fs'.childrenOf id = fs.childrenOf id
  nameOf : ∀ id, fs'.nameOf id = fs.nameOf id
  nodeNextID : fs'.nodeNextID = fs.nodeNextID

theorem SameShape.of_nodes_eq (hroots : SameRoots fs fs') (hnodes : fs'.nodes = fs.nodes)
    (hnext : fs'.nodeNextID = fs.nodeNextID) : SameShape fs fs' := by
  refine { toSameRoots := hroots, has := ?_, parentOf := ?_, childrenOf := ?_, nameOf := ?_,
           nodeNextID := hnext }
  · intro id
    rw [Has, Has, hnodes]
  · intro id
    rw [FileSystem.parentOf, FileSystem.parentOf, hnodes]
  · intro id
    rw [FileSystem.childrenOf, FileSystem.childrenOf, hnodes]
  · intro id
    rw [FileSystem.nameOf, FileSystem.nameOf, hnodes]

theorem SameShape.trans {fs'' : FileSystem} (h : SameShape fs fs') (h' : SameShape fs' fs'') :
    SameShape fs fs'' where
  root := h'.root.trans h.root
  mountRoot := h'.mountRoot.trans h.mountRoot
  pipeRoot := h'.pipeRoot.trans h.pipeRoot
  has id := (h'.has id).trans (h.has id)
  parentOf id := (h'.parentOf id).trans (h.parentOf id)
  childrenOf id := (h'.childrenOf id).trans (h.childrenOf id)
  nameOf id := (h'.nameOf id).trans (h.nameOf id)
  nodeNextID := h'.nodeNextID.trans h.nodeNextID

theorem sameShape_modifyNode (fs : FileSystem) (id : Nat) {f : FsNode → FsNode}
    (hparent : ∀ node, (f node).parent = node.parent)
    (hchildren : ∀ node, (f node).children = node.children)
    (hname : ∀ node, (f node).name = node.name) : SameShape fs (fs.modifyNode id f) := by
  have hget : ∀ j, (fs.modifyNode id f).nodes.get j = fs.nodes.get j ∨
      (fs.modifyNode id f).nodes.get j = (fs.nodes.get j).map f := by
    intro j
    rw [get_modifyNode]
    split
    next h => exact Or.inr (by rw [h])
    next => exact Or.inl rfl
  refine { toSameRoots := sameRoots_modifyNode fs id f, has := ?_, parentOf := ?_,
           childrenOf := ?_, nameOf := ?_, nodeNextID := nodeNextID_modifyNode fs id f }
  all_goals
    intro j
    simp only [Has, FileSystem.parentOf, FileSystem.childrenOf, FileSystem.nameOf]
    cases hj : fs.nodes.get j with
    | none => rcases hget j with h | h <;> simp [h, hj]
    | some node => rcases hget j with h | h <;> simp [h, hj, hparent, hchildren, hname]

/-- A node was added below `parent`. -/
structure Adds (fs fs' : FileSystem) (parent : Nat) (name : Option (List Char)) : Prop
    extends SameRoots fs fs' where
  has : ∀ id, fs'.Has id ↔ id = fs.nodeNextID ∨ fs.Has id
  parentOf : ∀ id, fs'.parentOf id = if id = fs.nodeNextID then some parent else fs.parentOf id
  childrenOf : ∀ id, fs'.childrenOf id =
    if id = fs.nodeNextID then []
    else if id = parent then fs.nodeNextID :: fs.childrenOf id else fs.childrenOf id
  nameOf : ∀ id, fs'.nameOf id = if id = fs.nodeNextID then name else fs.nameOf id
  typeOf : ∀ id, id ≠ fs.nodeNextID → fs'.typeOf id = fs.typeOf id
  nodeNextID : fs'.nodeNextID = fs.nodeNextID + 1

theorem adds_addNode (hparent : fs.Has parent) (hnext : parent ≠ fs.nodeNextID) {node : FsNode}
    (hchildren : node.children = []) : Adds fs (fs.addNode parent node) parent node.name := by
  have hget := get_addNode hnext node
  have hnextID : (fs.addNode parent node).nodeNextID = fs.nodeNextID + 1 := by
    rw [addNode, addChild, nodeNextID_modifyNode, nodeNextID_modifyNode]
    rfl
  have hroots : SameRoots fs (fs.addNode parent node) := by
    have h1 := sameRoots_modifyNode (fs.createNode node).1 fs.nodeNextID
      fun n => { n with parent := some parent }
    have h2 := sameRoots_modifyNode ((fs.createNode node).1.modifyNode fs.nodeNextID
      fun n => { n with parent := some parent }) parent
      fun n => { n with children := fs.nodeNextID :: n.children }
    exact ⟨h2.root.trans h1.root, h2.mountRoot.trans h1.mountRoot, h2.pipeRoot.trans h1.pipeRoot⟩
  obtain ⟨n, hn⟩ := Option.isSome_iff_exists.1 hparent
  refine { toSameRoots := hroots, has := ?_, parentOf := ?_, childrenOf := ?_, nameOf := ?_,
           typeOf := ?_, nodeNextID := hnextID }
  all_goals
    intro id
    simp only [Has, FileSystem.parentOf, FileSystem.childrenOf, FileSystem.nameOf,
      FileSystem.typeOf, hget]
    by_cases hid : id = fs.nodeNextID
    · simp [hid, hchildren]
    · by_cases hp : id = parent
      · simp [hp, hn, hnext]
      · simp [hid, hp]

/-- One write: nothing changes in the shape, or a node is added that meets `C`. -/
def Write (C : FileSystem → Nat → Option (List Char) → Prop) (fs fs' : FileSystem) : Prop :=
  SameShape fs fs' ∨ ∃ parent name, fs.Has parent ∧ C fs parent name ∧ Adds fs fs' parent name

/-- A sequence of writes. -/
abbrev Grows (C : FileSystem → Nat → Option (List Char) → Prop) :
    FileSystem → FileSystem → Prop :=
  Relation.ReflTransGen (Write C)

/-! ## The tree -/

/-- Every node but the root is a child of its parent, which is older, and of no other node. -/
structure Tree (fs : FileSystem) : Prop where
  root_mem : fs.Has fs.root
  root_parent : fs.parentOf fs.root = none
  mountRoot_mem : fs.Has fs.mountRoot
  pipeRoot_mem : fs.Has fs.pipeRoot
  lt : ∀ id, fs.Has id → id < fs.nodeNextID
  above : ∀ id, fs.Has id → id ≠ fs.root →
    ∃ parent, fs.parentOf id = some parent ∧ parent < id ∧ fs.Has parent ∧ id ∈ fs.childrenOf parent
  child : ∀ parent id, id ∈ fs.childrenOf parent → fs.Has id ∧ fs.parentOf id = some parent
  nodup : ∀ parent, (fs.childrenOf parent).Nodup

theorem Tree.not_has_next (h : fs.Tree) : ¬ fs.Has fs.nodeNextID :=
  fun hnext => Nat.lt_irrefl _ (h.lt _ hnext)

theorem Tree.ne_next (h : fs.Tree) (hid : fs.Has id) : id ≠ fs.nodeNextID :=
  fun heq => h.not_has_next (heq ▸ hid)

theorem has_of_parentOf (hparent : fs.parentOf id = some parent) : fs.Has id := by
  obtain ⟨node, hnode, -⟩ := Option.bind_eq_some_iff.1 hparent
  rw [Has, hnode]
  rfl

theorem Tree.of_parentOf (h : fs.Tree) (hparent : fs.parentOf id = some parent) :
    parent < id ∧ fs.Has parent ∧ id ∈ fs.childrenOf parent := by
  have hroot : id ≠ fs.root := by
    rintro rfl
    rw [h.root_parent] at hparent
    cases hparent
  obtain ⟨p, hp, hlt⟩ := h.above id (has_of_parentOf hparent) hroot
  rw [hparent] at hp
  cases hp
  exact hlt

theorem Tree.sameShape (h : fs.Tree) (hs : SameShape fs fs') : fs'.Tree := by
  refine
    { root_mem := ?_, root_parent := ?_, mountRoot_mem := ?_, pipeRoot_mem := ?_, lt := ?_,
      above := ?_, child := ?_, nodup := ?_ }
  all_goals
    simp only [hs.root, hs.mountRoot, hs.pipeRoot, hs.has, hs.parentOf, hs.childrenOf,
      hs.nodeNextID]
  · exact h.root_mem
  · exact h.root_parent
  · exact h.mountRoot_mem
  · exact h.pipeRoot_mem
  · exact h.lt
  · exact h.above
  · exact h.child
  · exact h.nodup

section

variable (ha : Adds fs fs' parent name) (h : fs.Tree) (hid : fs.Has id)
include ha h hid

theorem Adds.childrenOf_of_has :
    fs'.childrenOf id =
      if id = parent then fs.nodeNextID :: fs.childrenOf id else fs.childrenOf id := by
  rw [ha.childrenOf, if_neg (h.ne_next hid)]

theorem Adds.parentOf_of_has : fs'.parentOf id = fs.parentOf id := by
  rw [ha.parentOf, if_neg (h.ne_next hid)]

theorem Adds.nameOf_of_has : fs'.nameOf id = fs.nameOf id := by
  rw [ha.nameOf, if_neg (h.ne_next hid)]

end

theorem Adds.mem_childrenOf (ha : Adds fs fs' parent name) {p c : Nat} :
    c ∈ fs'.childrenOf p ↔ (c = fs.nodeNextID ∧ p = parent ∧ p ≠ fs.nodeNextID) ∨
      (c ∈ fs.childrenOf p ∧ p ≠ fs.nodeNextID) := by
  rw [ha.childrenOf]
  by_cases hp : p = fs.nodeNextID
  · simp [hp]
  · by_cases heq : p = parent
    · subst heq
      simp [hp]
    · rw [if_neg hp, if_neg heq]
      simp [hp, heq]

theorem Tree.adds (h : fs.Tree) (hparent : fs.Has parent) (ha : Adds fs fs' parent name) :
    fs'.Tree := by
  have hnext := h.not_has_next
  have hpne := h.ne_next hparent
  refine
    { root_mem := ?_, root_parent := ?_, mountRoot_mem := ?_, pipeRoot_mem := ?_, lt := ?_,
      above := ?_, child := ?_, nodup := ?_ }
  · rw [ha.root, ha.has]
    exact Or.inr h.root_mem
  · rw [ha.root, ha.parentOf_of_has h h.root_mem]
    exact h.root_parent
  · rw [ha.mountRoot, ha.has]
    exact Or.inr h.mountRoot_mem
  · rw [ha.pipeRoot, ha.has]
    exact Or.inr h.pipeRoot_mem
  · intro id hid
    rw [ha.nodeNextID]
    rcases (ha.has id).1 hid with rfl | hid
    · exact Nat.lt_succ_self _
    · exact Nat.lt_succ_of_lt (h.lt id hid)
  · intro id hid hroot
    rw [ha.root] at hroot
    rcases (ha.has id).1 hid with rfl | hid
    · refine ⟨parent, ?_, h.lt _ hparent, (ha.has _).2 (Or.inr hparent), ?_⟩
      · rw [ha.parentOf, if_pos rfl]
      · exact ha.mem_childrenOf.2 (Or.inl ⟨rfl, rfl, hpne⟩)
    · obtain ⟨p, hp, hlt, hpmem, hin⟩ := h.above id hid hroot
      refine ⟨p, ?_, hlt, (ha.has _).2 (Or.inr hpmem), ?_⟩
      · rw [ha.parentOf_of_has h hid, hp]
      · exact ha.mem_childrenOf.2 (Or.inr ⟨hin, h.ne_next hpmem⟩)
  · intro p id hid
    rcases ha.mem_childrenOf.1 hid with ⟨rfl, rfl, -⟩ | ⟨hid, -⟩
    · exact ⟨(ha.has _).2 (Or.inl rfl), by rw [ha.parentOf, if_pos rfl]⟩
    · obtain ⟨hmem, hp⟩ := h.child p id hid
      exact ⟨(ha.has _).2 (Or.inr hmem), by rw [ha.parentOf_of_has h hmem, hp]⟩
  · intro p
    rw [ha.childrenOf]
    split
    next => exact List.nodup_nil
    next =>
      split
      next heq =>
        refine List.nodup_cons.2 ⟨fun hin => hnext (h.child _ _ hin).1, h.nodup p⟩
      next => exact h.nodup p

theorem Tree.grows {C : FileSystem → Nat → Option (List Char) → Prop} (h : fs.Tree)
    (hg : Grows C fs fs') : fs'.Tree := by
  induction hg with
  | refl => exact h
  | tail _ hw ih =>
    rcases hw with hs | ⟨parent, name, hparent, -, ha⟩
    · exact ih.sameShape hs
    · exact ih.adds hparent ha

/-! ## The operations on the nodes -/

theorem adds_createVfsNode (h : fs.Tree) (hparent : fs.Has parent) (entry : RamdiskEntry) :
    Adds fs (fs.createVfsNode entry parent).1 parent (some entry.name) :=
  adds_addNode hparent (h.ne_next hparent) rfl

theorem sameShape_mapFile (fs : FileSystem) (pid : Pid) (node : FsNode) (openFlags fd : Int) :
    SameShape fs (fs.mapFile pid node openFlags fd).1 := by
  have hmap : ∀ fs1 : FileSystem, SameShape fs1 (FileDescriptors.map fs1 pid node.id fd openFlags).1 := by
    intro fs1
    refine .of_nodes_eq ?_ ?_ ?_
    all_goals
      simp only [FileDescriptors.map, FileDescriptors.getProcessTable,
        FileDescriptors.setProcessTable]
      split
    · exact ⟨rfl, rfl, rfl⟩
    · exact ⟨rfl, rfl, rfl⟩
    all_goals rfl
  have href : SameShape fs (Pipes.addReference fs node.physFsID pid) := by
    refine .of_nodes_eq ?_ (by simp) ?_
    all_goals
      simp only [Pipes.addReference]
      split
    · exact ⟨rfl, rfl, rfl⟩
    · exact ⟨rfl, rfl, rfl⟩
    all_goals rfl
  have hrefl : SameShape fs fs := .of_nodes_eq ⟨rfl, rfl, rfl⟩ rfl rfl
  rw [mapFile]
  cases node.type with
  | file => exact hmap fs
  | pipe => exact href.trans (hmap _)
  | _ => exact hrefl

end FileSystem

end MeetixOS.Kernel
