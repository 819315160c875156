import MeetixOS.Kernel.Filesystem.RamdiskFile

/-! # The tree of nodes and the calls that add to it

`filesystem/filesystem.cpp`, `filesystem/FsNode.cpp` and the requests that look for nodes or make them:
discovery, directory refresh, `fsCreateNode`, `createDelegate` and opens that create a file. A path is the
list of its names, the non-empty pieces between slashes. `none` is a write over the end of a path buffer of
`PATH_MAX` bytes, or a null pointer that is followed. -/

namespace MeetixOS.Kernel

open MeetixOS.Lib

/-! ## Paths -/

def pathMax : Nat := 4096

/-- The names in a path, in order. -/
def pathNames (path : List Char) : List (List Char) :=
  (path.splitOn '/').filter (· ≠ [])

/-- The names that do not lead to a child. -/
def dot : List Char := ['.']

@[inherit_doc dot]
def dotDot : List Char := ['.', '.']

def concatAsAbsolutePath (relativeBase input : List Char) : List Char :=
  match input with
  | [] => []
  | '/' :: _ => input
  | _ => relativeBase ++ '/' :: input

/-- `flags & FILE_FLAG_MODE_CREATE`. -/
def isCreate (flags : Int) : Bool := flags.testBit 6

/-- The outputs of `findExisting`. -/
structure Existing where
  parent : Nat
  child : Option Nat
  nameCurrent : List Char
  deriving DecidableEq

namespace FileSystem

/-! ## Nodes by their pointers -/

/-- The node exists. -/
def Has (fs : FileSystem) (id : Nat) : Prop := (fs.nodes.get id).isSome

instance (fs : FileSystem) (id : Nat) : Decidable (fs.Has id) :=
  inferInstanceAs (Decidable (_ = true))

/-- `node->name`. -/
def nameOf (fs : FileSystem) (id : Nat) : Option (List Char) := (fs.nodes.get id).bind FsNode.name

/-- `node->type`. -/
def typeOf (fs : FileSystem) (id : Nat) : Option FsNodeType := (fs.nodes.get id).map FsNode.type

/-- `node->parent`. -/
def parentOf (fs : FileSystem) (id : Nat) : Option Nat := (fs.nodes.get id).bind FsNode.parent

/-- `node->children`. -/
def childrenOf (fs : FileSystem) (id : Nat) : List Nat :=
  ((fs.nodes.get id).map FsNode.children).getD []

/-- `FsNode::findChild`: the first of the children with the name. -/
def findChild (fs : FileSystem) (id : Nat) (name : List Char) : Option Nat :=
  (fs.childrenOf id).find? fun child => fs.nameOf child = some name

/-- `FsNode::getDelegate`, over at most `depth` nodes. -/
def getDelegateWithin (fs : FileSystem) : (depth : Nat) → (id : Nat) → Option FsDelegate
  | 0, _ => none
  | depth + 1, id =>
    match fs.nodes.get id with
    | none => none
    | some node =>
      match node.delegate, node.parent with
      | some delegate, _ => some delegate
      | none, some parent => fs.getDelegateWithin depth parent
      | none, none => none

/-- `FsNode::getDelegate`; ids are handed out in order, so the nodes above have smaller ones. -/
def getDelegate (fs : FileSystem) (id : Nat) : Option FsDelegate :=
  fs.getDelegateWithin (id + 1) id

/-- The loop of `findExisting`, from the node `child` on. -/
def findExistingFrom (fs : FileSystem) (child : Nat) : List (List Char) → Existing
  | [] => { parent := child, child := some child, nameCurrent := [] }
  | name :: names =>
    if name = dotDot then fs.findExistingFrom ((fs.parentOf child).getD child) names
    else if name = dot then fs.findExistingFrom child names
    else
      match fs.findChild child name with
      | some next => fs.findExistingFrom next names
      | none => { parent := child, child := none, nameCurrent := name }

def findExisting (fs : FileSystem) (absolutePath : List Char) : Existing :=
  fs.findExistingFrom fs.root (pathNames absolutePath)

/-- The loop of `getRealPathToNode`: names are put in front of `out` until the path ends or gets too
long. -/
def realPathWithin (fs : FileSystem) : (depth : Nat) → (id : Nat) → (out : List Char) → List Char
  | 0, _, out => out
  | depth + 1, id, out =>
    match fs.nodes.get id with
    | none => out
    | some node =>
      if node.type = .root then out
      else
        match node.name with
        | none => out
        | some name =>
          if out.length + name.length + 1 > pathMax then out
          else
            match node.parent with
            | none => name ++ '/' :: out
            | some parent => fs.realPathWithin depth parent (name ++ '/' :: out)

def getRealPathToNode (fs : FileSystem) (id : Nat) : List Char :=
  '/' :: fs.realPathWithin (id + 1) id []

/-! ## Calls that add nodes -/

/-- A new node below `parent`. -/
def addNode (fs : FileSystem) (parent : Nat) (node : FsNode) : FileSystem :=
  (fs.createNode node).1.addChild parent fs.nodeNextID

/-- `SYSCALL_HANDLER(fsCreateNode)`: a child with the name is updated, else one is created. -/
def fsCreateNode (fs : FileSystem) (parent : Nat) (name : List Char) (type : FsNodeType)
    (physFsID : Nat) : FileSystem :=
  if fs.Has parent then
    match fs.findChild parent name with
    | some child => fs.modifyNode child fun node => { node with type, physFsID }
    | none => fs.addNode parent { id := 0, name := some name, type, physFsID }
  else fs

/-- `FileSystem::createDelegate`: looked up below the root, added below `/mount`. `prepared` is the
result of `prepare`. -/
def createDelegate (fs : FileSystem) (thread : Tid) (name : List Char) (physMountpointID : Nat)
    (prepared : Bool) : FileSystem :=
  if (fs.findChild fs.root name).isSome then fs
  else if prepared then
    fs.addNode fs.mountRoot
      { id := 0
        delegate := some (.tasked thread)
        name := some name
        type := .mountpoint
        physFsID := physMountpointID }
  else fs

end FileSystem

/-! ## Requests to the ramdisk -/

/-- The nodes and the ramdisk behind them. -/
structure Vfs where
  fs : FileSystem
  ramdisk : Ramdisk

namespace Vfs

/-- The entry that `requestDiscovery` searches: every mountpoint stands for the root. -/
def ramdiskParent (s : Vfs) (parent : FsNode) : Option RamdiskEntry :=
  if parent.type = .mountpoint then some s.ramdisk.root else s.ramdisk.findById parent.physFsID

/-- `FsDelegateRamdisk::requestDiscovery`. -/
def requestDiscovery (s : Vfs) (parent : Nat) (child : List Char) :
    Option (Vfs × FsDiscoveryStatus) := do
  let node ← s.fs.nodes.get parent
  match s.ramdiskParent node with
  | none => some (s, .notFound)
  | some ramdiskParent =>
    match ← s.ramdisk.findChild ramdiskParent child with
    | none => some (s, .notFound)
    | some ramdiskNode =>
      some ({ s with fs := (s.fs.createVfsNode ramdiskNode parent).1 }, .successful)

/-- The body of the loop in `FsDelegateRamdisk::requestDirectoryRefresh`. -/
def refreshEntry (folder : Nat) (fs : FileSystem) (rdChild : RamdiskEntry) : Option FileSystem :=
  let absolute := fs.getRealPathToNode folder ++ '/' :: rdChild.name
  if absolute.length < pathMax then
    match (fs.findExisting absolute).child with
    | some _ => some fs
    | none => some (fs.createVfsNode rdChild folder).1
  else none

/-- A node's contents are marked as complete. -/
def setContentsValid (fs : FileSystem) (folder : Nat) : FileSystem :=
  fs.modifyNode folder fun node => { node with contentsValid := true }

/-- `FsDelegateRamdisk::requestDirectoryRefresh`; the children of an entry are the headers with its id
as `parentid`. -/
def requestDirectoryRefresh (s : Vfs) (folder : Nat) : Option (Vfs × FsDirectoryRefreshStatus) := do
  let node ← s.fs.nodes.get folder
  match s.ramdisk.findById node.physFsID with
  | none => some (s, .error)
  | some _ =>
    let rdChildren := s.ramdisk.headers.filter fun entry => entry.parentid = node.physFsID
    let fs ← rdChildren.foldlM (refreshEntry folder) s.fs
    some ({ s with fs := setContentsValid fs folder }, .successful)

/-- The truncation of a file that was found, as far as it is an entry. -/
def truncate (entry : RamdiskEntry) : RamdiskEntry :=
  if entry.dataOnRamdisk then entry else { entry with data := [], notOnRdBufferLength := 0 }

/-- `FsDelegateRamdisk::requestOpen`; the result has the node and the status of the handler. -/
def requestOpen (s : Vfs) (node : Nat) (filename : List Char) (flags : Int)
    (discoveryStatus : FsDiscoveryStatus) : Option (Vfs × Nat × FsOpenStatus) := do
  let physFsID := (← s.fs.nodes.get node).physFsID
  let ramdiskNode := s.ramdisk.findById physFsID
  match discoveryStatus with
  | .successful =>
    if (← ramdiskNode).type ≠ .file then some (s, node, .error)
    else if isTruncate flags then
      let index := s.ramdisk.headers.findIdx fun entry => entry.id = physFsID
      let headers := s.ramdisk.headers.modify index truncate
      some ({ s with ramdisk := { s.ramdisk with headers } }, node, .successful)
    else some (s, node, .successful)
  | .notFound =>
    if isCreate flags then do
      let (ramdisk, newRamdiskEntry) := s.ramdisk.createChild (← ramdiskNode) filename
      let (fs, created) := s.fs.createVfsNode newRamdiskEntry node
      some ({ fs, ramdisk }, created, .successful)
    else some (s, node, .notFound)
  | _ => some (s, node, .error)

/-! ## Calls -/

/-- One round of `FsTransactionHandlerDiscovery::startTransaction`. Only the ramdisk makes nodes. -/
def discover (s : Vfs) (absolutePath : List Char) : Option Vfs :=
  let existing := s.fs.findExisting absolutePath
  if pathMax ≤ absolutePath.length then none
  else if existing.child = none ∧ s.fs.getDelegate existing.parent = some .ramdisk then
    (s.requestDiscovery existing.parent existing.nameCurrent).map Prod.fst
  else some s

/-- The refresh at the start of `fsReadDirectory`. `storage` is the `parentVirtFsID` in the
transaction storage. -/
def refresh (s : Vfs) (folder : Nat) (storage : Nat) : Option Vfs :=
  match s.fs.nodes.get folder with
  | none => some s
  | some node =>
    if node.contentsValid then some s
    else
      match s.fs.getDelegate folder with
      | none => some s
      | some .mount => some { s with fs := setContentsValid s.fs folder }
      | some .pipe => some { s with fs := setContentsValid s.fs folder }
      | some (.tasked _) => some { s with fs := setContentsValid s.fs storage }
      | some .ramdisk => (s.requestDirectoryRefresh folder).map Prod.fst

/-- The request of an open that did not discover its path, at the last node it found. -/
def openMissing (s : Vfs) (node : Nat) (filename : List Char) (flags : Int) : Option Vfs :=
  if s.fs.getDelegate node = some .ramdisk then
    (s.requestOpen node filename flags .notFound).map Prod.fst
  else some s

end Vfs

/-- The calls that can add nodes. -/
inductive VfsCall
  | discover (absolutePath : List Char)
  | refresh (folder : Nat) (storage : Nat)
  | fsCreateNode (parent : Nat) (name : List Char) (type : FsNodeType) (physFsID : Nat)
  | createDelegate (thread : Tid) (name : List Char) (physMountpointID : Nat) (prepared : Bool)
  | openMissing (node : Nat) (filename : List Char) (flags : Int)
  | pipe (pid : Pid) (block : PipeBlock)

def Vfs.call (s : Vfs) : VfsCall → Option Vfs
  | .discover absolutePath => s.discover absolutePath
  | .refresh folder storage => s.refresh folder storage
  | .fsCreateNode parent name type physFsID =>
    some { s with fs := s.fs.fsCreateNode parent name type physFsID }
  | .createDelegate thread name physMountpointID prepared =>
    some { s with fs := s.fs.createDelegate thread name physMountpointID prepared }
  | .openMissing node filename flags => s.openMissing node filename flags
  | .pipe pid block => some { s with fs := (s.fs.pipe pid block).1 }

/-- All runs of calls from the initial resources on, with any ramdisk. -/
def vfsCalls : System Vfs VfsCall where
  init s := s.fs = FileSystem.initialResources
  step s call := s.call call

end MeetixOS.Kernel
