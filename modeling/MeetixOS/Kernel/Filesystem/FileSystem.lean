import MeetixOS.Kernel.Utils.HashMap
import MeetixOS.Kernel.Ramdisk.Ramdisk
import MeetixOS.Kernel.Filesystem.Pipe

/-! # Nodes, descriptor tables and pipe references

The state behind `filesystem/filesystem.cpp`, `filesystem/FsDescriptors.cpp` and `filesystem/pipes.cpp`,
and every operation that maps or unmaps a descriptor. A pointer to a node is the node's id, since nodes
are never deleted; a pointer to a table, a descriptor or a pipe is the key it is stored under.

`clonefd` keeps a pointer to the source's descriptor over `unmapFile`, which may delete it. The model
returns `none` where `cloneInto` then reads it. -/

namespace MeetixOS.Kernel

open MeetixOS.Lib

/-! ## Data -/

/-- The implementations of `FsDelegate`. -/
inductive FsDelegate
  | mount
  | ramdisk
  | pipe
  | tasked (delegateThread : Tid)
  deriving DecidableEq

structure FsNode where
  id : Nat
  type : FsNodeType := .none
  physFsID : Nat := 0
  name : Option (List Char) := none
  parent : Option Nat := none
  children : List Nat := []
  delegate : Option FsDelegate := none
  isBlocking : Bool := true
  contentsValid : Bool := false
  deriving DecidableEq

structure FileDescriptorContent where
  id : Int
  offset : Int := 0
  nodeID : Nat := 0
  openFlags : Int := 0
  deriving DecidableEq

def FileDescriptorContent.cloneInto (content other : FileDescriptorContent) :
    FileDescriptorContent :=
  { other with offset := content.offset, nodeID := content.nodeID, openFlags := content.openFlags }

/-- `FileDescriptorTable`; the first number handed out skips stdin, stdout and stderr. -/
structure FileDescriptorTable where
  nextFileDescriptor : Int := 3
  descriptors : HashMap Int FileDescriptorContent := .empty

/-- The statics of the three files. -/
structure FileSystem where
  nodes : HashMap Nat FsNode
  nodeNextID : Nat
  root : Nat
  mountRoot : Nat
  pipeRoot : Nat
  processDescriptorTableMap : HashMap Pid FileDescriptorTable
  pipes : HashMap Nat Pipe
  pipeNextID : Nat

/-! ## Nodes -/

namespace FileSystem

/-- `createNode`, with the fields that its caller sets right away. -/
def createNode (fs : FileSystem) (node : FsNode) : FileSystem × FsNode :=
  let node := { node with id := fs.nodeNextID }
  ({ fs with nodes := fs.nodes.add fs.nodeNextID node, nodeNextID := fs.nodeNextID + 1 }, node)

/-- A write through a node pointer. -/
def modifyNode (fs : FileSystem) (id : Nat) (f : FsNode → FsNode) : FileSystem :=
  match fs.nodes.get id with
  | some node => { fs with nodes := fs.nodes.update id (f node) }
  | none => fs

/-- `FsNode::addChild`. -/
def addChild (fs : FileSystem) (parent child : Nat) : FileSystem :=
  let fs := fs.modifyNode child fun node => { node with parent := some parent }
  fs.modifyNode parent fun node => { node with children := child :: node.children }

/-- `FsDelegateRamdisk::createVfsNode`: the VFS node of a ramdisk entry, below `parent`. -/
def createVfsNode (fs : FileSystem) (ramdiskNode : RamdiskEntry) (parent : Nat) :
    FileSystem × Nat :=
  let (fs, node) := fs.createNode
    { id := 0
      physFsID := ramdiskNode.id
      type := if ramdiskNode.type = .file then .file else .folder
      name := some ramdiskNode.name }
  (fs.addChild parent node.id, node.id)

/-- Empty statics, before `FileSystem::initialize`. -/
def empty : FileSystem :=
  { nodes := .empty
    nodeNextID := 0
    root := 0
    mountRoot := 0
    pipeRoot := 0
    processDescriptorTableMap := .empty
    pipes := .empty
    pipeNextID := 0 }

/-- A mountpoint node with its delegate, as `FileSystem::initialize` makes them. -/
def createMountpoint (fs : FileSystem) (parent : Nat) (name : List Char) (delegate : FsDelegate) :
    FileSystem × Nat :=
  let (fs, node) := fs.createNode
    { id := 0, type := .mountpoint, name := some name, delegate := some delegate }
  (fs.addChild parent node.id, node.id)

/-- `FileSystem::initialize`: the root, `/mount`, `/mount/ramdisk` and `/mount/pipe`. -/
def initialResources : FileSystem :=
  let (fs, root) := empty.createNode { id := 0, type := .root, delegate := some .ramdisk }
  let (fs, mountRoot) := fs.createMountpoint root.id ['m', 'o', 'u', 'n', 't'] .mount
  let (fs, _) := fs.createMountpoint mountRoot ['r', 'a', 'm', 'd', 'i', 's', 'k'] .ramdisk
  let (fs, pipeRoot) := fs.createMountpoint mountRoot ['p', 'i', 'p', 'e'] .pipe
  { fs with root := root.id, mountRoot := mountRoot, pipeRoot := pipeRoot }

end FileSystem

/-! ## Descriptor tables -/

namespace FileDescriptors

/-- `getProcessTable`: a process without a table gets an empty one. -/
def getProcessTable (fs : FileSystem) (pid : Pid) : FileSystem × FileDescriptorTable :=
  match fs.processDescriptorTableMap.get pid with
  | some table => (fs, table)
  | none => ({ fs with processDescriptorTableMap := fs.processDescriptorTableMap.add pid {} }, {})

/-- A write through the table pointer of `pid`. -/
def setProcessTable (fs : FileSystem) (pid : Pid) (table : FileDescriptorTable) : FileSystem :=
  { fs with processDescriptorTableMap := fs.processDescriptorTableMap.update pid table }

/-- `createDescriptor`: only the implicit number (`overrideFile = -1`) advances the counter. -/
def createDescriptor (table : FileDescriptorTable) (overrideFile : Int) :
    FileDescriptorTable × FileDescriptorContent :=
  let descriptor := if overrideFile = -1 then table.nextFileDescriptor else overrideFile
  let next :=
    if overrideFile = -1 then s32 (table.nextFileDescriptor + 1) else table.nextFileDescriptor
  let desc : FileDescriptorContent := { id := descriptor }
  ({ nextFileDescriptor := next, descriptors := table.descriptors.add descriptor desc }, desc)

def map (fs : FileSystem) (pid : Pid) (nodeID : Nat) (fd : Int) (openFlags : Int) :
    FileSystem × Int :=
  let (fs, processTable) := getProcessTable fs pid
  let (table, desc) := createDescriptor processTable fd
  let descriptors := table.descriptors.update desc.id { desc with nodeID, openFlags }
  (setProcessTable fs pid { table with descriptors }, desc.id)

def unmap (fs : FileSystem) (pid : Pid) (fd : Int) : FileSystem :=
  let (fs, processTable) := getProcessTable fs pid
  match processTable.descriptors.get fd with
  | some content =>
    setProcessTable fs pid
      { processTable with descriptors := processTable.descriptors.erase content.id }
  | none => fs

def unmapAll (fs : FileSystem) (pid : Pid) : FileSystem :=
  let (fs, _) := getProcessTable fs pid
  { fs with processDescriptorTableMap := fs.processDescriptorTableMap.erase pid }

def get (fs : FileSystem) (pid : Pid) (fd : Int) :
    FileSystem × Option FileDescriptorContent :=
  let (fs, processTable) := getProcessTable fs pid
  (fs, processTable.descriptors.get fd)

end FileDescriptors

/-! ## Pipe references -/

namespace Pipes

def create (fs : FileSystem) (block : PipeBlock) : FileSystem × Nat :=
  ({ fs with
      pipes := fs.pipes.add fs.pipeNextID (Pipe.ofBlock block)
      pipeNextID := fs.pipeNextID + 1 }, fs.pipeNextID)

def addReference (fs : FileSystem) (id : Nat) (pid : Pid) : FileSystem :=
  match fs.pipes.get id with
  | some pipe =>
    { fs with pipes := fs.pipes.update id { pipe with references := pid :: pipe.references } }
  | none => fs

/-- `Pipes::removeReference`: the first entry of `pid` goes; a pipe without entries is deleted. -/
def removeReference (fs : FileSystem) (id : Nat) (pid : Pid) : FileSystem :=
  match fs.pipes.get id with
  | some pipe =>
    let pipe := { pipe with references := pipe.references.erase pid }
    let fs := { fs with pipes := fs.pipes.update id pipe }
    if pipe.references = [] then { fs with pipes := fs.pipes.erase id } else fs
  | none => fs

end Pipes

/-! ## Mapping and unmapping files -/

namespace FileSystem

/-- `mapFile`; the result `-1` says that the node is neither a file nor a pipe. -/
def mapFile (fs : FileSystem) (pid : Pid) (node : FsNode) (openFlags : Int) (fd : Int) :
    FileSystem × Int :=
  match node.type with
  | .file => FileDescriptors.map fs pid node.id fd openFlags
  | .pipe =>
    FileDescriptors.map (Pipes.addReference fs node.physFsID pid) pid node.id fd openFlags
  | _ => (fs, -1)

def unmapFile (fs : FileSystem) (pid : Pid) (node : FsNode) (fd : FileDescriptorContent) :
    FileSystem × Bool :=
  match node.type with
  | .file => (FileDescriptors.unmap fs pid fd.id, true)
  | .pipe =>
    (FileDescriptors.unmap (Pipes.removeReference fs node.physFsID pid) pid fd.id, true)
  | _ => (fs, false)

def nodeForDescriptor (fs : FileSystem) (pid : Pid) (fd : Int) :
    FileSystem × Option (FsNode × FileDescriptorContent) :=
  let (fs, fdContent) := FileDescriptors.get fs pid fd
  (fs, fdContent.bind fun content => (fs.nodes.get content.nodeID).map fun node => (node, content))

/-- `clonefd`; `-1` as `targetFd` asks for an implicit number. -/
def clonefd (fs : FileSystem) (sourceFd : Int) (sourcePid : Pid) (targetFd : Int)
    (targetPid : Pid) : Option (FileSystem × Int × FsCloneFdStatus) :=
  let (fs, source) := fs.nodeForDescriptor sourcePid sourceFd
  match source with
  | none => some (fs, -1, .invalidSourceFd)
  | some (sourceNode, sourceFdContent) =>
    let (fs, target) :=
      if targetFd ≠ -1 then fs.nodeForDescriptor targetPid targetFd else (fs, none)
    -- close old file descriptor if available: the source's pid, as in the source
    let fs := match target with
      | some (targetNode, targetFdContent) => (fs.unmapFile sourcePid targetNode targetFdContent).1
      | none => fs
    let sourceAlive := (FileDescriptors.get fs sourcePid sourceFd).2.isSome
    -- open new file descriptor
    let (fs, created) := fs.mapFile targetPid sourceNode 0 targetFd
    if created ≠ -1 then
      let (fs, createdDesc) := fs.nodeForDescriptor targetPid created
      match createdDesc with
      | none => some (fs, -1, .error)
      | some (_, createdFdContent) =>
        if sourceAlive then
          let (fs, table) := FileDescriptors.getProcessTable fs targetPid
          let descriptors :=
            table.descriptors.update created (sourceFdContent.cloneInto createdFdContent)
          some (FileDescriptors.setProcessTable fs targetPid { table with descriptors },
            created, .successful)
        else none
    else some (fs, -1, .error)

/-- The first half of `pipe`: the node below `/mount/pipe` and its pipe, not yet mapped. Nothing
reads the `physFsID` in between. -/
def createPipeNode (fs : FileSystem) (block : PipeBlock) : FileSystem × FsNode :=
  let (fs, physFsID) := Pipes.create fs block
  let (fs, node) := fs.createNode { id := 0, type := .pipe, physFsID }
  (fs.addChild fs.pipeRoot node.id, node)

/-- `FileSystem::pipe`: a new pipe, and its write and read ends. -/
def pipe (fs : FileSystem) (pid : Pid) (block : PipeBlock) : FileSystem × Int × Int :=
  let (fs, node) := fs.createPipeNode block
  let (fs, outWrite) := fs.mapFile pid node 0 (-1)
  let (fs, outRead) := fs.mapFile pid node 0 (-1)
  (fs, outWrite, outRead)

/-- `processForked`: every descriptor of `source` is cloned under its own number. The iterator walks the
table as it was: a clone that changed it has deleted the descriptor it then reads. -/
def processForked (fs : FileSystem) (source fork : Pid) : Option FileSystem :=
  let (fs, sourceTable) := FileDescriptors.getProcessTable fs source
  sourceTable.descriptors.entries.foldlM
    (fun fs entry => (fs.clonefd entry.2.id source entry.2.id fork).map Prod.fst) fs

/-- The body of the loop in `processClosed`. -/
def closeEntry (pid : Pid) (fs : FileSystem) (entry : Int × FileDescriptorContent) : FileSystem :=
  match fs.nodes.get entry.2.nodeID with
  | some node => (fs.unmapFile pid node entry.2).1
  | none => fs

/-- `processClosed`. The iterator steps from the node that `unmapFile` just freed, which still has
its content. -/
def processClosed (fs : FileSystem) (pid : Pid) : FileSystem :=
  let (fs, table) := FileDescriptors.getProcessTable fs pid
  FileDescriptors.unmapAll (table.descriptors.entries.foldl (closeEntry pid) fs) pid

/-- The end of a close transaction: on success of the delegate the file is unmapped. -/
def close (fs : FileSystem) (pid : Pid) (fd : Int) (status : FsCloseStatus) : FileSystem :=
  let (fs, target) := fs.nodeForDescriptor pid fd
  match target with
  | some (node, content) =>
    if status = .successful then (fs.unmapFile pid node content).1 else fs
  | none => fs

/-- The end of a successful open transaction: `mapFile` with an implicit number. The nameless pipe
nodes are never found. -/
def openNode (fs : FileSystem) (pid : Pid) (nodeID : Nat) (flags : Int) :
    FileSystem × Int :=
  match fs.nodes.get nodeID with
  | some node => if node.name.isSome then fs.mapFile pid node flags (-1) else (fs, -1)
  | none => (fs, -1)

end FileSystem

/-! ## Calls

The operations on descriptors that the kernel runs for its processes, one at a time. -/

/-- One operation: the discovery of a ramdisk entry, an open or close that its delegate let through,
or an entry point. -/
inductive FileCall
  | createVfsNode (ramdiskNode : RamdiskEntry) (parent : Nat)
  | openNode (pid : Pid) (nodeID : Nat) (flags : Int)
  | close (pid : Pid) (fd : Int) (status : FsCloseStatus)
  | pipe (pid : Pid) (block : PipeBlock)
  | clonefd (sourceFd : Int) (sourcePid : Pid) (targetFd : Int) (targetPid : Pid)
  | processForked (source fork : Pid)
  | processClosed (pid : Pid)

/-- The process whose table a call hands descriptors out of. -/
def FileCall.receiver : FileCall → Pid
  | .createVfsNode _ _ => 0
  | .openNode pid _ _ => pid
  | .close pid _ _ => pid
  | .pipe pid _ => pid
  | .clonefd _ _ _ targetPid => targetPid
  | .processForked _ fork => fork
  | .processClosed pid => pid

/-- Run a call. The list holds the descriptors that it returned and that got their numbers implicitly. -/
def FileSystem.call (fs : FileSystem) : FileCall → Option (FileSystem × List Int)
  | .createVfsNode ramdiskNode parent => some ((fs.createVfsNode ramdiskNode parent).1, [])
  | .openNode pid nodeID flags =>
    let (fs, fd) := fs.openNode pid nodeID flags
    some (fs, if fd = -1 then [] else [fd])
  | .close pid fd status => some (fs.close pid fd status, [])
  | .pipe pid block =>
    let (fs, outWrite, outRead) := fs.pipe pid block
    some (fs, [outWrite, outRead])
  | .clonefd sourceFd sourcePid targetFd targetPid => do
      let (fs, created, _) ← fs.clonefd sourceFd sourcePid targetFd targetPid
      some (fs, if targetFd = -1 ∧ created ≠ -1 then [created] else [])
  | .processForked source fork => (fs.processForked source fork).map fun fs => (fs, [])
  | .processClosed pid => some (fs.processClosed pid, [])

/-- All runs of calls from the initial resources on. -/
def fileSystemCalls : System FileSystem FileCall where
  init fs := fs = FileSystem.initialResources
  step fs call := (fs.call call).map Prod.fst

end MeetixOS.Kernel
