import MeetixOS.Kernel.Memory.AddressRangePool

/-! # The memory of a process

What `tasking/ThreadManager.cpp` maps and frees for a process and its threads, with the loader
(`executable/Elf32Loader.cpp`, and the system calls of `calls/SyscallHandlerSpawning.cpp` in its place) and
`sbrk` (`calls/SyscallHandlerMemory.cpp`). The functions work on the `Frames`, the physical pages with
their reference counts, and on one process. Bytes that are copied are left out here. -/

namespace MeetixOS.Kernel

/-! ## Data -/

/-- The physical pages: which are free, and how often each is referenced. -/
structure Frames where
  allocator : PPallocator
  tracker : PPreferenceTracker

/-- What a `Thread` holds of memory. -/
structure ThreadMemory where
  id : Tid
  isMain : Bool
  kernelStack : Nat
  userStackAreaStart : Nat
  userStackPages : Nat := 1
  tlsCopyVirt : Nat := 0
  deriving DecidableEq

/-- What a `Process` holds of memory, with its threads. -/
structure UserProcess where
  virtualRanges : AddressRangePool
  pageDirectory : PageDirectory
  imageStart : Nat := 0
  imageEnd : Nat := 0
  heapStart : Nat := 0
  heapBreak : Nat := 0
  heapPages : Nat := 0
  tlsMasterInProcLocation : Nat := 0
  tlsMasterCopysize : Nat := 0
  tlsMasterTotalsize : Nat := 0
  tlsMasterAlignment : Nat := 0
  threads : List ThreadMemory := []

def threadUserStackReservedVirtualPages : Nat := 16

namespace Frames

/-- `PPreferenceTracker::increment`. -/
def increment (f : Frames) (page : Nat) : Frames := { f with tracker := f.tracker.increment page }

/-- `PPallocator::free`. -/
def free (f : Frames) (page : Nat) : Frames := { f with allocator := f.allocator.free page }

/-- The loop that puts pages behind a virtual area: `n` rounds of allocating, mapping and, where
counted, incrementing the reference count. -/
def mapFresh (counted : Bool) : Nat → Frames → PageDirectory → Nat → Option (Frames × PageDirectory)
  | 0, f, directory, _ => some (f, directory)
  | n + 1, f, directory, virt => do
      let (allocator, page) ← f.allocator.allocate
      let (allocator, directory, _) ← AddressSpace.map allocator directory virt page false
      let f := { f with allocator }
      mapFresh counted n (if counted then f.increment page else f) directory (virt + pageSize)

end Frames

namespace ThreadManager

/-! ## Threads -/

/-- `createThreadUserStack`: a range of its own, with a page at its end; `none` inside where there is no
range, outside where the kernel panics. -/
def createThreadUserStack (f : Frames) (p : UserProcess) :
    Option (Option (Frames × UserProcess × Nat)) :=
  match p.virtualRanges.allocate threadUserStackReservedVirtualPages 0 with
  | none => some none
  | some (virtualRanges, range) => do
      let userStackVirt := range + (threadUserStackReservedVirtualPages - 1) * pageSize
      let (allocator, page) ← f.allocator.allocate
      let (allocator, pageDirectory, written) ←
        AddressSpace.map allocator p.pageDirectory userStackVirt page false
      if written then
        some (some ({ f with allocator }, { p with virtualRanges, pageDirectory }, userStackVirt))
      else none

/-- `ALIGN_UP`; an alignment of 0 is a division error. -/
def alignUp (value alignment : Nat) : Option Nat :=
  if alignment = 0 then none
  else some (if value % alignment ≠ 0 then u32 (value + (alignment - value % alignment)) else value)

/-- A range with a fresh, counted page behind each of its pages. Where there is no range, the source
goes on with 0. -/
def mapRange (f : Frames) (p : UserProcess) (pages flags : Nat) : Option (Frames × UserProcess × Nat) :=
  match p.virtualRanges.allocate pages flags with
  | none => if pages = 0 then some (f, p, 0) else none
  | some (virtualRanges, base) =>
    (f.mapFresh true pages p.pageDirectory base).map fun (f, pageDirectory) =>
      (f, { p with virtualRanges, pageDirectory }, base)

/-- `prepareThreadLocalStorage`: a copy of the TLS master with a `UserThread` behind it. -/
def prepareThreadLocalStorage (f : Frames) (p : UserProcess) (thread : ThreadMemory) :
    Option (Frames × UserProcess × ThreadMemory) :=
  if p.tlsMasterInProcLocation ≠ 0 then do
    let size ← alignUp p.tlsMasterTotalsize p.tlsMasterAlignment
    let requiredPages := pageAlignUp (u32 (size + 4)) / pageSize
    let (f, p, tlsCopyVirt) ← mapRange f p requiredPages 1
    some (f, p, { thread with tlsCopyVirt })
  else some (f, p, thread)

/-- `createThread`: the two stacks, and the thread-local storage of a sub thread. A thread without a
range for its stack is not created. -/
def createThread (f : Frames) (p : UserProcess) (id : Tid) (isMain : Bool) :
    Option (Frames × UserProcess) := do
  let (allocator, kernelStack) ← f.allocator.allocate
  let f := { f with allocator }
  match ← createThreadUserStack f p with
  | none => some (f, p)
  | some (f, p, userStackAreaStart) =>
    let thread : ThreadMemory := { id, isMain, kernelStack, userStackAreaStart }
    let (f, p, thread) ←
      if isMain then some (f, p, thread) else prepareThreadLocalStorage f p thread
    some (f, { p with threads := thread :: p.threads })

/-- `createProcess`: the page of the directory, the ranges, and the main thread. -/
def createProcess (f : Frames) (id : Tid) : Option (Frames × UserProcess) := do
  let (allocator, _) ← f.allocator.allocate
  createThread { f with allocator }
    { virtualRanges :=
        AddressRangePool.initializePool constUserVirtualRangesStart constKernelAreaStart
      pageDirectory := PageDirectory.empty } id true

/-- The area that a thread's stack may grow into; `handlePageFault` serves a fault there. -/
def inStackArea (thread : ThreadMemory) (accessed : Nat) : Bool :=
  u32 (thread.userStackAreaStart + 2 ^ 32 -
      (threadUserStackReservedVirtualPages - thread.userStackPages) * pageSize) ≤ accessed &&
    accessed < thread.userStackAreaStart + thread.userStackPages * pageSize

/-- The first case of `handlePageFault`: pages from the accessed one up to the stack. -/
def growStack (f : Frames) (p : UserProcess) (thread : ThreadMemory) (accessed : Nat) :
    Option (Frames × UserProcess) :=
  let pages := (thread.userStackAreaStart - accessed + (pageSize - 1)) / pageSize
  (f.mapFresh false pages p.pageDirectory accessed).map fun (f, pageDirectory) =>
    let grown := { thread with
      userStackAreaStart := accessed
      userStackPages := (thread.userStackPages + pages) % 2 ^ 8 }
    (f, { p with
      pageDirectory, threads := p.threads.map fun t => if t = thread then grown else t })

/-! ## Deleting -/

/-- The rounds of `freeAndUnmap`, with the pages they free. -/
def freeAndUnmapPages (inRanges : Bool) :
    Nat → Frames → UserProcess → Nat → Option (Frames × UserProcess × List Nat)
  | 0, f, p, _ => some (f, p, [])
  | n + 1, f, p, address => do
      let page ← AddressSpace.virtualToPhysical p.pageDirectory address
      let f := { f with tracker := (f.tracker.decrement page).1 }.free page
      let p := { p with pageDirectory := AddressSpace.unmap p.pageDirectory address }
      let p := if inRanges then { p with virtualRanges := (p.virtualRanges.free address).1 } else p
      let (f, p, freed) ← freeAndUnmapPages inRanges n f p (address + pageSize)
      some (f, p, page :: freed)

/-- `freeAndUnmap`: the pages from `start` on whose address is below `stop`. -/
def freeAndUnmap (f : Frames) (p : UserProcess) (start stop : Nat) (inRanges : Bool) :
    Option (Frames × UserProcess × List Nat) :=
  freeAndUnmapPages inRanges ((stop - start + (pageSize - 1)) / pageSize) f p start

/-- The part of `deleteTask` for the thread itself: kernel stack, user stack and TLS copy.
`freeAndUnmap` gets the size of the TLS master for the end address, as in the source. -/
def deleteThread (f : Frames) (p : UserProcess) (thread : ThreadMemory) :
    Option (Frames × UserProcess × List Nat) := do
  let f := f.free thread.kernelStack
  let (f, p, stack) ← freeAndUnmap f p thread.userStackAreaStart
    (thread.userStackAreaStart + thread.userStackPages * pageSize) false
  let (f, p, tls) ← if thread.tlsCopyVirt ≠ 0 then
      freeAndUnmap f p thread.tlsCopyVirt p.tlsMasterTotalsize true
    else some (f, p, [])
  some (f, { p with threads := p.threads.erase thread }, thread.kernelStack :: (stack ++ tls))

/-- The part of `deleteTask` for the process: image, heap and TLS master. -/
def deleteProcess (f : Frames) (p : UserProcess) : Option (Frames × UserProcess × List Nat) := do
  let (f, p, image) ← freeAndUnmap f p p.imageStart p.imageEnd false
  let (f, p, heap) ← freeAndUnmap f p p.heapStart p.heapBreak false
  let (f, p, tls) ← freeAndUnmap f p p.tlsMasterInProcLocation p.tlsMasterTotalsize true
  some (f, p, image ++ heap ++ tls)

/-- `deleteTask`, with the pages that it frees. The process object is deleted with its main thread. -/
def deleteTask (f : Frames) (p : UserProcess) (thread : ThreadMemory) :
    Option (Frames × UserProcess × List Nat) := do
  let (f, p, freed) ← deleteThread f p thread
  if thread.isMain then do
    let (f, p, freed') ← deleteProcess f p
    some (f, p, freed ++ freed')
  else some (f, p, freed)

end ThreadManager

/-! ## Loading -/

/-- The types of program header that the loader looks at. -/
inductive ProgramHeaderType
  | load
  | tls
  | other
  deriving DecidableEq, Repr

structure Elf32Phdr where
  type : ProgramHeaderType
  vaddr : Nat
  memsz : Nat

namespace Elf32Loader

/-- The image range of `loadLoadSegment`, before it is aligned. -/
def imageRange (headers : List Elf32Phdr) : Nat × Nat :=
  headers.foldl
    (fun range header =>
      if header.type = .load then
        (if header.vaddr < range.1 then header.vaddr else range.1,
          if u32 (header.vaddr + header.memsz) > range.2 then u32 (header.vaddr + header.memsz)
          else range.2)
      else range) (0xFFFFFFFF, 0)

def loadLoadSegment (f : Frames) (p : UserProcess) (headers : List Elf32Phdr) :
    Option (Frames × UserProcess) :=
  let imageStart := pageAlignDown (imageRange headers).1
  let imageEnd := pageAlignUp (imageRange headers).2
  (f.mapFresh true ((imageEnd - imageStart) / pageSize) p.pageDirectory imageStart).map
    fun (f, pageDirectory) => (f, { p with pageDirectory, imageStart, imageEnd })

/-- `loadTlsMasterCopy`. It sets none of the process's TLS fields. -/
def loadTlsMasterCopy (f : Frames) (p : UserProcess) (headers : List Elf32Phdr) :
    Option (Frames × UserProcess) :=
  match headers.find? fun header => header.type = .tls with
  | none => some (f, p)
  | some header =>
    (ThreadManager.mapRange f p (pageAlignUp header.memsz / pageSize) 0).map
      fun (f, p, _) => (f, p)

def loadBinaryToCurrentAddressSpace (f : Frames) (p : UserProcess) (headers : List Elf32Phdr) :
    Option (Frames × UserProcess) := do
  let (f, p) ← loadLoadSegment f p headers
  loadTlsMasterCopy f p headers

end Elf32Loader

namespace UserProcess

/-- `createPagesInSpace`, for the process under construction: its image grows to the new pages. -/
def createPagesInSpace (f : Frames) (p : UserProcess) (virt pages : Nat) :
    Option (Frames × UserProcess) :=
  if 0 < pages ∧ pages ≤ 100 then
    let stop := u32 (virt + pages * pageSize)
    let imageStart := if p.imageStart = 0 ∨ p.imageStart > virt then virt else p.imageStart
    let imageEnd := if p.imageEnd = 0 ∨ p.imageEnd < stop then stop else p.imageEnd
    (f.mapFresh true pages p.pageDirectory virt).map fun (f, pageDirectory) =>
      (f, { p with pageDirectory, imageStart, imageEnd })
  else some (f, p)

/-- `writeTlsMasterForProcess`, for the process under construction. -/
def writeTlsMasterForProcess (f : Frames) (p : UserProcess) (copySize totalSize alignment : Nat) :
    Option (Frames × UserProcess) := do
  let (f, p, base) ← ThreadManager.mapRange f p (pageAlignUp copySize / pageSize) 1
  some (f, { p with
    tlsMasterInProcLocation := base
    tlsMasterCopysize := copySize
    tlsMasterTotalsize := totalSize
    tlsMasterAlignment := alignment })

/-! ## The heap -/

/-- The first call of `sbrk` puts a page behind the start of the heap. -/
def initializeHeap (f : Frames) (p : UserProcess) : Option (Frames × UserProcess) :=
  (f.mapFresh true 1 p.pageDirectory p.imageEnd).map fun (f, pageDirectory) =>
    (f, { p with pageDirectory, heapBreak := p.imageEnd, heapStart := p.imageEnd, heapPages := 1 })

/-- The end of the pages of the heap. -/
def virtAbove (p : UserProcess) : Nat := u32 (p.heapStart + p.heapPages * pageSize)

/-- The start of the last page of the heap. -/
def virtBelow (p : UserProcess) : Nat :=
  u32 (p.heapStart + p.heapPages * pageSize + 2 ^ 32 - pageSize)

/-- The loop that expands the heap; each round moves `virtAbove` up by a page. -/
def expandHeap (brkNew : Nat) : Nat → Frames → UserProcess → Option (Frames × UserProcess)
  | 0, f, p => some (f, p)
  | n + 1, f, p =>
    if brkNew > p.virtAbove then do
      let (f, pageDirectory) ← f.mapFresh true 1 p.pageDirectory p.virtAbove
      expandHeap brkNew n f { p with pageDirectory, heapPages := u32 (p.heapPages + 1) }
    else some (f, p)

/-- The loop that shrinks the heap; each round moves `virtBelow` down by a page. -/
def shrinkHeap (brkNew : Nat) : Nat → Frames → UserProcess → Option (Frames × UserProcess)
  | 0, f, p => some (f, p)
  | n + 1, f, p =>
    if brkNew < p.virtBelow then do
      let page ← AddressSpace.virtualToPhysical p.pageDirectory p.virtBelow
      let pageDirectory := AddressSpace.unmap p.pageDirectory p.virtBelow
      let (tracker, count) := f.tracker.decrement page
      let f := { f with tracker }
      shrinkHeap brkNew n (if count = 0 then f.free page else f)
        { p with pageDirectory, heapPages := u32 (p.heapPages + 2 ^ 32 - 1) }
    else some (f, p)

/-- `sbrk`. An address has fewer than 2^20 page boundaries below it, so that many rounds are enough for
both loops. -/
def sbrk (f : Frames) (p : UserProcess) (amount : Int) : Option (Frames × UserProcess) := do
  let (f, p) ← if p.heapBreak = 0 then initializeHeap f p else some (f, p)
  let brkNew := ((p.heapBreak + amount) % 2 ^ 32).toNat
  if brkNew ≥ constUserMaximumHeapBreak then some (f, p)
  else do
    let (f, p) ← expandHeap brkNew physicalPages f p
    let (f, p) ← shrinkHeap brkNew physicalPages f p
    some (f, { p with heapBreak := brkNew })

end UserProcess

end MeetixOS.Kernel
