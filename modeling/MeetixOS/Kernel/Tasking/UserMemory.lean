import Mathlib.Data.List.AList
import Mathlib.Algebra.Order.BigOperators.Group.Finset
import MeetixOS.Kernel.Tasking.Fork
import MeetixOS.Kernel.Tasking.Holders

/-! # The memory of all user processes

The processes of the system with the physical pages and their contents. Processes are created and loaded,
move their break, fork, access their memory byte by byte, and their threads are deleted. `mappers` are the
low virtual pages, in all processes, that are mapped to a page, and `mappings` is their number as counted
from the tables. -/

namespace MeetixOS.Kernel

open MeetixOS.Lib ThreadManager InterruptExceptionHandler

/-! ## The system -/

/-- The physical pages and the processes. -/
structure UserMemory where
  frames : Frames
  contents : PageContents
  processes : AList fun _ : Tid => UserProcess

/-- What happens to the memory of the processes. -/
inductive UserMemoryEvent
  | createProcess (id : Tid)
  | load (pid : Tid) (headers : List Elf32Phdr)
  | createPagesInSpace (pid : Tid) (virt pages : Nat)
  | writeTlsMasterForProcess (pid : Tid) (copySize totalSize alignment : Nat)
  | prepareThreadLocalStorage (pid : Tid) (thread : ThreadMemory)
  | createThread (pid id : Tid)
  | sbrk (pid : Tid) (amount : Int)
  | fork (pid id : Tid)
  | access (pid : Tid) (thread : ThreadMemory) (address : Nat) (written : Option UInt8)
  | deleteTask (pid : Tid) (thread : ThreadMemory)

namespace UserMemory

/-- The process with a number, if there is one. -/
def process (s : UserMemory) (pid : Tid) : Option UserProcess := s.processes.lookup pid

/-- The state with the frames and one process replaced. -/
def put (s : UserMemory) (pid : Tid) (frames : Frames) (p : UserProcess) : UserMemory :=
  { s with frames, processes := s.processes.insert pid p }

/-- An access of a thread: a byte is stored, or the page fault handler runs and it is taken again.
-/
def access (s : UserMemory) (pid : Tid) (p : UserProcess) (thread : ThreadMemory) (address : Nat)
    (written : Option UInt8) : Option UserMemory :=
  if p.pageDirectory.faults address written.isSome then
    (handlePageFault s.frames s.contents p thread address).map fun (frames, contents, p, _, _) =>
      { s.put pid frames p with contents }
  else match written with
    | none => some s
    | some byte =>
      let page := pageBehind p.pageDirectory (pageOf address)
      some { s with
        contents := Function.update s.contents page
          (Function.update (s.contents page) (address % pageSize) byte) }

/-- One step. A number is given to one process only, and only a main thread can be forked. -/
def step (s : UserMemory) : UserMemoryEvent → Option UserMemory
  | .createProcess id =>
    if s.process id = none then
      (ThreadManager.createProcess s.frames id).map fun (frames, p) => s.put id frames p
    else none
  | .load pid headers => do
      let p ← s.process pid
      let (frames, p) ← Elf32Loader.loadBinaryToCurrentAddressSpace s.frames p headers
      some (s.put pid frames p)
  | .createPagesInSpace pid virt pages => do
      let p ← s.process pid
      let (frames, p) ← p.createPagesInSpace s.frames virt pages
      some (s.put pid frames p)
  | .writeTlsMasterForProcess pid copySize totalSize alignment => do
      let p ← s.process pid
      let (frames, p) ← p.writeTlsMasterForProcess s.frames copySize totalSize alignment
      some (s.put pid frames p)
  | .prepareThreadLocalStorage pid thread => do
      let p ← s.process pid
      if thread ∈ p.threads then do
        let (frames, p, thread') ← ThreadManager.prepareThreadLocalStorage s.frames p thread
        some (s.put pid frames { p with
          threads := p.threads.map fun t => if t = thread then thread' else t })
      else none
  | .createThread pid id => do
      let p ← s.process pid
      let (frames, p) ← ThreadManager.createThread s.frames p id false
      some (s.put pid frames p)
  | .sbrk pid amount => do
      let p ← s.process pid
      let (frames, p) ← p.sbrk s.frames amount
      some (s.put pid frames p)
  | .fork pid id => do
      let p ← s.process pid
      let thread ← p.threads.find? ThreadMemory.isMain
      if s.process id = none then do
        let (frames, contents, p, child) ← ThreadManager.fork s.frames s.contents p thread id
        some { (s.put pid frames p).put id frames child with contents }
      else none
  | .access pid thread address written => do
      let p ← s.process pid
      if thread ∈ p.threads then s.access pid p thread address written else none
  | .deleteTask pid thread => do
      let p ← s.process pid
      if thread ∈ p.threads then do
        let (frames, p, _) ← ThreadManager.deleteTask s.frames p thread
        if thread.isMain then some { s with frames, processes := s.processes.erase pid }
        else some (s.put pid frames p)
      else none

/-- There are no processes yet, and no page has been counted. -/
def Initial (s : UserMemory) : Prop := s.processes = ∅ ∧ ∀ t, s.frames.tracker.tables t = false

end UserMemory

/-- The memory of all processes, in every order of events. -/
def userMemory : System UserMemory UserMemoryEvent := ⟨UserMemory.Initial, UserMemory.step⟩

/-! ## Who maps a page -/

namespace UserMemory

/-- How many low entries of all processes lead to a page. -/
def mappings (s : UserMemory) (q : Nat) : Nat :=
  (s.processes.entries.map fun x => x.2.pageDirectory.lowMapped.count q).sum

/-- The low virtual pages of all processes that are mapped to a page. -/
def mappers (s : UserMemory) (q : Nat) : Finset (Tid × Nat) :=
  (s.processes.keys.toFinset ×ˢ Finset.range lowPages).filter fun i =>
    (s.process i.1).bind (fun p => p.held (.user i.2)) = some q

variable {s : UserMemory} {pid : Tid} {p : UserProcess} {q v : Nat}

theorem mem_mappers : (pid, v) ∈ s.mappers q ↔
    v < lowPages ∧ ∃ p e, s.process pid = some p ∧ p.pageDirectory.entry v = some e ∧ e.page = q := by
  simp only [mappers, Finset.mem_filter, Finset.mem_product, List.mem_toFinset, Finset.mem_range,
    Option.bind_eq_some_iff, held_user]
  constructor
  · rintro ⟨⟨-, hv⟩, p, hp, e, he⟩
    exact ⟨hv, p, e, hp, he⟩
  · rintro ⟨hv, p, e, hp, he⟩
    refine ⟨⟨?_, hv⟩, p, hp, e, he⟩
    rw [← AList.mem_keys, ← AList.lookup_isSome]
    exact Option.isSome_of_eq_some hp

theorem mappings_eq_card (s : UserMemory) (q : Nat) : s.mappings q = (s.mappers q).card := by
  have hfiber : ∀ x ∈ s.processes.entries, x.2.pageDirectory.lowMapped.count q =
      ((s.mappers q).filter fun i => i.1 = x.1).card := by
    rintro ⟨pid, p⟩ hx
    have hp : s.process pid = some p := AList.mem_lookup_iff.2 hx
    rw [PageDirectory.count_lowMapped,
      ← Finset.card_map ⟨fun v => (pid, v), fun v w h => (Prod.mk.inj h).2⟩]
    refine congrArg Finset.card (Finset.ext ?_)
    rintro ⟨pid', v⟩
    simp only [Finset.mem_map, Finset.mem_filter, mem_mappers, PageDirectory.mem_lowHolders]
    constructor
    · rintro ⟨w, ⟨hw, e, he⟩, heq⟩
      cases heq
      exact ⟨⟨hw, p, e, hp, he⟩, rfl⟩
    · rintro ⟨⟨hv, p', e, hp', he⟩, rfl⟩
      cases hp.symm.trans hp'
      exact ⟨v, ⟨hv, e, he⟩, rfl⟩
  have hmaps : ∀ i ∈ s.mappers q, i.1 ∈ s.processes.keys.toFinset := fun i hi =>
    (Finset.mem_product.1 (Finset.mem_filter.1 hi).1).1
  rw [Finset.card_eq_sum_card_fiberwise hmaps, List.sum_toFinset _ s.processes.keys_nodup,
    mappings, List.map_congr_left hfiber, AList.keys, List.keys, List.map_map]
  rfl

end UserMemory

end MeetixOS.Kernel
