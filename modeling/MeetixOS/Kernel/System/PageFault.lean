import Mathlib.Data.List.Count
import MeetixOS.Lib.Runs
import MeetixOS.Kernel.Tasking.ProcessMemory

/-! # Page faults

`InterruptExceptionHandler::handlePageFault`. A fault in the area that is reserved for the stack of the
thread makes the stack grow down to the page that was accessed, one in the image gives the process a copy
of the page, and any other raises a signal. The stack area contains the stack itself, where a fault would
move its start up; but a page of the stack is mapped present and writable, so no access to it faults. -/

open Option (bind_eq_bind bind_eq_some_iff map_eq_some_iff)

namespace MeetixOS.Kernel

open MeetixOS.Lib ThreadManager

/-! ## Accesses -/

/-- The bytes of the physical pages. -/
abbrev PageContents := Nat → Nat → UInt8

/-- An access raises a page fault: nothing is mapped, or the page may not be written. -/
def PageDirectory.faults (directory : PageDirectory) (address : Nat) (write : Bool) : Bool :=
  match directory.entry (pageOf address) with
  | none => true
  | some e => write && !e.isWritable

/-! ## The handler -/

namespace InterruptExceptionHandler

/-- How a fault is answered: the thread goes on, or has a `SIGSEGV` raised. -/
inductive FaultAnswer
  | resumed
  | signalled
  deriving DecidableEq, Repr

/-- The thread with its stack area set to the new location. -/
def grownThread (thread : ThreadMemory) (accessed : Nat) : ThreadMemory :=
  { thread with
    userStackAreaStart := accessed
    userStackPages := (thread.userStackPages +
      (thread.userStackAreaStart - accessed + (pageSize - 1)) / pageSize) % 2 ^ 8 }

/-- The case for the image: the page is replaced by a copy, and loses a reference. -/
def copyOnWrite (f : Frames) (c : PageContents) (p : UserProcess) (accessed accessedPhysical : Nat) :
    Option (Frames × PageContents × UserProcess) := do
  let (allocator, page) ← f.allocator.allocate
  let (allocator, pageDirectory, _) ← AddressSpace.map allocator p.pageDirectory accessed page true
  let f := ({ f with allocator } : Frames).increment page
  let (tracker, count) := f.tracker.decrement accessedPhysical
  let f := { f with tracker }
  some (if count = 0 then f.free accessedPhysical else f,
    Function.update c page (c accessedPhysical), { p with pageDirectory })

/-- `handlePageFault`, for a thread with its own stack. Where a table of the process is missing, the
kernel faults. -/
def handlePageFault (f : Frames) (c : PageContents) (p : UserProcess) (thread : ThreadMemory)
    (address : Nat) : Option (Frames × PageContents × UserProcess × ThreadMemory × FaultAnswer) :=
  let accessed := pageAlignDown address
  if pageOf accessed / 1024 = 0 ∨ accessed ≥ constKernelAreaStart then
    some (f, c, p, thread, .signalled)
  else do
    let accessedPhysical ← AddressSpace.virtualToPhysical p.pageDirectory accessed
    if inStackArea thread accessed then do
      let (f, p) ← growStack f p thread accessed
      some (f, c, p, grownThread thread accessed, .resumed)
    else if p.imageStart ≤ accessed ∧ accessed ≤ p.imageEnd ∧
        (p.pageDirectory.entry (pageOf accessed)).isSome then do
      let (f, c, p) ← copyOnWrite f c p accessed accessedPhysical
      some (f, c, p, thread, .resumed)
    else some (f, c, p, thread, .signalled)

end InterruptExceptionHandler

/-- The part of `forkCurrentPageDirectory` for the user stack: a range with as many fresh pages as
the source thread has. -/
def ThreadManager.cloneUserStack (f : Frames) (p : UserProcess) (userStackPages : Nat) :
    Option (Frames × UserProcess × Nat) :=
  match p.virtualRanges.allocate threadUserStackReservedVirtualPages 0 with
  | none => none
  | some (virtualRanges, range) =>
    let userStackStart :=
      range + (threadUserStackReservedVirtualPages - userStackPages) * pageSize
    (f.mapFresh false userStackPages p.pageDirectory userStackStart).map fun (f, pageDirectory) =>
      (f, { p with virtualRanges, pageDirectory }, userStackStart)

open InterruptExceptionHandler

variable {f f' : Frames} {c c' : PageContents} {p p' : UserProcess} {t t' : ThreadMemory}

/-! ## One thread -/

/-- A thread with its process, the range of its stack, and the pages mapped for it, in order. -/
structure StackState where
  frames : Frames
  contents : PageContents
  process : UserProcess
  thread : ThreadMemory
  reserved : AddressRange
  mapped : List Nat

/-- The thread accesses its memory, it is forked and its copy in the new process goes on in its place,
or something else happens. -/
inductive StackEvent
  | access (address : Nat) (write : Bool)
  | fork (f : Frames) (p : UserProcess)
  | others (s : StackState)

/-- The range for a stack that ends at the address. -/
def reservedAt (stop : Nat) : AddressRange :=
  ⟨true, stop - threadUserStackReservedVirtualPages * pageSize, threadUserStackReservedVirtualPages, 0⟩

/-- The pages of the range that have another entry. -/
def AddressRange.changedPages (r : AddressRange) (before after : PageDirectory) : List Nat :=
  (List.range' (pageOf r.base) r.pages).filter fun v => after.entry v ≠ before.entry v

/-- One step. The handler runs where an access raises a fault. -/
def StackState.step (s : StackState) : StackEvent → Option StackState
  | .access address write =>
    if s.process.pageDirectory.faults address write then
      (handlePageFault s.frames s.contents s.process s.thread address).map
        fun (frames, contents, process, thread, _) =>
          { s with
            frames
            contents
            process
            thread
            mapped := s.mapped ++
              s.reserved.changedPages s.process.pageDirectory process.pageDirectory }
    else some s
  | .fork f p =>
    (cloneUserStack f p s.thread.userStackPages).map fun (frames, process, userStackStart) =>
      let reserved := reservedAt (userStackStart + s.thread.userStackPages * pageSize)
      { s with
        frames
        process
        thread := { s.thread with userStackAreaStart := userStackStart }
        reserved
        mapped := reserved.changedPages p.pageDirectory process.pageDirectory }
  | .others s' => some s'

/-- The pages of unused ranges are not mapped. -/
def UnusedUnmapped (p : UserProcess) : Prop :=
  ∀ r ∈ p.virtualRanges, r.used = false → ∀ v, r.Covers v → p.pageDirectory.entry v = none

/-- `createThreadUserStack` has just made the stack of one page, and mapped this page. -/
def StackState.Created (s : StackState) : Prop :=
  ∃ f p virt, p.RangesOk ∧ UnusedUnmapped p ∧
    createThreadUserStack f p = some (some (s.frames, s.process, virt)) ∧
    s.thread.userStackAreaStart = virt ∧ s.thread.userStackPages = 1 ∧
    s.reserved = reservedAt (virt + pageSize) ∧
    s.mapped = s.reserved.changedPages p.pageDirectory s.process.pageDirectory

/-- The accesses of a thread, from its creation on. -/
def stackAccesses : System StackState StackEvent := ⟨StackState.Created, StackState.step⟩

/-- What else happens leaves the thread and its range alone. -/
structure StackState.LeavesStack (s s' : StackState) : Prop where
  rangesOk : s'.process.RangesOk
  thread : s'.thread = s.thread
  reserved : s'.reserved = s.reserved
  mapped : s'.mapped = s.mapped
  range : s.reserved ∈ s'.process.virtualRanges
  entries : ∀ v, s.reserved.Covers v →
    s'.process.pageDirectory.entry v = s.process.pageDirectory.entry v

/-- The condition on the steps. -/
def StackState.Spares (s : StackState) : StackEvent → Prop
  | .access _ _ => True
  | .fork _ p => p.RangesOk ∧ UnusedUnmapped p
  | .others s' => s.LeavesStack s'

/-- The end of the reserved range. -/
def StackState.top (s : StackState) : Nat :=
  s.reserved.base + threadUserStackReservedVirtualPages * pageSize

/-- The stack fills the end of its range, with each page mapped once, and nothing is mapped in the rest
of the range. -/
structure StackState.StackInv (s : StackState) : Prop where
  rangesOk : s.process.RangesOk
  range : s.reserved ∈ s.process.virtualRanges
  used : s.reserved.used = true
  size : s.reserved.pages = threadUserStackReservedVirtualPages
  top : s.thread.userStackAreaStart + s.thread.userStackPages * pageSize = s.top
  pages : 1 ≤ s.thread.userStackPages ∧ s.thread.userStackPages ≤ threadUserStackReservedVirtualPages
  stack : ∀ v, pageOf s.thread.userStackAreaStart ≤ v → v < pageOf s.top →
    ∃ page, s.process.pageDirectory.entry v = some ⟨page, defaultUserPageFlags⟩
  below : ∀ v, pageOf s.reserved.base ≤ v → v < pageOf s.thread.userStackAreaStart →
    s.process.pageDirectory.entry v = none
  once : ∀ v, s.mapped.count v =
    if pageOf s.thread.userStackAreaStart ≤ v ∧ v < pageOf s.top then 1 else 0

namespace StackState.StackInv

variable {s : StackState}

theorem bounds (h : s.StackInv) : s.reserved.base % pageSize = 0 ∧
    constUserVirtualRangesStart ≤ s.reserved.base ∧ s.top ≤ constKernelAreaStart ∧
    s.thread.userStackAreaStart % pageSize = 0 ∧
    s.reserved.base ≤ s.thread.userStackAreaStart := by
  obtain ⟨haligned, hstart, hstop, -⟩ := h.rangesOk.bounds start_aligned h.range
  have hsize := h.size
  have htop := h.top
  have hle := h.pages.2
  simp only [StackState.top, threadUserStackReservedVirtualPages, pageSize] at *
  omega

theorem stackOk (h : s.StackInv) : StackOk s.process s.thread := by
  refine ⟨⟨s.reserved, h.range, h.used, h.size, h.top⟩, h.pages, fun i hi => ?_⟩
  obtain ⟨-, -, -, haligned, -⟩ := h.bounds
  have htop : pageOf s.top = pageOf s.thread.userStackAreaStart + s.thread.userStackPages := by
    rw [← h.top, pageOf_add_mul haligned]
  obtain ⟨page, hentry⟩ := h.stack _ (Nat.le_add_right _ i) (by omega)
  rw [hentry]
  rfl

theorem fault_below (h : s.StackInv) {address : Nat} {write : Bool}
    (hfault : s.process.pageDirectory.faults address write = true)
    (harea : inStackArea s.thread (pageAlignDown address) = true) :
    pageAlignDown address < s.thread.userStackAreaStart := by
  obtain ⟨-, hupper⟩ := (h.stackOk.area h.rangesOk h.top).1 harea
  by_contra hnot
  obtain ⟨hbase, -, -, haligned, -⟩ := h.bounds
  obtain ⟨page, hentry⟩ := h.stack (pageOf address)
    (by simp only [pageOf, pageAlignDown, pageSize] at *; omega)
    (by simp only [StackState.top, pageOf, pageAlignDown, threadUserStackReservedVirtualPages,
          pageSize] at *; omega)
  have hwritable : (⟨page, defaultUserPageFlags⟩ : PageEntry).isWritable = true := by
    simp [PageEntry.isWritable, defaultUserPageFlags]
  simp only [PageDirectory.faults, hentry, hwritable, Bool.not_true, Bool.and_false,
    Bool.false_eq_true] at hfault

end StackState.StackInv

/-! ## The start -/

theorem count_range' (start n v : Nat) :
    (List.range' start n).count v = if start ≤ v ∧ v < start + n then 1 else 0 := by
  split
  next h => exact List.count_eq_one_of_mem List.nodup_range' (List.mem_range'_1.2 h)
  next h => exact List.count_eq_zero.2 fun hmem => h (List.mem_range'_1.1 hmem)

section

variable (r : AddressRange) (before after : PageDirectory)

theorem AddressRange.count_changedPages (v : Nat) : (r.changedPages before after).count v =
    if r.Covers v ∧ after.entry v ≠ before.entry v then 1 else 0 := by
  by_cases hv : after.entry v ≠ before.entry v
  · rw [changedPages, List.count_filter (by simpa using hv), count_range']
    exact if_congr (and_iff_left hv).symm rfl rfl
  · rw [List.count_eq_zero.2 (by simp [changedPages, hv]), if_neg fun h => hv h.2]

theorem AddressRange.changedPages_eq_nil
    (h : ∀ v, r.Covers v → after.entry v = before.entry v) : r.changedPages before after = [] := by
  refine List.filter_eq_nil_iff.2 fun v hv => ?_
  simpa using h v (List.mem_range'_1.1 hv)

end

theorem stackInv_of_allocated {s : StackState} {pool' : AddressRangePool} {d' : PageDirectory}
    {base pages : Nat} (hp : p.RangesOk) (hunused : UnusedUnmapped p)
    (halloc : p.virtualRanges.allocate threadUserStackReservedVirtualPages 0 = some (pool', base))
    (hpages : 1 ≤ pages ∧ pages ≤ threadUserStackReservedVirtualPages)
    (hprocess : s.process = { p with virtualRanges := pool', pageDirectory := d' })
    (hstart : s.thread.userStackAreaStart =
      base + (threadUserStackReservedVirtualPages - pages) * pageSize)
    (hcount : s.thread.userStackPages = pages)
    (hreserved : s.reserved = reservedAt (s.thread.userStackAreaStart + pages * pageSize))
    (hmapped : s.mapped = s.reserved.changedPages p.pageDirectory d')
    (hnew : ∀ v, pageOf s.thread.userStackAreaStart ≤ v →
      v < pageOf s.thread.userStackAreaStart + pages → p.pageDirectory.entry v = none →
      ∃ page, d'.entry v = some ⟨page, defaultUserPageFlags⟩)
    (hothers : ∀ v < pageOf s.thread.userStackAreaStart, d'.entry v = p.pageDirectory.entry v) :
    s.StackInv := by
  obtain ⟨hpool', hallocated⟩ := hp.allocate_spec start_aligned halloc
  have haligned : base % pageSize = 0 := (hpool'.bounds start_aligned hallocated.mem).1
  have hend : s.thread.userStackAreaStart + pages * pageSize =
      base + threadUserStackReservedVirtualPages * pageSize := by
    rw [hstart, Nat.add_assoc, ← Nat.add_mul, Nat.sub_add_cancel hpages.2]
  have hrange : s.reserved = ⟨true, base, threadUserStackReservedVirtualPages, 0⟩ := by
    rw [hreserved, hend, reservedAt, Nat.add_sub_cancel]
  have htop : s.top = base + threadUserStackReservedVirtualPages * pageSize := by
    rw [StackState.top, hrange]
  have hfirst : pageOf s.thread.userStackAreaStart =
      pageOf base + (threadUserStackReservedVirtualPages - pages) := by
    rw [hstart, pageOf_add_mul haligned]
  have hlast : pageOf s.top = pageOf s.thread.userStackAreaStart + pages := by
    rw [htop, pageOf_add_mul haligned, hfirst]
    omega
  -- the pages of the range belonged to unused ranges
  have hnone : ∀ v, pageOf base ≤ v → v < pageOf base + threadUserStackReservedVirtualPages →
      p.pageDirectory.entry v = none := by
    intro v hle hlt
    obtain ⟨r, hr, hfree, hcovers⟩ := hallocated.fresh v ⟨hle, hlt⟩
    exact hunused r hr hfree v hcovers
  refine ⟨?_, ?_, ?_, ?_, ?_, ?_, fun v hv hlt => ?_, fun v hv hlt => ?_, fun v => ?_⟩
  · rw [hprocess]
    exact hpool'
  · rw [hprocess, hrange]
    exact hallocated.mem
  · rw [hrange]
  · rw [hrange]
  · rw [htop, hcount, hend]
  · rw [hcount]
    exact hpages
  · rw [hlast] at hlt
    rw [hprocess]
    exact hnew v hv hlt (hnone v (by omega) (by omega))
  · rw [hrange] at hv
    rw [hprocess]
    exact (hothers v hlt).trans (hnone v hv (by omega))
  · have hcovers : s.reserved.Covers v ↔
        pageOf base ≤ v ∧ v < pageOf base + threadUserStackReservedVirtualPages := by
      rw [hrange]
      exact Iff.rfl
    rw [hmapped, AddressRange.count_changedPages]
    refine if_congr ((and_congr_left' hcovers).trans
      ⟨fun ⟨⟨hle, hlt⟩, hne⟩ => ⟨Nat.not_lt.1 fun hv => hne (hothers v hv), by omega⟩,
        fun ⟨hle, hlt⟩ => ⟨⟨by omega, by omega⟩, ?_⟩⟩) rfl rfl
    have hv := hnone v (by omega) (by omega)
    obtain ⟨page, he⟩ := hnew v hle (by omega) hv
    rw [he, hv]
    exact Option.some_ne_none _

theorem StackState.Created.stackInv {s : StackState} (h : s.Created) : s.StackInv := by
  obtain ⟨f, p, virt, hp, hunused, hcreate, hstart, hpages, hreserved, hmapped⟩ := h
  rw [createThreadUserStack] at hcreate
  split at hcreate
  · cases hcreate
  next pool' base halloc =>
    simp only [bind_eq_bind, bind_eq_some_iff] at hcreate
    obtain ⟨⟨a, page⟩, -, ⟨a', d', written⟩, hmap, hcreate⟩ := hcreate
    split at hcreate
    next hwritten =>
      simp only [Option.some.injEq, Prod.mk.injEq] at hcreate
      obtain ⟨-, hprocess, rfl⟩ := hcreate
      obtain ⟨-, ⟨-, hentry⟩ | ⟨hnot, -⟩⟩ := AddressSpace.map_spec hmap
      · have hone : 1 ≤ 1 ∧ 1 ≤ threadUserStackReservedVirtualPages := by decide
        refine stackInv_of_allocated hp hunused halloc hone hprocess.symm hstart hpages
          (by rw [hreserved, hstart, Nat.one_mul]) (by rw [hmapped, ← hprocess]) ?_ ?_
        · intro v hle hlt _
          rw [hstart] at hle hlt
          rw [hentry, if_pos (by omega)]
          exact ⟨page, rfl⟩
        · intro v hlt
          rw [hstart] at hlt
          rw [hentry, if_neg (by omega)]
      · exact absurd (hnot.symm.trans hwritten) (by decide)
    · cases hcreate

theorem StackState.StackInv.fork {s s' : StackState} (h : s.StackInv) (hp : p.RangesOk)
    (hunused : UnusedUnmapped p) (hstep : s.step (.fork f p) = some s') : s'.StackInv := by
  obtain ⟨⟨f', p', virt⟩, hclone, rfl⟩ := map_eq_some_iff.1 hstep
  rw [cloneUserStack] at hclone
  split at hclone
  · cases hclone
  next pool' base halloc =>
    obtain ⟨⟨f1, d'⟩, hfresh, heq⟩ := map_eq_some_iff.1 hclone
    cases heq
    have hlow := ((hp.allocate_spec start_aligned halloc).1.bounds start_aligned
        (hp.allocate_spec start_aligned halloc).2.mem).2.1
    obtain ⟨hfilled, hsome, -⟩ := mapFresh_spec hfresh
      (.inr (Nat.div_le_div_right (Nat.le_add_right_of_le hlow)))
    refine stackInv_of_allocated hp hunused halloc h.pages rfl rfl rfl rfl rfl ?_ ?_
    · intro v hle hlt hnone
      obtain ⟨e, he⟩ := Option.isSome_iff_exists.1 (hsome (v - pageOf _) (Nat.sub_lt_left_of_lt_add hle hlt))
      rw [Nat.add_sub_cancel' hle] at he
      exact ⟨e.page, by rw [he, ← (hfilled.added v e hnone he).1]⟩
    · exact fun v hlt => mapFresh_outside hfresh (.inl hlt)

/-! ## Faults -/

theorem handlePageFault_cases {address : Nat} {answer : FaultAnswer}
    (h : handlePageFault f c p t address = some (f', c', p', t', answer)) :
    (inStackArea t (pageAlignDown address) = true ∧ pageAlignDown address < constKernelAreaStart ∧
      growStack f p t (pageAlignDown address) = some (f', p') ∧
      t' = grownThread t (pageAlignDown address) ∧ c' = c ∧ answer = .resumed) ∨
    (inStackArea t (pageAlignDown address) = false ∧ t' = t ∧ ∃ page,
      AddressSpace.virtualToPhysical p.pageDirectory (pageAlignDown address) = some page ∧
      (p.imageStart ≤ pageAlignDown address ∧ pageAlignDown address ≤ p.imageEnd ∧
        (p.pageDirectory.entry (pageOf (pageAlignDown address))).isSome) ∧
      copyOnWrite f c p (pageAlignDown address) page = some (f', c', p') ∧ answer = .resumed) ∨
    ((inStackArea t (pageAlignDown address) = true → pageOf (pageAlignDown address) / 1024 = 0 ∨
      pageAlignDown address ≥ constKernelAreaStart) ∧ t' = t ∧ p' = p ∧ f' = f ∧ c' = c ∧
      answer = .signalled) := by
  simp only [handlePageFault, bind_eq_bind] at h
  split at h
  next hkernel =>
    cases h
    exact .inr (.inr ⟨fun _ => hkernel, rfl, rfl, rfl, rfl, rfl⟩)
  next hkernel =>
    obtain ⟨page, hpage, h⟩ := bind_eq_some_iff.1 h
    split at h
    next harea =>
      obtain ⟨⟨f1, p1⟩, hgrow, h⟩ := bind_eq_some_iff.1 h
      cases h
      rw [not_or, Nat.not_le] at hkernel
      exact .inl ⟨harea, hkernel.2, hgrow, rfl, rfl, rfl⟩
    next harea =>
      split at h
      next himage =>
        obtain ⟨⟨f1, c1, p1⟩, hcopy, h⟩ := bind_eq_some_iff.1 h
        cases h
        exact .inr (.inl ⟨Bool.eq_false_iff.2 harea, rfl, page, hpage, himage, hcopy, rfl⟩)
      · cases h
        exact .inr (.inr ⟨fun harea' => absurd harea' harea, rfl, rfl, rfl, rfl, rfl⟩)

theorem copyOnWrite_entry {accessed page : Nat}
    (h : copyOnWrite f c p accessed page = some (f', c', p')) :
    p'.virtualRanges = p.virtualRanges ∧
      ∀ v, v ≠ pageOf accessed → p'.pageDirectory.entry v = p.pageDirectory.entry v := by
  simp only [copyOnWrite, bind_eq_bind, bind_eq_some_iff] at h
  obtain ⟨⟨a, q⟩, -, ⟨a', d', written⟩, hmap, heq⟩ := h
  cases heq
  refine ⟨rfl, fun v hv => ?_⟩
  obtain ⟨-, ⟨-, hentry⟩ | ⟨-, rfl, -⟩⟩ := AddressSpace.map_spec hmap
  · exact (hentry v).trans (if_neg hv)
  · rfl

namespace StackState.StackInv

variable {s s' : StackState} {address : Nat} {write : Bool}

section

variable (h : s.StackInv)
include h

theorem not_kernel (harea : inStackArea s.thread (pageAlignDown address) = true) :
    ¬ (pageOf (pageAlignDown address) / 1024 = 0 ∨ pageAlignDown address ≥ constKernelAreaStart) := by
  obtain ⟨hlower, hupper⟩ := (h.stackOk.area h.rangesOk h.top).1 harea
  obtain ⟨-, hstart, hstop, -⟩ := h.bounds
  have hupper : pageAlignDown address < s.top := hupper
  simp only [pageOf, pageSize, constUserVirtualRangesStart] at *
  omega

theorem pageOf_top :
    pageOf s.top = pageOf s.thread.userStackAreaStart + s.thread.userStackPages ∧
      pageOf s.top = pageOf s.reserved.base + threadUserStackReservedVirtualPages := by
  obtain ⟨hbase, -, -, haligned, -⟩ := h.bounds
  refine ⟨?_, pageOf_add_mul hbase _⟩
  rw [← h.top, pageOf_add_mul haligned]

theorem of_same (hranges : s'.process.RangesOk) (hrange : s.reserved ∈ s'.process.virtualRanges)
    (hthread : s'.thread = s.thread) (hreserved : s'.reserved = s.reserved)
    (hmapped : s'.mapped = s.mapped)
    (hentries : ∀ v, s.reserved.Covers v → s'.process.pageDirectory.entry v =
      s.process.pageDirectory.entry v) :
    s'.StackInv := by
  obtain ⟨-, -, -, -, hstart⟩ := h.bounds
  obtain ⟨-, hlast⟩ := h.pageOf_top
  have hle : pageOf s.reserved.base ≤ pageOf s.thread.userStackAreaStart :=
    Nat.div_le_div_right hstart
  have hpages : pageOf s.thread.userStackAreaStart ≤ pageOf s.top := by
    rw [h.pageOf_top.1]
    exact Nat.le_add_right _ _
  have hcovers : ∀ v, pageOf s.reserved.base ≤ v → v < pageOf s.top → s.reserved.Covers v :=
    fun v hv hlt => ⟨hv, by rw [h.size, ← hlast]; exact hlt⟩
  have htop : s'.top = s.top := by rw [StackState.top, StackState.top, hreserved]
  refine ⟨hranges, by rw [hreserved]; exact hrange, by rw [hreserved]; exact h.used,
    by rw [hreserved]; exact h.size, by rw [hthread, htop]; exact h.top, by rw [hthread]; exact h.pages,
    ?_, ?_, ?_⟩
  · intro v hv hlt
    rw [hthread] at hv
    rw [htop] at hlt
    rw [hentries v (hcovers v (hle.trans hv) hlt)]
    exact h.stack v hv hlt
  · intro v hv hlt
    rw [hreserved] at hv
    rw [hthread] at hlt
    rw [hentries v (hcovers v hv (hlt.trans_le hpages))]
    exact h.below v hv hlt
  · rw [hmapped, hthread, htop]
    exact h.once

theorem grow (harea : inStackArea s.thread (pageAlignDown address) = true)
    (hbelow : pageAlignDown address < s.thread.userStackAreaStart)
    (hgrow : growStack s.frames s.process s.thread (pageAlignDown address) = some (f', p'))
    (c' : PageContents) :
    StackInv { s with
      frames := f'
      contents := c'
      process := p'
      thread := grownThread s.thread (pageAlignDown address)
      mapped := s.mapped ++ s.reserved.changedPages s.process.pageDirectory p'.pageDirectory } ∧
    ∀ v, ¬ s.reserved.Covers v →
      p'.pageDirectory.entry v = s.process.pageDirectory.entry v := by
  have haccessed : pageAlignDown address % pageSize = 0 := Nat.mul_mod_left ..
  generalize pageAlignDown address = accessed at *
  obtain ⟨hlower, -⟩ := (h.stackOk.area h.rangesOk h.top).1 harea
  obtain ⟨hbase, hstart, hstop, haligned, -⟩ := h.bounds
  -- the stack starts a number of pages behind the accessed one
  obtain ⟨pages, hpages⟩ : ∃ pages, s.thread.userStackAreaStart = accessed + pages * pageSize := by
    refine ⟨(s.thread.userStackAreaStart - accessed) / pageSize, ?_⟩
    simp only [pageSize] at *
    omega
  have hcount : (s.thread.userStackAreaStart - accessed + (pageSize - 1)) / pageSize = pages := by
    rw [hpages]
    simp only [pageSize]
    omega
  have hfirst : pageOf s.thread.userStackAreaStart = pageOf accessed + pages := by
    rw [hpages, pageOf_add_mul haccessed]
  have hroom : s.thread.userStackPages + pages ≤ threadUserStackReservedVirtualPages := by
    have htop := h.top
    simp only [StackState.top, threadUserStackReservedVirtualPages, pageSize] at *
    omega
  have hmod : (s.thread.userStackPages + pages) % 2 ^ 8 = s.thread.userStackPages + pages :=
    Nat.mod_eq_of_lt (hroom.trans_lt (by decide))
  simp only [growStack, hcount] at hgrow
  obtain ⟨⟨f1, d'⟩, hfresh, heq⟩ := map_eq_some_iff.1 hgrow
  cases heq
  obtain ⟨hfilled, hsome, -⟩ := mapFresh_spec hfresh
    (.inr (Nat.div_le_div_right (hstart.trans hlower)))
  have hlowest : pageOf s.reserved.base ≤ pageOf accessed := Nat.div_le_div_right hlower
  obtain ⟨hlast, hlast'⟩ := h.pageOf_top
  -- the entries from the accessed page up to the old start are new, all others stay
  have hadded : ∀ v, pageOf accessed ≤ v → v < pageOf accessed + pages →
      s.process.pageDirectory.entry v = none ∧ ∃ e, d'.entry v = some e := by
    intro v hle hlt
    obtain ⟨e, he⟩ := Option.isSome_iff_exists.1 (hsome (v - pageOf accessed) (by omega))
    rw [Nat.add_sub_cancel' hle] at he
    exact ⟨h.below v (hlowest.trans hle) (by omega), e, he⟩
  have hwithin : ∀ v, d'.entry v ≠ s.process.pageDirectory.entry v →
      pageOf accessed ≤ v ∧ v < pageOf accessed + pages := by
    intro v hne
    by_contra hout
    exact hne (mapFresh_outside hfresh (by omega))
  have hchanged : ∀ v, (s.reserved.Covers v ∧ d'.entry v ≠ s.process.pageDirectory.entry v) ↔
      pageOf accessed ≤ v ∧ v < pageOf accessed + pages := by
    refine fun v => ⟨fun hv => hwithin v hv.2, ?_⟩
    rintro ⟨hle, hlt⟩
    obtain ⟨hnone, e, he⟩ := hadded v hle hlt
    refine ⟨⟨hlowest.trans hle, by rw [h.size]; omega⟩, ?_⟩
    rw [hnone, he]
    exact Option.some_ne_none e
  refine ⟨?_, fun v hv => ?_⟩
  · rw [grownThread, hcount, hmod]
    refine ⟨h.rangesOk, h.range, h.used, h.size, ?_, ⟨Nat.le_add_right_of_le h.pages.1, hroom⟩,
      fun v hv hlt => ?_, fun v hv hlt => ?_, fun v => ?_⟩
    · have htop := h.top
      show accessed + (s.thread.userStackPages + pages) * pageSize = s.top
      rw [← htop, Nat.add_mul]
      omega
    · by_cases hnew : v < pageOf s.thread.userStackAreaStart
      · obtain ⟨hnone, e, he⟩ := hadded v hv (by omega)
        exact ⟨e.page, by rw [← (hfilled.added v e hnone he).1]; exact he⟩
      · obtain ⟨page, hentry⟩ := h.stack v (Nat.not_lt.1 hnew) hlt
        exact ⟨page, hfilled.kept v _ hentry⟩
    · have hlt : v < pageOf accessed := hlt
      exact (mapFresh_outside hfresh (.inl hlt)).trans (h.below v hv (by omega))
    · show (s.mapped ++ s.reserved.changedPages s.process.pageDirectory d').count v =
        if pageOf accessed ≤ v ∧ v < pageOf s.top then 1 else 0
      rw [List.count_append, h.once, AddressRange.count_changedPages, if_congr (hchanged v) rfl rfl]
      split_ifs <;> omega
  · by_contra hne
    exact hv ((hchanged v).2 (hwithin v hne)).1

theorem access (hstep : s.step (.access address write) = some s') :
    s'.StackInv ∧ s'.reserved = s.reserved ∧
      (inStackArea s.thread (pageAlignDown address) = true → ∀ v, ¬ s.reserved.Covers v →
        s'.process.pageDirectory.entry v = s.process.pageDirectory.entry v) := by
  simp only [StackState.step] at hstep
  split at hstep
  next hfault =>
    obtain ⟨⟨f', c', p', t', answer⟩, hhandle, rfl⟩ := map_eq_some_iff.1 hstep
    have hmapped (hsame : ∀ v, s.reserved.Covers v →
        p'.pageDirectory.entry v = s.process.pageDirectory.entry v) :
        s.mapped ++ s.reserved.changedPages s.process.pageDirectory p'.pageDirectory = s.mapped := by
      rw [s.reserved.changedPages_eq_nil _ _ hsame, List.append_nil]
    rcases handlePageFault_cases hhandle with
      ⟨harea, -, hgrow, rfl, -⟩ | ⟨harea, rfl, page, -, -, hcopy, -⟩ | ⟨hkernel, rfl, rfl, -⟩
    · obtain ⟨hinv, hothers⟩ := h.grow harea (h.fault_below hfault harea) hgrow c'
      exact ⟨hinv, rfl, fun _ => hothers⟩
    · -- the page that is copied is none of the range
      obtain ⟨hranges, hentry⟩ := copyOnWrite_entry hcopy
      have hsame : ∀ v, s.reserved.Covers v →
          p'.pageDirectory.entry v = s.process.pageDirectory.entry v := by
        intro v hcovers
        refine hentry v ?_
        rintro rfl
        refine Bool.eq_false_iff.1 harea ((h.stackOk.area h.rangesOk h.top).2 ?_)
        obtain ⟨hbase, -⟩ := h.bounds
        obtain ⟨hle, hlt⟩ := hcovers
        rw [h.size] at hlt
        simp only [pageOf, pageAlignDown, threadUserStackReservedVirtualPages, pageSize] at *
        omega
      refine ⟨h.of_same ?_ ?_ rfl rfl (hmapped hsame) hsame, rfl, fun harea' =>
        absurd harea' (by rw [harea]; decide)⟩
      · rw [UserProcess.RangesOk, hranges]
        exact h.rangesOk
      · rw [hranges]
        exact h.range
    · have harea : ¬ inStackArea s.thread (pageAlignDown address) = true := fun harea =>
        h.not_kernel harea (hkernel harea)
      exact ⟨h.of_same h.rangesOk h.range rfl rfl (hmapped fun _ _ => rfl) fun _ _ => rfl, rfl,
        fun harea' => absurd harea' harea⟩
  next =>
    cases hstep
    exact ⟨h, rfl, fun _ _ _ => rfl⟩

end

end StackState.StackInv

theorem reachable_stackInv {s : StackState} (hs : stackAccesses.Reachable StackState.Spares s) :
    s.StackInv := by
  refine hs.invariant (fun s (h : s.Created) => h.stackInv) ?_
  intro s event s' hinv hok hstep
  cases event with
  | access address write => exact (hinv.access hstep).1
  | fork f p => exact hinv.fork hok.1 hok.2 hstep
  | others s1 =>
    obtain rfl := Option.some.inj hstep
    exact hinv.of_same hok.rangesOk hok.range hok.thread hok.reserved hok.mapped hok.entries

/-- In every run of accesses: the stack ends at the end of its reserved range, has between one page and
all of them, each mapped once, present and writable, and the rest of the range is not mapped. A fault in
its area keeps its end and changes no entry out of the range. -/
theorem stack_grows_in_range {s : StackState} (hs : stackAccesses.Reachable StackState.Spares s) :
    s.thread.userStackAreaStart + s.thread.userStackPages * pageSize = s.top ∧
    (1 ≤ s.thread.userStackPages ∧ s.thread.userStackPages ≤ threadUserStackReservedVirtualPages) ∧
    (∀ v, s.mapped.count v =
      if pageOf s.thread.userStackAreaStart ≤ v ∧ v < pageOf s.top then 1 else 0) ∧
    (∀ v, pageOf s.thread.userStackAreaStart ≤ v → v < pageOf s.top →
      ∃ page, s.process.pageDirectory.entry v = some ⟨page, defaultUserPageFlags⟩) ∧
    (∀ v, pageOf s.reserved.base ≤ v → v < pageOf s.thread.userStackAreaStart →
      s.process.pageDirectory.entry v = none) ∧
    (∀ v ∈ s.mapped, s.reserved.Covers v) ∧
    ∀ address write s', s.step (.access address write) = some s' →
      s'.thread.userStackAreaStart + s'.thread.userStackPages * pageSize =
        s.thread.userStackAreaStart + s.thread.userStackPages * pageSize ∧
      (inStackArea s.thread (pageAlignDown address) = true → ∀ v, ¬ s.reserved.Covers v →
        s'.process.pageDirectory.entry v = s.process.pageDirectory.entry v) := by
  have hinv := reachable_stackInv hs
  refine ⟨hinv.top, hinv.pages, hinv.once, hinv.stack, hinv.below, fun v hv => ?_,
    fun address write s' hstep => ?_⟩
  · have hcount := List.count_pos_iff.2 hv
    rw [hinv.once] at hcount
    split at hcount
    next hin =>
      obtain ⟨-, -, -, -, hstart⟩ := hinv.bounds
      obtain ⟨-, hlast⟩ := hinv.pageOf_top
      refine ⟨(Nat.div_le_div_right hstart).trans hin.1, ?_⟩
      rw [hinv.size, ← hlast]
      exact hin.2
    next => exact absurd hcount (Nat.lt_irrefl 0)
  · obtain ⟨hinv', hreserved, hothers⟩ := hinv.access hstep
    refine ⟨?_, hothers⟩
    rw [hinv'.top, hinv.top, StackState.top, hreserved, StackState.top]

/-- A thread in such a process, with the pages from 1 MiB on free. -/
def StackState.first : Option StackState :=
  match createThreadUserStack ⟨⟨fun q => decide (0x100 ≤ q)⟩, ⟨fun _ => false, fun _ => 0⟩⟩
      UserProcess.unmapped with
  | some (some (frames, process, virt)) => some
      { frames
        contents := fun _ _ => 0
        process
        thread := { id := 1, isMain := true, kernelStack := 0x80, userStackAreaStart := virt }
        reserved := reservedAt (virt + pageSize)
        mapped := (reservedAt (virt + pageSize)).changedPages PageDirectory.empty process.pageDirectory }
  | _ => none

theorem stack_grows_in_range_three_accesses :
    ∃ s, stackAccesses.Reachable StackState.Spares s ∧ s.thread.userStackAreaStart = 0xA0000000 ∧
      s.thread.userStackPages = 16 ∧
      s.thread.userStackAreaStart + s.thread.userStackPages * pageSize = s.top ∧
      s.mapped.count 0xA000B = 1 := by
  obtain ⟨s0, h0, s, hs, hstart, hpages, hbase⟩ :
      ∃ s0 ∈ StackState.first, ∃ s ∈ stackAccesses.run s0
          [.access 0xA000B123 true, .access 0xA000D000 false, .access 0xA0000FFF true],
        s.thread.userStackAreaStart = 0xA0000000 ∧ s.thread.userStackPages = 16 ∧
        s.reserved.base = 0xA0000000 := by
    decide +kernel
  have hcreated : s0.Created := by
    unfold StackState.first at h0
    split at h0
    next frames process virt hcreate =>
      cases h0
      exact ⟨_, _, virt, UserProcess.unmapped_rangesOk, fun _ _ _ _ _ => rfl, hcreate, rfl, rfl, rfl, rfl⟩
    next => cases h0
  have hreach : stackAccesses.Reachable StackState.Spares s :=
    .of_run (.init hcreated) (by simp [StackState.Spares]) hs
  obtain ⟨htop, -, honce, -⟩ := stack_grows_in_range hreach
  refine ⟨s, hreach, hstart, hpages, htop, ?_⟩
  rw [honce, hstart, StackState.top, hbase]
  decide

end MeetixOS.Kernel
