import Mathlib.Tactic.FinCases
import MeetixOS.Lib.Runs
import MeetixOS.Kernel.Tasking.Holders

/-! # The life of a process, and its end

A process from `createProcess` on: it is loaded or spawned, gets thread-local storage, creates threads,
moves its break, and its stacks grow; its main thread is deleted last.

`deleteTask` should give every page back once, with the ranges of the TLS copies. It passes the size of the
TLS master to `freeAndUnmap` where the end address is meant, so neither the copies nor the master are freed,
and it frees the heap up to the break, while `sbrk` keeps a page that starts exactly there. -/

open Function (update)
open Option (bind_eq_bind bind_eq_some_iff map_eq_some_iff)

namespace MeetixOS.Kernel

open MeetixOS.Lib ThreadManager AddressSpace

/-! ## The system -/

/-- A process and the physical pages. -/
structure Life where
  frames : Frames
  process : UserProcess

/-- What happens in the life of a process. -/
inductive LifeEvent
  | load (headers : List Elf32Phdr)
  | createPagesInSpace (virt pages : Nat)
  | writeTlsMasterForProcess (copySize totalSize alignment : Nat)
  | prepareThreadLocalStorage (thread : ThreadMemory)
  | createThread (id : Tid)
  | sbrk (amount : Int)
  | stackFault (thread : ThreadMemory) (address : Nat)
  | deleteTask (thread : ThreadMemory)
  | others (frames : Frames)

/-- The process is created. -/
def Life.Initial (s : Life) : Prop := ∃ f id, createProcess f id = some (s.frames, s.process)

/-- One step. The life ends with the main thread, whose deletion is no step. -/
def Life.step (s : Life) : LifeEvent → Option Life
  | .load headers =>
    (Elf32Loader.loadBinaryToCurrentAddressSpace s.frames s.process headers).map
      fun (frames, process) => { frames, process }
  | .createPagesInSpace virt pages =>
    (s.process.createPagesInSpace s.frames virt pages).map
      fun (frames, process) => { frames, process }
  | .writeTlsMasterForProcess copySize totalSize alignment =>
    (s.process.writeTlsMasterForProcess s.frames copySize totalSize alignment).map
      fun (frames, process) => { frames, process }
  | .prepareThreadLocalStorage thread =>
    if thread ∈ s.process.threads then
      (ThreadManager.prepareThreadLocalStorage s.frames s.process thread).map
        fun (frames, process, thread') =>
          { frames
            process := { process with
              threads := process.threads.map fun t => if t = thread then thread' else t } }
    else none
  | .createThread id =>
    (ThreadManager.createThread s.frames s.process id false).map
      fun (frames, process) => { frames, process }
  | .sbrk amount =>
    (s.process.sbrk s.frames amount).map fun (frames, process) => { frames, process }
  | .stackFault thread address =>
    let accessed := pageAlignDown address
    if thread ∈ s.process.threads ∧ inStackArea thread accessed = true ∧
        s.process.pageDirectory.entry (pageOf accessed) = none then
      (growStack s.frames s.process thread accessed).map fun (frames, process) => { frames, process }
    else none
  | .deleteTask thread =>
    if thread ∈ s.process.threads ∧ thread.isMain = false then
      (ThreadManager.deleteTask s.frames s.process thread).map
        fun (frames, process, _) => { frames, process }
    else none
  | .others frames => some { s with frames }

/-- The lives of a process. -/
def processLives : System Life LifeEvent := ⟨Life.Initial, Life.step⟩

/-- The pages of the process are not free. -/
def Life.PagesTaken (frames : Frames) (p : UserProcess) : Prop :=
  ∀ slot q, p.held slot = some q → ¬ frames.Available q

/-- The other processes leave the pages of this one alone. -/
def Life.Legal (s : Life) : LifeEvent → Prop
  | .others frames => Life.PagesTaken frames s.process
  | _ => True

/-! ## What should be given back -/

/-- The virtual pages of a used range with the given base. -/
def UserProcess.InRange (p : UserProcess) (base v : Nat) : Prop :=
  base ≠ 0 ∧ ∃ r ∈ p.virtualRanges, r.used = true ∧ r.base = base ∧ r.Covers v

instance (p : UserProcess) (base v : Nat) : Decidable (p.InRange base v) :=
  inferInstanceAs (Decidable (_ ∧ _))

/-- The virtual pages of a thread: its user stack and its TLS copy. -/
def UserProcess.OfThread (p : UserProcess) (t : ThreadMemory) (v : Nat) : Prop :=
  (pageOf t.userStackAreaStart ≤ v ∧ v < pageOf t.userStackAreaStart + t.userStackPages) ∨
    p.InRange t.tlsCopyVirt v

/-- The virtual pages of the image, of the heap and of the TLS master. -/
def UserProcess.OfProcess (p : UserProcess) (v : Nat) : Prop :=
  (p.imageStart ≤ v * pageSize ∧ v * pageSize < p.imageEnd) ∨
    (pageOf p.heapStart ≤ v ∧ v < pageOf p.heapStart + p.heapPages) ∨
    p.InRange p.tlsMasterInProcLocation v

/-- The pages behind the pages of the thread (or the process) are freed, each once, and the range of
the TLS copy is too. -/
structure ReturnsPages (p : UserProcess) (t : ThreadMemory) (f' : Frames) (p' : UserProcess)
    (freed : List Nat) : Prop where
  pages : ∀ v e, p.OfThread t v ∨ t.isMain = true ∧ p.OfProcess v →
    p.pageDirectory.entry v = some e →
    freed.count e.page = 1 ∧ f'.allocator.bitmap e.page = true
  ranges : ∀ v, p.InRange t.tlsCopyVirt v → p'.virtualRanges.IsFree v

/-- It has no TLS copy, and with the main thread there is no TLS master, the image has all its page
tables, and the break lies behind the start of the last page of the heap. -/
def UserProcess.Releasable (p : UserProcess) (t : ThreadMemory) : Prop :=
  t.tlsCopyVirt = 0 ∧
    (t.isMain = true →
      p.tlsMasterInProcLocation = 0 ∧ p.tlsMasterTotalsize = 0 ∧
      (p.heapBreak = 0 ∨ p.heapStart + (p.heapPages - 1) * pageSize < p.heapBreak) ∧
      ∀ v, p.imageStart ≤ v * pageSize → v * pageSize < p.imageEnd →
        (p.pageDirectory (v / 1024)).isSome)

/-- The condition on the steps: `sbrk` does not move the break below the heap, and a thread that is
deleted is releasable. -/
def Life.KeepsHeap (s : Life) : LifeEvent → Prop
  | .sbrk amount =>
    if s.process.heapBreak = 0 then
      s.process.imageEnd ≤ ((s.process.imageEnd + amount) % 2 ^ 32).toNat
    else s.process.heapStart ≤ ((s.process.heapBreak + amount) % 2 ^ 32).toNat
  | .deleteTask thread => s.process.Releasable thread
  | _ => True

/-! ## The invariant -/

/-- The end of the stack of a thread. -/
def ThreadMemory.stackEnd (t : ThreadMemory) : Nat :=
  t.userStackAreaStart + t.userStackPages * pageSize

/-- The pages of the heap: they lie below `CONST_USER_MAXIMUM_HEAP_BREAK` if they are more than one, and
their page tables are there. -/
structure HeapPagesOk (p : UserProcess) : Prop where
  aligned : p.heapStart % pageSize = 0
  start : 0 < p.heapStart
  pages : 0 < p.heapPages
  stop : p.heapStart + p.heapPages * pageSize ≤ constKernelAreaStart
  low : p.heapPages = 1 ∨ p.heapStart + p.heapPages * pageSize ≤ constUserMaximumHeapBreak
  tables : ∀ i < p.heapPages, (p.pageDirectory ((pageOf p.heapStart + i) / 1024)).isSome

/-- There is no heap yet, or its break lies in its last page or at one of the ends of it. -/
def HeapOk (p : UserProcess) : Prop :=
  p.heapBreak = 0 ∧ p.heapPages = 0 ∧ p.heapStart = 0 ∨
    HeapPagesOk p ∧ p.heapStart + (p.heapPages - 1) * pageSize ≤ p.heapBreak ∧
      p.heapBreak ≤ p.heapStart + p.heapPages * pageSize

/-- The pages are safe, and each thread has a stack of its own. -/
structure Life.PagesOk (s : Life) : Prop where
  safe : SafePages s.frames fun _ : Unit => some s.process
  writable : ∀ v e, s.process.pageDirectory.entry v = some e → e.flags = defaultUserPageFlags
  kernels : s.process.kernelStacks.Nodup
  rangesOk : s.process.RangesOk
  stackOk : ∀ t ∈ s.process.threads, StackOk s.process t
  ends : (s.process.threads.map ThreadMemory.stackEnd).Nodup
  image : s.process.imageStart % pageSize = 0

/-- The invariant of a life. -/
structure Life.Inv (s : Life) : Prop extends Life.PagesOk s where
  heap : HeapOk s.process

theorem update_unit (process : Unit → Option UserProcess) (p' : UserProcess) :
    update process () (some p') = fun _ => some p' := by
  funext u
  rw [Function.update_self]

variable {f f' : Frames} {p p' : UserProcess}

theorem HeapPagesOk.mono (h : HeapPagesOk p) (hstart : p'.heapStart = p.heapStart)
    (hpages : p'.heapPages = p.heapPages)
    (htables : ∀ t, (p.pageDirectory t).isSome → (p'.pageDirectory t).isSome) : HeapPagesOk p' := by
  obtain ⟨haligned, hpos, hpages', hstop, hlow, htables'⟩ := h
  rw [← hstart] at haligned hpos hstop hlow htables'
  rw [← hpages] at hpages' hstop hlow htables'
  exact ⟨haligned, hpos, hpages', hstop, hlow, fun i hi => htables _ (htables' i hi)⟩

theorem HeapOk.mono (h : HeapOk p) (hstart : p'.heapStart = p.heapStart)
    (hbreak : p'.heapBreak = p.heapBreak) (hpages : p'.heapPages = p.heapPages)
    (htables : ∀ t, (p.pageDirectory t).isSome → (p'.pageDirectory t).isSome) : HeapOk p' := by
  rw [HeapOk, hstart, hbreak, hpages]
  exact h.imp_right fun hheap => ⟨hheap.1.mono hstart hpages htables, hheap.2⟩

theorem writable_filled {d d' : PageDirectory} (hfilled : Filled f f' d d')
    (h : ∀ v e, d.entry v = some e → e.flags = defaultUserPageFlags) (v : Nat) (e : PageEntry)
    (he : d'.entry v = some e) : e.flags = defaultUserPageFlags := by
  cases hentry : d.entry v with
  | none => exact (hfilled.added v e hentry he).1
  | some e' =>
    cases (hfilled.kept v e' hentry).symm.trans he
    exact h v e hentry

namespace Life

variable {s : Life}

theorem PagesOk.grown (h : s.PagesOk) (hgrown : Grown s.frames f' s.process p')
    (hkernels : p'.kernelStacks = s.process.kernelStacks)
    (hends : p'.threads.map ThreadMemory.stackEnd = s.process.threads.map ThreadMemory.stackEnd)
    (hstacks : ∀ t ∈ p'.threads, StackOk p' t) (himage : p'.imageStart % pageSize = 0) :
    PagesOk ⟨f', p'⟩ where
  safe := by
    have hsafe := h.safe.filled () rfl hgrown.filled (by rw [hkernels]; exact fun _ h => h)
    rwa [update_unit] at hsafe
  writable := writable_filled hgrown.filled h.writable
  kernels := by rw [hkernels]; exact h.kernels
  rangesOk := hgrown.rangesOk h.rangesOk
  stackOk := hstacks
  ends := by rw [hends]; exact h.ends
  image := himage

theorem PagesOk.grown_same (h : s.PagesOk) (hgrown : Grown s.frames f' s.process p')
    (hthreads : p'.threads = s.process.threads) (himage : p'.imageStart % pageSize = 0) :
    PagesOk ⟨f', p'⟩ := by
  refine h.grown hgrown ?_ ?_ ?_ himage
  · rw [UserProcess.kernelStacks, hthreads, ← UserProcess.kernelStacks]
  · rw [hthreads]
  · intro t ht
    rw [hthreads] at ht
    exact (h.stackOk t ht).grown h.rangesOk hgrown

theorem Inv.grown_same (h : s.Inv) (hgrown : Grown s.frames f' s.process p')
    (hsame : SameThreadsAndHeap s.process p') (himage : p'.imageStart % pageSize = 0) :
    Inv ⟨f', p'⟩ where
  toPagesOk := h.toPagesOk.grown_same hgrown hsame.threads himage
  heap := h.heap.mono hsame.heapStart hsame.heapBreak hsame.heapPages hgrown.filled.tables

theorem map_replace {α β : Type} [DecidableEq α] (g : α → β) {t t' : α} (hg : g t' = g t)
    (threads : List α) :
    (threads.map fun t1 => if t1 = t then t' else t1).map g = threads.map g := by
  rw [List.map_map]
  refine List.map_congr_left fun t1 _ => ?_
  rw [Function.comp_apply]
  split
  next heq => rw [hg, heq]
  · rfl

theorem Inv.grown_replace (h : s.Inv) (hgrown : Grown s.frames f' s.process p')
    {t t' : ThreadMemory}
    (hthreads : p'.threads = s.process.threads.map fun t1 => if t1 = t then t' else t1)
    (hkernel : t'.kernelStack = t.kernelStack) (hend : t'.stackEnd = t.stackEnd)
    (hstack : StackOk p' t') (himage : p'.imageStart = s.process.imageStart)
    (hstart : p'.heapStart = s.process.heapStart) (hbreak : p'.heapBreak = s.process.heapBreak)
    (hpages : p'.heapPages = s.process.heapPages) : Inv ⟨f', p'⟩ := by
  refine ⟨h.toPagesOk.grown hgrown ?_ ?_ ?_ (by rw [himage]; exact h.image),
    h.heap.mono hstart hbreak hpages hgrown.filled.tables⟩
  · rw [UserProcess.kernelStacks, hthreads, map_replace _ hkernel, ← UserProcess.kernelStacks]
  · rw [hthreads, map_replace _ hend]
  · intro t1 ht1
    rw [hthreads] at ht1
    obtain ⟨t2, ht2, rfl⟩ := List.mem_map.1 ht1
    split
    · exact hstack
    · exact (h.stackOk t2 ht2).grown h.rangesOk hgrown

theorem Inv.createThread (h : s.Inv) {id : Tid} {isMain : Bool}
    (hcreate : createThread s.frames s.process id isMain = some (f', p')) : Inv ⟨f', p'⟩ := by
  obtain ⟨a, kernelStack, halloc, hgrown, pool', d', hp'⟩ := createThread_spec h.rangesOk hcreate
  rcases hp' with rfl | ⟨thread, rfl, hkernel, -, hone, hstack⟩
  · -- the page of the kernel stack is lost
    have hlost : Grown s.frames { s.frames with allocator := a } s.process s.process :=
      (filled_allocate _ halloc).grown rfl
    exact h.grown_same (hlost.trans hgrown) ⟨rfl, rfl, rfl, rfl⟩ h.image
  · have hnew := h.safe.kernelStack_new () rfl halloc
    let p1 : UserProcess := { s.process with threads := thread :: s.process.threads }
    have hkernels : ∀ page ∈ p1.kernelStacks, page = kernelStack ∨ page ∈ s.process.kernelStacks := by
      intro page hpage
      rcases List.mem_cons.1 hpage with rfl | hpage
      · exact Or.inl hkernel
      · exact Or.inr hpage
    have hsafe : SafePages { s.frames with allocator := a }
        (update (fun _ => some s.process) () (some p1)) := by
      refine h.safe.kernelStack () rfl halloc ?_ hkernels
      rfl
    have hsafe' := hsafe.filled () (Function.update_self ..) hgrown.filled fun _ h => h
    obtain ⟨r, hr, hused, hpages, hvirt, hfresh⟩ := hstack.range
    have hend : thread.stackEnd = r.base + threadUserStackReservedVirtualPages * pageSize := by
      rw [ThreadMemory.stackEnd, hvirt, hone]
      simp [threadUserStackReservedVirtualPages, pageSize]
    refine ⟨⟨hsafe', writable_filled hgrown.filled h.writable, ?_, hgrown.rangesOk h.rangesOk, ?_, ?_,
      h.image⟩, h.heap.mono rfl rfl rfl hgrown.filled.tables⟩
    · exact List.nodup_cons.2 ⟨by rw [hkernel]; exact hnew, h.kernels⟩
    · intro t ht
      rcases List.mem_cons.1 ht with rfl | ht
      · refine ⟨⟨r, hr, hused, hpages, hend⟩, by rw [hone]; decide, fun i hi => ?_⟩
        obtain rfl : i = 0 := by omega
        exact hstack.mapped
      · exact ((h.stackOk t ht).grown h.rangesOk hgrown)
    · refine List.nodup_cons.2 ⟨fun hmem => ?_, h.ends⟩
      -- a thread with the same end would have a range with the same base
      obtain ⟨t, ht, hsame⟩ := List.mem_map.1 hmem
      obtain ⟨r', hr', hused', -, hend'⟩ := (h.stackOk t ht).range
      refine hfresh r' hr' hused' ?_
      rw [ThreadMemory.stackEnd, hend', hend] at hsame
      exact Nat.add_right_cancel hsame

theorem Initial.inv (h : s.Initial) : s.Inv := by
  obtain ⟨f, id, hcreate⟩ := h
  simp only [createProcess, bind_eq_bind, bind_eq_some_iff] at hcreate
  obtain ⟨⟨a, page⟩, -, hcreate⟩ := hcreate
  refine Inv.createThread (s := ⟨{ f with allocator := a }, .unmapped⟩) ?_ hcreate
  have hempty : ∀ v, PageDirectory.empty.entry v = none := fun _ => rfl
  have hsafe : SafePages { f with allocator := a } (update (fun _ => none) () (some .unmapped)) :=
    (safePages_none { f with allocator := a }).start () hempty rfl
  refine ⟨⟨hsafe, ?_, List.nodup_nil, UserProcess.unmapped_rangesOk, ?_, List.nodup_nil, rfl⟩,
    Or.inl ⟨rfl, rfl, rfl⟩⟩
  · intro v e he
    cases he
  · intro t ht
    cases ht

end Life

/-! ## The heap -/

section

variable (h : HeapPagesOk p)
include h

theorem HeapPagesOk.virtAbove : p.virtAbove = p.heapStart + p.heapPages * pageSize := by
  have hstop := h.stop
  simp only [UserProcess.virtAbove, u32, constKernelAreaStart] at *
  omega

theorem HeapPagesOk.virtBelow : p.virtBelow = p.heapStart + (p.heapPages - 1) * pageSize := by
  have hstop := h.stop
  have hpages := h.pages
  simp only [UserProcess.virtBelow, u32, constKernelAreaStart, pageSize] at *
  omega

theorem HeapPagesOk.expandHeap {brkNew n : Nat} (hbrk : brkNew < constUserMaximumHeapBreak)
    (hfuel : brkNew ≤ p.heapStart + (p.heapPages + n) * pageSize)
    (hexpand : UserProcess.expandHeap brkNew n f p = some (f', p')) :
    HeapPagesOk p' ∧ brkNew ≤ p'.heapStart + p'.heapPages * pageSize := by
  induction n generalizing f p with
  | zero =>
    cases hexpand
    exact ⟨h, hfuel⟩
  | succ n ih =>
    rw [UserProcess.expandHeap, h.virtAbove] at hexpand
    split at hexpand
    next habove =>
      simp only [bind_eq_bind, bind_eq_some_iff] at hexpand
      obtain ⟨⟨f1, d1⟩, hfresh, hexpand⟩ := hexpand
      obtain ⟨hfilled, hsome, -⟩ := mapFresh_spec hfresh (Or.inl rfl)
      have haligned := h.aligned
      have hroom : p.heapStart + (p.heapPages + 1) * pageSize ≤ constUserMaximumHeapBreak := by
        simp only [constUserMaximumHeapBreak, pageSize] at *
        omega
      have hmore : u32 (p.heapPages + 1) = p.heapPages + 1 := by
        simp only [u32, constUserMaximumHeapBreak, pageSize] at *
        omega
      rw [hmore] at hexpand
      have hheap : HeapPagesOk { p with pageDirectory := d1, heapPages := p.heapPages + 1 } := by
        refine ⟨haligned, h.start, Nat.succ_pos _, hroom.trans (by decide), Or.inr hroom, ?_⟩
        intro i hi
        rcases Nat.lt_succ_iff_lt_or_eq.1 hi with hlt | rfl
        · exact hfilled.tables _ (h.tables i hlt)
        · obtain ⟨e, he⟩ := Option.isSome_iff_exists.1 (hsome 0 Nat.one_pos)
          rw [pageOf_add_mul haligned] at he
          exact PageDirectory.isSome_of_entry he
      refine ih hheap ?_ hexpand
      rw [Nat.add_assoc p.heapPages, Nat.add_comm 1 n]
      exact hfuel
    next hnot =>
      cases hexpand
      exact ⟨h, Nat.not_lt.1 hnot⟩

theorem HeapPagesOk.shrinkRound {brkNew : Nat} (hbrk : p.heapStart ≤ brkNew)
    (hbelow : brkNew < p.virtBelow) :
    u32 (p.heapPages + 2 ^ 32 - 1) = p.heapPages - 1 ∧ pageOf p.virtBelow < lowPages ∧
      HeapPagesOk { p with
        pageDirectory := unmap p.pageDirectory p.virtBelow
        heapPages := p.heapPages - 1 } := by
  rw [h.virtBelow] at hbelow ⊢
  obtain ⟨haligned, hstart, hpages, hstop, hlow, htables⟩ := h
  have htwo : 2 ≤ p.heapPages := by
    by_contra hnot
    obtain hone : p.heapPages = 1 := by omega
    rw [hone, Nat.sub_self, Nat.zero_mul] at hbelow
    omega
  have htop := hlow.resolve_left (by omega)
  have hless : p.heapStart + (p.heapPages - 1) * pageSize ≤ p.heapStart + p.heapPages * pageSize :=
    Nat.add_le_add_left (Nat.mul_le_mul_right _ (Nat.sub_le _ 1)) _
  refine ⟨?_, ?_, haligned, hstart, by simp only; omega, hless.trans hstop, Or.inr (hless.trans htop),
    fun i hi => isSome_unmap _ (htables i ?_)⟩
  · simp only [u32, constUserMaximumHeapBreak, pageSize] at *
    omega
  · simp only [pageOf, lowPages, constUserMaximumHeapBreak, constUserVirtualRangesStart,
      pageSize] at *
    omega
  · simp only at hi
    omega

end

namespace Life

variable {s : Life} {brkNew : Nat} {t : ThreadMemory}

theorem PagesOk.alone (h : s.PagesOk) {slot slot' : PageSlot} {q : Nat}
    (hslot : s.process.held slot = some q) (hslot' : s.process.held slot' = some q) :
    slot' = slot := by
  have hheld : ∀ slot, (holding s.frames fun _ : Unit => some s.process).held ((), slot) =
      s.process.held slot := fun _ => rfl
  have hsole : SoleIn (fun _ : Unit => some s.process) ((), slot) := by
    rintro p hp
    cases hp
    cases slot with
    | kernel page => trivial
    | user v =>
      refine Or.inr fun e he => ?_
      rw [PageEntry.isWritable, h.writable v e he]
      rfl
  have := h.safe.alone ((), slot) ((), slot') q ((hheld _).trans hslot) ((hheld _).trans hslot') hsole
  exact congrArg Prod.snd this

theorem PagesOk.taken (h : s.PagesOk) {slot : PageSlot} {q : Nat}
    (hslot : s.process.held slot = some q) : ¬ s.frames.Available q :=
  h.safe.taken ((), slot) q hslot

section

variable (h : PagesOk ⟨f, p⟩) (hheap : HeapPagesOk p)
include h hheap

theorem PagesOk.shrinkRound {brkNew page : Nat} (hbrk : p.heapStart ≤ brkNew)
    (hbelow : brkNew < p.virtBelow)
    (hpage : virtualToPhysical p.pageDirectory p.virtBelow = some page) (heapPages : Nat) :
    PagesOk ⟨UserProcess.shrinkRound f page, { p with
      pageDirectory := unmap p.pageDirectory p.virtBelow, heapPages }⟩ := by
  obtain ⟨-, hlow, -⟩ := hheap.shrinkRound hbrk hbelow
  have hentry : ∀ v e, (unmap p.pageDirectory p.virtBelow).entry v = some e →
      v ≠ pageOf p.virtBelow ∧ p.pageDirectory.entry v = some e := by
    intro v e he
    rw [entry_unmap] at he
    split at he
    · cases he
    next hne => exact ⟨hne, he⟩
  have hbitmap : ∀ q, (UserProcess.shrinkRound f page).allocator.bitmap q = true →
      f.allocator.bitmap q = true ∨ q = page := by
    intro q hq
    simp only [UserProcess.shrinkRound] at hq
    split at hq
    · simp only [Frames.free, PPallocator.free, Function.update_apply] at hq
      split at hq
      next heq => exact Or.inr heq
      · exact Or.inl hq
    · exact Or.inl hq
  let p' : UserProcess := { p with
    pageDirectory := unmap p.pageDirectory p.virtBelow, heapPages }
  have hsafe : SafePages (UserProcess.shrinkRound f page)
      (update (fun _ => some p) () (some p')) := by
    refine h.safe.drop () rfl (fun v e he => (hentry v e he).2) (fun _ hmem => hmem) ?_
    rintro ⟨⟨⟩, slot⟩ q hq hfree
    refine (hbitmap q hfree).resolve_right ?_
    rintro rfl
    -- the page was behind the unmapped address, and is behind no other one
    have hold : p.held slot = some q ∧ slot ≠ .user (pageOf p.virtBelow) := by
      cases slot with
      | kernel page => exact ⟨hq, by simp⟩
      | user v =>
        obtain ⟨e, he, hpage⟩ := map_eq_some_iff.1 hq
        obtain ⟨hne, he⟩ := hentry v e he
        exact ⟨held_user.2 ⟨e, he, hpage⟩, by simpa using hne⟩
    rcases virtualToPhysical_cases hpage with ⟨e, he, heq⟩ | ⟨-, rfl⟩
    · exact hold.2 (h.alone (held_user.2 ⟨e, he, heq⟩) hold.1)
    · exact h.taken hold.1 (Or.inr rfl)
  refine ⟨hsafe, fun v e he => h.writable v e (hentry v e he).2, h.kernels, h.rangesOk, ?_, h.ends,
    h.image⟩
  intro t ht
  have hstack := h.stackOk t ht
  refine ⟨hstack.range, hstack.pages, fun i hi => ?_⟩
  have hbound := (hstack.bounds h.rangesOk).2.1
  have hne : pageOf t.userStackAreaStart + i ≠ pageOf p.virtBelow := by
    have : lowPages ≤ pageOf t.userStackAreaStart := Nat.div_le_div_right hbound
    omega
  rw [entry_unmap, if_neg hne]
  exact hstack.mapped i hi

theorem PagesOk.shrinkHeap {brkNew n : Nat} (hbrk : p.heapStart ≤ brkNew)
    (htop : brkNew ≤ p.heapStart + p.heapPages * pageSize) (hfuel : p.heapPages ≤ n)
    (hshrink : UserProcess.shrinkHeap brkNew n f p = some (f', p')) :
    PagesOk ⟨f', p'⟩ ∧ HeapPagesOk p' ∧ p'.heapStart + (p'.heapPages - 1) * pageSize ≤ brkNew ∧
      brkNew ≤ p'.heapStart + p'.heapPages * pageSize := by
  induction n generalizing f p with
  | zero => exact absurd hheap.pages (by omega)
  | succ n ih =>
    rw [UserProcess.shrinkHeap] at hshrink
    split at hshrink
    next hbelow =>
      simp only [bind_eq_bind, bind_eq_some_iff] at hshrink
      obtain ⟨page, hpage, hshrink⟩ := hshrink
      obtain ⟨hless, -, hheap'⟩ := hheap.shrinkRound hbrk hbelow
      rw [hless] at hshrink
      rw [hheap.virtBelow] at hbelow
      exact ih (h.shrinkRound hheap hbrk (by rwa [hheap.virtBelow]) hpage _) hheap' hbrk hbelow.le
        (by simp only; omega) hshrink
    next hnot =>
      cases hshrink
      rw [hheap.virtBelow] at hnot
      exact ⟨h, hheap, Nat.not_lt.1 hnot, htop⟩

theorem Inv.moveBreak (hbrk : p.heapStart ≤ brkNew) (hlimit : brkNew < constUserMaximumHeapBreak)
    {f2 : Frames} {p2 p3 : UserProcess}
    (hexpand : UserProcess.expandHeap brkNew physicalPages f p = some (f2, p2))
    (hshrink : UserProcess.shrinkHeap brkNew physicalPages f2 p2 = some (f', p3)) :
    Inv ⟨f', { p3 with heapBreak := brkNew }⟩ := by
  have hfuel : brkNew ≤ p.heapStart + (p.heapPages + physicalPages) * pageSize := by
    simp only [constUserMaximumHeapBreak, physicalPages, pageSize] at *
    omega
  obtain ⟨hheap2, htop⟩ := hheap.expandHeap hlimit hfuel hexpand
  obtain ⟨hgrown, d2, heapPages, rfl⟩ := UserProcess.expandHeap_grown hexpand
  have hpages2 := h.grown_same hgrown rfl h.image
  have hfuel2 : heapPages ≤ physicalPages := by
    have := hheap2.stop
    simp only [constKernelAreaStart, physicalPages, pageSize] at *
    omega
  obtain ⟨hpages3, hheap3, hlow, htop3⟩ := hpages2.shrinkHeap hheap2 hbrk htop hfuel2 hshrink
  have hsame : Grown f' f' p3 { p3 with heapBreak := brkNew } := by
    refine Filled.grown ?_ rfl
    exact Filled.refl f' p3.pageDirectory
  exact ⟨hpages3.grown_same hsame rfl hpages3.image,
    Or.inr ⟨hheap3.mono rfl rfl fun _ h => h, hlow, htop3⟩⟩

end

theorem Inv.sbrk (h : s.Inv) {amount : Int} (hok : s.KeepsHeap (.sbrk amount))
    (hsbrk : s.process.sbrk s.frames amount = some (f', p')) : Inv ⟨f', p'⟩ := by
  obtain ⟨f1, p1, hstart, brkNew, hbrkNew, hmove⟩ := UserProcess.sbrk_cases hsbrk
  simp only [KeepsHeap] at hok
  -- the heap as it is before the break is moved
  have hbefore : Inv ⟨f1, p1⟩ ∧ p1.heapBreak ≠ 0 ∧ p1.heapStart ≤ brkNew := by
    rcases hstart with ⟨hbreak, hinit⟩ | ⟨hbreak, rfl, rfl⟩
    · rw [if_pos hbreak] at hok
      obtain ⟨hgrown, ⟨d', rfl⟩, haligned, htable, hstop, hsome⟩ :=
        UserProcess.initializeHeap_spec hinit
      have hpos : 0 < s.process.imageEnd := by
        rw [Nat.pos_iff_ne_zero]
        intro hzero
        rw [hzero] at htable
        exact htable (by decide)
      refine ⟨⟨h.toPagesOk.grown_same hgrown rfl h.image, Or.inr ⟨⟨haligned, hpos, Nat.one_pos,
        by rw [Nat.one_mul]; exact hstop, Or.inl rfl, fun i hi => ?_⟩, ?_, ?_⟩⟩, ?_, ?_⟩
      · obtain ⟨e, he⟩ := Option.isSome_iff_exists.1 hsome
        obtain rfl : i = 0 := Nat.lt_one_iff.1 hi
        exact PageDirectory.isSome_of_entry he
      · simp
      · exact Nat.le_add_right _ _
      · exact hpos.ne'
      · rw [hbrkNew]
        exact hok
    · rw [if_neg hbreak] at hok
      exact ⟨h, hbreak, by rw [hbrkNew]; exact hok⟩
  obtain ⟨hinv, hbreak, hbrk⟩ := hbefore
  rcases hmove with ⟨-, rfl, rfl⟩ | ⟨hlimit, f2, p2, p3, hexpand, hshrink, rfl⟩
  · exact hinv
  · rcases hinv.heap with ⟨hzero, -⟩ | ⟨hheap, -⟩
    · exact absurd hzero hbreak
    · exact Inv.moveBreak hinv.toPagesOk hheap hbrk hlimit hexpand hshrink

/-! ## Deleting -/

theorem PagesOk.stacks_apart (h : s.PagesOk) {t t' : ThreadMemory}
    (ht : t ∈ s.process.threads) (ht' : t' ∈ s.process.threads) {i j : Nat}
    (hi : i < t.userStackPages) (hj : j < t'.userStackPages)
    (heq : pageOf t.userStackAreaStart + i = pageOf t'.userStackAreaStart + j) : t = t' := by
  obtain ⟨r, hr, -, hpages, hend⟩ := (h.stackOk t ht).range
  obtain ⟨r', hr', -, hpages', hend'⟩ := (h.stackOk t' ht').range
  have hle := (h.stackOk t ht).pages.2
  have hle' := (h.stackOk t' ht').pages.2
  have hcovers : r.Covers (pageOf t.userStackAreaStart + i) := by
    simp only [AddressRange.Covers, hpages, pageOf, pageSize,
      threadUserStackReservedVirtualPages] at *
    omega
  have hcovers' : r'.Covers (pageOf t.userStackAreaStart + i) := by
    simp only [AddressRange.Covers, hpages', pageOf, pageSize,
      threadUserStackReservedVirtualPages] at *
    omega
  obtain rfl := h.rangesOk.unique start_aligned hr hr' hcovers hcovers'
  have hsame : t.stackEnd = t'.stackEnd := by
    rw [ThreadMemory.stackEnd, ThreadMemory.stackEnd, hend, hend']
  exact List.inj_on_of_nodup_map h.ends ht ht' hsame

theorem Inv.deleteThread (h : s.Inv) (ht : t ∈ s.process.threads)
    (htls : t.tlsCopyVirt = 0) {freed : List Nat}
    (hdelete : deleteThread s.frames s.process t = some (f', p', freed)) : Inv ⟨f', p'⟩ := by
  obtain ⟨f1, d', freed', hspec, hunmapped⟩ :=
    deleteThread_spec (h.stackOk t ht) htls
  cases hspec.symm.trans hdelete
  have hnodup : s.process.threads.Nodup := List.Nodup.of_map _ h.kernels
  have hentry : ∀ v e, d'.entry v = some e → s.process.pageDirectory.entry v = some e ∧
      ¬ (pageOf t.userStackAreaStart ≤ v ∧ v < pageOf t.userStackAreaStart + t.userStackPages) := by
    intro v e he
    rw [hunmapped.entry v] at he
    split at he
    · cases he
    next hout => exact ⟨he, hout⟩
  have hkernel : ∀ page ∈ (s.process.threads.erase t).map ThreadMemory.kernelStack,
      page ∈ s.process.kernelStacks ∧ page ≠ t.kernelStack := by
    intro page hpage
    obtain ⟨t', ht', rfl⟩ := List.mem_map.1 hpage
    rw [hnodup.mem_erase_iff] at ht'
    exact ⟨List.mem_map_of_mem ht'.2,
      fun heq => ht'.1 (List.inj_on_of_nodup_map h.kernels ht'.2 ht heq)⟩
  have hsafe : SafePages f' (update (fun _ => some s.process) ()
      (some { s.process with
        pageDirectory := d', threads := s.process.threads.erase t })) := by
    refine h.safe.drop () rfl (fun v e he => (hentry v e he).1)
      (fun page hpage => (hkernel page hpage).1) ?_
    rintro ⟨⟨⟩, slot⟩ q hq hfree
    -- what is still held was held before, and is neither the kernel stack nor behind the user stack
    have hold : s.process.held slot = some q ∧ slot ≠ .kernel t.kernelStack ∧
        ∀ v, slot = .user v → ¬ (pageOf t.userStackAreaStart ≤ v ∧
          v < pageOf t.userStackAreaStart + t.userStackPages) := by
      cases slot with
      | user v =>
        obtain ⟨e, he, hpage⟩ := map_eq_some_iff.1 hq
        obtain ⟨he, hout⟩ := hentry v e he
        refine ⟨held_user.2 ⟨e, he, hpage⟩, by simp, ?_⟩
        rintro w hw
        cases hw
        exact hout
      | kernel page =>
        obtain ⟨hmem, rfl⟩ := held_kernel.1 hq
        obtain ⟨hmem, hne⟩ := hkernel page hmem
        exact ⟨held_kernel.2 ⟨hmem, rfl⟩, by simpa using hne, by simp⟩
    rcases (hunmapped.bitmap q).1 hfree with hfree | hfreed
    · simp only [Frames.free, PPallocator.free, Function.update_apply] at hfree
      split at hfree
      next heq =>
        subst heq
        refine absurd (h.alone ?_ hold.1) hold.2.1
        exact held_kernel.2 ⟨List.mem_map_of_mem ht, rfl⟩
      · exact hfree
    · rw [hunmapped.pages] at hfreed
      obtain ⟨v, hv, hbehind⟩ := List.mem_map.1 hfreed
      rw [List.mem_range'_1] at hv
      rw [pageBehind] at hbehind
      split at hbehind
      next e he =>
        exact absurd hv (hold.2.2 v (h.alone (held_user.2 ⟨e, he, hbehind⟩) hold.1))
      · subst hbehind
        exact absurd (Or.inr rfl) (h.taken hold.1)
  refine ⟨⟨hsafe, fun v e he => h.writable v e (hentry v e he).1, ?_, h.rangesOk, ?_, ?_, h.image⟩,
    h.heap.mono rfl rfl rfl hunmapped.tables⟩
  · exact h.kernels.sublist (List.erase_sublist.map _)
  · intro t' ht'
    obtain ⟨hne, ht'⟩ := hnodup.mem_erase_iff.1 ht'
    have hstack := h.stackOk t' ht'
    refine ⟨hstack.range, hstack.pages, fun i hi => ?_⟩
    rw [hunmapped.entry, if_neg]
    · exact hstack.mapped i hi
    · rintro ⟨hlo, hhi⟩
      refine hne (h.stacks_apart ht' ht hi
        (j := pageOf t'.userStackAreaStart + i - pageOf t.userStackAreaStart) ?_ ?_) <;> omega
  · exact h.ends.sublist (List.erase_sublist.map _)

theorem Inv.step {s s' : Life} {event : LifeEvent} (h : s.Inv) (hlegal : s.Legal event)
    (hok : s.KeepsHeap event) (hstep : s.step event = some s') : s'.Inv := by
  cases event with
  | load headers =>
    obtain ⟨⟨f', p'⟩, hload, rfl⟩ := map_eq_some_iff.1 hstep
    obtain ⟨hgrown, hsame, himage⟩ := loadBinaryToCurrentAddressSpace_spec hload
    exact h.grown_same hgrown hsame himage
  | createPagesInSpace virt pages =>
    obtain ⟨⟨f', p'⟩, hpages, rfl⟩ := map_eq_some_iff.1 hstep
    obtain ⟨hgrown, hsame, himage⟩ := UserProcess.createPagesInSpace_spec hpages
    exact h.grown_same hgrown hsame (himage h.image)
  | writeTlsMasterForProcess copySize totalSize alignment =>
    obtain ⟨⟨f', p'⟩, hwrite, rfl⟩ := map_eq_some_iff.1 hstep
    obtain ⟨hgrown, hsame, himage⟩ := UserProcess.writeTlsMasterForProcess_spec hwrite
    exact h.grown_same hgrown hsame (by rw [himage]; exact h.image)
  | prepareThreadLocalStorage thread =>
    simp only [Life.step] at hstep
    split at hstep
    next hmem =>
      obtain ⟨⟨f', p', thread'⟩, hprepare, rfl⟩ := map_eq_some_iff.1 hstep
      obtain ⟨hgrown, ⟨pool', d', rfl⟩, virt, rfl⟩ := prepareThreadLocalStorage_spec hprepare
      have hstack := (h.stackOk thread hmem).grown h.rangesOk hgrown
      refine h.grown_replace ⟨hgrown.filled, hgrown.rangesOk, hgrown.ranges⟩ rfl rfl rfl
        ⟨hstack.range, hstack.pages, hstack.mapped⟩ rfl rfl rfl rfl
    · cases hstep
  | createThread id =>
    obtain ⟨⟨f', p'⟩, hcreate, rfl⟩ := map_eq_some_iff.1 hstep
    exact h.createThread hcreate
  | sbrk amount =>
    obtain ⟨⟨f', p'⟩, hsbrk, rfl⟩ := map_eq_some_iff.1 hstep
    exact h.sbrk hok hsbrk
  | stackFault thread address =>
    simp only [Life.step] at hstep
    split at hstep
    next hfault =>
      obtain ⟨hmem, harea, hnone⟩ := hfault
      obtain ⟨⟨f', p'⟩, hgrow, rfl⟩ := map_eq_some_iff.1 hstep
      have hstack := h.stackOk thread hmem
      obtain ⟨hgrown, d', pages, rfl, hend, hstack'⟩ := growStack_spec h.rangesOk hstack
        (Nat.mul_mod_left ..) harea hnone hgrow
      exact h.grown_replace hgrown rfl rfl hend hstack' rfl rfl rfl rfl
    · cases hstep
  | deleteTask thread =>
    simp only [Life.step] at hstep
    split at hstep
    next hmem =>
      obtain ⟨⟨f', p', freed⟩, hdelete, rfl⟩ := map_eq_some_iff.1 hstep
      simp only [deleteTask, bind_eq_bind, bind_eq_some_iff] at hdelete
      obtain ⟨⟨f1, p1, freed1⟩, hthread, hdelete⟩ := hdelete
      rw [if_neg (by rw [hmem.2]; decide)] at hdelete
      cases hdelete
      exact h.deleteThread hmem.1 hok.1 hthread
    · cases hstep
  | others frames =>
    cases hstep
    refine ⟨⟨⟨fun slot q hq => hlegal slot.2 q hq, h.safe.alone⟩, h.writable, h.kernels, h.rangesOk,
      h.stackOk, h.ends, h.image⟩, h.heap⟩

theorem reachable_inv
    (hs : processLives.Reachable (fun s event => s.Legal event ∧ s.KeepsHeap event) s) : s.Inv := by
  refine hs.invariant (fun s (h : s.Initial) => h.inv) ?_
  intro s event s' h hok hstep
  exact h.step hok.1 hok.2 hstep

theorem PagesOk.entries (h : s.PagesOk) :
    (∀ w w' e e', s.process.pageDirectory.entry w = some e →
      s.process.pageDirectory.entry w' = some e' → e.page = e'.page → w' = w) ∧
    ∀ t ∈ s.process.threads, ∀ w e, s.process.pageDirectory.entry w = some e →
      e.page ≠ 0 ∧ t.kernelStack ≠ e.page := by
  refine ⟨?_, ?_⟩
  · intro w w' e e' he he' hpage
    have := h.alone (held_user.2 ⟨e, he, rfl⟩) (held_user.2 ⟨e', he', hpage.symm⟩)
    simpa using this
  · intro t ht w e he
    have hheld := held_user.2 ⟨e, he, rfl⟩
    refine ⟨fun hzero => h.taken hheld (Or.inr hzero), fun hkernel => ?_⟩
    have := h.alone hheld (held_kernel.2 ⟨List.mem_map_of_mem ht, hkernel⟩)
    cases this

theorem Inv.deleteTask_sub (h : s.Inv) (ht : t ∈ s.process.threads)
    (htls : t.tlsCopyVirt = 0) (hsub : t.isMain = false) :
    ∃ f' p' freed, deleteTask s.frames s.process t = some (f', p', freed) ∧
      ReturnsPages s.process t f' p' freed := by
  obtain ⟨f1, d1, stack, hthread, hstack⟩ :=
    deleteThread_spec (f := s.frames) (h.stackOk t ht) htls
  obtain ⟨hinj, hne⟩ := h.entries
  have hnoRange : ∀ v, ¬ s.process.InRange t.tlsCopyVirt v := fun v hv => hv.1 htls
  have hdelete : deleteTask s.frames s.process t = some (f1, { s.process with
      pageDirectory := d1, threads := s.process.threads.erase t }, t.kernelStack :: stack) := by
    simp only [deleteTask, hthread, bind_eq_bind, Option.bind_some, hsub]
    rfl
  refine ⟨_, _, _, hdelete, ?_, fun v hv => absurd hv (hnoRange v)⟩
  intro v e hv he
  have hv : pageOf t.userStackAreaStart ≤ v ∧ v < pageOf t.userStackAreaStart + t.userStackPages := by
    rcases hv with hv | ⟨hmain, -⟩
    · exact hv.resolve_right (hnoRange v)
    · rw [hsub] at hmain
      cases hmain
  have hcount := hstack.count_freed (fun _ _ he => he) hinj he (hne t ht v e he).1
  rw [if_pos ⟨hv, he⟩] at hcount
  refine ⟨?_, (hstack.bitmap _).2 (Or.inr (List.count_pos_iff.1 (by omega)))⟩
  rw [List.count_cons_of_ne (hne t ht v e he).2, hcount]

theorem heap_rounds (h : HeapOk p)
    (hbreak : p.heapBreak = 0 ∨ p.heapStart + (p.heapPages - 1) * pageSize < p.heapBreak) :
    p.heapStart % pageSize = 0 ∧
      (p.heapBreak - p.heapStart + (pageSize - 1)) / pageSize = p.heapPages ∧
      ∀ i < p.heapPages, (p.pageDirectory ((pageOf p.heapStart + i) / 1024)).isSome := by
  rcases h with ⟨hzero, hpages, hstart⟩ | ⟨hheap, hlow, htop⟩
  · rw [hzero, hpages, hstart]
    exact ⟨rfl, rfl, fun i hi => absurd hi (Nat.not_lt_zero i)⟩
  · refine ⟨hheap.aligned, ?_, hheap.tables⟩
    have hstart := hheap.start
    simp only [pageSize] at *
    omega

theorem count_first_area {A B C : Prop} [Decidable A] [Decidable B] [Decidable C] (e : PageEntry)
    (h : A ∨ B ∨ C) :
    (if A then 1 else 0) + ((if B ∧ (if A then none else some e) = some e then 1 else 0) +
      if C ∧ (if B then none else if A then none else some e) = some e then 1 else 0) = 1 := by
  by_cases hA : A
  · simp [hA]
  · by_cases hB : B
    · simp [hA, hB]
    · have hC : C := (h.resolve_left hA).resolve_left hB
      simp [hA, hB, hC]

/-- The pages that leave with the main thread; a page is freed for the first area that it lies in.
-/
theorem Inv.deleteTask_main (h : s.Inv) (ht : t ∈ s.process.threads)
    (hok : s.process.Releasable t) (hmain : t.isMain = true) :
    ∃ f' p' freed, deleteTask s.frames s.process t = some (f', p', freed) ∧
      ReturnsPages s.process t f' p' freed := by
  obtain ⟨htls, hprocess⟩ := hok
  obtain ⟨hlocation, hsize, hbreak, htables⟩ := hprocess hmain
  obtain ⟨f1, d1, stack, hthread, hstack⟩ :=
    deleteThread_spec (f := s.frames) (h.stackOk t ht) htls
  obtain ⟨halignedHeap, hrounds, hheapTables⟩ := heap_rounds h.heap hbreak
  have haligned := h.image
  obtain ⟨f2, d2, image, f3, d3, heap, hdelete, himage, hheap⟩ := deleteProcess_spec (f := f1)
    (p := { s.process with pageDirectory := d1, threads := s.process.threads.erase t })
    hlocation hsize haligned halignedHeap (by
      rintro v (⟨hlo, hhi⟩ | ⟨hlo, hhi⟩)
      · exact hstack.tables _ (htables v hlo hhi)
      · simp only at hlo hhi
        have hi : v - pageOf s.process.heapStart < s.process.heapPages := by
          simp only [pageOf, pageSize] at *
          omega
        have hpage : pageOf s.process.heapStart + (v - pageOf s.process.heapStart) = v := by
          simp only [pageOf, pageSize] at *
          omega
        have := hheapTables _ hi
        rw [hpage] at this
        exact hstack.tables _ this)
  simp only [hrounds] at himage hheap
  obtain ⟨hinj, hne⟩ := h.entries
  have hnoRange : ∀ v, ¬ s.process.InRange t.tlsCopyVirt v := fun v hv => hv.1 htls
  have hnoMaster : ∀ v, ¬ s.process.InRange s.process.tlsMasterInProcLocation v :=
    fun v hv => hv.1 hlocation
  have hsub1 : ∀ w e, d1.entry w = some e → s.process.pageDirectory.entry w = some e := by
    intro w e he
    rw [hstack.entry] at he
    split at he
    · cases he
    · exact he
  have hsub2 : ∀ w e, d2.entry w = some e → s.process.pageDirectory.entry w = some e := by
    intro w e he
    rw [himage.entry] at he
    split at he
    · cases he
    · exact hsub1 w e he
  have hresult : deleteTask s.frames s.process t = some (f3, { s.process with
      pageDirectory := d3, threads := s.process.threads.erase t },
      t.kernelStack :: stack ++ (image ++ heap)) := by
    simp [deleteTask, hthread, hmain, hdelete]
  refine ⟨_, _, _, hresult, ?_, fun v hv => absurd hv (hnoRange v)⟩
  intro v e hv he
  obtain ⟨hzero, hkernel⟩ := hne t ht v e he
  have hcount1 := hstack.count_freed (fun _ _ he => he) hinj he hzero
  have hcount2 := himage.count_freed hsub1 hinj he hzero
  have hcount3 := hheap.count_freed hsub2 hinj he hzero
  have hcount : (t.kernelStack :: stack ++ (image ++ heap)).count e.page = 1 := by
    rw [List.cons_append, List.count_cons_of_ne hkernel, List.count_append, List.count_append,
      hcount1, hcount2, hcount3]
    simp only [himage.entry, hstack.entry, he, and_true]
    have harea : (pageOf t.userStackAreaStart ≤ v ∧
          v < pageOf t.userStackAreaStart + t.userStackPages) ∨
        (pageOf s.process.imageStart ≤ v ∧ v < pageOf s.process.imageStart +
          (s.process.imageEnd - s.process.imageStart + (pageSize - 1)) / pageSize) ∨
        (pageOf s.process.heapStart ≤ v ∧
          v < pageOf s.process.heapStart + s.process.heapPages) := by
      rcases hv with hv | ⟨-, hv | hv | hv⟩
      · exact Or.inl (hv.resolve_right (hnoRange v))
      · refine Or.inr (Or.inl ?_)
        simp only [pageOf, pageSize] at *
        omega
      · exact Or.inr (Or.inr hv)
      · exact absurd hv (hnoMaster v)
    exact count_first_area e harea
  refine ⟨hcount, ?_⟩
  have hmem : e.page ∈ stack ++ (image ++ heap) := by
    rw [List.cons_append, List.count_cons_of_ne hkernel] at hcount
    exact List.count_pos_iff.1 (by omega)
  rw [hheap.bitmap, himage.bitmap, hstack.bitmap]
  rw [List.mem_append, List.mem_append] at hmem
  tauto

end Life

/-- In every life whose steps meet the condition, every further such `deleteTask` returns, frees every
page of the thread, and with the main thread of the process, once, and gives the ranges of the TLS
copies back. -/
theorem deleteTask_returns_pages {s : Life}
    (hs : processLives.Reachable (fun s event => s.Legal event ∧ s.KeepsHeap event) s)
    {t : ThreadMemory} (ht : t ∈ s.process.threads) (hok : s.process.Releasable t) :
    ∃ f' p' freed, deleteTask s.frames s.process t = some (f', p', freed) ∧
      ReturnsPages s.process t f' p' freed := by
  have hinv := Life.reachable_inv hs
  cases hmain : t.isMain with
  | false => exact hinv.deleteTask_sub ht hok.1 hmain
  | true => exact hinv.deleteTask_main ht hok hmain

/-- A process that was just created, with the pages from 1 MiB on free. -/
def Life.created : Option Life :=
  (createProcess ⟨⟨fun page => decide (0x100 ≤ page)⟩, ⟨fun _ => false, fun _ => 0⟩⟩ 1).map
    fun (frames, process) => { frames, process }

theorem Life.created_initial {s : Life} (h : Life.created = some s) : processLives.init s := by
  obtain ⟨⟨f, p⟩, hcreate, rfl⟩ := map_eq_some_iff.1 h
  exact ⟨_, _, hcreate⟩

/-- The main thread of this process. -/
def Life.mainThread : ThreadMemory :=
  { id := 1, isMain := true, kernelStack := 0x101, userStackAreaStart := 0xA000F000 }

theorem deleteTask_returns_image_and_heap :
    ∃ s f' p' freed,
      processLives.Reachable (fun s event => s.Legal event ∧ s.KeepsHeap event) s ∧
      Life.mainThread ∈ s.process.threads ∧ s.process.Releasable Life.mainThread ∧
      deleteTask s.frames s.process Life.mainThread = some (f', p', freed) ∧
      freed = [0x101, 0x102, 0x104, 0x106] ∧ ReturnsPages s.process Life.mainThread f' p' freed := by
  obtain ⟨s0, h0, s1, h1, s, h2, ⟨r, hdelete, hfreed⟩, ⟨hbreak1, hend1⟩, hmem, ⟨hlocation, hsize⟩, hheap,
      ⟨himage, htable⟩⟩ :
      ∃ s0 ∈ Life.created, ∃ s1 ∈ s0.step (.createPagesInSpace 0x8000000 1),
        ∃ s ∈ s1.step (.sbrk 100),
          (∃ r ∈ deleteTask s.frames s.process Life.mainThread, r.2.2 = [0x101, 0x102, 0x104, 0x106]) ∧
          (s1.process.heapBreak = 0 ∧ s1.process.imageEnd = 0x8001000) ∧
          Life.mainThread ∈ s.process.threads ∧
          (s.process.tlsMasterInProcLocation = 0 ∧ s.process.tlsMasterTotalsize = 0) ∧
          s.process.heapStart + (s.process.heapPages - 1) * pageSize < s.process.heapBreak ∧
          (s.process.imageStart = 0x8000000 ∧ s.process.imageEnd = 0x8001000) ∧
          (s.process.pageDirectory 0x20).isSome = true := by
    decide +kernel
  have hsbrk : s1.KeepsHeap (.sbrk 100) := by
    simp only [Life.KeepsHeap, hbreak1, hend1, if_true]
    decide
  have hreach1 : processLives.Reachable (fun s event => s.Legal event ∧ s.KeepsHeap event) s1 :=
    .step (a := .createPagesInSpace 0x8000000 1) (.init (Life.created_initial h0)) ⟨trivial, trivial⟩
      h1
  have hreach : processLives.Reachable (fun s event => s.Legal event ∧ s.KeepsHeap event) s :=
    .step (a := .sbrk 100) hreach1 ⟨trivial, hsbrk⟩ h2
  have hok : s.process.Releasable Life.mainThread := by
    refine ⟨rfl, fun _ => ⟨hlocation, hsize, Or.inr hheap, fun v hlo hhi => ?_⟩⟩
    obtain hv : v / 1024 = 0x20 := by
      simp only [himage, pageSize] at hlo hhi
      omega
    rw [hv]
    exact htable
  obtain ⟨f', p', freed, hdelete', hreturns⟩ := deleteTask_returns_pages hreach hmem hok
  cases hdelete.symm.trans hdelete'
  exact ⟨s, f', p', freed, hreach, hmem, hok, hdelete, hfreed, hreturns⟩

/-- The range and page of a TLS copy are not given back, nor the page of a heap of 0 bytes. -/
theorem deleteTask_leaks_tls_and_heap :
    (∃ s t f' p' freed, processLives.Reachable Life.Legal s ∧ t ∈ s.process.threads ∧
      deleteTask s.frames s.process t = some (f', p', freed) ∧
      s.process.InRange t.tlsCopyVirt 0xA0011 ∧
      s.process.pageDirectory.entry 0xA0011 = some ⟨0x107, defaultUserPageFlags⟩ ∧ 0x107 ∉ freed ∧
      ¬ p'.virtualRanges.IsFree 0xA0011 ∧ ¬ ReturnsPages s.process t f' p' freed) ∧
    ∃ s t f' p' freed, processLives.Reachable Life.Legal s ∧ t ∈ s.process.threads ∧
      deleteTask s.frames s.process t = some (f', p', freed) ∧ t.tlsCopyVirt = 0 ∧
      s.process.OfProcess 0x8001 ∧
      s.process.pageDirectory.entry 0x8001 = some ⟨0x106, defaultUserPageFlags⟩ ∧ 0x106 ∉ freed ∧
      ¬ ReturnsPages s.process t f' p' freed := by
  refine ⟨?_, ?_⟩
  · obtain ⟨s0, h0, s, hs, ⟨f', p', freed⟩, hdelete, hmem, hin, hentry, hkept, hfreed⟩ :
        ∃ s0 ∈ Life.created, ∃ s ∈ processLives.run s0 [.createPagesInSpace 0x8000000 1,
            .writeTlsMasterForProcess 16 16 4, .prepareThreadLocalStorage Life.mainThread],
          ∃ r ∈ deleteTask s.frames s.process { Life.mainThread with tlsCopyVirt := 0xA0011000 },
            { Life.mainThread with tlsCopyVirt := 0xA0011000 } ∈ s.process.threads ∧
            s.process.InRange 0xA0011000 0xA0011 ∧
            s.process.pageDirectory.entry 0xA0011 = some ⟨0x107, defaultUserPageFlags⟩ ∧
            ¬ r.2.1.virtualRanges.IsFree 0xA0011 ∧ r.2.2 = [0x101, 0x102, 0x104] := by
      decide +kernel
    obtain rfl : freed = [0x101, 0x102, 0x104] := hfreed
    have hreach : processLives.Reachable Life.Legal s :=
      .of_run (.init (Life.created_initial h0)) (by simp [Life.Legal]) hs
    refine ⟨s, _, f', p', _, hreach, hmem, hdelete, hin, hentry, by decide, hkept, fun hreturns => ?_⟩
    exact absurd (hreturns.pages _ _ (Or.inl (Or.inr hin)) hentry).1 (by decide)
  · obtain ⟨s0, h0, s, hs, ⟨f', p', freed⟩, hdelete, hmem, hin, hentry, hfreed⟩ :
        ∃ s0 ∈ Life.created, ∃ s ∈ processLives.run s0 [.createPagesInSpace 0x8000000 1, .sbrk 0],
          ∃ r ∈ deleteTask s.frames s.process Life.mainThread,
            Life.mainThread ∈ s.process.threads ∧
            (pageOf s.process.heapStart ≤ 0x8001 ∧
              0x8001 < pageOf s.process.heapStart + s.process.heapPages) ∧
            s.process.pageDirectory.entry 0x8001 = some ⟨0x106, defaultUserPageFlags⟩ ∧
            r.2.2 = [0x101, 0x102, 0x104] := by
      decide +kernel
    obtain rfl : freed = [0x101, 0x102, 0x104] := hfreed
    have hreach : processLives.Reachable Life.Legal s :=
      .of_run (.init (Life.created_initial h0)) (by simp [Life.Legal]) hs
    refine ⟨s, _, f', p', _, hreach, hmem, hdelete, rfl, Or.inr (Or.inl hin), hentry, by decide,
      fun hreturns => ?_⟩
    exact absurd (hreturns.pages _ _ (Or.inr ⟨rfl, Or.inr (Or.inl hin)⟩) hentry).1 (by decide)

end MeetixOS.Kernel
