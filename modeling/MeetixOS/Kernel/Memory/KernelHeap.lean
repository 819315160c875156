import MeetixOS.Kernel.Memory.ChunkAllocator
import MeetixOS.Kernel.Memory.Paging

/-! # The kernel heap

`memory/KernelHeap.cpp`: a chunk allocator that grows when there is no room, and a count of the bytes
in use. `none` is a panic, or a walk along the chunks that does not end. -/

namespace MeetixOS.Kernel.Memory

open Lib

/-! ## The source -/

def constKernelHeapMaximumEnd : Nat := 0xE0000000

def kernelHeapExpandStep : Nat := 0x100000

def defaultKernelPageFlags : Nat := 131

/-- The static variables of `KernelHeap.cpp`, the free pages, and the tables of the kernel's area. -/
structure KernelHeap where
  allocator : ChunkAllocator
  heapStart : Nat
  heapEnd : Nat
  usedMemoryAmount : Nat
  kernelHeapInitialized : Bool
  frames : PPallocator
  directory : PageDirectory

/-- `AddressSpace::map`, with the kernel's flags and without override. -/
def AddressSpace.mapKernel (a : PPallocator) (directory : PageDirectory) (virtualAddr page : Nat) :
    Option (PPallocator × PageDirectory) :=
  let v := pageOf virtualAddr
  let written := directory.setEntry v (some ⟨page, defaultKernelPageFlags⟩)
  if virtualAddr % pageSize ≠ 0 then none
  else match directory (v / 1024) with
    | none => a.allocate.map fun (a, _) => (a, written)
    | some table => some (a, if (table (v % 1024)).isNone then written else directory)

namespace KernelHeap

/-- `initialize`. -/
def initializeHeap (h : KernelHeap) (start stop : Nat) : KernelHeap :=
  { h with allocator := ChunkAllocator.initializeChunks h.allocator.memory start stop
           heapStart := start
           heapEnd := stop
           kernelHeapInitialized := true }

/-- The loop of `expandHeap`, over `n` pages from `virt` on; it stops where no page is left. -/
def mapPages : Nat → KernelHeap → Nat → Option (KernelHeap × Bool)
  | 0, h, _ => some (h, true)
  | n + 1, h, virt =>
    match h.frames.allocate with
    | none => some (h, false)
    | some (frames, page) =>
      (AddressSpace.mapKernel frames h.directory virt page).bind fun (frames, directory) =>
        mapPages n { h with frames, directory } (virt + pageSize)

def expandHeap (h : KernelHeap) : Option (KernelHeap × Bool) :=
  if h.heapEnd > constKernelHeapMaximumEnd then some (h, false)
  else
    (mapPages (kernelHeapExpandStep / pageSize) h h.heapEnd).bind fun (h, mapped) =>
      if mapped then
        (h.allocator.expand kernelHeapExpandStep).map fun allocator =>
          ({ h with allocator, heapEnd := h.heapEnd + kernelHeapExpandStep }, true)
      else some (h, false)

variable {h h' : KernelHeap}

theorem mapPages_keeps {n virt : Nat} {mapped : Bool}
    (hmap : mapPages n h virt = some (h', mapped)) :
    h' = { h with frames := h'.frames, directory := h'.directory } := by
  induction n generalizing h virt with
  | zero =>
    cases hmap
    rfl
  | succ n ih =>
    rw [mapPages] at hmap
    split at hmap
    · cases hmap
      rfl
    · obtain ⟨⟨frames, directory⟩, -, hrest⟩ := Option.bind_eq_some_iff.mp hmap
      have hkeeps := ih hrest
      exact hkeeps

theorem expandHeap_true (hexpand : h.expandHeap = some (h', true)) :
    h.heapEnd ≤ constKernelHeapMaximumEnd ∧
      ∃ allocator, h.allocator.expand kernelHeapExpandStep = some allocator ∧
        h' = { h with allocator
                      heapEnd := h.heapEnd + kernelHeapExpandStep
                      frames := h'.frames
                      directory := h'.directory } := by
  rw [expandHeap] at hexpand
  split at hexpand
  · cases hexpand
  next hlimit =>
    obtain ⟨⟨h1, mapped⟩, hmap, hexpand⟩ := Option.bind_eq_some_iff.mp hexpand
    have hkeeps := mapPages_keeps hmap
    cases mapped with
    | false => cases hexpand
    | true =>
      obtain ⟨allocator, hallocator, heq⟩ := Option.map_eq_some_iff.mp hexpand
      cases heq
      rw [hkeeps] at hallocator
      refine ⟨Nat.le_of_not_lt hlimit, allocator, hallocator, ?_⟩
      rw [hkeeps]

def allocate (h : KernelHeap) (size : Nat) : Option (KernelHeap × Nat) :=
  if !h.kernelHeapInitialized then none
  else
    match h.allocator.allocate size with
    | none => none
    | some (allocator, allocated) =>
      if allocated ≠ 0 then
        some ({ h with allocator, usedMemoryAmount := u32 (h.usedMemoryAmount + size) }, allocated)
      else
        match _hexpand : expandHeap { h with allocator } with
        | some (h', true) => allocate h' size
        | _ => none
termination_by constKernelHeapMaximumEnd + kernelHeapExpandStep - h.heapEnd
decreasing_by
  obtain ⟨hlimit, allocator, -, heq⟩ := expandHeap_true _hexpand
  rw [heq]
  simp only [constKernelHeapMaximumEnd, kernelHeapExpandStep] at *
  omega

def free (h : KernelHeap) (mem : Nat) : Option KernelHeap :=
  if !h.kernelHeapInitialized then none
  else
    (h.allocator.free mem).map fun (allocator, size) =>
      { h with allocator, usedMemoryAmount := u32 (h.usedMemoryAmount + 2 ^ 32 - size) }

end KernelHeap

/-! ## Runs -/

/-- The kernel heap in use, with the live blocks, each with the size that was asked for. -/
structure KernelHeapState where
  heap : KernelHeap
  live : List (Nat × Nat)

/-- The calls; `frames` is what other parts of the kernel make of the free pages in between. -/
inductive KernelHeapCall
  | allocate (size : Nat)
  | free (mem : Nat)
  | frames (frames : PPallocator)

namespace KernelHeapState

/-- After `initialize`. -/
def initial (h : KernelHeap) (start stop : Nat) : KernelHeapState where
  heap := h.initializeHeap start stop
  live := []

def step (s : KernelHeapState) : KernelHeapCall → Option KernelHeapState
  | .allocate size =>
    (s.heap.allocate size).map fun r => { heap := r.1, live := s.live ++ [(r.2, size)] }
  | .free mem =>
    (s.heap.free mem).map fun heap => { heap, live := s.live.filter fun b => b.1 ≠ mem }
  | .frames frames => some { s with heap := { s.heap with frames } }

/-- A call that may be made: sizes have 32 bits, and a pointer that is freed is a live one. -/
def Legal (s : KernelHeapState) : KernelHeapCall → Prop
  | .allocate size => size < 2 ^ 32
  | .free mem => mem ∈ s.live.map Prod.fst
  | .frames _ => True

instance (s : KernelHeapState) : (call : KernelHeapCall) → Decidable (s.Legal call)
  | .allocate size => inferInstanceAs (Decidable (size < 2 ^ 32))
  | .free mem => inferInstanceAs (Decidable (mem ∈ s.live.map Prod.fst))
  | .frames _ => inferInstanceAs (Decidable True)

/-- The header of a request fits behind it, and a block that is freed was not rounded up. -/
def Balanced (s : KernelHeapState) : KernelHeapCall → Prop
  | .allocate size => size + sizeofChunkHeader < 2 ^ 32
  | .free mem => ∀ b ∈ s.live, b.1 = mem → chunkAllocatorMinimumAllocationSize ≤ b.2
  | .frames _ => True

instance (s : KernelHeapState) : (call : KernelHeapCall) → Decidable (s.Balanced call)
  | .allocate size => inferInstanceAs (Decidable (size + sizeofChunkHeader < 2 ^ 32))
  | .free mem =>
    inferInstanceAs (Decidable (∀ b ∈ s.live, b.1 = mem →
      chunkAllocatorMinimumAllocationSize ≤ b.2))
  | .frames _ => inferInstanceAs (Decidable True)

/-- The chunk allocator's view. -/
def chunks (s : KernelHeapState) : AllocatorState where
  allocator := s.heap.allocator
  stop := s.heap.heapEnd
  live := s.live

/-- The chunks are as they should be, and the count is the sum of the sizes asked for. -/
structure Counted (start : Nat) (s : KernelHeapState) : Prop where
  held : s.chunks.Held start
  limit : s.heap.heapEnd < 2 ^ 32
  ready : s.heap.kernelHeapInitialized = true
  count : s.heap.usedMemoryAmount = (s.live.map Prod.snd).sum

variable {start stop : Nat} {s : KernelHeapState}

theorem counted_initial (h : KernelHeap) (hheader : start + sizeofChunkHeader ≤ stop)
    (hstop : stop < 2 ^ 32) (hcount : h.usedMemoryAmount = 0) :
    (initial h start stop).Counted start where
  held := AllocatorState.held_initial h.allocator.memory hheader hstop
  limit := hstop
  ready := rfl
  count := hcount

variable {h h' : KernelHeap} {live : List (Nat × Nat)} {b : Nat × Nat}

theorem Counted.expandHeap
    (hs : Counted start ⟨h, live⟩) (hexpand : h.expandHeap = some (h', true)) :
    Counted start ⟨h', live⟩ := by
  obtain ⟨hlimit, allocator, hallocator, heq⟩ := KernelHeap.expandHeap_true hexpand
  have hend : h.heapEnd + kernelHeapExpandStep < 2 ^ 32 := by
    simp only [constKernelHeapMaximumEnd, kernelHeapExpandStep] at *
    omega
  obtain ⟨allocator', hallocator', hheld⟩ :=
    hs.held.expand (by decide) (Nat.le_of_lt hend)
  cases hallocator'.symm.trans hallocator
  rw [heq]
  exact ⟨hheld, hend, hs.ready, hs.count⟩

theorem Counted.allocate {size mem : Nat}
    (hs : Counted start ⟨h, live⟩) (hsize : size + sizeofChunkHeader < 2 ^ 32)
    (hallocate : h.allocate size = some (h', mem)) : Counted start ⟨h', live ++ [(mem, size)]⟩ := by
  fun_induction KernelHeap.allocate h size with
  | case1 h hready =>
    cases hallocate
  | case2 h hready hnone | case5 h hready allocator allocated hchunk hzero hfailed =>
    cases hallocate
  | case3 h hready allocator allocated hchunk hne =>
    cases hallocate
    rcases hs.held.allocate hsize with hnone | ⟨allocator', mem', hsome, -, hheld⟩
    · cases hnone.symm.trans hchunk
      exact absurd rfl hne
    · cases hsome.symm.trans hchunk
      refine ⟨hheld, hs.limit, hs.ready, ?_⟩
      have hsum := hheld.sum_le
      have hcount := hs.count
      have hlimit := hs.limit
      simp only [chunks, List.map_append, List.map_cons, List.map_nil, List.sum_append,
        List.sum_cons, List.sum_nil, Nat.add_zero] at hsum hcount hlimit ⊢
      rw [hcount, u32_of_lt (by omega)]
  | case4 h hready allocator allocated hchunk hzero h1 hexpand ih =>
    refine ih ?_ hallocate
    refine Counted.expandHeap ?_ hexpand
    rcases hs.held.allocate hsize with hnone | ⟨allocator', mem', hsome, hne, -⟩
    · cases hnone.symm.trans hchunk
      exact hs
    · cases hsome.symm.trans hchunk
      exact absurd hne hzero

theorem sum_without (hdistinct : live.Pairwise fun b b' => b.1 ≠ b'.1) (hb : b ∈ live) :
    (live.map Prod.snd).sum = b.2 + ((live.filter fun b' => b'.1 ≠ b.1).map Prod.snd).sum := by
  induction live with
  | nil => cases hb
  | cons first rest ih =>
    obtain ⟨hfirst, hrest⟩ := List.pairwise_cons.mp hdistinct
    rcases List.mem_cons.mp hb with rfl | hb
    · have hkept := List.filter_eq_self.mpr fun b' hb' => decide_eq_true (hfirst b' hb').symm
      rw [List.filter_cons_of_neg (by simp), hkept, List.map_cons, List.sum_cons]
    · rw [List.filter_cons_of_pos (by simpa using hfirst b hb), List.map_cons, List.sum_cons,
        List.map_cons, List.sum_cons, ih hrest hb]
      omega

theorem Counted.free (hs : s.Counted start) (hb : b ∈ s.live)
    (hsize : chunkAllocatorMinimumAllocationSize ≤ b.2) :
    ∃ heap, s.heap.free b.1 = some heap ∧
      Counted start ⟨heap, s.live.filter fun b' => b'.1 ≠ b.1⟩ := by
  obtain ⟨allocator, hfree, hheld⟩ := hs.held.free hb
  have hsum := sum_without hs.held.distinct hb
  simp only [chunks] at hsum
  have hlt := Nat.lt_of_le_of_lt hs.held.sum_le hs.limit
  refine ⟨{ s.heap with
      allocator, usedMemoryAmount := u32 (s.heap.usedMemoryAmount + 2 ^ 32 - b.2) }, ?_, hheld,
    hs.limit, hs.ready, ?_⟩
  · have hready := hs.ready
    have hchunk : s.heap.allocator.free b.1 = _ := hfree
    rw [KernelHeap.free, if_neg (by simp [hready]), hchunk, Option.map_some,
      Nat.max_eq_left hsize]
  · simp only [chunks] at hlt
    rw [hs.count, u32]
    simp only
    omega

end KernelHeapState

/-- The kernel heap over an area, in use; the count starts with 0. -/
def kernelHeapSystem (start stop : Nat) : System KernelHeapState KernelHeapCall where
  init s := ∃ h : KernelHeap, h.usedMemoryAmount = 0 ∧ s = KernelHeapState.initial h start stop
  step := KernelHeapState.step

/-- In every run of calls that keep the balance, over an area with room for a header, the count is the
sum of the sizes asked for of the live blocks, and no `free` takes off more than there is. -/
theorem usedMemoryAmount_eq_live (start stop : Nat) (hheader : start + sizeofChunkHeader ≤ stop)
    (hstop : stop < 2 ^ 32) (s : KernelHeapState)
    (hs : (kernelHeapSystem start stop).Reachable (fun s call => s.Legal call ∧ s.Balanced call) s) :
    s.heap.usedMemoryAmount = (s.live.map Prod.snd).sum ∧
      ∀ mem, s.Legal (.free mem) → s.Balanced (.free mem) →
        ∃ allocator size heap, s.heap.allocator.free mem = some (allocator, size) ∧
          s.heap.free mem = some heap ∧ heap.usedMemoryAmount + size = s.heap.usedMemoryAmount := by
  have hcounted : s.Counted start := by
    refine System.Reachable.invariant (I := fun s => s.Counted start) ?_ ?_ hs
    · rintro s ⟨h, hcount, rfl⟩
      exact KernelHeapState.counted_initial h hheader hstop hcount
    · intro s call s' h hok hstep
      cases call with
      | allocate size =>
        obtain ⟨⟨heap, mem⟩, hallocate, rfl⟩ := Option.map_eq_some_iff.mp hstep
        exact h.allocate hok.2 hallocate
      | free mem =>
        obtain ⟨b, hb, rfl⟩ := List.mem_map.mp hok.1
        obtain ⟨heap, hfree, hcounted⟩ := h.free hb (hok.2 b hb rfl)
        cases (congrArg (Option.map _) hfree).symm.trans hstep
        exact hcounted
      | frames frames =>
        cases hstep
        exact ⟨h.held, h.limit, h.ready, h.count⟩
  refine ⟨hcounted.count, fun mem hlegal hbalanced => ?_⟩
  obtain ⟨b, hb, rfl⟩ := List.mem_map.mp hlegal
  have hsize := hbalanced b hb rfl
  obtain ⟨allocator, hfree, -⟩ := hcounted.held.free hb
  obtain ⟨heap, hheap, hcounted'⟩ := hcounted.free hb hsize
  rw [Nat.max_eq_left hsize] at hfree
  refine ⟨allocator, b.2, heap, hfree, hheap, ?_⟩
  have hsum := KernelHeapState.sum_without hcounted.held.distinct hb
  have hcount := hcounted.count
  have hcount' := hcounted'.count
  simp only [KernelHeapState.chunks] at hsum hcount hcount'
  omega

/-- A heap without growth, all pages used, before `initialize`. -/
def KernelHeap.unset : KernelHeap where
  allocator := ⟨0, fun _ => ⟨0, false, 0⟩⟩
  heapStart := 0
  heapEnd := 0
  usedMemoryAmount := 0
  kernelHeapInitialized := false
  frames := ⟨fun _ => false⟩
  directory := PageDirectory.empty

theorem usedMemoryAmount_eq_live_three :
    ∃ s, (kernelHeapSystem 0xC8000000 0xC8100000).Reachable
        (fun s call => s.Legal call ∧ s.Balanced call) s ∧
      s.live = [(0xC8000030, 3), (0xC8000044, 100)] ∧ s.heap.usedMemoryAmount = 103 := by
  obtain ⟨s, hs, hlive⟩ : ∃ s ∈ (kernelHeapSystem 0xC8000000 0xC8100000).runGuarded
      (fun s call => s.Legal call ∧ s.Balanced call)
      (KernelHeapState.initial KernelHeap.unset 0xC8000000 0xC8100000)
      [.allocate 24, .allocate 3, .allocate 100, .free 0xC800000C],
      s.live = [(0xC8000030, 3), (0xC8000044, 100)] := by
    decide +kernel
  have hreach := System.Reachable.of_runGuarded (M := kernelHeapSystem 0xC8000000 0xC8100000)
    (.init ⟨KernelHeap.unset, rfl, rfl⟩) hs
  have hcount := (usedMemoryAmount_eq_live 0xC8000000 0xC8100000 (by decide) (by decide) s hreach).1
  rw [hlive] at hcount
  exact ⟨s, hreach, hlive, hcount⟩

/-- A block of one byte is rounded up to eight, and `free` takes off eight: the count has wrapped.
-/
theorem small_block_unbalances_count :
    ∃ s, (kernelHeapSystem 0xC8000000 0xC8100000).Reachable KernelHeapState.Legal s ∧
      s.live = [] ∧ s.heap.usedMemoryAmount = 2 ^ 32 - 7 := by
  obtain ⟨s, hs, hfacts⟩ : ∃ s ∈ (kernelHeapSystem 0xC8000000 0xC8100000).runGuarded
      KernelHeapState.Legal (KernelHeapState.initial KernelHeap.unset 0xC8000000 0xC8100000)
      [.allocate 1, .free 0xC800000C], s.live = [] ∧ s.heap.usedMemoryAmount = 2 ^ 32 - 7 := by
    decide +kernel
  exact ⟨s, .of_runGuarded (.init ⟨KernelHeap.unset, rfl, rfl⟩) hs, hfacts⟩

end MeetixOS.Kernel.Memory
