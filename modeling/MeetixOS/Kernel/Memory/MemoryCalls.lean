import Mathlib.Data.List.Nodup
import MeetixOS.Lib.Runs
import MeetixOS.Kernel.Memory.AddressRangePool

/-! # Memory areas of a process

The system calls of `calls/SyscallHandlerMemory.cpp` on the virtual ranges of a process. A range has a flag
that says whether the process owns the physical pages behind it; `unmap` finds its range by the base alone
and frees the pages of one with that flag. A range that was freed is still there, with its flag and without
its pages, and `virtualToPhysical` of a page that is not mapped is 0. -/

open Option (bind_eq_bind bind_eq_some_iff bind_some map_eq_some_iff map_some)
open Function (update_apply update_of_ne update_self)

namespace MeetixOS.Kernel

open MeetixOS.Lib AddressSpace

/-! ## State -/

/-- `SecurityLevel`, from the most to the least trusted. -/
inductive SecurityLevel
  | kernel
  | driver
  | server
  | application
  deriving DecidableEq, Repr

/-- `securityLevel <= SECURITY_LEVEL_DRIVER`. -/
def SecurityLevel.isDriver : SecurityLevel → Bool
  | .kernel | .driver => true
  | .server | .application => false

/-- `PROC_VIRTUAL_RANGE_FLAG_PHYSICAL_OWNER` is set. -/
def AddressRange.isPhysicalOwner (r : AddressRange) : Bool := r.flags % 2 = 1

/-- What the calls use of a `Process`, and the regions that `allocMem` returned and that were not
unmapped since. -/
structure ProcessMemory where
  securityLevel : SecurityLevel
  virtualRanges : AddressRangePool
  pageDirectory : PageDirectory
  regions : List Nat := []

/-- The physical pages and the processes. `owner` records for which process `allocMem` took a page
that is not freed. -/
structure MemoryState where
  allocator : PPallocator
  process : Pid → Option ProcessMemory
  owner : Nat → Option (Pid × Nat)

namespace MemoryState

/-- A write to the data of a process. -/
def setProcess (s : MemoryState) (pid : Pid) (p : ProcessMemory) : MemoryState :=
  { s with process := Function.update s.process pid (some p) }

/-! ## The calls -/

/-- The loop of `allocMem`: a fresh page behind each of `n` virtual pages. -/
def allocPages (pid : Pid) (virt : Nat) : Nat → MemoryState → Option MemoryState
  | 0, s => some s
  | n + 1, s => do
      let p ← s.process pid
      let (allocator, page) ← s.allocator.allocate
      let (allocator, pageDirectory, _) ← map allocator p.pageDirectory virt page false
      let owner := Function.update s.owner page (some (pid, pageOf virt))
      allocPages pid (virt + pageSize) n
        ({ s with allocator, owner }.setProcess pid { p with pageDirectory })

/-- `allocMem`. The roll-back for a failed allocation is never reached, `PPallocator::allocate` panics
before. -/
def allocMem (s : MemoryState) (pid : Pid) (size : Nat) : Option MemoryState :=
  let pages := pageAlignUp size / pageSize
  match s.process pid with
  | none => some s
  | some p =>
    if pages > 0 then
      match p.virtualRanges.allocate pages 1 with
      | none => some s
      | some (virtualRanges, base) => do
          let s ← allocPages pid base pages (s.setProcess pid { p with virtualRanges })
          let p ← s.process pid
          some (s.setProcess pid { p with regions := base :: p.regions })
    else some s

/-- The loop of `shareMem`: page by page, what is behind `memory` in one space is mapped in the other. -/
def sharePages (pid target : Pid) (memory virt : Nat) : Nat → MemoryState → Option MemoryState
  | 0, s => some s
  | n + 1, s => do
      let p ← s.process pid
      let page ← virtualToPhysical p.pageDirectory memory
      let t ← s.process target
      let (allocator, pageDirectory, _) ← map s.allocator t.pageDirectory virt page false
      sharePages pid target (memory + pageSize) (virt + pageSize) n
        ({ s with allocator }.setProcess target { t with pageDirectory })

/-- `shareMem`. The target may be the process itself. -/
def shareMem (s : MemoryState) (pid : Pid) (memory size : Nat) (target : Pid) : Option MemoryState :=
  let pages := pageAlignUp size / pageSize
  if memory < constKernelAreaStart ∧ u32 (memory + pages * pageSize) ≤ constKernelAreaStart then
    match s.process target with
    | none => some s
    | some t =>
      match t.virtualRanges.allocate pages 0 with
      | none => some s
      | some (virtualRanges, base) =>
        sharePages pid target memory base pages (s.setProcess target { t with virtualRanges })
  else some s

/-- The loop of `mapMmio`. -/
def mmioPages (pid : Pid) (virt physical : Nat) : Nat → MemoryState → Option MemoryState
  | 0, s => some s
  | n + 1, s => do
      let p ← s.process pid
      let (allocator, pageDirectory, _) ←
        map s.allocator p.pageDirectory virt (pageOf physical) false
      mmioPages pid (virt + pageSize) (u32 (physical + pageSize)) n
        ({ s with allocator }.setProcess pid { p with pageDirectory })

/-- `mapMmio`. The range is taken before the number of pages is looked at; `map` panics for an address
that is not aligned. -/
def mapMmio (s : MemoryState) (pid : Pid) (physical size : Nat) : Option MemoryState :=
  let pages := pageAlignUp size / pageSize
  match s.process pid with
  | none => some s
  | some p =>
    if p.securityLevel.isDriver then
      match p.virtualRanges.allocate pages 0 with
      | none => some s
      | some (virtualRanges, base) =>
        let s := s.setProcess pid { p with virtualRanges }
        if pages > 0 ∧ physical % pageSize ≠ 0 then none
        else mmioPages pid base physical pages s
    else some s

/-- The pages behind `n` virtual pages, as `virtualToPhysical` gives them. -/
def pagesBehind (directory : PageDirectory) (virt : Nat) : Nat → Option (List Nat)
  | 0 => some []
  | n + 1 => do
      let page ← virtualToPhysical directory virt
      let rest ← pagesBehind directory (virt + pageSize) n
      some (page :: rest)

/-- `AddressSpace::unmap` of `n` virtual pages. -/
def unmapPages (directory : PageDirectory) (virt : Nat) : Nat → PageDirectory
  | 0 => directory
  | n + 1 => unmapPages (unmap directory virt) (virt + pageSize) n

/-- `PPallocator::free` of each of the pages. -/
def freePages (s : MemoryState) (pages : List Nat) : MemoryState :=
  pages.foldl
    (fun s page =>
      { s with allocator := s.allocator.free page, owner := Function.update s.owner page none }) s

/-- `unmap`, with the pages that it freed. -/
def unmap (s : MemoryState) (pid : Pid) (base : Nat) : Option (MemoryState × List Nat) :=
  match s.process pid with
  | none => some (s, [])
  | some p =>
    match p.virtualRanges.find? fun range => range.base = base with
    | none => some (s, [])
    | some range =>
      let pages := if range.isPhysicalOwner then
        pagesBehind p.pageDirectory range.base range.pages else some []
      pages.map fun freed =>
        ((s.freePages freed).setProcess pid
          { p with
            pageDirectory := unmapPages p.pageDirectory range.base range.pages
            virtualRanges := (p.virtualRanges.free range.base).1
            regions := p.regions.filter fun region => region ≠ range.base }, freed)

end MemoryState

/-! ## Runs of calls -/

/-- A call of a process. -/
inductive MemoryCall
  | allocMem (pid : Pid) (size : Nat)
  | shareMem (pid : Pid) (memory size : Nat) (target : Pid)
  | mapMmio (pid : Pid) (physical size : Nat)
  | unmap (pid : Pid) (base : Nat)

/-- Run a call; the list holds the pages that it freed. -/
def MemoryState.call (s : MemoryState) : MemoryCall → Option (MemoryState × List Nat)
  | .allocMem pid size => (s.allocMem pid size).map fun s => (s, [])
  | .shareMem pid memory size target => (s.shareMem pid memory size target).map fun s => (s, [])
  | .mapMmio pid physical size => (s.mapMmio pid physical size).map fun s => (s, [])
  | .unmap pid base => s.unmap pid base

/-- The processes before their first call. What the kernel has put into their ranges by then (stacks,
thread-local storage) is there, behind used ranges. -/
structure MemoryState.Initial (s : MemoryState) : Prop where
  zero : s.allocator.bitmap 0 = false
  owner : ∀ page, s.owner page = none
  regions : ∀ pid p, s.process pid = some p → p.regions = []
  contiguous : ∀ pid p, s.process pid = some p →
    p.virtualRanges.Contiguous constKernelAreaStart constUserVirtualRangesStart
  free : ∀ pid p, s.process pid = some p →
    ∀ v, p.virtualRanges.IsFree v → p.pageDirectory.entry v = none

/-- All runs of calls of the processes. -/
def memoryCalls : System MemoryState MemoryCall where
  init := MemoryState.Initial
  step s call := (s.call call).map Prod.fst

/-- The condition on a call: an `unmap` of a range that owns its pages names a region that `allocMem`
returned and that was not unmapped since. -/
def MemoryCall.KeepsPages (s : MemoryState) : MemoryCall → Prop
  | .unmap pid base => ∀ p range, s.process pid = some p →
      (p.virtualRanges.find? fun range => range.base = base) = some range →
      range.isPhysicalOwner → base ∈ p.regions
  | .allocMem _ _ | .shareMem _ _ _ _ | .mapMmio _ _ _ => True

instance (s : MemoryState) (call : MemoryCall) : Decidable (call.KeepsPages s) :=
  match call with
  | .unmap pid base =>
    decidable_of_iff (∀ p ∈ s.process pid,
        ∀ range ∈ List.find? (fun range : AddressRange => range.base = base) p.virtualRanges,
        range.isPhysicalOwner → base ∈ p.regions)
      ⟨fun h p range hp => h p hp range, fun h p hp range => h p range hp⟩
  | .allocMem _ _ | .shareMem _ _ _ _ | .mapMmio _ _ _ => isTrue trivial

/-- Each page that an `unmap` frees is freed once, is not page 0, and was allocated for the process
and not freed before. -/
structure FreesAllocated (s s' : MemoryState) (pid : Pid) (freed : List Nat) : Prop where
  once : freed.Nodup
  allocated : ∀ page ∈ freed, page ≠ 0 ∧ ∃ v, s.owner page = some (pid, v)
  gone : ∀ page ∈ freed, s'.owner page = none

namespace MemoryState

/-! ## The invariant -/

/-- The entry of a virtual page of a process. -/
def entry (s : MemoryState) (pid : Pid) (v : Nat) : Option PageEntry :=
  (s.process pid).bind fun p => p.pageDirectory.entry v

/-- Behind the virtual page is a page that `allocMem` took for it. -/
def Owned (s : MemoryState) (pid : Pid) (v : Nat) : Prop :=
  ∃ e, s.entry pid v = some e ∧ s.owner e.page = some (pid, v)

/-- Unused ranges have no pages behind them, and the regions of `allocMem` are used ranges with the
pages that it took. -/
structure ProcessInv (s : MemoryState) (pid : Pid) (p : ProcessMemory) : Prop where
  contiguous : p.virtualRanges.Contiguous constKernelAreaStart constUserVirtualRangesStart
  free : ∀ v, p.virtualRanges.IsFree v → p.pageDirectory.entry v = none
  regions : ∀ base ∈ p.regions, ∃ r ∈ p.virtualRanges, r.used = true ∧ r.base = base
  owned : ∀ r ∈ p.virtualRanges, r.used = true → r.base ∈ p.regions → ∀ v, r.Covers v →
    s.Owned pid v

/-- The invariant: a page that `allocMem` took is not free, and neither is page 0. -/
structure Inv (s : MemoryState) : Prop where
  zero : s.allocator.bitmap 0 = false
  taken : ∀ page x, s.owner page = some x → s.allocator.bitmap page = false ∧ page ≠ 0
  process : ∀ pid p, s.process pid = some p → s.ProcessInv pid p

variable {s s' : MemoryState} {pid : Pid} {p p' : ProcessMemory}

theorem Initial.inv (h : s.Initial) : s.Inv := by
  refine ⟨h.zero, ?_, fun pid p hp => ⟨h.contiguous pid p hp, h.free pid p hp, ?_, ?_⟩⟩
  · intro page x hx
    rw [h.owner] at hx
    cases hx
  · rw [h.regions pid p hp]
    intro base hbase
    cases hbase
  · rw [h.regions pid p hp]
    intro r _ _ hbase
    cases hbase

theorem entry_eq (hp : s.process pid = some p) (v : Nat) :
    s.entry pid v = p.pageDirectory.entry v := by
  rw [entry, hp, bind_some]

variable {v n virt physical memory size base : Nat} {directory : PageDirectory} {target : Pid}
  {range : AddressRange} {freed : List Nat}

theorem Owned.congr (h : s.Owned pid v) (hentry : s'.entry pid v = s.entry pid v)
    (howner : ∀ page, s.owner page = some (pid, v) → s'.owner page = some (pid, v)) :
    s'.Owned pid v := by
  obtain ⟨e, he, hpage⟩ := h
  exact ⟨e, hentry.trans he, howner _ hpage⟩

theorem Inv.update (h : s.Inv) (hprocess : s'.process = Function.update s.process pid (some p'))
    (hzero : s'.allocator.bitmap 0 = false)
    (htaken : ∀ page x, s'.owner page = some x → s'.allocator.bitmap page = false ∧ page ≠ 0)
    (hothers : ∀ page q w, q ≠ pid → s.owner page = some (q, w) → s'.owner page = some (q, w))
    (hinv : s'.ProcessInv pid p') : s'.Inv := by
  refine ⟨hzero, htaken, fun q r hr => ?_⟩
  by_cases hq : q = pid
  · subst hq
    rw [hprocess, update_self] at hr
    cases hr
    exact hinv
  · have hsame : s'.process q = s.process q := by rw [hprocess, update_of_ne hq]
    have hold := h.process q r (hsame ▸ hr)
    refine ⟨hold.contiguous, hold.free, hold.regions, fun range hmem hused hbase v hv => ?_⟩
    refine (hold.owned range hmem hused hbase v hv).congr ?_ fun page => hothers page q v hq
    rw [entry, hsame, entry]

/-! ## Mapping into a range -/

/-- The page lies in a used range that is not a region of `allocMem`. -/
def IsPlain (p : ProcessMemory) (v : Nat) : Prop :=
  ∃ r ∈ p.virtualRanges, r.used = true ∧ r.base ∉ p.regions ∧ r.Covers v

theorem IsPlain.not_free (h : IsPlain p v) (hinv : s.ProcessInv pid p) :
    ¬ p.virtualRanges.IsFree v := by
  rintro ⟨r, hr, hunused, hv⟩
  obtain ⟨r', hr', hused, -, hv'⟩ := h
  obtain rfl := hinv.contiguous.unique start_aligned hr hr' hv hv'
  exact absurd (hused.symm.trans hunused) (by decide)

theorem IsPlain.not_region (h : IsPlain p v) (hinv : s.ProcessInv pid p)
    {r : AddressRange} (hr : r ∈ p.virtualRanges) (hbase : r.base ∈ p.regions) : ¬ r.Covers v := by
  intro hv
  obtain ⟨r', hr', -, hnot, hv'⟩ := h
  obtain rfl := hinv.contiguous.unique start_aligned hr hr' hv hv'
  exact hnot hbase

theorem Inv.mapPage (h : s.Inv) (hp : s.process pid = some p) {virt page : Nat}
    (hplain : IsPlain p (pageOf virt)) {a a' : PPallocator}
    (ha : ∀ q, a.bitmap q = true → s.allocator.bitmap q = true)
    {written : Bool}
    (hmap : map a p.pageDirectory virt page false = some (a', directory, written))
    {owner : Nat → Option (Pid × Nat)} (hkept : ∀ q x, s.owner q = some x → owner q = some x)
    (hnew : ∀ q x, owner q = some x → s.owner q = some x ∨
      q = page ∧ a.bitmap page = false ∧ page ≠ 0) :
    let s' := ({ s with allocator := a', owner } : MemoryState).setProcess pid
      { p with pageDirectory := directory }
    s'.Inv ∧ ∀ q w, (q = pid → w ≠ pageOf virt) → s.Owned q w → s'.Owned q w := by
  intro s'
  obtain ⟨hallocator, hwritten⟩ := map_spec hmap
  have hshrink : ∀ q, a'.bitmap q = true → a.bitmap q = true := by
    intro q hq
    rcases hallocator with rfl | ⟨table, htable⟩
    · exact hq
    · rw [(PPallocator.allocate_spec htable).2.2, update_apply] at hq
      split at hq
      · cases hq
      · exact hq
  have hdirectory : ∀ w, w ≠ pageOf virt → directory.entry w = p.pageDirectory.entry w := by
    intro w hw
    rcases hwritten with ⟨-, hentry⟩ | ⟨-, rfl, -⟩
    · rw [hentry, if_neg hw]
    · rfl
  have hprocess : s'.process = Function.update s.process pid
      (some { p with pageDirectory := directory }) := rfl
  have hentry : ∀ q w, (q = pid → w ≠ pageOf virt) → s'.entry q w = s.entry q w := by
    intro q w hne
    rw [entry, hprocess, update_apply]
    split
    next hq =>
      rw [bind_some, hdirectory w (hne hq), hq, entry_eq hp]
    · rfl
  have howned : ∀ q w, (q = pid → w ≠ pageOf virt) → s.Owned q w → s'.Owned q w :=
    fun q w hne hq => hq.congr (hentry q w hne) fun page => hkept page _
  have hinv := h.process pid p hp
  refine ⟨h.update hprocess ?_ ?_ (fun page q w _ => hkept page _) ?_, howned⟩
  · cases hbit : s'.allocator.bitmap 0 with
    | false => rfl
    | true => exact absurd (h.zero.symm.trans (ha 0 (hshrink 0 hbit))) (by decide)
  · intro q x hq
    rcases hnew q x hq with hold | ⟨rfl, hfree, hne⟩
    · refine ⟨?_, (h.taken q x hold).2⟩
      cases hbit : s'.allocator.bitmap q with
      | false => rfl
      | true =>
        exact absurd ((h.taken q x hold).1.symm.trans (ha q (hshrink q hbit))) (by decide)
    · refine ⟨?_, hne⟩
      cases hbit : s'.allocator.bitmap q with
      | false => rfl
      | true => exact absurd (hfree.symm.trans (hshrink q hbit)) (by decide)
  · refine ⟨hinv.contiguous, fun v hv => ?_, hinv.regions, fun r hr hused hbase v hv => ?_⟩
    · have hne : v ≠ pageOf virt := fun heq => hplain.not_free hinv (heq ▸ hv)
      exact (hdirectory v hne).trans (hinv.free v hv)
    · have hne : v ≠ pageOf virt := fun heq => hplain.not_region hinv hr hbase (heq ▸ hv)
      exact howned pid v (fun _ => hne) (hinv.owned r hr hused hbase v hv)

/-- A loop over the pages from `lo` on changed entries of these pages of `p`, and kept what was
owned elsewhere. -/
structure Filled (s s' : MemoryState) (pid : Pid) (p : ProcessMemory) (lo n : Nat) : Prop where
  inv : s'.Inv
  process : ∃ directory, s'.process pid = some { p with pageDirectory := directory }
  owned : ∀ q w, (q = pid → w < lo ∨ lo + n ≤ w) → s.Owned q w → s'.Owned q w

theorem Inv.filled (h : s.Inv) (hp : s.process pid = some p) (lo : Nat) : Filled s s pid p lo 0 :=
  ⟨h, ⟨p.pageDirectory, hp⟩, fun _ _ _ howned => howned⟩

theorem Filled.cons {s1 : MemoryState} {lo n : Nat} (directory : PageDirectory)
    (hfirst : ∀ q w, (q = pid → w ≠ lo) → s.Owned q w → s1.Owned q w)
    (hrest : Filled s1 s' pid { p with pageDirectory := directory } (lo + 1) n) :
    Filled s s' pid p lo (n + 1) := by
  refine ⟨hrest.inv, hrest.process, fun q w hne howned => ?_⟩
  refine hrest.owned q w (fun hq => ?_) (hfirst q w (fun hq => ?_) howned)
  · have := hne hq
    omega
  · have := hne hq
    omega

theorem process_setProcess (s : MemoryState) (pid : Pid) (p : ProcessMemory) :
    (s.setProcess pid p).process pid = some p :=
  update_self ..

theorem Inv.mmioPages (h : s.Inv) (hp : s.process pid = some p)
    (hplain : ∀ v, pageOf virt ≤ v → v < pageOf virt + n → IsPlain p v)
    (hloop : mmioPages pid virt physical n s = some s') : Filled s s' pid p (pageOf virt) n := by
  induction n generalizing s p virt physical with
  | zero =>
    cases hloop
    exact h.filled hp _
  | succ n ih =>
    simp only [MemoryState.mmioPages, hp, bind_eq_bind, bind_some] at hloop
    obtain ⟨⟨a, directory, written⟩, hmap, hloop⟩ := bind_eq_some_iff.1 hloop
    obtain ⟨hinv, hfirst⟩ := h.mapPage hp (hplain _ le_rfl (by omega)) (fun _ hq => hq) hmap
      (fun _ _ hx => hx) fun _ _ hx => Or.inl hx
    refine Filled.cons directory hfirst ?_
    rw [← pageOf_add_pageSize]
    refine ih hinv (process_setProcess _ _ _) (fun v hlo hhi => ?_) hloop
    rw [pageOf_add_pageSize] at hlo hhi
    exact hplain v (by omega) (by omega)

theorem Inv.sharePages (h : s.Inv) (hp : s.process target = some p)
    (hplain : ∀ v, pageOf virt ≤ v → v < pageOf virt + n → IsPlain p v)
    (hloop : sharePages pid target memory virt n s = some s') :
    Filled s s' target p (pageOf virt) n := by
  induction n generalizing s p virt memory with
  | zero =>
    cases hloop
    exact h.filled hp _
  | succ n ih =>
    simp only [MemoryState.sharePages, hp, bind_eq_bind, bind_some] at hloop
    obtain ⟨source, -, hloop⟩ := bind_eq_some_iff.1 hloop
    obtain ⟨page, -, hloop⟩ := bind_eq_some_iff.1 hloop
    obtain ⟨⟨a, directory, written⟩, hmap, hloop⟩ := bind_eq_some_iff.1 hloop
    obtain ⟨hinv, hfirst⟩ := h.mapPage hp (hplain _ le_rfl (by omega)) (fun _ hq => hq) hmap
      (fun _ _ hx => hx) fun _ _ hx => Or.inl hx
    refine Filled.cons directory hfirst ?_
    rw [← pageOf_add_pageSize]
    refine ih hinv (process_setProcess _ _ _) (fun v hlo hhi => ?_) hloop
    rw [pageOf_add_pageSize] at hlo hhi
    exact hplain v (by omega) (by omega)

theorem Inv.allocPages (h : s.Inv) (hp : s.process pid = some p)
    (hplain : ∀ v, pageOf virt ≤ v → v < pageOf virt + n → IsPlain p v)
    (hnone : ∀ v, pageOf virt ≤ v → v < pageOf virt + n → p.pageDirectory.entry v = none)
    (hloop : allocPages pid virt n s = some s') :
    Filled s s' pid p (pageOf virt) n ∧
      ∀ v, pageOf virt ≤ v → v < pageOf virt + n → s'.Owned pid v := by
  induction n generalizing s p virt with
  | zero =>
    cases hloop
    exact ⟨h.filled hp _, fun v hlo hhi => by omega⟩
  | succ n ih =>
    simp only [MemoryState.allocPages, hp, bind_eq_bind, bind_some] at hloop
    obtain ⟨⟨a, page⟩, hallocate, hloop⟩ := bind_eq_some_iff.1 hloop
    obtain ⟨⟨a', directory, written⟩, hmap, hloop⟩ := bind_eq_some_iff.1 hloop
    obtain ⟨hfree, hne, hbitmap⟩ := PPallocator.allocate_spec hallocate
    have hunowned : s.owner page = none := by
      cases howner : s.owner page with
      | none => rfl
      | some x => exact absurd ((h.taken page x howner).1.symm.trans hfree) (by decide)
    have hshrink : ∀ q, a.bitmap q = true → s.allocator.bitmap q = true := by
      intro q hq
      rw [hbitmap, update_apply] at hq
      split at hq
      · cases hq
      · exact hq
    have hkept : ∀ q x, s.owner q = some x →
        Function.update s.owner page (some (pid, pageOf virt)) q = some x := by
      intro q x hx
      rw [update_of_ne, hx]
      rintro rfl
      rw [hunowned] at hx
      cases hx
    have hnew : ∀ q x, Function.update s.owner page (some (pid, pageOf virt)) q = some x →
        s.owner q = some x ∨ q = page ∧ a.bitmap page = false ∧ page ≠ 0 := by
      intro q x hx
      rw [update_apply] at hx
      split at hx
      next hq => exact Or.inr ⟨hq, by rw [hbitmap, update_self], hne⟩
      · exact Or.inl hx
    obtain ⟨hinv, hfirst⟩ := h.mapPage hp (hplain _ le_rfl (by omega)) hshrink hmap hkept hnew
    -- nothing was mapped there, so the entry is written
    have hentry : ∀ v, directory.entry v = if v = pageOf virt then
        some ⟨page, defaultUserPageFlags⟩ else p.pageDirectory.entry v := by
      rcases (map_spec hmap).2 with ⟨-, hentry⟩ | ⟨-, -, -, hsome⟩
      · exact hentry
      · rw [hnone _ le_rfl (by omega)] at hsome
        cases hsome
    have howned : (({ s with allocator := a', owner := Function.update s.owner page (some
        (pid, pageOf virt)) } : MemoryState).setProcess pid
        { p with pageDirectory := directory }).Owned pid (pageOf virt) := by
      refine ⟨⟨page, defaultUserPageFlags⟩, ?_, update_self ..⟩
      rw [entry_eq (process_setProcess _ _ _), hentry, if_pos rfl]
    obtain ⟨hfilled, hrest⟩ := ih hinv (process_setProcess _ _ _)
      (fun v (hlo : pageOf (virt + pageSize) ≤ v) hhi => by
        rw [pageOf_add_pageSize] at hlo hhi
        exact hplain v (by omega) (by omega))
      (fun v hlo hhi => by
        rw [pageOf_add_pageSize] at hlo hhi
        simp only [hentry]
        rw [if_neg (by omega)]
        exact hnone v (by omega) (by omega)) hloop
    rw [pageOf_add_pageSize] at hfilled hrest
    refine ⟨Filled.cons directory hfirst hfilled, fun v hlo hhi => ?_⟩
    by_cases hv : v = pageOf virt
    · subst hv
      exact hfilled.owned pid _ (fun _ => Or.inl (by omega)) howned
    · exact hrest v (by omega) (by omega)

/-! ## The calls keep the invariant -/

theorem owned_setProcess (hp : s.process pid = some p)
    (hdirectory : p'.pageDirectory = p.pageDirectory) {q : Pid} {w : Nat} (h : s.Owned q w) :
    (s.setProcess pid p').Owned q w := by
  refine h.congr ?_ fun _ howner => howner
  simp only [entry, setProcess, update_apply]
  split
  next hq => rw [bind_some, hdirectory, hq, hp, bind_some]
  · rfl

theorem Inv.takeRange (h : s.Inv) (hp : s.process pid = some p) {pages flags base : Nat}
    {virtualRanges : AddressRangePool}
    (halloc : p.virtualRanges.allocate pages flags = some (virtualRanges, base)) :
    (s.setProcess pid { p with virtualRanges }).Inv ∧
      { used := true, base, pages := if pages = 0 then 1 else pages, flags } ∈ virtualRanges ∧
      ∀ v, pageOf base ≤ v → v < pageOf base + pages →
        IsPlain { p with virtualRanges } v ∧ p.pageDirectory.entry v = none := by
  have hinv := h.process pid p hp
  obtain ⟨hcontiguous, halloc⟩ := hinv.contiguous.allocate_spec start_aligned halloc
  have hbase : base ∉ p.regions := by
    intro hregion
    obtain ⟨r, hr, hused, hrbase⟩ := hinv.regions base hregion
    have hr' := (halloc.used r hused).2 (Or.inl hr)
    have heq := hcontiguous.eq_of_base start_aligned hr' halloc.mem hrbase
    have hpos := (hcontiguous.bounds start_aligned halloc.mem).2.2.2
    obtain ⟨r', hunused, hv⟩ := halloc.fresh (pageOf base) ⟨le_rfl, Nat.lt_add_of_pos_right hpos⟩
    have hsame := hinv.contiguous.unique start_aligned hr hunused
      (by rw [heq]; exact ⟨le_rfl, Nat.lt_add_of_pos_right hpos⟩) hv.2
    exact absurd (hused.symm.trans (hsame ▸ hv.1)) (by decide)
  refine ⟨h.update rfl h.zero h.taken (fun _ _ _ _ hx => hx) ⟨hcontiguous, ?_, ?_, ?_⟩,
    halloc.mem, ?_⟩
  · exact fun v hv => hinv.free v ((halloc.free v).1 hv).1
  · intro region hregion
    obtain ⟨r, hr, hused, hrbase⟩ := hinv.regions region hregion
    exact ⟨r, (halloc.used r hused).2 (Or.inl hr), hused, hrbase⟩
  · intro r hr hused hregion v hv
    rcases (halloc.used r hused).1 hr with hr | rfl
    · refine owned_setProcess hp ?_ (hinv.owned r hr hused hregion v hv)
      rfl
    · exact absurd hregion hbase
  · intro v hlo hhi
    have hv : ({ used := true, base, pages := if pages = 0 then 1 else pages, flags } :
        AddressRange).Covers v := by
      refine ⟨hlo, hhi.trans_le ?_⟩
      simp only
      split <;> omega
    exact ⟨⟨_, halloc.mem, rfl, hbase, hv⟩, hinv.free v (halloc.fresh v hv)⟩

theorem Inv.mapMmio (h : s.Inv) (hcall : s.mapMmio pid physical size = some s') :
    s'.Inv := by
  simp only [MemoryState.mapMmio] at hcall
  split at hcall
  · cases hcall
    exact h
  next p hp =>
    split at hcall
    · split at hcall
      · cases hcall
        exact h
      next virtualRanges base halloc =>
        obtain ⟨htaken, -, hpages⟩ := h.takeRange hp halloc
        split at hcall
        · cases hcall
        · exact (htaken.mmioPages (process_setProcess _ _ _) (fun v hlo hhi => (hpages v hlo hhi).1)
            hcall).inv
    · cases hcall
      exact h

theorem Inv.shareMem (h : s.Inv)
    (hcall : s.shareMem pid memory size target = some s') : s'.Inv := by
  simp only [MemoryState.shareMem] at hcall
  split at hcall
  · split at hcall
    · cases hcall
      exact h
    next t ht =>
      split at hcall
      · cases hcall
        exact h
      next virtualRanges base halloc =>
        obtain ⟨htaken, -, hpages⟩ := h.takeRange ht halloc
        exact (htaken.sharePages (process_setProcess _ _ _) (fun v hlo hhi => (hpages v hlo hhi).1)
          hcall).inv
  · cases hcall
    exact h

theorem Inv.allocMem (h : s.Inv) (hcall : s.allocMem pid size = some s') : s'.Inv := by
  simp only [MemoryState.allocMem] at hcall
  split at hcall
  · cases hcall
    exact h
  next p hp =>
    split at hcall
    next hpos =>
      split at hcall
      · cases hcall
        exact h
      next virtualRanges base halloc =>
        obtain ⟨htaken, hmem, hpages⟩ := h.takeRange hp halloc
        obtain ⟨s2, hloop, hcall⟩ := bind_eq_some_iff.1 hcall
        obtain ⟨hfilled, howned⟩ := htaken.allocPages (process_setProcess _ _ _)
          (fun v hlo hhi => (hpages v hlo hhi).1) (fun v hlo hhi => (hpages v hlo hhi).2) hloop
        obtain ⟨directory, hp2⟩ := hfilled.process
        have hinv := hfilled.inv.process pid _ hp2
        rw [hp2] at hcall
        cases hcall
        rw [if_neg (by omega)] at hmem
        refine hfilled.inv.update rfl hfilled.inv.zero hfilled.inv.taken (fun _ _ _ _ hx => hx)
          ⟨hinv.contiguous, hinv.free, ?_, ?_⟩
        · intro region hregion
          rcases List.mem_cons.1 hregion with rfl | hregion
          · exact ⟨_, hmem, rfl, rfl⟩
          · exact hinv.regions region hregion
        · intro r hr hused hregion v hv
          refine owned_setProcess hp2 ?_ ?_
          · rfl
          rcases List.mem_cons.1 hregion with hbase | hregion
          · obtain rfl := hinv.contiguous.eq_of_base start_aligned hr hmem hbase
            exact howned v hv.1 hv.2
          · exact hinv.owned r hr hused hregion v hv
    · cases hcall
      exact h

/-! ## Unmapping -/

theorem pagesBehind_eq
    (hmapped : ∀ v, pageOf virt ≤ v → v < pageOf virt + n → ∃ e, directory.entry v = some e) :
    pagesBehind directory virt n =
      some ((List.range' (pageOf virt) n).map (pageBehind directory)) := by
  induction n generalizing virt with
  | zero => rfl
  | succ n ih =>
    obtain ⟨e, he⟩ := hmapped (pageOf virt) le_rfl (by omega)
    have hpage : pageBehind directory (pageOf virt) = e.page := by rw [pageBehind, he]
    have hbehind : ∀ v, pageOf (virt + pageSize) ≤ v → v < pageOf (virt + pageSize) + n →
        ∃ e, directory.entry v = some e := by
      rw [pageOf_add_pageSize]
      exact fun v hlo hhi => hmapped v (by omega) (by omega)
    have hrest := ih hbehind
    rw [pagesBehind, virtualToPhysical_of_entry he, hrest, pageOf_add_pageSize,
      List.range'_succ, List.map_cons, hpage]
    rfl

theorem entry_unmapPages (directory : PageDirectory) (virt n w : Nat) :
    (unmapPages directory virt n).entry w =
      if pageOf virt ≤ w ∧ w < pageOf virt + n then none else directory.entry w := by
  induction n generalizing directory virt with
  | zero =>
    rw [if_neg (by omega)]
    rfl
  | succ n ih =>
    rw [unmapPages, ih, pageOf_add_pageSize, entry_unmap]
    by_cases hfirst : w = pageOf virt
    · rw [if_neg (by omega), if_pos hfirst, if_pos (by omega)]
    · rw [if_neg hfirst]
      exact if_congr (by omega) rfl rfl

theorem freePages_eq (s : MemoryState) (pages : List Nat) :
    (s.freePages pages).process = s.process ∧
      (∀ q, (s.freePages pages).allocator.bitmap q =
        if q ∈ pages then true else s.allocator.bitmap q) ∧
      ∀ q, (s.freePages pages).owner q = if q ∈ pages then none else s.owner q := by
  induction pages generalizing s with
  | nil => exact ⟨rfl, fun _ => rfl, fun _ => rfl⟩
  | cons page pages ih =>
    obtain ⟨hprocess, hbitmap, howner⟩ := ih { s with
      allocator := s.allocator.free page
      owner := Function.update s.owner page none }
    refine ⟨hprocess, fun q => ?_, fun q => ?_⟩
    · rw [freePages, List.foldl_cons, ← freePages, hbitmap, PPallocator.free]
      by_cases hq : q = page
      · simp [hq]
      · simp [hq, update_of_ne]
    · rw [freePages, List.foldl_cons, ← freePages, howner]
      by_cases hq : q = page
      · simp [hq]
      · simp [hq, update_of_ne]

theorem ProcessInv.freeRange (h : s.ProcessInv pid p)
    (hrange : range ∈ p.virtualRanges) :
    let pool := (p.virtualRanges.free range.base).1
    pool.Contiguous constKernelAreaStart constUserVirtualRangesStart ∧
      (∀ r : AddressRange, r.used = true → (r ∈ pool ↔ r ∈ p.virtualRanges ∧ r ≠ range)) ∧
      ∀ v, pool.IsFree v → p.virtualRanges.IsFree v ∨ range.Covers v := by
  intro pool
  cases hused : range.used with
  | true =>
    obtain ⟨hcontiguous, hfreed⟩ := h.contiguous.free_spec start_aligned hrange hused
    exact ⟨hcontiguous, hfreed.used, fun v => (hfreed.free v).1⟩
  | false =>
    have hsame : pool = p.virtualRanges :=
      h.contiguous.free_unused start_aligned hrange hused
    rw [hsame]
    refine ⟨h.contiguous, fun r hr => ⟨fun hmem => ⟨hmem, ?_⟩, And.left⟩, fun v => Or.inl⟩
    rintro rfl
    exact absurd (hr.symm.trans hused) (by decide)

theorem Inv.unmapRange (h : s.Inv) (hp : s.process pid = some p)
    (hrange : range ∈ p.virtualRanges)
    (hfreed : ∀ page ∈ freed, ∃ v, range.Covers v ∧ s.owner page = some (pid, v)) :
    ((s.freePages freed).setProcess pid
      { p with
        pageDirectory := unmapPages p.pageDirectory range.base range.pages
        virtualRanges := (p.virtualRanges.free range.base).1
        regions := p.regions.filter fun region => region ≠ range.base }).Inv := by
  have hinv := h.process pid p hp
  obtain ⟨hcontiguous, hused, hfree⟩ := hinv.freeRange hrange
  obtain ⟨hprocess, hbitmap, howner⟩ := freePages_eq s freed
  have hzero : 0 ∉ freed := by
    intro hmem
    obtain ⟨v, -, hv⟩ := hfreed 0 hmem
    exact (h.taken 0 _ hv).2 rfl
  refine h.update (by rw [setProcess, hprocess]) ?_ ?_ ?_ ⟨hcontiguous, ?_, ?_, ?_⟩
  · show (s.freePages freed).allocator.bitmap 0 = false
    rw [hbitmap, if_neg hzero, h.zero]
  · intro page x hx
    replace hx : (s.freePages freed).owner page = some x := hx
    show (s.freePages freed).allocator.bitmap page = false ∧ page ≠ 0
    rw [howner] at hx
    split at hx
    · cases hx
    next hnot =>
      rw [hbitmap, if_neg hnot]
      exact h.taken page x hx
  · intro page q w hq hx
    show (s.freePages freed).owner page = some (q, w)
    rw [howner, if_neg, hx]
    intro hmem
    obtain ⟨v, -, hv⟩ := hfreed page hmem
    rw [hx] at hv
    cases hv
    exact hq rfl
  · intro v hv
    rw [entry_unmapPages]
    split
    · rfl
    next hnot =>
      rcases hfree v hv with hold | hcovered
      · exact hinv.free v hold
      · exact absurd hcovered hnot
  · intro region hregion
    obtain ⟨hregion, hne⟩ := List.mem_filter.1 hregion
    obtain ⟨r, hr, hrused, rfl⟩ := hinv.regions region hregion
    refine ⟨r, (hused r hrused).2 ⟨hr, ?_⟩, hrused, rfl⟩
    rintro rfl
    exact of_decide_eq_true hne rfl
  · intro r hr hrused hregion v hv
    obtain ⟨hr, hne⟩ := (hused r hrused).1 hr
    have hregion := (List.mem_filter.1 hregion).1
    have hnot : ¬ range.Covers v :=
      fun hcovers => hne (hinv.contiguous.unique start_aligned hr hrange hv hcovers)
    refine (hinv.owned r hr hrused hregion v hv).congr ?_ fun page hpage => ?_
    · rw [entry_eq (process_setProcess _ _ _), entry_eq hp]
      rw [entry_unmapPages]
      exact if_neg hnot
    · show (s.freePages freed).owner page = some (pid, v)
      rw [howner, if_neg, hpage]
      intro hmem
      obtain ⟨w, hw, howner⟩ := hfreed page hmem
      rw [hpage] at howner
      cases howner
      exact hnot hw

theorem Inv.unmap (h : s.Inv) (hok : (MemoryCall.unmap pid base).KeepsPages s) :
    ∃ s' freed, s.unmap pid base = some (s', freed) ∧ s'.Inv ∧ FreesAllocated s s' pid freed := by
  rw [MemoryState.unmap]
  split
  · exact ⟨s, [], rfl, h, List.nodup_nil, by simp, by simp⟩
  next p hp =>
    split
    · exact ⟨s, [], rfl, h, List.nodup_nil, by simp, by simp⟩
    next range hfind =>
      have hinv := h.process pid p hp
      have hrange := List.mem_of_find?_eq_some hfind
      obtain rfl : range.base = base := by simpa using List.find?_some hfind
      by_cases howner : range.isPhysicalOwner = true
      · -- a region of `allocMem`: all its pages are there
        have hregion := hok p range hp hfind howner
        obtain ⟨r, hr, hused, hbase⟩ := hinv.regions _ hregion
        obtain rfl := hinv.contiguous.eq_of_base start_aligned hr hrange hbase
        have howned : ∀ v, r.Covers v → s.owner (pageBehind p.pageDirectory v) = some (pid, v) ∧
            ∃ e, p.pageDirectory.entry v = some e := by
          intro v hv
          obtain ⟨e, he, hpage⟩ := hinv.owned r hrange hused hregion v hv
          rw [entry_eq hp] at he
          refine ⟨?_, e, he⟩
          rw [pageBehind, he]
          exact hpage
        have hpages := pagesBehind_eq fun v hlo hhi => (howned v ⟨hlo, hhi⟩).2
        have hmem : ∀ page ∈ (List.range' (pageOf r.base) r.pages).map (pageBehind p.pageDirectory),
            ∃ v, r.Covers v ∧ s.owner page = some (pid, v) := by
          intro page hpage
          obtain ⟨v, hv, rfl⟩ := List.mem_map.1 hpage
          rw [List.mem_range'_1] at hv
          exact ⟨v, hv, (howned v hv).1⟩
        rw [if_pos howner, hpages, map_some]
        refine ⟨_, _, rfl, h.unmapRange hp hrange hmem, ?_, ?_, ?_⟩
        · refine List.Nodup.map_on (fun v hv w hw heq => ?_) List.nodup_range'
          rw [List.mem_range'_1] at hv hw
          have hv' := (howned v hv).1
          rw [heq, (howned w hw).1] at hv'
          cases hv'
          rfl
        · intro page hpage
          obtain ⟨v, -, hv⟩ := hmem page hpage
          exact ⟨(h.taken page _ hv).2, v, hv⟩
        · intro page hpage
          show (s.freePages _).owner page = none
          rw [(freePages_eq s _).2.2, if_pos hpage]
      · rw [if_neg howner, map_some]
        refine ⟨_, _, rfl, h.unmapRange hp hrange ?_, List.nodup_nil, ?_, ?_⟩
        all_goals
          intro page hpage
          cases hpage

theorem Inv.call (h : s.Inv) {call : MemoryCall} (hok : call.KeepsPages s)
    (hcall : s.call call = some (s', freed)) : s'.Inv := by
  cases call with
  | allocMem pid size =>
    obtain ⟨s1, hresult, heq⟩ := map_eq_some_iff.1 hcall
    cases heq
    exact h.allocMem hresult
  | shareMem pid memory size target =>
    obtain ⟨s1, hresult, heq⟩ := map_eq_some_iff.1 hcall
    cases heq
    exact h.shareMem hresult
  | mapMmio pid physical size =>
    obtain ⟨s1, hresult, heq⟩ := map_eq_some_iff.1 hcall
    cases heq
    exact h.mapMmio hresult
  | unmap pid base =>
    obtain ⟨s1, freed1, hunmap, hinv, -⟩ := h.unmap hok
    cases hunmap.symm.trans hcall
    exact hinv

theorem reachable_inv (hs : memoryCalls.Reachable (fun s call => call.KeepsPages s) s) : s.Inv := by
  refine hs.invariant (fun s (h : s.Initial) => h.inv) ?_
  intro s call s' h hok hstep
  obtain ⟨⟨s1, freed⟩, hcall, rfl⟩ := map_eq_some_iff.1 hstep
  exact h.call hok hcall

end MemoryState

/-- In every run whose calls meet the condition, page 0 is never free, and every further such `unmap`
frees each of its pages once, all allocated with `allocMem` by its process and not freed before. -/
theorem unmap_frees_allocated {s : MemoryState}
    (hs : memoryCalls.Reachable (fun s call => call.KeepsPages s) s) :
    s.allocator.bitmap 0 = false ∧
      ∀ pid base, (MemoryCall.unmap pid base).KeepsPages s →
        ∃ s' freed, s.unmap pid base = some (s', freed) ∧ FreesAllocated s s' pid freed := by
  have hinv := MemoryState.reachable_inv hs
  refine ⟨hinv.zero, fun pid base hok => ?_⟩
  obtain ⟨s', freed, hunmap, -, hfrees⟩ := hinv.unmap hok
  exact ⟨s', freed, hunmap, hfrees⟩

/-- Process 1 alone, with its whole area of virtual ranges, and the pages from 1 MiB on free. -/
def MemoryState.oneProcess : MemoryState where
  allocator := ⟨fun page => decide (0x100 ≤ page)⟩
  process pid := if pid = 1 then some
    { securityLevel := .application
      virtualRanges :=
        AddressRangePool.initializePool constUserVirtualRangesStart constKernelAreaStart
      pageDirectory := PageDirectory.empty } else none
  owner _ := none

theorem MemoryState.oneProcess_initial : oneProcess.Initial := by
  have hprocess : ∀ pid p, oneProcess.process pid = some p →
      p = { securityLevel := .application
            virtualRanges :=
              AddressRangePool.initializePool constUserVirtualRangesStart constKernelAreaStart
            pageDirectory := PageDirectory.empty } := by
    intro pid p hp
    simp only [oneProcess] at hp
    split at hp
    · cases hp
      rfl
    · cases hp
  refine ⟨by decide, fun _ => rfl, ?_, ?_, ?_⟩
  · intro pid p hp
    rw [hprocess pid p hp]
  · intro pid p hp
    rw [hprocess pid p hp]
    exact AddressRangePool.initializePool_contiguous
  · intro pid p hp v _
    rw [hprocess pid p hp]
    rfl

theorem unmap_frees_allocated_region :
    ∃ s s' freed, memoryCalls.Reachable (fun s call => call.KeepsPages s) s ∧
      (MemoryCall.unmap 1 0xA0000000).KeepsPages s ∧
      s.unmap 1 0xA0000000 = some (s', freed) ∧ freed = [0x100, 0x102] ∧
      s.allocator.bitmap 0 = false ∧ FreesAllocated s s' 1 freed := by
  obtain ⟨s, hs, hok, ⟨s', freed⟩, hunmap, rfl⟩ :
      ∃ s ∈ memoryCalls.runGuarded (fun s call => call.KeepsPages s) .oneProcess [.allocMem 1 0x2000],
        (MemoryCall.unmap 1 0xA0000000).KeepsPages s ∧
        ∃ r ∈ s.unmap 1 0xA0000000, r.2 = [0x100, 0x102] := by
    decide +kernel
  have hreach := System.Reachable.of_runGuarded (.init MemoryState.oneProcess_initial) hs
  obtain ⟨hzero, hall⟩ := unmap_frees_allocated hreach
  obtain ⟨s', freed, hcall, hfrees⟩ := hall 1 0xA0000000 hok
  cases hunmap.symm.trans hcall
  exact ⟨s, s', _, hreach, hok, hcall, rfl, hzero, hfrees⟩

/-- Two regions of one page; the first is unmapped twice. Its range is still there, unused, and page
0 becomes free. -/
theorem unmap_twice_frees_page_zero :
    ∃ s s', memoryCalls.Reachable (fun _ _ => True) s ∧
      s.unmap 1 0xA0000000 = some (s', [0]) ∧ s'.allocator.bitmap 0 = true ∧
      ¬ FreesAllocated s s' 1 [0] := by
  obtain ⟨s, hs, ⟨s', freed⟩, hunmap, rfl, hzero⟩ :
      ∃ s ∈ memoryCalls.run MemoryState.oneProcess
          [.allocMem 1 0x1000, .allocMem 1 0x1000, .unmap 1 0xA0000000],
        ∃ r ∈ s.unmap 1 0xA0000000, r.2 = [0] ∧ r.1.allocator.bitmap 0 = true := by
    decide +kernel
  refine ⟨s, s', System.reachable_of_run MemoryState.oneProcess_initial hs, hunmap, hzero,
    fun hfrees => ?_⟩
  exact (hfrees.allocated 0 List.mem_cons_self).1 rfl

end MeetixOS.Kernel
