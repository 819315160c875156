import MeetixOS.Kernel.Memory.MemoryCalls

/-! # Sharing memory with another process

What `shareMem` maps into its target. The bound `memory + pages * PAGE_SIZE` is computed in 32 bits and
wraps for a large size, but then the pool of the target, which has the addresses from
`CONST_USER_VIRTUAL_RANGES_START` up to `CONST_KERNEL_AREA_START`, has no range of that many pages. -/

open Option (bind_eq_some_iff map_eq_some_iff map_some)

namespace MeetixOS.Kernel

open MeetixOS.Lib

namespace MemoryState

variable {s s' : MemoryState} {pid target : Pid} {p : ProcessMemory}

/-! ## The range of the target -/

/-- The part of `shareMem` before the loop: the target, its ranges with the new one, and the base of the
new range. -/
def shareRange (s : MemoryState) (memory size : Nat) (target : Pid) :
    Option (ProcessMemory × AddressRangePool × Nat) :=
  let pages := pageAlignUp size / pageSize
  if memory < constKernelAreaStart ∧ u32 (memory + pages * pageSize) ≤ constKernelAreaStart then
    (s.process target).bind fun t =>
      (t.virtualRanges.allocate pages 0).map fun (virtualRanges, base) => (t, virtualRanges, base)
  else none

/-- `m_shared_ptr` after `shareMem`. -/
def sharedPtr (s : MemoryState) (memory size : Nat) (target : Pid) : Nat :=
  match s.shareRange memory size target with
  | none => 0
  | some (_, _, base) => base

theorem shareMem_eq (s : MemoryState) (pid : Pid) (memory size : Nat) (target : Pid) :
    s.shareMem pid memory size target =
      match s.shareRange memory size target with
      | none => some s
      | some (t, virtualRanges, base) =>
        sharePages pid target memory base (pageAlignUp size / pageSize)
          (s.setProcess target { t with virtualRanges }) := by
  unfold shareMem shareRange
  by_cases hbound : memory < constKernelAreaStart ∧
    u32 (memory + pageAlignUp size / pageSize * pageSize) ≤ constKernelAreaStart
  · simp only [if_pos hbound]
    cases s.process target with
    | none => rfl
    | some t =>
      simp only [Option.bind_some]
      cases t.virtualRanges.allocate (pageAlignUp size / pageSize) 0 <;> rfl
  · simp [if_neg hbound]

/-! ## Ranges in every run -/

/-- The ranges of every process fill its area. -/
def RangesContiguous (s : MemoryState) : Prop :=
  ∀ pid p, s.process pid = some p →
    p.virtualRanges.Contiguous constKernelAreaStart constUserVirtualRangesStart

/-- The ranges of all processes are as before. -/
def SameRanges (s s' : MemoryState) : Prop :=
  ∀ pid, (s'.process pid).map ProcessMemory.virtualRanges =
    (s.process pid).map ProcessMemory.virtualRanges

theorem SameRanges.contiguous (h : SameRanges s s') (hs : s.RangesContiguous) :
    s'.RangesContiguous := by
  intro pid p hp
  have hsame := h pid
  rw [hp, map_some] at hsame
  obtain ⟨p', hp', hranges⟩ := map_eq_some_iff.1 hsame.symm
  rw [← hranges]
  exact hs pid p' hp'

theorem sameRanges_setDirectory (hp : s.process pid = some p) (a : PPallocator)
    (owner : Nat → Option (Pid × Nat)) (directory : PageDirectory) :
    SameRanges s (({ s with allocator := a, owner } : MemoryState).setProcess pid
      { p with pageDirectory := directory }) := by
  intro q
  simp only [setProcess, Function.update_apply]
  split
  next hq => rw [hq, hp, map_some, map_some]
  · rfl

theorem RangesContiguous.setProcess (h : s.RangesContiguous)
    (hranges : p.virtualRanges.Contiguous constKernelAreaStart constUserVirtualRangesStart) :
    (s.setProcess pid p).RangesContiguous := by
  intro q p' hp'
  simp only [MemoryState.setProcess, Function.update_apply] at hp'
  split at hp'
  · cases hp'
    exact hranges
  · exact h q p' hp'

theorem allocPages_sameRanges {virt n : Nat} (hloop : allocPages pid virt n s = some s') :
    SameRanges s s' := by
  induction n generalizing s virt with
  | zero =>
    cases hloop
    exact fun _ => rfl
  | succ n ih =>
    obtain ⟨p, hp, hloop⟩ := bind_eq_some_iff.1 hloop
    obtain ⟨⟨a, page⟩, -, hloop⟩ := bind_eq_some_iff.1 hloop
    obtain ⟨⟨a', directory, written⟩, -, hloop⟩ := bind_eq_some_iff.1 hloop
    have hfirst := sameRanges_setDirectory hp a'
      (Function.update s.owner page (some (pid, pageOf virt))) directory
    exact fun q => (ih hloop q).trans (hfirst q)

theorem mmioPages_sameRanges {virt physical n : Nat}
    (hloop : mmioPages pid virt physical n s = some s') : SameRanges s s' := by
  induction n generalizing s virt physical with
  | zero =>
    cases hloop
    exact fun _ => rfl
  | succ n ih =>
    obtain ⟨p, hp, hloop⟩ := bind_eq_some_iff.1 hloop
    obtain ⟨⟨a', directory, written⟩, -, hloop⟩ := bind_eq_some_iff.1 hloop
    have hfirst := sameRanges_setDirectory hp a' s.owner directory
    exact fun q => (ih hloop q).trans (hfirst q)

variable {memory virt n : Nat}

theorem sharePages_sameRanges
    (hloop : sharePages pid target memory virt n s = some s') : SameRanges s s' := by
  induction n generalizing s virt memory with
  | zero =>
    cases hloop
    exact fun _ => rfl
  | succ n ih =>
    obtain ⟨p, -, hloop⟩ := bind_eq_some_iff.1 hloop
    obtain ⟨page, -, hloop⟩ := bind_eq_some_iff.1 hloop
    obtain ⟨t, ht, hloop⟩ := bind_eq_some_iff.1 hloop
    obtain ⟨⟨a', directory, written⟩, -, hloop⟩ := bind_eq_some_iff.1 hloop
    have hfirst := sameRanges_setDirectory ht a' s.owner directory
    exact fun q => (ih hloop q).trans (hfirst q)

theorem allocate_bounds {pool pool' : AddressRangePool} {pages flags base : Nat}
    (h : pool.Contiguous constKernelAreaStart constUserVirtualRangesStart)
    (halloc : pool.allocate pages flags = some (pool', base)) :
    pool'.Contiguous constKernelAreaStart constUserVirtualRangesStart ∧ base % pageSize = 0 ∧
      constUserVirtualRangesStart ≤ base ∧ base + pages * pageSize ≤ constKernelAreaStart := by
  obtain ⟨hcontiguous, hallocated⟩ := h.allocate_spec start_aligned halloc
  obtain ⟨haligned, hlo, hhi, -⟩ := hcontiguous.bounds start_aligned hallocated.mem
  have hpages : pages ≤ if pages = 0 then 1 else pages := by split <;> omega
  exact ⟨hcontiguous, haligned, hlo, (Nat.add_le_add_left (Nat.mul_le_mul_right _ hpages) _).trans hhi⟩

theorem RangesContiguous.shareRange (h : s.RangesContiguous) {memory size base : Nat}
    {t : ProcessMemory} {virtualRanges : AddressRangePool}
    (hrange : s.shareRange memory size target = some (t, virtualRanges, base)) :
    s.process target = some t ∧ memory < constKernelAreaStart ∧
      memory + pageAlignUp size / pageSize * pageSize ≤ constKernelAreaStart ∧
      virtualRanges.Contiguous constKernelAreaStart constUserVirtualRangesStart ∧
      base % pageSize = 0 ∧ constUserVirtualRangesStart ≤ base ∧
      base + pageAlignUp size / pageSize * pageSize ≤ constKernelAreaStart := by
  unfold MemoryState.shareRange at hrange
  simp only at hrange
  split at hrange
  next hbound =>
    obtain ⟨t', ht, hrange⟩ := bind_eq_some_iff.1 hrange
    obtain ⟨⟨virtualRanges', base'⟩, halloc, heq⟩ := map_eq_some_iff.1 hrange
    cases heq
    obtain ⟨hcontiguous, haligned, hlo, hhi⟩ := allocate_bounds (h target t ht) halloc
    refine ⟨ht, hbound.1, ?_, hcontiguous, haligned, hlo, hhi⟩
    -- the range has less than 2^30 bytes, so the sum did not wrap
    obtain ⟨hmemory, hsum⟩ := hbound
    simp only [constKernelAreaStart, constUserVirtualRangesStart] at *
    rwa [u32_of_lt (by omega)] at hsum
  · cases hrange

theorem RangesContiguous.call (h : s.RangesContiguous) {call : MemoryCall} {freed : List Nat}
    (hcall : s.call call = some (s', freed)) : s'.RangesContiguous := by
  cases call with
  | allocMem pid size =>
    obtain ⟨s1, hresult, heq⟩ := map_eq_some_iff.1 hcall
    cases heq
    unfold MemoryState.allocMem at hresult
    simp only at hresult
    split at hresult
    · cases hresult
      exact h
    next p hp =>
      split at hresult
      · split at hresult
        · cases hresult
          exact h
        next virtualRanges base halloc =>
          obtain ⟨s2, hloop, hresult⟩ := bind_eq_some_iff.1 hresult
          obtain ⟨p2, hp2, hresult⟩ := bind_eq_some_iff.1 hresult
          cases hresult
          have htaken : (s.setProcess pid { p with virtualRanges }).RangesContiguous :=
            h.setProcess (allocate_bounds (h pid p hp) halloc).1
          have hmapped := (allocPages_sameRanges hloop).contiguous htaken
          exact hmapped.setProcess (hmapped pid p2 hp2)
      · cases hresult
        exact h
  | shareMem pid memory size target =>
    obtain ⟨s1, hresult, heq⟩ := map_eq_some_iff.1 hcall
    cases heq
    rw [shareMem_eq] at hresult
    split at hresult
    · cases hresult
      exact h
    next t virtualRanges base hrange =>
      obtain ⟨-, -, -, hcontiguous, -⟩ := h.shareRange hrange
      exact (sharePages_sameRanges hresult).contiguous (h.setProcess hcontiguous)
  | mapMmio pid physical size =>
    obtain ⟨s1, hresult, heq⟩ := map_eq_some_iff.1 hcall
    cases heq
    unfold MemoryState.mapMmio at hresult
    simp only at hresult
    split at hresult
    · cases hresult
      exact h
    next p hp =>
      split at hresult
      · split at hresult
        · cases hresult
          exact h
        next virtualRanges base halloc =>
          split at hresult
          · cases hresult
          · exact (mmioPages_sameRanges hresult).contiguous
              (h.setProcess (allocate_bounds (h pid p hp) halloc).1)
      · cases hresult
        exact h
  | unmap pid base =>
    replace hcall : s.unmap pid base = some (s', freed) := hcall
    unfold MemoryState.unmap at hcall
    split at hcall
    · cases hcall
      exact h
    next p hp =>
      split at hcall
      · cases hcall
        exact h
      next range hfind =>
        obtain ⟨pages, -, heq⟩ := map_eq_some_iff.1 hcall
        cases heq
        have hrange := List.mem_of_find?_eq_some hfind
        have hfreed : (s.freePages freed).RangesContiguous := by
          intro q p' hp'
          rw [(freePages_eq s freed).1] at hp'
          exact h q p' hp'
        refine hfreed.setProcess ?_
        cases hused : range.used with
        | true => exact ((h pid p hp).free_spec start_aligned hrange hused).1
        | false =>
          rw [(h pid p hp).free_unused start_aligned hrange hused]
          exact h pid p hp

theorem reachable_rangesContiguous (hs : memoryCalls.Reachable (fun _ _ => True) s) :
    s.RangesContiguous := by
  refine hs.invariant (fun s (h : s.Initial) => h.contiguous) ?_
  intro s call s' h _ hstep
  obtain ⟨⟨s1, freed⟩, hcall, rfl⟩ := map_eq_some_iff.1 hstep
  exact h.call hcall

/-! ## The pages that are mapped -/

theorem entry_setDirectory (s : MemoryState) (pid : Pid) (p : ProcessMemory) (a : PPallocator)
    (q : Pid) (v : Nat) :
    (({ s with allocator := a } : MemoryState).setProcess pid p).entry q v =
      if q = pid then p.pageDirectory.entry v else s.entry q v := by
  simp only [entry, setProcess, Function.update_apply]
  split <;> rfl

/-- What is behind `memory` in the space of `pid` while the `n` pages of the target from `virt` on
change. -/
def ReadBehind (s : MemoryState) (pid target : Pid) (virt n memory page : Nat) : Prop :=
  ∃ (s1 : MemoryState) (p : ProcessMemory),
    (∀ q v, (q = target → v < pageOf virt ∨ pageOf virt + n ≤ v) → s1.entry q v = s.entry q v) ∧
    s1.process pid = some p ∧ AddressSpace.virtualToPhysical p.pageDirectory memory = some page

/-- The entries that changed are entries of the `n` pages of the target from `virt` on, and behind each
is what was behind its page from `memory` on. -/
def Shares (s s' : MemoryState) (pid target : Pid) (memory virt n : Nat) : Prop :=
  ∀ q v, s'.entry q v = s.entry q v ∨
    q = target ∧ ∃ i < n, v = pageOf virt + i ∧ ∃ page,
      ReadBehind s pid target virt n (memory + i * pageSize) page ∧
        s'.entry q v = some ⟨page, defaultUserPageFlags⟩

theorem sharePages_shares
    (hloop : sharePages pid target memory virt n s = some s') :
    Shares s s' pid target memory virt n := by
  induction n generalizing s virt memory with
  | zero =>
    cases hloop
    exact fun _ _ => .inl rfl
  | succ n ih =>
    obtain ⟨p, hp, hloop⟩ := bind_eq_some_iff.1 hloop
    obtain ⟨page, hpage, hloop⟩ := bind_eq_some_iff.1 hloop
    obtain ⟨t, ht, hloop⟩ := bind_eq_some_iff.1 hloop
    obtain ⟨⟨a', directory, written⟩, hmap, hloop⟩ := bind_eq_some_iff.1 hloop
    have hfirst := entry_setDirectory s target { t with pageDirectory := directory } a'
    have hdirectory : ∀ v, directory.entry v = t.pageDirectory.entry v ∨
        v = pageOf virt ∧ directory.entry v = some ⟨page, defaultUserPageFlags⟩ := by
      intro v
      rcases (AddressSpace.map_spec hmap).2 with ⟨-, hentry⟩ | ⟨-, rfl, -⟩
      · rw [hentry]
        split
        next hv => exact .inr ⟨hv, rfl⟩
        · exact .inl rfl
      · exact .inl rfl
    intro q v
    rcases ih hloop q v with hsame | ⟨rfl, i, hi, hv, page', ⟨s1, p1, hframe, hp1, hread⟩, hentry⟩
    · -- nothing is mapped there later: it is what the first round left
      rw [hsame, hfirst]
      split
      next hq =>
        subst hq
        rcases hdirectory v with hkept | ⟨hv, hnew⟩
        · exact .inl (hkept.trans (entry_eq ht v).symm)
        · refine .inr ⟨rfl, 0, Nat.succ_pos n, hv, page, ⟨s, p, fun _ _ _ => rfl, hp, ?_⟩, hnew⟩
          exact hpage
      · exact .inl rfl
    · rw [pageOf_add_pageSize] at hv
      refine .inr ⟨rfl, i + 1, by omega, by omega, page', ⟨s1, p1, fun q' w hw => ?_, hp1, ?_⟩, hentry⟩
      · have hout : q' = q → w < pageOf (virt + pageSize) ∨ pageOf (virt + pageSize) + n ≤ w := by
          intro hq
          have hout := hw hq
          rw [pageOf_add_pageSize]
          omega
        rw [hframe q' w hout, hfirst]
        split
        next hq =>
          subst hq
          rcases hdirectory w with hkept | ⟨hw', -⟩
          · exact hkept.trans (entry_eq ht w).symm
          · have hout := hw rfl
            omega
        · rfl
      · have hsum : memory + (i + 1) * pageSize = memory + pageSize + i * pageSize := by
          rw [Nat.succ_mul]
          omega
        rw [hsum]
        exact hread

theorem Shares.congr {s1 : MemoryState}
    (h : Shares s1 s' pid target memory virt n) (hsame : ∀ q v, s1.entry q v = s.entry q v) :
    Shares s s' pid target memory virt n := by
  intro q v
  rcases h q v with hkept | ⟨hq, i, hi, hv, page, ⟨s2, p, hframe, hp, hread⟩, hentry⟩
  · exact .inl (hkept.trans (hsame q v))
  · exact .inr ⟨hq, i, hi, hv, page,
      ⟨s2, p, fun q w hw => (hframe q w hw).trans (hsame q w), hp, hread⟩, hentry⟩

end MemoryState

open MemoryState in
/-- In every run, every page that `shareMem` maps lies below the kernel's area. If it returns null it
has done nothing; else only the entries of the target's new range have changed, to what the caller has
behind the region's. -/
theorem shareMem_below_kernel {s : MemoryState}
    (hs : memoryCalls.Reachable (fun _ _ => True) s) (pid target : Pid) (memory size : Nat) :
    (s.sharedPtr memory size target ≠ 0 → ∀ i < pageAlignUp size / pageSize,
        (pageOf (memory + i * pageSize) + 1) * pageSize ≤ constKernelAreaStart) ∧
      ∀ s', s.shareMem pid memory size target = some s' →
        (s.sharedPtr memory size target = 0 → s' = s) ∧
        (s.sharedPtr memory size target ≠ 0 →
          Shares s s' pid target memory (s.sharedPtr memory size target)
            (pageAlignUp size / pageSize)) := by
  have hcontiguous := reachable_rangesContiguous hs
  cases hrange : s.shareRange memory size target with
  | none =>
    have hnull : s.sharedPtr memory size target = 0 := by rw [sharedPtr, hrange]
    rw [shareMem_eq, hrange, hnull]
    refine ⟨fun h => absurd rfl h, fun s' hcall => ⟨fun _ => ?_, fun h => absurd rfl h⟩⟩
    exact (Option.some.inj hcall).symm
  | some range =>
    obtain ⟨t, virtualRanges, base⟩ := range
    have hptr : s.sharedPtr memory size target = base := by rw [sharedPtr, hrange]
    obtain ⟨ht, -, hregion, -, -, hbase, -⟩ := hcontiguous.shareRange hrange
    rw [shareMem_eq, hrange, hptr]
    refine ⟨fun _ i hi => ?_, fun s' hcall => ⟨fun hnull => ?_, fun _ => ?_⟩⟩
    · have hlast : (i + 1) * pageSize ≤ pageAlignUp size / pageSize * pageSize :=
        Nat.mul_le_mul_right _ hi
      have hpage : (pageOf (memory + i * pageSize) + 1) * pageSize ≤ memory + (i + 1) * pageSize := by
        simp only [pageOf, pageSize]
        omega
      omega
    · rw [hnull] at hbase
      exact absurd hbase (by decide)
    · refine (sharePages_shares hcall).congr fun q v => ?_
      rw [entry_setDirectory s target { t with virtualRanges } s.allocator]
      split
      next hq => rw [hq, entry_eq ht]
      · rfl

theorem shareMem_below_kernel_self :
    ∃ s, memoryCalls.Reachable (fun _ _ => True) s ∧
      s.sharedPtr 0xA0000000 0x1800 1 = 0xA0002000 ∧
      ∀ i < pageAlignUp 0x1800 / pageSize,
        (pageOf (0xA0000000 + i * pageSize) + 1) * pageSize ≤ constKernelAreaStart := by
  obtain ⟨s, hrun, hptr⟩ : ∃ s ∈ memoryCalls.run MemoryState.oneProcess [.allocMem 1 0x2000],
      s.sharedPtr 0xA0000000 0x1800 1 = 0xA0002000 := by
    decide +kernel
  have hs := System.reachable_of_run MemoryState.oneProcess_initial hrun
  exact ⟨s, hs, hptr, (shareMem_below_kernel hs 1 1 0xA0000000 0x1800).1 (by rw [hptr]; decide)⟩

-- the sum wraps to 0 and passes the check, and the pool has no range of 0xFFFFF pages
example : u32 (0x1000 + pageAlignUp 0xFFFFF000 / pageSize * pageSize) = 0 ∧
    MemoryState.oneProcess.sharedPtr 0x1000 0xFFFFF000 1 = 0 := by decide +kernel

end MeetixOS.Kernel
