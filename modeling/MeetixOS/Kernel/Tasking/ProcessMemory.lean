import Mathlib.Data.List.Nodup
import MeetixOS.Kernel.Tasking.ThreadManager

/-! # What a process takes and gives back

Every function that puts pages behind a virtual area allocates them first, and none overrides an entry.
`Filled` says what one or several of them did to the frames and to a page directory: the entries that were
there stay, the new ones lead to different pages that were free, and only their counts change. -/

open Option (bind_eq_bind bind_eq_some_iff bind_some isSome_iff_exists map_eq_some_iff)

namespace MeetixOS.Kernel

open AddressSpace

/-- The number of pages below `CONST_USER_VIRTUAL_RANGES_START`. -/
def lowPages : Nat := constUserVirtualRangesStart / pageSize

/-! ## Filling -/

/-- What a function did that only allocates pages and maps them. -/
structure Filled (f f' : Frames) (d d' : PageDirectory) : Prop where
  kept : ∀ v e, d.entry v = some e → d'.entry v = some e
  added : ∀ v e, d.entry v = none → d'.entry v = some e →
    e.flags = defaultUserPageFlags ∧ e.page ≠ 0 ∧ f.allocator.bitmap e.page = true ∧
      f'.allocator.bitmap e.page = false
  counted : ∀ v e, v < lowPages → d.entry v = none → d'.entry v = some e →
    f'.tracker.count e.page = s16 (f.tracker.count e.page + 1)
  apart : ∀ v w e e', d.entry v = none → d.entry w = none → d'.entry v = some e →
    d'.entry w = some e' → e.page = e'.page → w = v
  taken : ∀ q, f.allocator.bitmap q = false → f'.allocator.bitmap q = false
  count : ∀ q, f.allocator.bitmap q = false ∨ f'.allocator.bitmap q = true →
    f'.tracker.count q = f.tracker.count q
  tables : ∀ t, (d t).isSome → (d' t).isSome

namespace Filled

variable {f f' f'' : Frames} {d d' d'' : PageDirectory}

theorem refl (f : Frames) (d : PageDirectory) : Filled f f d d where
  kept _ _ h := h
  added v e hnone h := by rw [hnone] at h; cases h
  counted v e _ hnone h := by rw [hnone] at h; cases h
  apart v w e e' hnone _ h := by rw [hnone] at h; cases h
  taken _ h := h
  count _ _ := rfl
  tables _ h := h

theorem free (h : Filled f f' d d') {q : Nat} (hq : f'.allocator.bitmap q = true) :
    f.allocator.bitmap q = true := by
  by_contra hnot
  rw [h.taken q (Bool.not_eq_true _ ▸ hnot)] at hq
  cases hq

theorem trans (h : Filled f f' d d') (h' : Filled f' f'' d' d'') : Filled f f'' d d'' where
  kept v e hv := h'.kept v e (h.kept v e hv)
  added v e hnone hv := by
    cases hentry : d'.entry v with
    | none =>
      obtain ⟨hflags, hne, hfree, htaken⟩ := h'.added v e hentry hv
      exact ⟨hflags, hne, h.free hfree, htaken⟩
    | some e' =>
      cases (h'.kept v e' hentry).symm.trans hv
      obtain ⟨hflags, hne, hfree, htaken⟩ := h.added v e hnone hentry
      exact ⟨hflags, hne, hfree, h'.taken _ htaken⟩
  counted v e hlow hnone hv := by
    cases hentry : d'.entry v with
    | none =>
      rw [h'.counted v e hlow hentry hv, h.count e.page (Or.inr (h'.added v e hentry hv).2.2.1)]
    | some e' =>
      cases (h'.kept v e' hentry).symm.trans hv
      rw [h'.count e.page (Or.inl (h.added v e hnone hentry).2.2.2), h.counted v e hlow hnone hentry]
  apart v w e e' hv hw hve hwe heq := by
    -- a page of the first function is taken when the second one starts
    have hmixed : ∀ v w e e', d.entry v = .none → d'.entry v = some e → d'.entry w = .none →
        d''.entry w = some e' → e.page ≠ e'.page := by
      intro v w e e' hv hve hw hwe heq
      have hfree := (h'.added w e' hw hwe).2.2.1
      rw [← heq, (h.added v e hv hve).2.2.2] at hfree
      cases hfree
    cases hentry : d'.entry v with
    | none =>
      cases hentry' : d'.entry w with
      | none => exact h'.apart v w e e' hentry hentry' hve hwe heq
      | some e1 =>
        cases (h'.kept w e1 hentry').symm.trans hwe
        exact absurd heq.symm (hmixed w v e' e hw hentry' hentry hve)
    | some e1 =>
      cases (h'.kept v e1 hentry).symm.trans hve
      cases hentry' : d'.entry w with
      | none => exact absurd heq (hmixed v w e e' hv hentry hentry' hwe)
      | some e2 =>
        cases (h'.kept w e2 hentry').symm.trans hwe
        exact h.apart v w e e' hv hw hentry hentry' heq
  taken q hq := h'.taken q (h.taken q hq)
  count q hq := by
    rcases hq with hq | hq
    · rw [h'.count q (Or.inl (h.taken q hq)), h.count q (Or.inl hq)]
    · rw [h'.count q (Or.inr hq), h.count q (Or.inr (h'.free hq))]
  tables t ht := h'.tables t (h.tables t ht)

end Filled

variable {page n : Nat} {a : PPallocator} {counted : Bool}

theorem filled_allocate {f : Frames} (d : PageDirectory)
    (h : f.allocator.allocate = some (a, page)) : Filled f { f with allocator := a } d d := by
  obtain ⟨-, -, hbitmap⟩ := PPallocator.allocate_spec h
  have hrefl := Filled.refl f d
  refine ⟨hrefl.kept, ?_, ?_, ?_, ?_, fun _ _ => rfl, hrefl.tables⟩
  · intro v e hnone hv
    rw [hnone] at hv
    cases hv
  · intro v e _ hnone hv
    rw [hnone] at hv
    cases hv
  · intro v w e e' hnone _ hv
    rw [hnone] at hv
    cases hv
  · intro q hq
    rw [hbitmap, Function.update_apply]
    split
    · rfl
    · exact hq

variable {d d' : PageDirectory}

theorem filled_map {f : Frames} {a a' : PPallocator} {virt page : Nat}
    {written : Bool} (counted : Bool) (halloc : f.allocator.allocate = some (a, page))
    (hmap : map a d virt page false = some (a', d', written))
    (hcounted : counted = true ∨ lowPages ≤ pageOf virt) :
    Filled f (if counted then ({ f with allocator := a' } : Frames).increment page
      else { f with allocator := a' }) d d' := by
  obtain ⟨hfree, hne, hbitmap⟩ := PPallocator.allocate_spec halloc
  obtain ⟨htable, hentry⟩ := map_spec hmap
  have hallocator : (if counted then ({ f with allocator := a' } : Frames).increment page
      else { f with allocator := a' }).allocator = a' := by split <;> rfl
  have hcount : ∀ q, q ≠ page → (if counted then ({ f with allocator := a' } : Frames).increment page
      else { f with allocator := a' }).tracker.count q = f.tracker.count q := by
    intro q hq
    split
    · exact (PPreferenceTracker.count_increment ..).trans (if_neg hq)
    · rfl
  have htaken : ∀ q, a.bitmap q = false → a'.bitmap q = false := by
    rcases htable with rfl | ⟨table, halloc'⟩
    · exact fun _ h => h
    · exact (filled_allocate (f := { f with allocator := a }) d halloc').taken
  have hpage : a'.bitmap page = false := htaken page (by rw [hbitmap, Function.update_self])
  have hkeeps : ∀ q, f.allocator.bitmap q = false → a'.bitmap q = false :=
    fun q hq => htaken q ((filled_allocate d halloc).taken q hq)
  -- the entries that are new lead to the page
  have hnew : ∀ v e, d.entry v = none → d'.entry v = some e →
      v = pageOf virt ∧ e = ⟨page, defaultUserPageFlags⟩ := by
    intro v e hnone hv
    rcases hentry with ⟨-, hentry⟩ | ⟨-, rfl, -⟩
    · rw [hentry v] at hv
      split at hv
      next heq =>
        cases hv
        exact ⟨heq, rfl⟩
      · rw [hnone] at hv
        cases hv
    · rw [hnone] at hv
      cases hv
  refine ⟨?_, ?_, ?_, ?_, ?_, ?_, fun t ht => map_isSome hmap ht⟩
  · intro v e hv
    rcases hentry with ⟨rfl, hentry⟩ | ⟨-, rfl, -⟩
    · have hnone := map_entry_none hmap
      rw [hentry v, if_neg]
      · exact hv
      · rintro rfl
        rw [hnone] at hv
        cases hv
    · exact hv
  · intro v e hnone hv
    obtain ⟨-, rfl⟩ := hnew v e hnone hv
    rw [hallocator]
    exact ⟨rfl, hne, hfree, hpage⟩
  · intro v e hlow hnone hv
    obtain ⟨rfl, rfl⟩ := hnew v e hnone hv
    rw [if_pos (hcounted.resolve_right (Nat.not_le.2 hlow))]
    exact (PPreferenceTracker.count_increment ..).trans (if_pos rfl)
  · intro v w e e' hv hw hve hwe _
    rw [(hnew v e hv hve).1, (hnew w e' hw hwe).1]
  · rw [hallocator]
    exact hkeeps
  · intro q hq
    refine hcount q ?_
    rintro rfl
    rw [hallocator] at hq
    rcases hq with hq | hq
    · rw [hfree] at hq
      cases hq
    · rw [hpage] at hq
      cases hq

variable {virt : Nat} {f f' : Frames}

theorem mapFresh_spec
    (h : f.mapFresh counted n d virt = some (f', d'))
    (hcounted : counted = true ∨ lowPages ≤ pageOf virt) :
    Filled f f' d d' ∧
      (∀ i < n, (d'.entry (pageOf virt + i)).isSome) ∧
      (0 < n → virt % pageSize = 0 ∧ pageOf virt / 1024 ≠ 0 ∧
        virt + n * pageSize ≤ constKernelAreaStart) := by
  induction n generalizing f d virt with
  | zero =>
    cases h
    exact ⟨Filled.refl .., fun i hi => absurd hi (Nat.not_lt_zero i),
      fun hpos => absurd hpos (Nat.lt_irrefl 0)⟩
  | succ n ih =>
    simp only [Frames.mapFresh, bind_eq_bind, bind_eq_some_iff] at h
    obtain ⟨⟨a, page⟩, halloc, ⟨a', d1, written⟩, hmap, h⟩ := h
    obtain ⟨haligned, htable, hbound⟩ := map_bounds hmap
    have hnext := pageOf_add_pageSize virt
    have hfirst := filled_map counted halloc hmap hcounted
    obtain ⟨hrest, hsome, hbounds⟩ := ih h (hcounted.imp_right fun hlow => by rw [hnext]; omega)
    refine ⟨hfirst.trans hrest, ?_, fun _ => ⟨haligned, htable, ?_⟩⟩
    · intro i hi
      cases i with
      | succ i =>
        have := hsome i (by omega)
        rwa [hnext, Nat.add_assoc, Nat.add_comm 1 i] at this
      | zero =>
        obtain ⟨-, ⟨-, hentry⟩ | ⟨-, rfl, -, hthere⟩⟩ := map_spec hmap
        · have hfirst := hentry (pageOf virt)
          rw [if_pos rfl] at hfirst
          rw [Nat.add_zero, hrest.kept _ _ hfirst]
          rfl
        · obtain ⟨e, he⟩ := isSome_iff_exists.1 hthere
          rw [Nat.add_zero, hrest.kept _ _ he]
          rfl
    · cases n with
      | zero =>
        simp only [pageSize, constKernelAreaStart] at *
        omega
      | succ n =>
        rw [Nat.succ_mul]
        omega

theorem mapFresh_outside
    {virt v : Nat} (h : f.mapFresh counted n d virt = some (f', d'))
    (hv : v < pageOf virt ∨ pageOf virt + n ≤ v) : d'.entry v = d.entry v := by
  induction n generalizing f d virt with
  | zero =>
    cases h
    rfl
  | succ n ih =>
    simp only [Frames.mapFresh, bind_eq_bind, bind_eq_some_iff] at h
    obtain ⟨⟨a, page⟩, -, ⟨a', d1, written⟩, hmap, h⟩ := h
    have hrest := ih h (by rw [pageOf_add_pageSize]; omega)
    rw [hrest]
    obtain ⟨-, ⟨-, hentry⟩ | ⟨-, rfl, -⟩⟩ := map_spec hmap
    · rw [hentry v, if_neg (by omega)]
    · rfl

/-! ## Growing -/

/-- The ranges of the process fill the area of the user's virtual ranges. -/
def UserProcess.RangesOk (p : UserProcess) : Prop :=
  p.virtualRanges.Contiguous constKernelAreaStart constUserVirtualRangesStart

/-- A process without any pages. -/
def UserProcess.unmapped : UserProcess where
  virtualRanges := AddressRangePool.initializePool constUserVirtualRangesStart constKernelAreaStart
  pageDirectory := PageDirectory.empty

theorem UserProcess.unmapped_rangesOk : UserProcess.unmapped.RangesOk :=
  AddressRangePool.initializePool_contiguous

/-- What a function did to a process that fills pages and allocates ranges, but frees neither. -/
structure Grown (f f' : Frames) (p p' : UserProcess) : Prop where
  filled : Filled f f' p.pageDirectory p'.pageDirectory
  rangesOk : p.RangesOk → p'.RangesOk
  ranges : p.RangesOk → ∀ r ∈ p.virtualRanges, r.used = true → r ∈ p'.virtualRanges

theorem Grown.trans {f f' f'' : Frames} {p p' p'' : UserProcess} (h : Grown f f' p p')
    (h' : Grown f' f'' p' p'') : Grown f f'' p p'' where
  filled := h.filled.trans h'.filled
  rangesOk hp := h'.rangesOk (h.rangesOk hp)
  ranges hp r hr hused := h'.ranges (h.rangesOk hp) r (h.ranges hp r hr hused) hused

theorem Filled.grown {p p' : UserProcess}
    (h : Filled f f' p.pageDirectory p'.pageDirectory) (hranges : p'.virtualRanges = p.virtualRanges) :
    Grown f f' p p' where
  filled := h
  rangesOk hp := by rw [UserProcess.RangesOk, hranges]; exact hp
  ranges _ r hr _ := by rw [hranges]; exact hr

namespace ThreadManager

variable {f f' : Frames} {p p' : UserProcess}

variable {base flags pages accessed : Nat} {t : ThreadMemory}

theorem grown_allocate {pool' : AddressRangePool} {d' : PageDirectory}
    (halloc : p.virtualRanges.allocate pages flags = some (pool', base))
    (h : Filled f f' p.pageDirectory d') :
    Grown f f' p { p with virtualRanges := pool', pageDirectory := d' } where
  filled := h
  rangesOk hp := (hp.allocate_spec start_aligned halloc).1
  ranges hp r hr hused := ((hp.allocate_spec start_aligned halloc).2.used r hused).2 (Or.inl hr)

theorem mapRange_spec (h : mapRange f p pages flags = some (f', p', base)) :
    Grown f f' p p' ∧ ∃ pool' d', p' = { p with virtualRanges := pool', pageDirectory := d' } := by
  rw [mapRange] at h
  split at h
  · split at h
    · cases h
      exact ⟨(Filled.refl ..).grown rfl, p.virtualRanges, p.pageDirectory, rfl⟩
    · cases h
  next pool' base' halloc =>
    obtain ⟨⟨f1, d'⟩, hfresh, heq⟩ := map_eq_some_iff.1 h
    cases heq
    exact ⟨grown_allocate halloc (mapFresh_spec hfresh (Or.inl rfl)).1, pool', d', rfl⟩

theorem mapRange_low (hp : p.RangesOk) (h : mapRange f p pages flags = some (f', p', base)) :
    (pages = 0 ∨ lowPages ≤ pageOf base) ∧
      ∀ v < lowPages, p'.pageDirectory.entry v = p.pageDirectory.entry v := by
  rw [mapRange] at h
  split at h
  · split at h
    next hzero =>
      cases h
      exact ⟨Or.inl hzero, fun _ _ => rfl⟩
    next => cases h
  next pool' base' halloc =>
    obtain ⟨⟨f1, d'⟩, hfresh, heq⟩ := map_eq_some_iff.1 h
    cases heq
    obtain ⟨hpool', hallocated⟩ := AddressRangePool.Contiguous.allocate_spec hp start_aligned halloc
    have hlow : lowPages ≤ pageOf base :=
      Nat.div_le_div_right (hpool'.bounds start_aligned hallocated.mem).2.1
    exact ⟨Or.inr hlow, fun v hv => mapFresh_outside hfresh (Or.inl (hv.trans_le hlow))⟩

variable {thread thread' : ThreadMemory}

theorem prepareThreadLocalStorage_low (hp : p.RangesOk)
    (h : prepareThreadLocalStorage f p thread = some (f', p', thread')) :
    ∀ v < lowPages, p'.pageDirectory.entry v = p.pageDirectory.entry v := by
  rw [prepareThreadLocalStorage] at h
  split at h
  · simp only [bind_eq_bind, bind_eq_some_iff] at h
    obtain ⟨size, -, ⟨f1, p1, virt⟩, hrange, heq⟩ := h
    cases heq
    exact (mapRange_low hp hrange).2
  · cases h
    exact fun _ _ => rfl

theorem prepareThreadLocalStorage_spec
    (h : prepareThreadLocalStorage f p thread = some (f', p', thread')) :
    Grown f f' p p' ∧ (∃ pool' d', p' = { p with virtualRanges := pool', pageDirectory := d' }) ∧
      ∃ virt, thread' = { thread with tlsCopyVirt := virt } := by
  rw [prepareThreadLocalStorage] at h
  split at h
  · simp only [bind_eq_bind, bind_eq_some_iff] at h
    obtain ⟨size, -, ⟨f1, p1, virt⟩, hrange, heq⟩ := h
    cases heq
    obtain ⟨hgrown, hp⟩ := mapRange_spec hrange
    exact ⟨hgrown, hp, virt, rfl⟩
  · cases h
    exact ⟨(Filled.refl ..).grown rfl, ⟨p.virtualRanges, p.pageDirectory, rfl⟩, thread.tlsCopyVirt,
      rfl⟩

/-- The stack of a new thread: a page at the end of a range of its own. -/
structure NewStack (p p' : UserProcess) (virt : Nat) : Prop where
  mapped : (p'.pageDirectory.entry (pageOf virt)).isSome
  range : ∃ r ∈ p'.virtualRanges, r.used = true ∧ r.pages = threadUserStackReservedVirtualPages ∧
    virt = r.base + (threadUserStackReservedVirtualPages - 1) * pageSize ∧
    ∀ r' ∈ p.virtualRanges, r'.used = true → r'.base ≠ r.base

section

variable {virt : Nat} (hp : p.RangesOk) (h : createThreadUserStack f p = some (some (f', p', virt)))
include hp h

theorem createThreadUserStack_spec :
    Grown f f' p p' ∧ (∀ v < lowPages, p'.pageDirectory.entry v = p.pageDirectory.entry v) ∧
      NewStack p p' virt ∧
      ∃ pool' d', p' = { p with virtualRanges := pool', pageDirectory := d' } := by
  rw [createThreadUserStack] at h
  split at h
  · cases h
  next pool' base halloc =>
    simp only [bind_eq_bind, bind_eq_some_iff] at h
    obtain ⟨⟨a, page⟩, hpage, ⟨a', d', written⟩, hmap, h⟩ := h
    split at h
    next hwritten =>
      cases h
      obtain ⟨hcontiguous, hallocated⟩ := hp.allocate_spec start_aligned halloc
      have hstart : constUserVirtualRangesStart ≤ base :=
        (hcontiguous.bounds start_aligned hallocated.mem).2.1
      have hlow : lowPages ≤ pageOf (base + (threadUserStackReservedVirtualPages - 1) * pageSize) :=
        Nat.div_le_div_right (Nat.le_add_right_of_le hstart)
      have hfilled := filled_map false hpage hmap (Or.inr hlow)
      obtain ⟨-, ⟨-, hentry⟩ | ⟨hnot, -⟩⟩ := map_spec hmap
      swap
      · exact absurd (hnot.symm.trans hwritten) (by decide)
      refine ⟨grown_allocate halloc hfilled, fun v hv => (hentry v).trans (if_neg (by omega)),
        ⟨by rw [hentry, if_pos rfl]; rfl, _, hallocated.mem, rfl, rfl, rfl, ?_⟩, pool', d', rfl⟩
      -- the first page of the range was in no used range
      intro r hr hused hbase
      obtain ⟨r', hr', hunused, hcovers⟩ :=
        hallocated.fresh (pageOf base) ⟨le_rfl, Nat.lt_add_of_pos_right (Nat.succ_pos 15)⟩
      have hpos := (hp.bounds start_aligned hr).2.2.2
      have hr := hp.unique start_aligned hr hr'
        ⟨by rw [hbase], by rw [hbase]; exact Nat.lt_add_of_pos_right hpos⟩ hcovers
      rw [hr, hunused] at hused
      cases hused
    · cases h

end

section

variable {id : Tid} {isMain : Bool} (hp : p.RangesOk)
  (h : createThread f p id isMain = some (f', p'))
include hp h

theorem createThread_low : ∀ v < lowPages, p'.pageDirectory.entry v = p.pageDirectory.entry v := by
  simp only [createThread, bind_eq_bind, bind_eq_some_iff] at h
  obtain ⟨⟨a, kernelStack⟩, -, stack, hstack, h⟩ := h
  cases stack with
  | none =>
    cases h
    exact fun _ _ => rfl
  | some stack =>
    obtain ⟨hgrown, hlow, -⟩ := createThreadUserStack_spec hp hstack
    have hp1 := hgrown.rangesOk hp
    simp only at h
    split at h
    · cases h
      exact hlow
    · obtain ⟨⟨f2, p2, thread⟩, htls, h⟩ := bind_eq_some_iff.1 h
      cases h
      intro v hv
      exact (prepareThreadLocalStorage_low hp1 htls v hv).trans (hlow v hv)

theorem createThread_spec :
    ∃ a kernelStack, f.allocator.allocate = some (a, kernelStack) ∧
      Grown { f with allocator := a } f' p p' ∧
      ∃ pool' d', p' = { p with virtualRanges := pool', pageDirectory := d' } ∨
        ∃ thread, p' = { p with
            virtualRanges := pool', pageDirectory := d', threads := thread :: p.threads } ∧
          thread.kernelStack = kernelStack ∧ thread.isMain = isMain ∧ thread.userStackPages = 1 ∧
          NewStack p p' thread.userStackAreaStart := by
  simp only [createThread, bind_eq_bind, bind_eq_some_iff] at h
  obtain ⟨⟨a, kernelStack⟩, halloc, stack, hstack, h⟩ := h
  refine ⟨a, kernelStack, halloc, ?_⟩
  cases stack with
  | none =>
    cases h
    exact ⟨(Filled.refl ..).grown rfl, p.virtualRanges, p.pageDirectory, Or.inl rfl⟩
  | some stack =>
    obtain ⟨f1, p1, virt⟩ := stack
    obtain ⟨hgrown, -, hstack, pool1, d1, rfl⟩ := createThreadUserStack_spec hp hstack
    -- with or without thread-local storage, the stack is still there
    have hafter : ∃ pool2 d2 tls,
        Grown f1 f' { p with virtualRanges := pool1, pageDirectory := d1 }
          { p with virtualRanges := pool2, pageDirectory := d2 } ∧
        p' = { p with
          virtualRanges := pool2
          pageDirectory := d2
          threads := { id, isMain, kernelStack, userStackAreaStart := virt, tlsCopyVirt := tls } ::
            p.threads } := by
      simp only at h
      split at h
      · cases h
        exact ⟨pool1, d1, 0, (Filled.refl ..).grown rfl, rfl⟩
      · obtain ⟨⟨f2, p2, thread⟩, htls, h⟩ := bind_eq_some_iff.1 h
        cases h
        obtain ⟨hgrown', ⟨pool2, d2, rfl⟩, tls, rfl⟩ := prepareThreadLocalStorage_spec htls
        exact ⟨pool2, d2, tls, hgrown', rfl⟩
    obtain ⟨pool2, d2, tls, hgrown', rfl⟩ := hafter
    refine ⟨?_, pool2, d2, Or.inr ⟨_, rfl, rfl, rfl, rfl, ?_, ?_⟩⟩
    · have htrans := hgrown.trans hgrown'
      exact ⟨htrans.filled, htrans.rangesOk, htrans.ranges⟩
    · obtain ⟨e, he⟩ := isSome_iff_exists.1 hstack.mapped
      exact isSome_iff_exists.2 ⟨e, hgrown'.filled.kept _ e he⟩
    · obtain ⟨r, hr, hused, hpages, hvirt, hnew⟩ := hstack.range
      exact ⟨r, hgrown'.ranges (hgrown.rangesOk hp) r hr hused, hused, hpages, hvirt, hnew⟩

end

/-- The stack of a thread lies at the end of a used range, and all its pages are mapped. -/
structure StackOk (p : UserProcess) (t : ThreadMemory) : Prop where
  range : ∃ r ∈ p.virtualRanges, r.used = true ∧ r.pages = threadUserStackReservedVirtualPages ∧
    t.userStackAreaStart + t.userStackPages * pageSize =
      r.base + threadUserStackReservedVirtualPages * pageSize
  pages : 1 ≤ t.userStackPages ∧ t.userStackPages ≤ threadUserStackReservedVirtualPages
  mapped : ∀ i < t.userStackPages, (p.pageDirectory.entry (pageOf t.userStackAreaStart + i)).isSome

section

variable (h : StackOk p t) (hp : p.RangesOk)
include h hp

theorem StackOk.bounds :
    t.userStackAreaStart % pageSize = 0 ∧ constUserVirtualRangesStart ≤ t.userStackAreaStart ∧
      t.userStackAreaStart + t.userStackPages * pageSize ≤ constKernelAreaStart := by
  obtain ⟨r, hr, -, hpages, hend⟩ := h.range
  obtain ⟨haligned, hstart, hstop, -⟩ := hp.bounds start_aligned hr
  have hle := h.pages.2
  simp only [threadUserStackReservedVirtualPages, pageSize] at *
  omega

theorem StackOk.grown (hgrown : Grown f f' p p') : StackOk p' t := by
  refine ⟨?_, h.pages, fun i hi => ?_⟩
  · obtain ⟨r, hr, hused, hrest⟩ := h.range
    exact ⟨r, hgrown.ranges hp r hr hused, hused, hrest⟩
  · obtain ⟨e, he⟩ := isSome_iff_exists.1 (h.mapped i hi)
    exact isSome_iff_exists.2 ⟨e, hgrown.filled.kept _ e he⟩

theorem StackOk.area {r : AddressRange} (hend : t.userStackAreaStart + t.userStackPages * pageSize =
    r.base + threadUserStackReservedVirtualPages * pageSize) :
    inStackArea t accessed = true ↔ r.base ≤ accessed ∧
      accessed < r.base + threadUserStackReservedVirtualPages * pageSize := by
  have hle := h.pages.2
  obtain ⟨-, -, hstop⟩ := h.bounds hp
  have hlowest : u32 (t.userStackAreaStart + 2 ^ 32 -
      (threadUserStackReservedVirtualPages - t.userStackPages) * pageSize) = r.base := by
    simp only [u32, threadUserStackReservedVirtualPages, pageSize, constKernelAreaStart] at *
    omega
  rw [inStackArea, Bool.and_eq_true, decide_eq_true_eq, decide_eq_true_eq, hlowest, hend]

end

theorem growStack_spec (hp : p.RangesOk) (hstack : StackOk p t) (haligned : accessed % pageSize = 0)
    (harea : inStackArea t accessed = true) (hnone : p.pageDirectory.entry (pageOf accessed) = none)
    (h : growStack f p t accessed = some (f', p')) :
    Grown f f' p p' ∧ ∃ d' pages,
      p' = { p with
        pageDirectory := d'
        threads := p.threads.map fun t' => if t' = t then
          { t with userStackAreaStart := accessed, userStackPages := pages } else t' } ∧
      accessed + pages * pageSize = t.userStackAreaStart + t.userStackPages * pageSize ∧
      StackOk p' { t with userStackAreaStart := accessed, userStackPages := pages } := by
  obtain ⟨halignedStart, hlow, hstop⟩ := hstack.bounds hp
  obtain ⟨hpos, hle⟩ := hstack.pages
  obtain ⟨r, hr, hused, hrange, hstop'⟩ := hstack.range
  have harea := (hstack.area hp hstop').1 harea
  have hbelow : accessed < t.userStackAreaStart := by
    by_contra hnot
    have hthere := hstack.mapped ((accessed - t.userStackAreaStart) / pageSize) (by
      rw [Nat.div_lt_iff_lt_mul (by decide)]
      omega)
    have hpage : pageOf t.userStackAreaStart + (accessed - t.userStackAreaStart) / pageSize =
        pageOf accessed := by
      simp only [pageOf, pageSize] at *
      omega
    rw [hpage, hnone] at hthere
    cases hthere
  obtain ⟨pages, hpages⟩ : ∃ pages, t.userStackAreaStart = accessed + pages * pageSize := by
    refine ⟨(t.userStackAreaStart - accessed) / pageSize, ?_⟩
    simp only [pageSize] at *
    omega
  have hreserved : t.userStackPages + pages ≤ threadUserStackReservedVirtualPages := by
    simp only [threadUserStackReservedVirtualPages, pageSize] at *
    omega
  have hstart := (hp.bounds start_aligned hr).2.1.trans harea.1
  have hcount : (t.userStackAreaStart - accessed + (pageSize - 1)) / pageSize = pages := by
    rw [hpages]
    simp only [pageSize]
    omega
  have hmod : (t.userStackPages + pages) % 2 ^ 8 = t.userStackPages + pages :=
    Nat.mod_eq_of_lt (by simp only [threadUserStackReservedVirtualPages] at hreserved; omega)
  simp only [growStack, hcount, hmod] at h
  obtain ⟨⟨f1, d'⟩, hfresh, heq⟩ := map_eq_some_iff.1 h
  cases heq
  obtain ⟨hfilled, hsome, -⟩ := mapFresh_spec hfresh (Or.inr (Nat.div_le_div_right hstart))
  have hend : accessed + (t.userStackPages + pages) * pageSize =
      t.userStackAreaStart + t.userStackPages * pageSize := by
    rw [hpages, Nat.add_mul]
    omega
  refine ⟨hfilled.grown rfl, d', _, rfl, hend, ?_, ⟨Nat.le_add_right_of_le hpos, hreserved⟩, ?_⟩
  · exact ⟨r, hr, hused, hrange, hend.trans hstop'⟩
  · intro i hi
    rcases Nat.lt_or_ge i pages with hnew | hold
    · exact hsome i hnew
    · have hpage : pageOf accessed + i = pageOf t.userStackAreaStart + (i - pages) := by
        rw [hpages, pageOf_add_mul haligned]
        omega
      have hi' : i - pages < t.userStackPages := by
        have : i < t.userStackPages + pages := hi
        omega
      obtain ⟨e, he⟩ := isSome_iff_exists.1 (hstack.mapped (i - pages) hi')
      rw [← hpage] at he
      exact isSome_iff_exists.2 ⟨e, hfilled.kept _ e he⟩

theorem growStack_low (hp : p.RangesOk) (hstack : StackOk p t)
    (harea : inStackArea t accessed = true) (h : growStack f p t accessed = some (f', p')) :
    ∀ v < lowPages, p'.pageDirectory.entry v = p.pageDirectory.entry v := by
  obtain ⟨⟨f1, d'⟩, hfresh, heq⟩ := map_eq_some_iff.1 h
  cases heq
  obtain ⟨r, hr, -, -, hend⟩ := hstack.range
  have hlow : lowPages ≤ pageOf accessed := Nat.div_le_div_right
    ((hp.bounds start_aligned hr).2.1.trans ((hstack.area hp hend).1 harea).1)
  exact fun v hv => mapFresh_outside hfresh (Or.inl (hv.trans_le hlow))

end ThreadManager

/-! ## Loading -/

/-- The threads and the heap are the same. -/
structure SameThreadsAndHeap (p p' : UserProcess) : Prop where
  threads : p'.threads = p.threads
  heapStart : p'.heapStart = p.heapStart
  heapBreak : p'.heapBreak = p.heapBreak
  heapPages : p'.heapPages = p.heapPages

theorem loadBinaryToCurrentAddressSpace_spec {p p' : UserProcess}
    {headers : List Elf32Phdr}
    (h : Elf32Loader.loadBinaryToCurrentAddressSpace f p headers = some (f', p')) :
    Grown f f' p p' ∧ SameThreadsAndHeap p p' ∧ p'.imageStart % pageSize = 0 := by
  simp only [Elf32Loader.loadBinaryToCurrentAddressSpace, bind_eq_bind,
    bind_eq_some_iff] at h
  obtain ⟨⟨f1, p1⟩, hload, htls⟩ := h
  obtain ⟨⟨f2, d'⟩, hfresh, heq⟩ := map_eq_some_iff.1 hload
  cases heq
  have hfilled := (mapFresh_spec hfresh (Or.inl rfl)).1
  have haligned : pageAlignDown (Elf32Loader.imageRange headers).1 % pageSize = 0 :=
    Nat.mul_mod_left ..
  have hgrown : Grown f f1 p { p with
      pageDirectory := d'
      imageStart := pageAlignDown (Elf32Loader.imageRange headers).1
      imageEnd := pageAlignUp (Elf32Loader.imageRange headers).2 } := hfilled.grown rfl
  simp only [Elf32Loader.loadTlsMasterCopy] at htls
  split at htls
  · cases htls
    exact ⟨hgrown, ⟨rfl, rfl, rfl, rfl⟩, haligned⟩
  · obtain ⟨⟨f3, p3, base⟩, hrange, heq⟩ := map_eq_some_iff.1 htls
    cases heq
    obtain ⟨hgrown', pool', d2, rfl⟩ := ThreadManager.mapRange_spec hrange
    exact ⟨hgrown.trans hgrown', ⟨rfl, rfl, rfl, rfl⟩, haligned⟩

namespace UserProcess

variable {f f' : Frames} {p p' : UserProcess}

theorem createPagesInSpace_spec {virt pages : Nat}
    (h : createPagesInSpace f p virt pages = some (f', p')) :
    Grown f f' p p' ∧ SameThreadsAndHeap p p' ∧
      (p.imageStart % pageSize = 0 → p'.imageStart % pageSize = 0) := by
  simp only [createPagesInSpace] at h
  split at h
  next hpages =>
    obtain ⟨⟨f1, d'⟩, hfresh, heq⟩ := map_eq_some_iff.1 h
    cases heq
    obtain ⟨hfilled, -, hbounds⟩ := mapFresh_spec hfresh (Or.inl rfl)
    refine ⟨hfilled.grown rfl, ⟨rfl, rfl, rfl, rfl⟩, fun haligned => ?_⟩
    split
    · exact (hbounds hpages.1).1
    · exact haligned
  · cases h
    exact ⟨(Filled.refl ..).grown rfl, ⟨rfl, rfl, rfl, rfl⟩, fun h => h⟩

theorem writeTlsMasterForProcess_spec {copySize totalSize alignment : Nat}
    (h : writeTlsMasterForProcess f p copySize totalSize alignment = some (f', p')) :
    Grown f f' p p' ∧ SameThreadsAndHeap p p' ∧ p'.imageStart = p.imageStart := by
  simp only [writeTlsMasterForProcess, bind_eq_bind, bind_eq_some_iff] at h
  obtain ⟨⟨f1, p1, base⟩, hrange, heq⟩ := h
  cases heq
  obtain ⟨hgrown, pool', d', rfl⟩ := ThreadManager.mapRange_spec hrange
  exact ⟨⟨hgrown.filled, hgrown.rangesOk, hgrown.ranges⟩, ⟨rfl, rfl, rfl, rfl⟩, rfl⟩

/-! ## The heap -/

theorem initializeHeap_spec (h : initializeHeap f p = some (f', p')) :
    Grown f f' p p' ∧
      (∃ d', p' = { p with
        pageDirectory := d', heapBreak := p.imageEnd, heapStart := p.imageEnd, heapPages := 1 }) ∧
      p.imageEnd % pageSize = 0 ∧ pageOf p.imageEnd / 1024 ≠ 0 ∧
      p.imageEnd + pageSize ≤ constKernelAreaStart ∧
      (p'.pageDirectory.entry (pageOf p.imageEnd)).isSome := by
  obtain ⟨⟨f1, d'⟩, hfresh, heq⟩ := map_eq_some_iff.1 h
  cases heq
  obtain ⟨hfilled, hsome, hbounds⟩ := mapFresh_spec hfresh (Or.inl rfl)
  obtain ⟨haligned, htable, hstop⟩ := hbounds Nat.one_pos
  exact ⟨hfilled.grown rfl, ⟨d', rfl⟩, haligned, htable, hstop, hsome 0 Nat.one_pos⟩

variable {n brkNew : Nat}

theorem expandHeap_grown (h : expandHeap brkNew n f p = some (f', p')) :
    Grown f f' p p' ∧ ∃ d' heapPages, p' = { p with pageDirectory := d', heapPages } := by
  induction n generalizing f p with
  | zero =>
    cases h
    exact ⟨(Filled.refl ..).grown rfl, p'.pageDirectory, p'.heapPages, rfl⟩
  | succ n ih =>
    rw [expandHeap] at h
    split at h
    · simp only [bind_eq_bind, bind_eq_some_iff] at h
      obtain ⟨⟨f1, d1⟩, hfresh, h⟩ := h
      obtain ⟨hgrown, d', heapPages, rfl⟩ := ih h
      have hfirst : Grown f f1 p { p with
          pageDirectory := d1, heapPages := u32 (p.heapPages + 1) } :=
        (mapFresh_spec hfresh (Or.inl rfl)).1.grown rfl
      exact ⟨hfirst.trans hgrown, d', heapPages, rfl⟩
    · cases h
      exact ⟨(Filled.refl ..).grown rfl, p'.pageDirectory, p'.heapPages, rfl⟩

/-- A round of `shrinkHeap`. -/
def shrinkRound (f : Frames) (page : Nat) : Frames :=
  let f' := { f with tracker := (f.tracker.decrement page).1 }
  if (f.tracker.decrement page).2 = 0 then f'.free page else f'

theorem shrinkHeap_induction {P : Frames → UserProcess → Prop}
    (hround : ∀ f p page, P f p → brkNew < p.virtBelow →
      virtualToPhysical p.pageDirectory p.virtBelow = some page →
      P (shrinkRound f page) { p with
        pageDirectory := unmap p.pageDirectory p.virtBelow
        heapPages := u32 (p.heapPages + 2 ^ 32 - 1) })
    (hP : P f p) (h : shrinkHeap brkNew n f p = some (f', p')) : P f' p' := by
  induction n generalizing f p with
  | zero =>
    cases h
    exact hP
  | succ n ih =>
    rw [shrinkHeap] at h
    split at h
    next hbelow =>
      simp only [bind_eq_bind, bind_eq_some_iff] at h
      obtain ⟨page, hpage, h⟩ := h
      exact ih (hround f p page hP hbelow hpage) h
    · cases h
      exact hP

theorem sbrk_cases {amount : Int} (h : sbrk f p amount = some (f', p')) :
    ∃ f1 p1, (p.heapBreak = 0 ∧ initializeHeap f p = some (f1, p1) ∨
        p.heapBreak ≠ 0 ∧ f1 = f ∧ p1 = p) ∧
      ∃ brkNew, brkNew = ((p1.heapBreak + amount) % 2 ^ 32).toNat ∧
        (constUserMaximumHeapBreak ≤ brkNew ∧ f' = f1 ∧ p' = p1 ∨
          brkNew < constUserMaximumHeapBreak ∧ ∃ f2 p2 p3,
          expandHeap brkNew physicalPages f1 p1 = some (f2, p2) ∧
          shrinkHeap brkNew physicalPages f2 p2 = some (f', p3) ∧
          p' = { p3 with heapBreak := brkNew }) := by
  obtain ⟨f1, p1, hstart, h⟩ : ∃ f1 p1, (p.heapBreak = 0 ∧ initializeHeap f p = some (f1, p1) ∨
      p.heapBreak ≠ 0 ∧ f1 = f ∧ p1 = p) ∧
      (if ((p1.heapBreak + amount) % 2 ^ 32).toNat ≥ constUserMaximumHeapBreak then some (f1, p1)
        else (expandHeap ((p1.heapBreak + amount) % 2 ^ 32).toNat physicalPages f1 p1).bind fun x =>
          (shrinkHeap ((p1.heapBreak + amount) % 2 ^ 32).toNat physicalPages x.1 x.2).bind fun y =>
            some (y.1, { y.2 with heapBreak := ((p1.heapBreak + amount) % 2 ^ 32).toNat })) =
        some (f', p') := by
    simp only [sbrk, bind_eq_bind] at h
    split at h
    next hbreak =>
      obtain ⟨⟨f1, p1⟩, hinit, h⟩ := bind_eq_some_iff.1 h
      exact ⟨f1, p1, Or.inl ⟨hbreak, hinit⟩, h⟩
    next hbreak => exact ⟨f, p, Or.inr ⟨hbreak, rfl, rfl⟩, h⟩
  refine ⟨f1, p1, hstart, _, rfl, ?_⟩
  split at h
  next hlimit =>
    cases h
    exact Or.inl ⟨hlimit, rfl, rfl⟩
  next hlimit =>
    obtain ⟨⟨f2, p2⟩, hexpand, h⟩ := bind_eq_some_iff.1 h
    obtain ⟨⟨f3, p3⟩, hshrink, h⟩ := bind_eq_some_iff.1 h
    cases h
    exact Or.inr ⟨Nat.not_le.1 hlimit, f2, p2, p3, hexpand, hshrink, rfl⟩

end UserProcess

namespace ThreadManager

variable {f f' : Frames} {p p' : UserProcess}

/-! ## Freeing -/

/-- What `freeAndUnmap` did to `n` virtual pages from `v` on: freed in order, the entries removed.
-/
structure Unmapped (f f' : Frames) (d d' : PageDirectory) (v n : Nat) (freed : List Nat) : Prop where
  pages : freed = (List.range' v n).map (pageBehind d)
  entry : ∀ w, d'.entry w = if v ≤ w ∧ w < v + n then none else d.entry w
  tables : ∀ t, (d t).isSome → (d' t).isSome
  bitmap : ∀ q, f'.allocator.bitmap q = true ↔ f.allocator.bitmap q = true ∨ q ∈ freed
  count : ∀ q, q ∉ freed → f'.tracker.count q = f.tracker.count q

theorem freeAndUnmapPages_spec {n address : Nat}
    (htables : ∀ i < n, (p.pageDirectory ((pageOf address + i) / 1024)).isSome) :
    ∃ f' d' freed,
      freeAndUnmapPages false n f p address = some (f', { p with pageDirectory := d' }, freed) ∧
      Unmapped f f' p.pageDirectory d' (pageOf address) n freed := by
  induction n generalizing f p address with
  | zero =>
    refine ⟨f, p.pageDirectory, [], rfl, rfl, ?_, fun _ h => h, ?_, fun _ _ => rfl⟩
    · intro w
      rw [if_neg (by omega)]
    · intro q
      simp
  | succ n ih =>
    have hfirst := virtualToPhysical_of_table (htables 0 (Nat.succ_pos n))
    have hnext := pageOf_add_pageSize address
    have htables' : ∀ i < n, (unmap p.pageDirectory address
        ((pageOf (address + pageSize) + i) / 1024)).isSome := by
      intro i hi
      have := isSome_unmap address (htables (i + 1) (by omega))
      rwa [hnext, Nat.add_assoc, Nat.add_comm 1 i]
    obtain ⟨f2, d2, freed, hrest, hunmapped⟩ := ih
      (f := Frames.free { f with tracker :=
        (f.tracker.decrement (pageBehind p.pageDirectory (pageOf address))).1 }
          (pageBehind p.pageDirectory (pageOf address)))
      (p := { p with pageDirectory := unmap p.pageDirectory address }) htables'
    rw [hnext] at hunmapped
    refine ⟨f2, d2, pageBehind p.pageDirectory (pageOf address) :: freed, ?_, ?_, ?_, ?_, ?_, ?_⟩
    · rw [freeAndUnmapPages, hfirst]
      simp [hrest]
    · -- the pages behind the rest of the area are those of the directory before
      rw [hunmapped.pages, List.range'_succ, List.map_cons]
      refine congrArg _ (List.map_congr_left fun v hv => ?_)
      rw [List.mem_range'_1] at hv
      rw [pageBehind, pageBehind, entry_unmap, if_neg (by omega)]
    · intro w
      rw [hunmapped.entry w]
      simp only [entry_unmap]
      by_cases hw : w = pageOf address
      · rw [if_neg (by omega), if_pos hw, if_pos (by omega)]
      · rw [if_neg hw]
        exact if_congr (by omega) rfl rfl
    · exact fun t ht => hunmapped.tables t (isSome_unmap address ht)
    · intro q
      rw [hunmapped.bitmap q, List.mem_cons, ← or_assoc]
      refine or_congr_left ?_
      simp only [Frames.free, PPallocator.free, Function.update_apply]
      split
      next hq => exact iff_of_true rfl (Or.inr hq)
      next hq => simp [hq]
    · intro q hq
      rw [List.mem_cons, not_or] at hq
      rw [hunmapped.count q hq.2]
      exact PPreferenceTracker.count_decrement_of_ne _ hq.1

theorem freeAndUnmap_spec {start stop : Nat} (haligned : start % pageSize = 0)
    (htables : ∀ v, start ≤ v * pageSize → v * pageSize < stop →
      (p.pageDirectory (v / 1024)).isSome) :
    ∃ f' d' freed,
      freeAndUnmap f p start stop false = some (f', { p with pageDirectory := d' }, freed) ∧
      Unmapped f f' p.pageDirectory d' (pageOf start) ((stop - start + (pageSize - 1)) / pageSize)
        freed := by
  refine freeAndUnmapPages_spec fun i hi => htables _ ?_ ?_
  all_goals
    simp only [pageOf, pageSize] at *
    omega

/-- The pages that are freed behind an area, where no page is mapped twice: those behind it, each
once. -/
theorem Unmapped.count_freed {d d' d0 : PageDirectory} {v n : Nat} {freed : List Nat}
    (h : Unmapped f f' d d' v n freed) (hsub : ∀ w e, d.entry w = some e → d0.entry w = some e)
    (hinj : ∀ w w' e e', d0.entry w = some e → d0.entry w' = some e' → e.page = e'.page → w' = w)
    {w : Nat} {e : PageEntry} (he : d0.entry w = some e) (hne : e.page ≠ 0) :
    freed.count e.page = if (v ≤ w ∧ w < v + n) ∧ d.entry w = some e then 1 else 0 := by
  have hbehind : ∀ w', pageBehind d w' = e.page ↔ w' = w ∧ d.entry w = some e := by
    intro w'
    rw [pageBehind]
    cases hw' : d.entry w' with
    | none =>
      refine iff_of_false (fun h0 => hne h0.symm) ?_
      rintro ⟨rfl, hw⟩
      rw [hw'] at hw
      cases hw
    | some e' =>
      constructor
      · intro hpage
        obtain rfl := hinj w w' e e' he (hsub w' e' hw') hpage.symm
        cases (hsub _ e' hw').symm.trans he
        exact ⟨rfl, hw'⟩
      · rintro ⟨rfl, hw⟩
        cases hw'.symm.trans hw
        rfl
  rw [h.pages]
  split
  next hin =>
    have hone : (List.range' v n).count w = 1 :=
      List.count_eq_one_of_mem List.nodup_range' (List.mem_range'_1.2 hin.1)
    refine Eq.trans ?_ hone
    rw [List.count, List.countP_map, List.count]
    refine List.countP_congr fun w' _ => ?_
    simp [beq_iff_eq, hbehind, hin.2]
  next hout =>
    rw [List.count_eq_zero]
    intro hmem
    obtain ⟨w', hw', hpage⟩ := List.mem_map.1 hmem
    obtain ⟨rfl, hentry⟩ := (hbehind w').1 hpage
    exact hout ⟨List.mem_range'_1.1 hw', hentry⟩

theorem deleteThread_spec {t : ThreadMemory} (hstack : StackOk p t) (htls : t.tlsCopyVirt = 0) :
    ∃ f' d' freed,
      deleteThread f p t = some (f', { p with pageDirectory := d', threads := p.threads.erase t },
        t.kernelStack :: freed) ∧
      Unmapped (f.free t.kernelStack) f' p.pageDirectory d' (pageOf t.userStackAreaStart)
        t.userStackPages freed := by
  have hrounds : (t.userStackAreaStart + t.userStackPages * pageSize - t.userStackAreaStart +
      (pageSize - 1)) / pageSize = t.userStackPages := by
    simp only [pageSize]
    omega
  have htables : ∀ i < t.userStackPages,
      (p.pageDirectory ((pageOf t.userStackAreaStart + i) / 1024)).isSome := by
    intro i hi
    obtain ⟨e, he⟩ := isSome_iff_exists.1 (hstack.mapped i hi)
    exact PageDirectory.isSome_of_entry he
  obtain ⟨f', d', freed, hfree, hunmapped⟩ :=
    freeAndUnmapPages_spec htables
  refine ⟨f', d', freed, ?_, hunmapped⟩
  simp only [deleteThread, freeAndUnmap, hrounds, hfree, htls, bind_eq_bind, bind_some,
    ne_eq, not_true_eq_false, if_false, List.append_nil]

theorem deleteProcess_spec (hlocation : p.tlsMasterInProcLocation = 0)
    (hsize : p.tlsMasterTotalsize = 0) (himage : p.imageStart % pageSize = 0)
    (hheap : p.heapStart % pageSize = 0)
    (htables : ∀ v, p.imageStart ≤ v * pageSize ∧ v * pageSize < p.imageEnd ∨
      p.heapStart ≤ v * pageSize ∧ v * pageSize < p.heapBreak → (p.pageDirectory (v / 1024)).isSome) :
    ∃ f1 d1 image f' d' heap,
      deleteProcess f p = some (f', { p with pageDirectory := d' }, image ++ heap) ∧
      Unmapped f f1 p.pageDirectory d1 (pageOf p.imageStart)
        ((p.imageEnd - p.imageStart + (pageSize - 1)) / pageSize) image ∧
      Unmapped f1 f' d1 d' (pageOf p.heapStart)
        ((p.heapBreak - p.heapStart + (pageSize - 1)) / pageSize) heap := by
  obtain ⟨f1, d1, image, hfirst, himage⟩ := freeAndUnmap_spec himage
    fun v hlo hhi => htables v (Or.inl ⟨hlo, hhi⟩)
  obtain ⟨f2, d2, heap, hsecond, hheap⟩ := freeAndUnmap_spec
    (p := { p with pageDirectory := d1 }) hheap
    fun v hlo hhi => himage.tables _ (htables v (Or.inr ⟨hlo, hhi⟩))
  refine ⟨f1, d1, image, f2, d2, heap, ?_, himage, hheap⟩
  have hlast : freeAndUnmap f2 { p with pageDirectory := d2 } p.tlsMasterInProcLocation
      p.tlsMasterTotalsize true = some (f2, { p with pageDirectory := d2 }, []) := by
    rw [hlocation, hsize]
    rfl
  simp [deleteProcess, hfirst, hsecond, hlast]

end ThreadManager

end MeetixOS.Kernel
