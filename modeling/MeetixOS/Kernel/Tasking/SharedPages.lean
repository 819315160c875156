import MeetixOS.Kernel.Tasking.UserMemory

/-! # Pages that are shared after a fork

A low page that several processes map is given back only with its last mapping, as long as its reference
count is at least their number. `sbrk`, the page fault handler and `fork` respect the count, but
`freeAndUnmap` frees each page whatever the count is, and takes a reference from the pages of a stack, which
nobody has counted. -/

open Function (update update_apply update_eq_self update_self)
open Option (bind_eq_bind bind_eq_some_iff)

namespace MeetixOS.Kernel

open MeetixOS.Lib ThreadManager InterruptExceptionHandler UserProcess PPreferenceTracker AddressSpace

/-! ## The condition -/

/-- The virtual pages that `freeAndUnmap` goes through. -/
def InArea (start stop v : Nat) : Prop :=
  pageOf start ≤ v ∧ v < pageOf start + (stop - start + (pageSize - 1)) / pageSize

/-- The virtual pages that are freed with a process: its image, its heap and its TLS master. -/
def UserProcess.FreedWith (p : UserProcess) (v : Nat) : Prop :=
  InArea p.imageStart p.imageEnd v ∨ InArea p.heapStart p.heapBreak v ∨
    InArea p.tlsMasterInProcLocation p.tlsMasterTotalsize v

/-- A deleted process shares none of the low pages freed with it, and a forked one has for each low page
at least as many references counted as mappings, with room for its own once more. -/
def UserMemory.CountsShared (s : UserMemory) : UserMemoryEvent → Prop
  | .fork pid _ => ∀ p, s.process pid = some p → ∀ q ∈ p.pageDirectory.lowMapped,
      ∃ n : Nat, s.mappings q ≤ n ∧ n + p.pageDirectory.lowMapped.count q < 2 ^ 16 ∧
        s.frames.tracker.count q = s16 n
  | .deleteTask pid thread => thread.isMain = true → ∀ p, s.process pid = some p →
      ∀ v < lowPages, p.FreedWith v → ∀ e, p.pageDirectory.entry v = some e →
      ∀ pid' p', pid' ≠ pid → s.process pid' = some p' → e.page ∉ p'.pageDirectory.lowMapped
  | _ => True

/-! ## The invariant -/

/-- What a process keeps for itself: its ranges, the kernel stacks and the places of the user stacks and
TLS copies of its threads. -/
structure UserProcess.ThreadsOk (p : UserProcess) : Prop where
  rangesOk : p.RangesOk
  kernels : p.kernelStacks.Nodup
  placed : ∀ t ∈ p.threads, t.StackPlaced
  copies : ∀ t ∈ p.threads, t.tlsCopyVirt = 0 ∨ constUserVirtualRangesStart ≤ t.tlsCopyVirt

namespace UserMemory

/-- No page that is mapped is free, and a page with several low mappings has as many references. -/
structure Inv (s : UserMemory) : Prop where
  safe : SafePages s.frames s.process
  threadsOk : ∀ pid p, s.process pid = some p → p.ThreadsOk
  counted : ∀ q, 2 ≤ (s.mappers q).card →
    ∃ n : Nat, (s.mappers q).card ≤ n ∧ n < 2 ^ 16 ∧ s.frames.tracker.count q = s16 n

variable {s s' : UserMemory} {pid : Tid} {p p' : UserProcess} {f f' : Frames} {q v : Nat}

theorem process_put (s : UserMemory) (pid : Tid) (f : Frames) (p : UserProcess) :
    (s.put pid f p).process = update s.process pid (some p) := by
  funext pid'
  rw [update_apply]
  split
  next heq =>
    subst heq
    exact AList.lookup_insert _
  next hne => exact AList.lookup_insert_ne hne

theorem put_put (s : UserMemory) (pid : Tid) (f f' : Frames) (p p' : UserProcess) :
    (s.put pid f p).put pid f' p' = s.put pid f' p' := by
  simp [put, AList.insert_insert]

theorem process_put_self : (s.put pid f p).process pid = some p := by
  rw [process_put, update_self]

theorem process_put_of_ne {pid' : Tid} (h : pid' ≠ pid) :
    (s.put pid f p).process pid' = s.process pid' := by
  rw [process_put, Function.update_of_ne h]

theorem held_of_mem_mappers {i : Tid × Nat} (h : i ∈ s.mappers q) :
    (holding s.frames s.process).held (i.1, .user i.2) = some q := by
  obtain ⟨-, p, e, hp, he, hq⟩ := mem_mappers.1 h
  exact (held_eq hp _).trans (held_user.2 ⟨e, he, hq⟩)

theorem Inv.taken (h : s.Inv) {slot : Tid × PageSlot}
    (hheld : (holding s.frames s.process).held slot = some q) :
    s.frames.allocator.bitmap q = false ∧ q ≠ 0 := by
  have htaken := h.safe.taken slot q hheld
  exact ⟨Bool.eq_false_iff.2 fun hfree => htaken (Or.inl hfree), fun hzero => htaken (Or.inr hzero)⟩

variable {e : PageEntry} {t : ThreadMemory} {accessed page : Nat}

theorem Inv.shared (h : SafePages f s.process) (hp : s.process pid = some p)
    (he : p.pageDirectory.entry v = some e) {slot : Tid × PageSlot}
    (hslot : (holding f s.process).held slot = some e.page) (hne : slot ≠ (pid, .user v)) :
    v < lowPages ∧ e.isWritable = false := by
  have hnot : ¬ SoleIn s.process (pid, .user v) := fun hsole =>
    hne (h.alone _ _ _ ((held_eq hp _).trans (held_user.2 ⟨e, he, rfl⟩)) hslot hsole)
  by_contra hcontra
  refine hnot fun p' hp' => ?_
  cases hp.symm.trans hp'
  rw [not_and_or, Nat.not_lt, Bool.not_eq_false] at hcontra
  refine hcontra.imp_right fun hwritable e' he' => ?_
  cases he.symm.trans he'
  exact hwritable

theorem Inv.counted_of_subset (h : s.Inv)
    (hsub : ∀ q, 2 ≤ (s'.mappers q).card → s'.mappers q ⊆ s.mappers q ∧
      s'.frames.tracker.count q = s.frames.tracker.count q) (q : Nat)
    (hq : 2 ≤ (s'.mappers q).card) :
    ∃ n : Nat, (s'.mappers q).card ≤ n ∧ n < 2 ^ 16 ∧ s'.frames.tracker.count q = s16 n := by
  obtain ⟨hmappers, hcount⟩ := hsub q hq
  have hle := Finset.card_le_card hmappers
  obtain ⟨n, hn, hlt, heq⟩ := h.counted q (hq.trans hle)
  exact ⟨n, hle.trans hn, hlt, hcount.trans heq⟩

theorem Inv.counted_of_held (h : s.Inv) (hheld : ∀ slot q,
      (holding s'.frames s'.process).held slot = some q →
      (holding s.frames s.process).held slot = some q ∧
        s'.frames.tracker.count q = s.frames.tracker.count q) (q : Nat)
    (hq : 2 ≤ (s'.mappers q).card) :
    ∃ n : Nat, (s'.mappers q).card ≤ n ∧ n < 2 ^ 16 ∧ s'.frames.tracker.count q = s16 n := by
  refine h.counted_of_subset (fun q hq => ⟨?_, ?_⟩) q hq
  · rintro ⟨pid, v⟩ hi
    obtain ⟨p, hp, hslot⟩ := bind_eq_some_iff.1 (hheld _ q (held_of_mem_mappers hi)).1
    obtain ⟨e, he, hpage⟩ := held_user.1 hslot
    exact mem_mappers.2 ⟨(mem_mappers.1 hi).1, p, e, hp, he, hpage⟩
  · obtain ⟨i, hi⟩ := Finset.card_pos.1 (Nat.lt_of_lt_of_le Nat.two_pos hq)
    exact (hheld _ q (held_of_mem_mappers hi)).2

theorem shared_mapper (h : SafePages s.frames s.process) (hq : 2 ≤ (s.mappers q).card) {i : Tid × Nat}
    (hi : i ∈ s.mappers q) : ∃ p e, s.process i.1 = some p ∧ p.pageDirectory.entry i.2 = some e ∧
      e.page = q ∧ e.isWritable = false := by
  obtain ⟨j, hj, hne⟩ := Finset.exists_mem_ne (Nat.lt_of_succ_le hq) i
  obtain ⟨-, p, e, hp, he, rfl⟩ := mem_mappers.1 hi
  refine ⟨p, e, hp, he, rfl, (Inv.shared h hp he (held_of_mem_mappers hj) ?_).2⟩
  intro heq
  simp only [Prod.mk.injEq, PageSlot.user.injEq] at heq
  exact hne (Prod.ext heq.1 heq.2)

theorem Inv.put_filled (h : s.Inv) (hp : s.process pid = some p)
    (hfilled : Filled s.frames f' p.pageDirectory p'.pageDirectory)
    (hsafe : SafePages f' (update s.process pid (some p'))) (hok : p'.ThreadsOk) :
    (s.put pid f' p').Inv := by
  have hsafe' : SafePages f' (s.put pid f' p').process := by
    rw [process_put]
    exact hsafe
  refine ⟨hsafe', ?_, h.counted_of_subset fun q hq => ?_⟩
  · intro pid' p1 hp1
    by_cases heq : pid' = pid
    · subst heq
      rw [process_put_self] at hp1
      cases hp1
      exact hok
    · rw [process_put_of_ne heq] at hp1
      exact h.threadsOk pid' p1 hp1
  · have hsub : (s.put pid f' p').mappers q ⊆ s.mappers q := by
      rintro ⟨pid', v⟩ hi
      obtain ⟨p1, e, hp1, he, rfl, hprotected⟩ := shared_mapper hsafe' hq hi
      refine mem_mappers.2 ⟨(mem_mappers.1 hi).1, ?_⟩
      by_cases heq : pid' = pid
      · subst heq
        rw [process_put_self] at hp1
        cases hp1
        -- a new entry would be writable
        cases hentry : p.pageDirectory.entry v with
        | none =>
          rw [PageEntry.isWritable, (hfilled.added v e hentry he).1] at hprotected
          exact absurd hprotected (by decide)
        | some e' =>
          cases (hfilled.kept v e' hentry).symm.trans he
          exact ⟨p, e, hp, hentry, rfl⟩
      · rw [process_put_of_ne heq] at hp1
        exact ⟨p1, e, hp1, he, rfl⟩
    obtain ⟨i, hi⟩ := Finset.card_pos.1 (Nat.lt_of_lt_of_le Nat.two_pos hq)
    exact ⟨hsub, hfilled.count q (Or.inl (h.taken (held_of_mem_mappers (hsub hi))).1)⟩

/-! ## Filling -/

theorem Inv.of_same (h : s.Inv) (hframes : s'.frames = s.frames) (hprocess : s'.process = s.process) :
    s'.Inv := by
  have hmappers : ∀ q, s'.mappers q = s.mappers q := by
    intro q
    ext ⟨pid, v⟩
    rw [mem_mappers, mem_mappers, hprocess]
  refine ⟨?_, ?_, ?_⟩
  · rw [hframes, hprocess]
    exact h.safe
  · rw [hprocess]
    exact h.threadsOk
  · intro q hq
    rw [hmappers] at hq ⊢
    rw [hframes]
    exact h.counted q hq

theorem Inv.threadsOk_put (h : s.Inv) (f' : Frames) (hok : p'.ThreadsOk) (pid' : Tid) (p1 : UserProcess)
    (hp1 : (s.put pid f' p').process pid' = some p1) : p1.ThreadsOk := by
  by_cases heq : pid' = pid
  · subst heq
    rw [process_put_self] at hp1
    cases hp1
    exact hok
  · rw [process_put_of_ne heq] at hp1
    exact h.threadsOk pid' p1 hp1

theorem kernelStacks_of_same (h : p'.threads = p.threads) : p'.kernelStacks = p.kernelStacks := by
  rw [kernelStacks, h, ← kernelStacks]

section

variable (h : s.Inv) (hp : s.process pid = some p) (hgrown : Grown s.frames f' p p')
include h hp hgrown

theorem Inv.put_grown (hkernels : p'.kernelStacks = p.kernelStacks)
    (hplaced : ∀ t ∈ p'.threads, t.StackPlaced)
    (hcopies : ∀ t ∈ p'.threads, t.tlsCopyVirt = 0 ∨ constUserVirtualRangesStart ≤ t.tlsCopyVirt) :
    (s.put pid f' p').Inv := by
  have hok := h.threadsOk pid p hp
  refine h.put_filled hp hgrown.filled ?_ ⟨hgrown.rangesOk hok.rangesOk, ?_, hplaced, hcopies⟩
  · refine h.safe.filled pid hp hgrown.filled ?_
    rw [hkernels]
    exact fun _ hpage => hpage
  · rw [hkernels]
    exact hok.kernels

theorem Inv.put_grown_same (hthreads : p'.threads = p.threads) : (s.put pid f' p').Inv := by
  have hok := h.threadsOk pid p hp
  refine h.put_grown hp hgrown (kernelStacks_of_same hthreads) ?_ ?_
  · rw [hthreads]
    exact hok.placed
  · rw [hthreads]
    exact hok.copies

theorem Inv.put_replaced (t t' : ThreadMemory)
    (hthreads : p'.threads = p.threads.map fun t1 => if t1 = t then t' else t1)
    (hkernel : t'.kernelStack = t.kernelStack) (hplaced : t'.StackPlaced)
    (hcopy : t'.tlsCopyVirt = 0 ∨ constUserVirtualRangesStart ≤ t'.tlsCopyVirt) :
    (s.put pid f' p').Inv := by
  have hok := h.threadsOk pid p hp
  -- a thread is the new one, or one from before
  have hcases : ∀ t1 ∈ p'.threads, t1 = t' ∨ t1 ∈ p.threads := by
    intro t1 ht1
    rw [hthreads] at ht1
    obtain ⟨t2, ht2, rfl⟩ := List.mem_map.1 ht1
    split
    · exact Or.inl rfl
    · exact Or.inr ht2
  refine h.put_grown hp hgrown ?_ ?_ ?_
  · rw [kernelStacks, hthreads, List.map_map]
    refine List.map_congr_left fun t1 _ => ?_
    rw [Function.comp_apply]
    split
    next heq => rw [hkernel, heq]
    · rfl
  · intro t1 ht1
    rcases hcases t1 ht1 with rfl | ht1
    · exact hplaced
    · exact hok.placed t1 ht1
  · intro t1 ht1
    rcases hcases t1 ht1 with rfl | ht1
    · exact hcopy
    · exact hok.copies t1 ht1

end

/-! ## Threads -/

theorem mapRange_base {pages flags base : Nat} (hp : p.RangesOk)
    (h : mapRange f p pages flags = some (f', p', base)) :
    base = 0 ∨ constUserVirtualRangesStart ≤ base := by
  rw [mapRange] at h
  split at h
  · split at h
    · cases h
      exact Or.inl rfl
    · cases h
  next pool' base' halloc =>
    obtain ⟨⟨f1, d'⟩, -, heq⟩ := Option.map_eq_some_iff.1 h
    cases heq
    obtain ⟨hpool', hallocated⟩ := hp.allocate_spec start_aligned halloc
    exact Or.inr (hpool'.bounds start_aligned hallocated.mem).2.1

theorem prepareThreadLocalStorage_copy {t t' : ThreadMemory} (hp : p.RangesOk)
    (h : ThreadManager.prepareThreadLocalStorage f p t = some (f', p', t')) :
    t'.tlsCopyVirt = t.tlsCopyVirt ∨ t'.tlsCopyVirt = 0 ∨ constUserVirtualRangesStart ≤ t'.tlsCopyVirt := by
  rw [ThreadManager.prepareThreadLocalStorage] at h
  split at h
  · simp only [bind_eq_bind, bind_eq_some_iff] at h
    obtain ⟨size, -, ⟨f1, p1, virt⟩, hrange, heq⟩ := h
    cases heq
    exact Or.inr (mapRange_base hp hrange)
  · cases h
    exact Or.inl rfl

theorem createThread_copies {id : Tid} {isMain : Bool} (hp : p.RangesOk)
    (h : ThreadManager.createThread f p id isMain = some (f', p')) (t : ThreadMemory)
    (ht : t ∈ p'.threads) :
    t ∈ p.threads ∨ t.tlsCopyVirt = 0 ∨ constUserVirtualRangesStart ≤ t.tlsCopyVirt := by
  simp only [ThreadManager.createThread, bind_eq_bind, bind_eq_some_iff] at h
  obtain ⟨⟨a, kernelStack⟩, -, stack, hstack, h⟩ := h
  cases stack with
  | none =>
    cases h
    exact Or.inl ht
  | some stack =>
    obtain ⟨f1, p1, virt⟩ := stack
    obtain ⟨hgrown, -, -, pool', d', rfl⟩ := createThreadUserStack_spec hp hstack
    simp only at h
    split at h
    · cases h
      rcases List.mem_cons.1 ht with rfl | ht
      · exact Or.inr (Or.inl rfl)
      · exact Or.inl ht
    · obtain ⟨⟨f2, p2, thread⟩, htls, h⟩ := bind_eq_some_iff.1 h
      cases h
      obtain ⟨-, ⟨pool2, d2, rfl⟩, -⟩ := prepareThreadLocalStorage_spec htls
      rcases List.mem_cons.1 ht with rfl | ht
      · refine Or.inr ?_
        rcases prepareThreadLocalStorage_copy (hgrown.rangesOk hp) htls with hzero | hcopy
        · exact Or.inl hzero
        · exact hcopy
      · exact Or.inl ht

theorem placed_of_newStack (hp : p'.RangesOk)
    (h : NewStack p p' t.userStackAreaStart) (hone : t.userStackPages = 1) : t.StackPlaced := by
  obtain ⟨r, hr, -, hpages, hvirt, -⟩ := h.range
  obtain ⟨-, hstart, hstop, -⟩ := hp.bounds start_aligned hr
  rw [hpages] at hstop
  have hless : (threadUserStackReservedVirtualPages - 1) * pageSize ≤
      threadUserStackReservedVirtualPages * pageSize := Nat.mul_le_mul_right _ (Nat.sub_le _ _)
  have hend : (threadUserStackReservedVirtualPages - 1) * pageSize + 1 * pageSize =
      threadUserStackReservedVirtualPages * pageSize := by rw [← Nat.add_mul]; rfl
  refine ⟨?_, ?_, ?_⟩
  · rw [hone]
    exact Nat.succ_le_succ (Nat.zero_le 15)
  · rw [hvirt, hone, Nat.add_assoc, hend]
    exact Nat.add_le_add_right hstart _
  · rw [hvirt]
    exact (Nat.add_le_add_left hless _).trans hstop

theorem Inv.put_createThread (h : s.Inv) (hp : s.process pid = some p) {id : Tid} {isMain : Bool}
    (hcreate : ThreadManager.createThread s.frames p id isMain = some (f', p')) :
    (s.put pid f' p').Inv := by
  have hok := h.threadsOk pid p hp
  have hcopies := createThread_copies hok.rangesOk hcreate
  obtain ⟨a, kernelStack, halloc, hgrown, pool', d', hp'⟩ := createThread_spec hok.rangesOk hcreate
  have hfilled := (filled_allocate p.pageDirectory halloc).trans hgrown.filled
  rcases hp' with rfl | ⟨t, rfl, hkernel, -, hone, hstack⟩
  · -- the page of the kernel stack is lost
    have hlost : Grown s.frames { s.frames with allocator := a } p p :=
      (filled_allocate _ halloc).grown rfl
    exact h.put_grown_same hp (hlost.trans hgrown) rfl
  · have hnew := h.safe.kernelStack_new pid hp halloc
    let p1 : UserProcess := { p with threads := t :: p.threads }
    have hkernels : ∀ page ∈ p1.kernelStacks, page = kernelStack ∨ page ∈ p.kernelStacks := by
      intro page hpage
      rcases List.mem_cons.1 hpage with rfl | hpage
      · exact Or.inl hkernel
      · exact Or.inr hpage
    have hsafe : SafePages { s.frames with allocator := a } (update s.process pid (some p1)) :=
      h.safe.kernelStack pid hp halloc rfl hkernels
    have hsafe' := hsafe.filled pid (update_self ..) hgrown.filled fun _ hpage => hpage
    rw [Function.update_idem] at hsafe'
    refine h.put_filled hp hfilled hsafe' ⟨hgrown.rangesOk hok.rangesOk, ?_, ?_, ?_⟩
    · refine List.nodup_cons.2 ⟨?_, hok.kernels⟩
      rw [hkernel]
      exact hnew
    · intro t1 ht1
      rcases List.mem_cons.1 ht1 with rfl | ht1
      · exact placed_of_newStack (hgrown.rangesOk hok.rangesOk) hstack hone
      · exact hok.placed t1 ht1
    · intro t1 ht1
      rcases hcopies t1 ht1 with hold | hcopy
      · exact hok.copies t1 hold
      · exact hcopy

theorem Inv.put_empty (h : s.Inv) (hnone : s.process pid = none)
    (hempty : ∀ v, p'.pageDirectory.entry v = none) (hthreads : p'.threads = []) (hranges : p'.RangesOk) :
    (s.put pid s.frames p').Inv := by
  have hok : p'.ThreadsOk := by
    refine ⟨hranges, ?_, ?_, ?_⟩
    · rw [kernelStacks, hthreads]
      exact List.nodup_nil
    · rw [hthreads]
      exact fun t ht => absurd ht List.not_mem_nil
    · rw [hthreads]
      exact fun t ht => absurd ht List.not_mem_nil
  refine ⟨?_, h.threadsOk_put _ hok, h.counted_of_subset ?_⟩
  · rw [process_put]
    exact h.safe.start pid hempty hthreads
  · intro q _
    refine ⟨?_, rfl⟩
    rintro ⟨pid', v⟩ hi
    obtain ⟨hv, p1, e, hp1, he, hq⟩ := mem_mappers.1 hi
    by_cases heq : pid' = pid
    · subst heq
      rw [process_put_self] at hp1
      cases hp1
      rw [hempty v] at he
      cases he
    · rw [process_put_of_ne heq] at hp1
      exact mem_mappers.2 ⟨hv, p1, e, hp1, he, hq⟩

/-! ## Giving up a mapping -/

theorem count_decrement {t : PPreferenceTracker} {page n : Nat} (hn : 2 ≤ n) (hlt : n < 2 ^ 16)
    (hcount : t.count page = s16 n) :
    (t.decrement page).1.count page = s16 (n - 1 : Nat) ∧ (t.decrement page).2 ≠ 0 := by
  have hne : ∀ m : Nat, 0 < m → m < 2 ^ 16 → s16 m ≠ 0 := by
    intro m hpos hm hzero
    rw [s16] at hzero
    have hdvd := Int.dvd_of_bmod_eq_zero hzero
    omega
  have htables : t.tables (page / 1024) = true := by
    by_contra hnot
    rw [count, if_neg hnot] at hcount
    exact hne n (by omega) hlt hcount.symm
  rw [count, if_pos htables] at hcount
  have hminus : s16 (t.referenceCount page - 1) = s16 (n - 1 : Nat) := by
    rw [hcount, Int.sub_eq_add_neg, s16_add, Nat.cast_sub (by omega), Nat.cast_one, Int.sub_eq_add_neg]
  refine ⟨?_, ?_⟩
  · rw [decrement, if_pos htables]
    simp only [count, htables, if_true, update_self]
    exact hminus
  · rw [decrement, if_pos htables]
    exact hminus.symm ▸ hne (n - 1) (by omega) (by omega)

section

variable (h : s.Inv) (hp : s.process pid = some p)
include h hp

theorem Inv.other_mapper (he : p.pageDirectory.entry v = some e) {slot : Tid × PageSlot}
    (hslot : (holding s.frames s.process).held slot = some e.page) (hne : slot ≠ (pid, .user v)) :
    ∃ pid' w p' e', slot = (pid', .user w) ∧ v < lowPages ∧ w < lowPages ∧
      s.process pid' = some p' ∧ p'.pageDirectory.entry w = some e' ∧ e'.page = e.page := by
  have hheld : (holding s.frames s.process).held (pid, .user v) = some e.page :=
    (held_eq hp _).trans (held_user.2 ⟨e, he, rfl⟩)
  obtain ⟨hlow, -⟩ := Inv.shared h.safe hp he hslot hne
  obtain ⟨pid', slot⟩ := slot
  -- the other slot is a low page too
  cases slot with
  | kernel page =>
    have hkernel := h.safe.alone _ _ _ hslot hheld fun p' _ => trivial
    cases hkernel
  | user w =>
    obtain ⟨p', hp', hw⟩ := bind_eq_some_iff.1 hslot
    obtain ⟨e', he', hpage⟩ := held_user.1 hw
    rw [← hpage] at hheld
    obtain ⟨hlow', -⟩ := Inv.shared h.safe hp' he' hheld hne.symm
    exact ⟨pid', w, p', e', rfl, hlow, hlow', hp', he', hpage⟩

theorem Inv.sole_or_counted (he : p.pageDirectory.entry v = some e) :
    (∀ slot, (holding s.frames s.process).held slot = some e.page → slot = (pid, .user v)) ∨
      (pid, v) ∈ s.mappers e.page ∧ 2 ≤ (s.mappers e.page).card := by
  by_cases hsole : ∀ slot, (holding s.frames s.process).held slot = some e.page → slot = (pid, .user v)
  · exact Or.inl hsole
  · right
    simp only [not_forall] at hsole
    obtain ⟨slot, hslot, hne⟩ := hsole
    obtain ⟨pid', w, p', e', rfl, hlow, hlow', hp', he', hpage⟩ := h.other_mapper hp he hslot hne
    have hmem : (pid, v) ∈ s.mappers e.page := mem_mappers.2 ⟨hlow, p, e, hp, he, rfl⟩
    have hmem' : (pid', w) ∈ s.mappers e.page := mem_mappers.2 ⟨hlow', p', e', hp', he', hpage⟩
    refine ⟨hmem, Finset.one_lt_card.2 ⟨_, hmem, _, hmem', ?_⟩⟩
    rintro heq
    cases heq
    exact hne rfl

/-- A mapping of a page is given up: if the page is freed nothing else holds it, and the count stays
right. -/
theorem Inv.given_up (he : p.pageDirectory.entry v = some e) {t : PPreferenceTracker}
    (ht : t.count e.page = s.frames.tracker.count e.page) :
    ((t.decrement e.page).2 = 0 →
      ∀ slot, (holding s.frames s.process).held slot = some e.page → slot = (pid, .user v)) ∧
    ∀ left : Finset (Tid × Nat), left ⊆ (s.mappers e.page).erase (pid, v) → 2 ≤ left.card →
      ∃ n : Nat, left.card ≤ n ∧ n < 2 ^ 16 ∧
        (t.decrement e.page).1.count e.page = s16 n := by
  rcases h.sole_or_counted hp he with hsole | ⟨hmem, hcard⟩
  · refine ⟨fun _ => hsole, ?_⟩
    intro left hleft hcard
    -- no other page is mapped there
    obtain ⟨i, hi⟩ := Finset.card_pos.1 (Nat.lt_of_lt_of_le Nat.two_pos hcard)
    obtain ⟨hne, hi⟩ := Finset.mem_erase.1 (hleft hi)
    have heq := hsole _ (held_of_mem_mappers hi)
    simp only [Prod.mk.injEq, PageSlot.user.injEq] at heq
    exact absurd (Prod.ext heq.1 heq.2) hne
  · obtain ⟨n, hn, hlt, hcount⟩ := h.counted e.page hcard
    obtain ⟨hcount', hne⟩ := count_decrement (hcard.trans hn) hlt (ht.trans hcount)
    refine ⟨fun hzero => absurd hzero hne, ?_⟩
    intro left hleft hcardLeft
    have hle := Finset.card_le_card hleft
    rw [Finset.card_erase_of_mem hmem] at hle
    exact ⟨n - 1, by omega, by omega, hcount'⟩

theorem Inv.put_shrinkRound {page virt : Nat} (heapPages : Nat)
    (hpage : virtualToPhysical p.pageDirectory virt = some page) :
    (s.put pid (shrinkRound s.frames page)
      { p with pageDirectory := unmap p.pageDirectory virt, heapPages }).Inv := by
  have hok := h.threadsOk pid p hp
  set p' : UserProcess := { p with pageDirectory := unmap p.pageDirectory virt, heapPages }
    with hp'
  have hentry : ∀ w e, p'.pageDirectory.entry w = some e →
      w ≠ pageOf virt ∧ p.pageDirectory.entry w = some e := by
    intro w e he
    rw [hp', entry_unmap] at he
    split at he
    · cases he
    next hne => exact ⟨hne, he⟩
  have hbitmap : ∀ q, (shrinkRound s.frames page).allocator.bitmap q = true →
      s.frames.allocator.bitmap q = true ∨ q = page ∧ (s.frames.tracker.decrement page).2 = 0 := by
    intro q hq
    simp only [shrinkRound] at hq
    split at hq
    next hzero =>
      simp only [Frames.free, PPallocator.free, update_apply] at hq
      split at hq
      next heq => exact Or.inr ⟨heq, hzero⟩
      · exact Or.inl hq
    · exact Or.inl hq
  have htracker : (shrinkRound s.frames page).tracker = (s.frames.tracker.decrement page).1 := by
    simp only [shrinkRound]
    split <;> rfl
  -- a slot that still holds a page held it before, and is not the one that is given up
  have hheld : ∀ slot q, (holding s.frames (update s.process pid (some p'))).held slot = some q →
      (holding s.frames s.process).held slot = some q ∧ slot ≠ (pid, .user (pageOf virt)) := by
    rintro ⟨pid', slot⟩ q hq
    rw [held_update] at hq
    split at hq
    next heq =>
      obtain rfl : pid' = pid := heq
      cases slot with
      | kernel page' =>
        refine ⟨(held_eq hp _).trans ?_, by simp⟩
        obtain ⟨hmem, hpage'⟩ := held_kernel.1 hq
        exact held_kernel.2 ⟨hmem, hpage'⟩
      | user w =>
        obtain ⟨e, he, hpage'⟩ := held_user.1 hq
        obtain ⟨hne, he⟩ := hentry w e he
        exact ⟨(held_eq hp _).trans (held_user.2 ⟨e, he, hpage'⟩), by simpa using hne⟩
    next hne =>
      refine ⟨hq, ?_⟩
      rintro heq
      exact hne (congrArg Prod.fst heq)
  have hsafe : SafePages (shrinkRound s.frames page)
      (update s.process pid (some p')) := by
    refine h.safe.drop pid hp (fun w e he => (hentry w e he).2) (fun _ hpage' => hpage') ?_
    intro slot q hq hfree
    obtain ⟨hold, hne⟩ := hheld slot q hq
    rcases hbitmap q hfree with hfree | ⟨rfl, hzero⟩
    · exact hfree
    · rcases virtualToPhysical_cases hpage with ⟨e, he, rfl⟩ | ⟨-, rfl⟩
      · exact absurd ((h.given_up hp he rfl).1 hzero slot hold) hne
      · exact absurd rfl (h.taken hold).2
  refine ⟨by rw [process_put]; exact hsafe, h.threadsOk_put _ ⟨hok.rangesOk, hok.kernels, hok.placed,
    hok.copies⟩, ?_⟩
  intro q hq
  have hsub : (s.put pid (shrinkRound s.frames page) p').mappers q ⊆
      (s.mappers q).erase (pid, pageOf virt) := by
    rintro ⟨pid', w⟩ hi
    have hslot := held_of_mem_mappers hi
    rw [process_put] at hslot
    obtain ⟨hold, hne⟩ := hheld _ q hslot
    obtain ⟨hw, -⟩ := mem_mappers.1 hi
    obtain ⟨p1, hp1, hheld1⟩ := bind_eq_some_iff.1 hold
    obtain ⟨e, he, hpage'⟩ := held_user.1 hheld1
    exact Finset.mem_erase.2 ⟨by simpa using hne, mem_mappers.2 ⟨hw, p1, e, hp1, he, hpage'⟩⟩
  show ∃ n : Nat, _ ≤ n ∧ n < 2 ^ 16 ∧ (shrinkRound s.frames page).tracker.count q = s16 n
  rw [htracker]
  by_cases heq : q = page
  · subst heq
    rcases virtualToPhysical_cases hpage with ⟨e, he, rfl⟩ | ⟨-, rfl⟩
    · exact (h.given_up hp he rfl).2 _ hsub hq
    · obtain ⟨i, hi⟩ := Finset.card_pos.1 (Nat.lt_of_lt_of_le Nat.two_pos hq)
      exact absurd rfl (h.taken (held_of_mem_mappers (Finset.mem_of_mem_erase (hsub hi)))).2
  · rw [count_decrement_of_ne _ heq]
    have hle := Finset.card_le_card (hsub.trans (Finset.erase_subset _ _))
    obtain ⟨n, hn, hlt, hcount⟩ := h.counted q (hq.trans hle)
    exact ⟨n, hle.trans hn, hlt, hcount⟩

theorem Inv.put_shrinkHeap {brkNew n : Nat}
    (hshrink : shrinkHeap brkNew n s.frames p = some (f', p')) : (s.put pid f' p').Inv := by
  refine shrinkHeap_induction (P := fun f p => (s.put pid f p).Inv) ?_ ?_ hshrink
  · intro f1 p1 page h1 _ hpage
    have hround := h1.put_shrinkRound process_put_self (u32 (p1.heapPages + 2 ^ 32 - 1)) hpage
    rw [put_put] at hround
    exact hround
  · refine h.of_same rfl ?_
    rw [process_put, ← hp]
    exact update_eq_self pid s.process

theorem Inv.put_sbrk {amount : Int} (hsbrk : p.sbrk s.frames amount = some (f', p')) :
    (s.put pid f' p').Inv := by
  obtain ⟨f1, p1, hstart, brkNew, -, hmove⟩ := sbrk_cases hsbrk
  have h1 : (s.put pid f1 p1).Inv := by
    rcases hstart with ⟨-, hinit⟩ | ⟨-, rfl, rfl⟩
    · obtain ⟨hgrown, ⟨d', rfl⟩, -⟩ := initializeHeap_spec hinit
      exact h.put_grown_same hp hgrown rfl
    · refine h.of_same rfl ?_
      rw [process_put, ← hp]
      exact update_eq_self pid s.process
  rcases hmove with ⟨-, rfl, rfl⟩ | ⟨-, f2, p2, p3, hexpand, hshrink, rfl⟩
  · exact h1
  · obtain ⟨hgrown, d', heapPages, rfl⟩ := expandHeap_grown hexpand
    have h2 := h1.put_grown_same process_put_self hgrown rfl
    have h3 := h2.put_shrinkHeap process_put_self hshrink
    have hsame : Filled f' f' p3.pageDirectory p3.pageDirectory := Filled.refl ..
    have hbreak : Grown f' f' p3 { p3 with heapBreak := brkNew } := Filled.grown hsame rfl
    have h4 := h3.put_grown_same process_put_self hbreak rfl
    rwa [put_put, put_put, put_put] at h4

end

/-! ## Page faults -/

theorem placed_grown (h : t.StackPlaced)
    (harea : inStackArea t accessed = true) (hbelow : accessed < constKernelAreaStart) :
    (grownThread t accessed).StackPlaced ∧ constUserVirtualRangesStart ≤ accessed := by
  obtain ⟨hpages, hreserved, hstart⟩ := h
  rw [inStackArea, Bool.and_eq_true, decide_eq_true_eq, decide_eq_true_eq] at harea
  have hlowest : u32 (t.userStackAreaStart + 2 ^ 32 -
      (threadUserStackReservedVirtualPages - t.userStackPages) * pageSize) +
      (threadUserStackReservedVirtualPages - t.userStackPages) * pageSize = t.userStackAreaStart := by
    simp only [u32, threadUserStackReservedVirtualPages, pageSize, constKernelAreaStart,
      constUserVirtualRangesStart] at *
    omega
  rw [grownThread]
  refine ⟨⟨?_, ?_, hbelow.le⟩, ?_⟩
  all_goals
    simp only [threadUserStackReservedVirtualPages, pageSize, constUserVirtualRangesStart] at *
    omega

section

variable (h : s.Inv) (hp : s.process pid = some p)
include h hp

theorem Inv.put_growStack (ht : t ∈ p.threads) (harea : inStackArea t accessed = true)
    (hbelow : accessed < constKernelAreaStart)
    (hgrow : growStack s.frames p t accessed = some (f', p')) : (s.put pid f' p').Inv := by
  have hok := h.threadsOk pid p hp
  obtain ⟨hplaced, hstart⟩ := placed_grown (hok.placed t ht) harea hbelow
  obtain ⟨⟨f1, d'⟩, hfresh, heq⟩ := Option.map_eq_some_iff.1 hgrow
  cases heq
  have hfilled := (mapFresh_spec hfresh (Or.inr (Nat.div_le_div_right hstart))).1
  exact h.put_replaced hp (hfilled.grown rfl) t (grownThread t accessed) rfl rfl hplaced
    (hok.copies t ht)

theorem Inv.put_copyOnWrite {c c' : PageContents}
    (hpage : virtualToPhysical p.pageDirectory accessed = some page)
    (hthere : (p.pageDirectory.entry (pageOf accessed)).isSome)
    (hcopy : copyOnWrite s.frames c p accessed page = some (f', c', p')) :
    (s.put pid f' p').Inv := by
  have hok := h.threadsOk pid p hp
  obtain ⟨e, he, rfl⟩ : ∃ e, p.pageDirectory.entry (pageOf accessed) = some e ∧ e.page = page := by
    rcases virtualToPhysical_cases hpage with hentry | ⟨hnone, -⟩
    · exact hentry
    · rw [hnone] at hthere
      cases hthere
  have hheldOld : (holding s.frames s.process).held (pid, .user (pageOf accessed)) = some e.page :=
    (held_eq hp _).trans (held_user.2 ⟨e, he, rfl⟩)
  simp only [copyOnWrite, bind_eq_bind, bind_eq_some_iff] at hcopy
  obtain ⟨⟨a, q0⟩, halloc, ⟨a', d', written⟩, hmap, heq⟩ := hcopy
  simp only [Option.some.injEq, Prod.mk.injEq] at heq
  obtain ⟨hf', -, rfl⟩ := heq
  obtain ⟨hfree0, hzero0, hbitmap0⟩ := PPallocator.allocate_spec halloc
  obtain ⟨htable, ⟨-, hentry⟩ | ⟨-, -, hoverride, -⟩⟩ := map_spec hmap
  swap
  · cases hoverride
  have hne : e.page ≠ q0 := by
    rintro heq
    have htaken := (h.taken hheldOld).1
    rw [heq, hfree0] at htaken
    cases htaken
  -- what the handler did to the frames
  have hallocator : ∀ q, a'.bitmap q = true → s.frames.allocator.bitmap q = true ∧ q ≠ q0 := by
    intro q hq
    have hq : a.bitmap q = true := by
      rcases htable with rfl | ⟨table, halloc'⟩
      · exact hq
      · rw [(PPallocator.allocate_spec halloc').2.2, update_apply] at hq
        split at hq
        · cases hq
        · exact hq
    rw [hbitmap0, update_apply] at hq
    split at hq
    · cases hq
    next hqne => exact ⟨hq, hqne⟩
  set t := (s.frames.tracker.increment q0) with ht
  have hcountSame : ∀ q, q ≠ q0 → t.count q = s.frames.tracker.count q := by
    intro q hq
    rw [ht, count_increment, if_neg hq]
  have hbitmap : ∀ q, f'.allocator.bitmap q = true →
      s.frames.allocator.bitmap q = true ∧ q ≠ q0 ∨ q = e.page ∧ (t.decrement e.page).2 = 0 := by
    intro q hq
    rw [← hf'] at hq
    split at hq
    next hzero =>
      simp only [Frames.free, PPallocator.free, Frames.increment, update_apply] at hq
      split at hq
      next heq => exact Or.inr ⟨heq, hzero⟩
      · exact Or.inl (hallocator q hq)
    · exact Or.inl (hallocator q hq)
  have htracker : f'.tracker = (t.decrement e.page).1 := by
    rw [← hf']
    split <;> rfl
  obtain ⟨hlast, hleft⟩ := h.given_up hp he (hcountSame _ hne)
  set p' : UserProcess := { p with pageDirectory := d' } with hp'
  -- the entry leads to the new page, and every other slot holds what it held
  have hheld : ∀ slot q, (holding f' (update s.process pid (some p'))).held slot = some q →
      slot = (pid, .user (pageOf accessed)) ∧ q = q0 ∨
        slot ≠ (pid, .user (pageOf accessed)) ∧ (holding s.frames s.process).held slot = some q := by
    rintro ⟨pid', slot⟩ q hq
    rw [held_update] at hq
    split at hq
    next heq =>
      obtain rfl : pid' = pid := heq
      cases slot with
      | kernel page' =>
        refine Or.inr ⟨by simp, (held_eq hp _).trans ?_⟩
        obtain ⟨hmem, hpage'⟩ := held_kernel.1 hq
        exact held_kernel.2 ⟨hmem, hpage'⟩
      | user w =>
        obtain ⟨e', he', hpage'⟩ := held_user.1 hq
        rw [hp', hentry] at he'
        split at he'
        next hw =>
          cases he'
          exact Or.inl ⟨by rw [hw], hpage'.symm⟩
        next hw =>
          exact Or.inr ⟨by simpa using hw, (held_eq hp _).trans (held_user.2 ⟨e', he', hpage'⟩)⟩
    next hpid =>
      refine Or.inr ⟨?_, hq⟩
      rintro heq
      exact hpid (congrArg Prod.fst heq)
  have hsafe : SafePages f' (update s.process pid (some p')) := by
    refine Holding.Safe.fill h.safe ?_ ?_ ?_
    · rintro ⟨pid', slot⟩ q hq
      rcases hheld _ q hq with ⟨-, rfl⟩ | ⟨hslot, hold⟩
      · exact Or.inr (Or.inl hfree0)
      · refine Or.inl ⟨hold, ?_⟩
        by_cases hpid : pid' = pid
        · subst hpid
          rw [held_update, if_pos rfl] at hq
          refine soleIn_of_same hp hq ?_
          rintro w e' he' rfl
          rw [hp', hentry, if_neg (by simpa using hslot)] at he'
          exact he'
        · exact soleIn_update hpid
    · intro i j q hfree hi hj
      have hslot : ∀ slot, (holding f' (update s.process pid (some p'))).held slot = some q →
          slot = (pid, .user (pageOf accessed)) := by
        intro slot hslot
        rcases hheld slot q hslot with ⟨heq, -⟩ | ⟨-, hold⟩
        · exact heq
        · exact absurd hfree (h.safe.taken _ _ hold)
      rw [hslot i hi, hslot j hj]
    · intro slot q hq havailable
      rcases hheld slot q hq with ⟨-, rfl⟩ | ⟨hslot, hold⟩
      · rcases havailable with hfree | hzero
        · rcases hbitmap _ hfree with ⟨-, hneq⟩ | ⟨heq, -⟩
          · exact hneq rfl
          · exact hne heq.symm
        · exact hzero0 hzero
      · rcases havailable with hfree | hzero
        · rcases hbitmap _ hfree with ⟨hfree, -⟩ | ⟨rfl, hzero⟩
          · exact h.safe.taken _ _ hold (Or.inl hfree)
          · exact hslot (hlast hzero slot hold)
        · exact h.safe.taken _ _ hold (Or.inr hzero)
  refine ⟨by rw [process_put]; exact hsafe, h.threadsOk_put _ ⟨hok.rangesOk, hok.kernels, hok.placed,
    hok.copies⟩, ?_⟩
  intro q hq
  have hmapper : ∀ i ∈ (s.put pid f' p').mappers q, i = (pid, pageOf accessed) ∧ q = q0 ∨
      i ∈ (s.mappers q).erase (pid, pageOf accessed) := by
    rintro ⟨pid', w⟩ hi
    have hslot := held_of_mem_mappers hi
    rw [process_put] at hslot
    rcases hheld _ q hslot with ⟨heq, hq0⟩ | ⟨hneSlot, hold⟩
    · simp only [Prod.mk.injEq, PageSlot.user.injEq] at heq
      exact Or.inl ⟨Prod.ext heq.1 heq.2, hq0⟩
    · obtain ⟨hw, -⟩ := mem_mappers.1 hi
      obtain ⟨p1, hp1, hheld1⟩ := bind_eq_some_iff.1 hold
      obtain ⟨e', he', hpage'⟩ := held_user.1 hheld1
      exact Or.inr (Finset.mem_erase.2 ⟨by simpa using hneSlot, mem_mappers.2 ⟨hw, p1, e', hp1, he', hpage'⟩⟩)
  -- the new page has one mapping only
  have hqne : q ≠ q0 := by
    rintro rfl
    have hone : (s.put pid f' p').mappers q ⊆ {(pid, pageOf accessed)} := by
      intro i hi
      rcases hmapper i hi with ⟨heq, -⟩ | hold
      · exact Finset.mem_singleton.2 heq
      · have htaken := (h.taken (held_of_mem_mappers (Finset.mem_of_mem_erase hold))).1
        rw [hfree0] at htaken
        cases htaken
    have hle := Finset.card_le_card hone
    rw [Finset.card_singleton] at hle
    omega
  have hsub : (s.put pid f' p').mappers q ⊆ (s.mappers q).erase (pid, pageOf accessed) := by
    intro i hi
    exact (hmapper i hi).resolve_left fun hnew => hqne hnew.2
  show ∃ n : Nat, _ ≤ n ∧ n < 2 ^ 16 ∧ f'.tracker.count q = s16 n
  rw [htracker]
  by_cases heq : q = e.page
  · subst heq
    exact hleft _ hsub hq
  · rw [count_decrement_of_ne _ heq, hcountSame q hqne]
    have hle := Finset.card_le_card (hsub.trans (Finset.erase_subset _ _))
    obtain ⟨n, hn, hlt, hcount⟩ := h.counted q (hq.trans hle)
    exact ⟨n, hle.trans hn, hlt, hcount⟩

theorem Inv.access (ht : t ∈ p.threads) {address : Nat} {written : Option UInt8}
    (haccess : s.access pid p t address written = some s') : s'.Inv := by
  unfold UserMemory.access at haccess
  split at haccess
  · obtain ⟨⟨f1, c1, p1, t1, answer⟩, hhandle, rfl⟩ := Option.map_eq_some_iff.1 haccess
    have hput : (s.put pid f1 p1).Inv := by
      rcases handlePageFault_cases hhandle with ⟨harea, hbelow, hgrow, -⟩ |
        ⟨-, -, page, hpage, ⟨-, -, hthere⟩, hcopy, -⟩ | ⟨-, -, rfl, rfl, -⟩
      · exact h.put_growStack hp ht harea hbelow hgrow
      · exact h.put_copyOnWrite hp hpage hthere hcopy
      · refine h.of_same rfl ?_
        rw [process_put, ← hp]
        exact update_eq_self pid s.process
    exact hput.of_same rfl rfl
  · cases written with
    | none =>
      cases haccess
      exact h
    | some byte =>
      cases haccess
      exact h.of_same rfl rfl

end

end UserMemory

end MeetixOS.Kernel
