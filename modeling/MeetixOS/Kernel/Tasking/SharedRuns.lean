import MeetixOS.Kernel.Tasking.SharedPages

/-! # Sharing and giving back in every run

`fork` makes two processes share their low pages, and `deleteTask` takes processes and threads away. They
keep `UserMemory.Inv` where they meet `UserMemory.CountsShared`. Without the condition the exit of a forked
process frees the pages that its parent still uses. -/

open Function (update update_apply update_of_ne update_self)
open Option (bind_eq_bind bind_eq_some_iff map_eq_some_iff)

namespace MeetixOS.Kernel

open MeetixOS.Lib ThreadManager InterruptExceptionHandler PageDirectory

namespace UserMemory

variable {s s' : UserMemory} {pid : Tid} {p p' : UserProcess} {f f' : Frames} {q v : Nat}

/-! ## Forking -/

theorem lowMapped_count_le {d d' : PageDirectory}
    (h : ∀ v < lowPages, ∀ e, d'.entry v = some e → ∃ e', d.entry v = some e' ∧ e'.page = e.page) (q : Nat) :
    d'.lowMapped.count q ≤ d.lowMapped.count q := by
  rw [count_lowMapped, count_lowMapped]
  refine Finset.card_le_card ?_
  intro v hv
  rw [mem_lowHolders] at hv ⊢
  obtain ⟨hlow, e, he, rfl⟩ := hv
  exact ⟨hlow, h v hlow e he⟩

variable {id : Tid} {t : ThreadMemory} {freed : List Nat} {slot : Tid × PageSlot}

/-- The new process holds, without write permission, what its parent holds, and may not write there
either. -/
theorem safePages_cloned {process : Tid → Option UserProcess} (hs : SafePages f process) {f1 : Frames}
    (hp : process pid = some p) (hid : process id = none) {d : PageDirectory}
    (hentry : ∀ v, d.entry v =
      if 1024 ≤ v ∧ v < lowPages then (p.pageDirectory.entry v).map PageEntry.readOnly else none)
    (clone : UserProcess) (hclone : clone.pageDirectory = d) (hthreads : clone.threads = [])
    (hfree : ∀ q, f1.allocator.bitmap q = true → f.allocator.bitmap q = true) :
    SafePages f1 (update (update process pid
      (some { p with pageDirectory := protectTables p.pageDirectory })) id (some clone)) := by
  have hne : pid ≠ id := by
    rintro rfl
    rw [hp] at hid
    cases hid
  set p' : UserProcess := { p with pageDirectory := protectTables p.pageDirectory } with hp'
  -- in the area that is cloned the parent keeps its pages and may not write them
  have hprotected : ∀ v e, p'.pageDirectory.entry v = some e → ∃ e', p.pageDirectory.entry v = some e' ∧
      e'.page = e.page ∧ (1024 ≤ v ∧ v < lowPages ∧ e.isWritable = false ∨ e' = e) := by
    intro v e he
    rw [hp', entry_protectTables] at he
    split at he
    next hv =>
      obtain ⟨e', he', rfl⟩ := map_eq_some_iff.1 he
      exact ⟨e', he', rfl, Or.inl ⟨hv.1, hv.2, e'.readOnly_isWritable⟩⟩
    · exact ⟨e, he, rfl, Or.inr rfl⟩
  refine Holding.Safe.share hs ?_ ?_
  · rintro ⟨pid', slot⟩ q hq
    rw [held_update] at hq
    split at hq
    next heq =>
      obtain rfl : pid' = id := heq
      right
      cases slot with
      | kernel page =>
        obtain ⟨hmem, -⟩ := held_kernel.1 hq
        rw [UserProcess.kernelStacks, hthreads] at hmem
        cases hmem
      | user v =>
        obtain ⟨e, he, rfl⟩ := held_user.1 hq
        rw [hclone, hentry] at he
        split at he
        next hv =>
          obtain ⟨e', he', rfl⟩ := map_eq_some_iff.1 he
          refine ⟨?_, (pid, .user v), (held_eq hp _).trans (held_user.2 ⟨e', he', rfl⟩), ?_⟩
          · intro hsole
            rcases hsole clone (update_self ..) with hhigh | hwritable
            · omega
            · have hclonedEntry : clone.pageDirectory.entry v = some e'.readOnly := by
                rw [hclone, hentry, if_pos hv, he', Option.map_some]
              have := hwritable _ hclonedEntry
              rw [e'.readOnly_isWritable] at this
              cases this
          · intro hsole
            have hpid : update (update process pid (some p')) pid' (some clone) pid =
                some p' := by
              rw [update_of_ne hne, update_self]
            rcases hsole p' hpid with hhigh | hwritable
            · omega
            · have hparent : p'.pageDirectory.entry v = some e'.readOnly := by
                rw [hp', entry_protectTables, if_pos hv, he', Option.map_some]
              have := hwritable _ hparent
              rw [e'.readOnly_isWritable] at this
              cases this
        · cases he
    next hpid' =>
      left
      rw [held_update] at hq
      split at hq
      next heq =>
        obtain rfl : pid' = pid := heq
        have hold : p.held slot = some q := by
          cases slot with
          | kernel page =>
            obtain ⟨hmem, hpage⟩ := held_kernel.1 hq
            exact held_kernel.2 ⟨hmem, hpage⟩
          | user v =>
            obtain ⟨e, he, rfl⟩ := held_user.1 hq
            obtain ⟨e', he', hpage, -⟩ := hprotected v e he
            exact held_user.2 ⟨e', he', hpage⟩
        refine ⟨(held_eq hp _).trans hold, ?_⟩
        intro hsole p1 hp1
        cases hp.symm.trans hp1
        have hsole' := hsole p' (by rw [update_of_ne hpid', update_self])
        cases slot with
        | kernel page => trivial
        | user v =>
          obtain ⟨e, he, -⟩ := held_user.1 hq
          obtain ⟨e', he', -, hv | rfl⟩ := hprotected v e he
          · rcases hsole' with hhigh | hwritable
            · omega
            · rw [hwritable e he] at hv
              exact absurd hv.2.2 (by decide)
          · refine hsole'.imp_right fun hwritable e'' he'' => ?_
            cases he'.symm.trans he''
            exact hwritable _ he
      next hpid =>
        refine ⟨hq, fun hsole p1 hp1 => ?_⟩
        have hpid'' : ¬pid' = id := hpid'
        have hpid3 : ¬pid' = pid := hpid
        exact hsole p1 (by rw [update_of_ne hpid'', update_of_ne hpid3, hp1])
  · rintro q (hq | rfl)
    · exact Or.inl (hfree q hq)
    · exact Or.inr rfl

theorem Inv.fork (h : s.Inv) (hp : s.process pid = some p) (hid : s.process id = none)
    (ht : t ∈ p.threads) {c c' : PageContents} {child : UserProcess}
    (hcount : ∀ q ∈ p.pageDirectory.lowMapped, ∃ n : Nat, s.mappings q ≤ n ∧
      n + p.pageDirectory.lowMapped.count q < 2 ^ 16 ∧ s.frames.tracker.count q = s16 n)
    (hfork : ThreadManager.fork s.frames c p t id = some (f', c', p', child)) :
    ((s.put pid f' p').put id f' child).Inv := by
  have hok := h.threadsOk pid p hp
  obtain ⟨f1, f2, d, page, hforked⟩ := fork_spec (hok.placed t ht) hfork
  obtain rfl := hforked.parent
  obtain ⟨a, hkernel, rfl⟩ := hforked.kernelStack
  obtain ⟨t', hthreads, hstackPage, hplaced, hcopy⟩ := hforked.threads
  set p' : UserProcess := { p with pageDirectory := protectTables p.pageDirectory } with hp'
  let clone : UserProcess := { child with pageDirectory := d, threads := [] }
  let grown : UserProcess := { child with threads := [] }
  have hcloned := safePages_cloned h.safe hp hid hforked.entry clone rfl rfl hforked.counted.free
  have hgrown : SafePages f2 (update
      (update (update s.process pid (some p')) id (some clone)) id (some grown)) :=
    hcloned.filled id (p := clone) (update_self ..) hforked.filled fun _ hmem => hmem
  rw [Function.update_idem] at hgrown
  have hkernels : ∀ page' ∈ child.kernelStacks, page' = page ∨ page' ∈ grown.kernelStacks := by
    intro page' hpage'
    rw [UserProcess.kernelStacks, hthreads, List.map_singleton, List.mem_singleton, hstackPage] at hpage'
    exact Or.inl hpage'
  have hsafe : SafePages { f2 with allocator := a } (update
      (update (update s.process pid (some p')) id (some grown)) id (some child)) :=
    hgrown.kernelStack id (p := grown) (update_self ..) hkernel rfl hkernels
  rw [Function.update_idem] at hsafe
  have hprocess :
      ((s.put pid { f2 with allocator := a } p').put id { f2 with allocator := a } child).process =
      update (update s.process pid (some p')) id (some child) := by
    rw [process_put, process_put]
  refine ⟨?_, ?_, ?_⟩
  · rw [hprocess]
    exact hsafe
  · intro pid' p1 hp1
    rw [hprocess, update_apply] at hp1
    split at hp1
    · cases hp1
      refine ⟨hforked.rangesOk, ?_, ?_, ?_⟩
      · rw [UserProcess.kernelStacks, hthreads]
        exact List.nodup_singleton _
      · rw [hthreads]
        intro t1 ht1
        rwa [List.mem_singleton.1 ht1]
      · rw [hthreads]
        intro t1 ht1
        rw [List.mem_singleton.1 ht1]
        exact Or.inl hcopy
    · rw [update_apply] at hp1
      split at hp1
      · cases hp1
        exact ⟨hok.rangesOk, hok.kernels, hok.placed, hok.copies⟩
      · exact h.threadsOk pid' p1 hp1
  · intro q hq
    -- a page is mapped by the new process where its parent maps it
    set s' := (s.put pid { f2 with allocator := a } p').put id { f2 with allocator := a } child with hs'
    have hmapper : ∀ i ∈ s'.mappers q, i ∈ s.mappers q ∨ i.1 = id ∧ i.2 ∈ d.lowHolders q := by
      rintro ⟨pid', v⟩ hi
      obtain ⟨hv, p1, e, hp1, he, hpage⟩ := mem_mappers.1 hi
      rw [hprocess, update_apply] at hp1
      split at hp1
      next heq =>
        cases hp1
        rw [hforked.low v hv] at he
        exact Or.inr ⟨heq, mem_lowHolders.2 ⟨hv, e, he, hpage⟩⟩
      · rw [update_apply] at hp1
        split at hp1
        next heq =>
          cases hp1
          obtain rfl : pid' = pid := heq
          left
          rw [hp', entry_protectTables] at he
          split at he
          · obtain ⟨e', he', rfl⟩ := map_eq_some_iff.1 he
            exact mem_mappers.2 ⟨hv, p, e', hp, he', hpage⟩
          · exact mem_mappers.2 ⟨hv, p, e, hp, he, hpage⟩
        · exact Or.inl (mem_mappers.2 ⟨hv, p1, e, hp1, he, hpage⟩)
    have hle : (s'.mappers q).card ≤ (s.mappers q).card + d.lowMapped.count q := by
      let place : Nat ↪ Tid × Nat := ⟨fun v => (id, v), fun v w hvw => (Prod.mk.inj hvw).2⟩
      have hsub : s'.mappers q ⊆ s.mappers q ∪ (d.lowHolders q).map place := by
        rintro ⟨pid', v⟩ hi
        rw [Finset.mem_union, Finset.mem_map]
        rcases hmapper _ hi with hold | ⟨rfl, hv⟩
        · exact Or.inl hold
        · exact Or.inr ⟨v, hv, rfl⟩
      have hunion := (Finset.card_le_card hsub).trans (Finset.card_union_le _ _)
      rwa [Finset.card_map, ← count_lowMapped] at hunion
    -- the page was held before, so that only its clones are counted
    have htaken : s.frames.allocator.bitmap q = false := by
      obtain ⟨i, hi⟩ := Finset.card_pos.1 (Nat.lt_of_lt_of_le Nat.two_pos hq)
      rcases hmapper i hi with hold | ⟨-, hv⟩
      · exact (h.taken (held_of_mem_mappers hold)).1
      · obtain ⟨-, e, he, rfl⟩ := mem_lowHolders.1 hv
        rw [hforked.entry] at he
        split at he
        · obtain ⟨e', he', rfl⟩ := map_eq_some_iff.1 he
          exact (h.taken ((held_eq hp (.user i.2)).trans (held_user.2 ⟨e', he', rfl⟩))).1
        · cases he
    have htaken1 : f1.allocator.bitmap q = false := by
      rw [← Bool.not_eq_true]
      intro hfree1
      rw [hforked.counted.free q hfree1] at htaken
      cases htaken
    have hcountEq : s'.frames.tracker.count q = f1.tracker.count q := hforked.filled.count q (Or.inl htaken1)
    rw [hcountEq]
    by_cases hmem : q ∈ d.lowMapped
    · have hmem' : q ∈ p.pageDirectory.lowMapped := by
        obtain ⟨v, hv, e, he, rfl⟩ := mem_lowMapped.1 hmem
        rw [hforked.entry] at he
        split at he
        · obtain ⟨e', he', rfl⟩ := map_eq_some_iff.1 he
          exact mem_lowMapped.2 ⟨v, hv, e', he', rfl⟩
        · cases he
      obtain ⟨n, hn, hlt, hcountq⟩ := hcount q hmem'
      rw [mappings_eq_card] at hn
      have hcloned : d.lowMapped.count q ≤ p.pageDirectory.lowMapped.count q := by
        refine lowMapped_count_le (fun v _ e he => ?_) q
        rw [hforked.entry] at he
        split at he
        · obtain ⟨e', he', rfl⟩ := map_eq_some_iff.1 he
          exact ⟨e', he', rfl⟩
        · cases he
      exact ⟨n + d.lowMapped.count q, hle.trans (Nat.add_le_add_right hn _),
        (Nat.add_le_add_left hcloned n).trans_lt hlt, hforked.counted.added q n hcountq⟩
    · rw [List.count_eq_zero.2 hmem, Nat.add_zero] at hle
      obtain ⟨n, hn, hlt, hcountq⟩ := h.counted q (hq.trans hle)
      exact ⟨n, hle.trans hn, hlt, (hforked.counted.count q hmem).trans hcountq⟩

/-! ## Deleting -/

/-- The page is 0, or its entry in the area has been removed. -/
def Gone (d d' : PageDirectory) (area : Nat → Prop) (q : Nat) : Prop :=
  q = 0 ∨ ∃ v e, area v ∧ d.entry v = some e ∧ e.page = q ∧ d'.entry v = none

/-- Entries of an area are removed, and only their pages are freed or counted less. -/
structure Released (f f' : Frames) (d d' : PageDirectory) (area : Nat → Prop) : Prop where
  entry : ∀ v e, d'.entry v = some e → d.entry v = some e
  freed : ∀ q, f'.allocator.bitmap q = true → f.allocator.bitmap q = true ∨ Gone d d' area q
  count : ∀ q, f'.tracker.count q = f.tracker.count q ∨ Gone d d' area q

section

variable {d d' d'' : PageDirectory} {f'' : Frames} {area area' : Nat → Prop}

theorem Released.refl (f : Frames) (d : PageDirectory) (area : Nat → Prop) : Released f f d d area where
  entry _ _ he := he
  freed _ hq := Or.inl hq
  count _ := Or.inl rfl

theorem Released.mono (h : Released f f' d d' area) (hsub : ∀ v, area v → area' v) :
    Released f f' d d' area' := by
  have hgone : ∀ q, Gone d d' area q → Gone d d' area' q := by
    intro q hq
    refine hq.imp_right ?_
    rintro ⟨v, e, hv, hrest⟩
    exact ⟨v, e, hsub v hv, hrest⟩
  exact ⟨h.entry, fun q hq => (h.freed q hq).imp_right (hgone q), fun q => (h.count q).imp_right (hgone q)⟩

theorem Released.trans (h : Released f f' d d' area) (h' : Released f' f'' d' d'' area) :
    Released f f'' d d'' area := by
  have hfirst : ∀ q, Gone d d' area q → Gone d d'' area q := by
    intro q hq
    refine hq.imp_right ?_
    rintro ⟨v, e, hv, he, hpage, hnone⟩
    refine ⟨v, e, hv, he, hpage, ?_⟩
    rw [Option.eq_none_iff_forall_ne_some]
    intro e' he'
    rw [h'.entry v e' he'] at hnone
    cases hnone
  have hsecond : ∀ q, Gone d' d'' area q → Gone d d'' area q := by
    intro q hq
    refine hq.imp_right ?_
    rintro ⟨v, e, hv, he, hrest⟩
    exact ⟨v, e, hv, h.entry v e he, hrest⟩
  refine ⟨fun v e he => h.entry v e (h'.entry v e he), ?_, ?_⟩
  · intro q hq
    rcases h'.freed q hq with hq | hgone
    · exact (h.freed q hq).imp_right (hfirst q)
    · exact Or.inr (hsecond q hgone)
  · intro q
    rcases h'.count q with hsame | hgone
    · rw [hsame]
      exact (h.count q).imp_right (hfirst q)
    · exact Or.inr (hsecond q hgone)

end

theorem rangesOk_free (hp : p.RangesOk) (address : Nat) :
    UserProcess.RangesOk { p with virtualRanges := (p.virtualRanges.free address).1 } := by
  by_cases hmem : ∃ r ∈ p.virtualRanges, r.base = address
  · obtain ⟨r, hr, rfl⟩ := hmem
    cases hused : r.used with
    | true => exact (hp.free_spec start_aligned hr hused).1
    | false =>
      have hsame := hp.free_unused start_aligned hr hused
      rw [UserProcess.RangesOk, hsame]
      exact hp
  · have hnone : p.virtualRanges.find? (fun r => r.base = address) = none := by
      rw [List.find?_eq_none]
      intro r hr
      rw [decide_eq_true_eq]
      exact fun heq => hmem ⟨r, hr, heq⟩
    rw [UserProcess.RangesOk, AddressRangePool.free, hnone]
    exact hp

theorem freeAndUnmapPages_released {inRanges : Bool} {n address : Nat} (hp : p.RangesOk)
    (h : freeAndUnmapPages inRanges n f p address = some (f', p', freed)) :
    (∃ pool' d', p' = { p with virtualRanges := pool', pageDirectory := d' }) ∧ p'.RangesOk ∧
      Released f f' p.pageDirectory p'.pageDirectory
        fun v => pageOf address ≤ v ∧ v < pageOf address + n := by
  induction n generalizing f p address freed with
  | zero =>
    cases h
    exact ⟨⟨_, _, rfl⟩, hp, Released.refl ..⟩
  | succ n ih =>
    simp only [freeAndUnmapPages, bind_eq_bind, bind_eq_some_iff] at h
    obtain ⟨page, hpage, ⟨f1, p1, freed1⟩, hrest, heq⟩ := h
    cases heq
    set d1 := AddressSpace.unmap p.pageDirectory address with hd1
    have hround : Released f (({ f with tracker := (f.tracker.decrement page).1 } : Frames).free page)
        p.pageDirectory d1 fun v => pageOf address ≤ v ∧ v < pageOf address + (n + 1) := by
      have hgone : Gone p.pageDirectory d1 (fun v => pageOf address ≤ v ∧ v < pageOf address + (n + 1))
          page := by
        rcases AddressSpace.virtualToPhysical_cases hpage with ⟨e, he, rfl⟩ | ⟨-, rfl⟩
        · refine Or.inr ⟨_, e, ⟨le_rfl, by omega⟩, he, rfl, ?_⟩
          rw [hd1, AddressSpace.entry_unmap, if_pos rfl]
        · exact Or.inl rfl
      refine ⟨?_, ?_, ?_⟩
      · intro v e he
        rw [hd1, AddressSpace.entry_unmap] at he
        split at he
        · cases he
        · exact he
      · intro q hq
        simp only [Frames.free, PPallocator.free, update_apply] at hq
        split at hq
        next heq =>
          subst heq
          exact Or.inr hgone
        · exact Or.inl hq
      · intro q
        by_cases heq : q = page
        · subst heq
          exact Or.inr hgone
        · exact Or.inl (PPreferenceTracker.count_decrement_of_ne _ heq)
    have hnext := pageOf_add_pageSize address
    -- with or without the range given back, the directory is the same
    cases inRanges with
    | false =>
      obtain ⟨⟨pool', d', rfl⟩, hranges, hreleased⟩ :=
        ih (p := { p with pageDirectory := d1 }) hp hrest
      refine ⟨⟨pool', d', rfl⟩, hranges, hround.trans (hreleased.mono ?_)⟩
      intro v hv
      omega
    | true =>
      obtain ⟨⟨pool', d', rfl⟩, hranges, hreleased⟩ := ih
        (p := { p with
          pageDirectory := d1, virtualRanges := (p.virtualRanges.free address).1 })
        (rangesOk_free hp address) hrest
      refine ⟨⟨pool', d', rfl⟩, hranges, hround.trans (hreleased.mono ?_)⟩
      intro v hv
      omega

theorem deleteThread_released (hp : p.RangesOk)
    (hplaced : t.StackPlaced) (hcopy : t.tlsCopyVirt = 0 ∨ constUserVirtualRangesStart ≤ t.tlsCopyVirt)
    (h : deleteThread f p t = some (f', p', freed)) :
    (∃ pool' d', p' = { p with
      virtualRanges := pool', pageDirectory := d', threads := p.threads.erase t }) ∧ p'.RangesOk ∧
      Released (f.free t.kernelStack) f' p.pageDirectory p'.pageDirectory fun v => lowPages ≤ v := by
  simp only [deleteThread, bind_eq_bind, bind_eq_some_iff] at h
  obtain ⟨⟨f1, p1, stack⟩, hstack, h⟩ := h
  obtain ⟨⟨pool1, d1, rfl⟩, hranges, hreleased⟩ := freeAndUnmapPages_released hp hstack
  have hstart : constUserVirtualRangesStart ≤ t.userStackAreaStart := by
    obtain ⟨hpages, hreserved, -⟩ := hplaced
    exact Nat.le_of_add_le_add_right
      (hreserved.trans (Nat.add_le_add_left (Nat.mul_le_mul_right _ hpages) _))
  have hfirst := hreleased.mono fun v hv => (Nat.div_le_div_right hstart).trans hv.1
  split at h
  next hthere =>
    obtain ⟨⟨f2, p2, tls⟩, htls, heq⟩ := bind_eq_some_iff.1 h
    obtain ⟨rfl, rfl, -⟩ := heq
    obtain ⟨⟨pool2, d2, rfl⟩, hranges2, hreleased2⟩ := freeAndUnmapPages_released hranges htls
    refine ⟨⟨pool2, d2, rfl⟩, hranges2, hfirst.trans (hreleased2.mono ?_)⟩
    intro v hv
    exact (Nat.div_le_div_right (hcopy.resolve_left hthere)).trans hv.1
  · cases h
    exact ⟨⟨pool1, d1, rfl⟩, hranges, hfirst⟩

theorem deleteProcess_released (hp : p.RangesOk) (h : deleteProcess f p = some (f', p', freed)) :
    Released f f' p.pageDirectory p'.pageDirectory p.FreedWith := by
  simp only [deleteProcess, bind_eq_bind, bind_eq_some_iff] at h
  obtain ⟨⟨f1, p1, image⟩, himage, ⟨f2, p2, heap⟩, hheap, ⟨f3, p3, tls⟩, htls, heq⟩ := h
  cases heq
  obtain ⟨⟨pool1, d1, rfl⟩, hranges1, hreleased1⟩ := freeAndUnmapPages_released hp himage
  obtain ⟨⟨pool2, d2, rfl⟩, hranges2, hreleased2⟩ := freeAndUnmapPages_released hranges1 hheap
  obtain ⟨⟨pool3, d3, rfl⟩, -, hreleased3⟩ := freeAndUnmapPages_released hranges2 htls
  have hfirst := hreleased1.mono fun v hv => (Or.inl hv : p.FreedWith v)
  have hsecond := hreleased2.mono fun v hv => (Or.inr (Or.inl hv) : p.FreedWith v)
  have hthird := hreleased3.mono fun v hv => (Or.inr (Or.inr hv) : p.FreedWith v)
  exact (hfirst.trans hsecond).trans hthird

theorem Inv.not_held_of_gone (h : s.Inv) {d' : PageDirectory}
    {area : Nat → Prop} (hgone : Gone p.pageDirectory d' area q)
    (harea : ∀ v e, area v → p.pageDirectory.entry v = some e →
      (holding s.frames s.process).held slot = some e.page → slot = (pid, .user v))
    (hslot : (holding s.frames s.process).held slot = some q) :
    ∃ v, slot = (pid, .user v) ∧ d'.entry v = none := by
  rcases hgone with rfl | ⟨v, e, hv, he, rfl, hnone⟩
  · exact absurd rfl (h.taken hslot).2
  · exact ⟨v, harea v e hv he hslot, hnone⟩

theorem Inv.high_alone (h : s.Inv) (hp : s.process pid = some p) {e : PageEntry} (hv : lowPages ≤ v)
    (he : p.pageDirectory.entry v = some e)
    (hslot : (holding s.frames s.process).held slot = some e.page) : slot = (pid, .user v) := by
  by_contra hne
  exact absurd (Inv.shared h.safe hp he hslot hne).1 (Nat.not_lt.2 hv)

section

variable (h : s.Inv) (hp : s.process pid = some p) (ht : t ∈ p.threads)
include h hp ht

theorem Inv.kernelStack_alone (hslot : (holding s.frames s.process).held slot = some t.kernelStack) :
    slot = (pid, .kernel t.kernelStack) := by
  have hheld : (holding s.frames s.process).held (pid, .kernel t.kernelStack) = some t.kernelStack :=
    (held_eq hp _).trans (held_kernel.2 ⟨List.mem_map_of_mem ht, rfl⟩)
  exact h.safe.alone _ _ _ hheld hslot fun _ _ => trivial

theorem Inv.put_deleteThread (hdelete : deleteThread s.frames p t = some (f', p', freed)) :
    (s.put pid f' p').Inv := by
  have hok := h.threadsOk pid p hp
  obtain ⟨⟨pool', d', rfl⟩, hranges, hreleased⟩ :=
    deleteThread_released hok.rangesOk (hok.placed t ht) (hok.copies t ht) hdelete
  set p' : UserProcess := { p with
    virtualRanges := pool', pageDirectory := d', threads := p.threads.erase t } with hp'
  have hkernels : p'.kernelStacks.Sublist p.kernelStacks := List.erase_sublist.map _
  have hkernelGone : t.kernelStack ∉ p'.kernelStacks := by
    intro hmem
    obtain ⟨t1, ht1, hsame⟩ := List.mem_map.1 hmem
    have heq := List.inj_on_of_nodup_map hok.kernels (List.mem_of_mem_erase ht1) ht hsame
    rw [heq] at ht1
    exact (List.Nodup.of_map _ hok.kernels).not_mem_erase ht1
  -- a slot that still holds a page held it before
  have hheld : ∀ slot q, (holding f' (update s.process pid (some p'))).held slot = some q →
      (holding s.frames s.process).held slot = some q := by
    rintro ⟨pid', slot⟩ q hq
    rw [held_update] at hq
    split at hq
    next heq =>
      obtain rfl : pid' = pid := heq
      refine (held_eq hp _).trans ?_
      cases slot with
      | kernel page =>
        obtain ⟨hmem, hpage⟩ := held_kernel.1 hq
        exact held_kernel.2 ⟨hkernels.subset hmem, hpage⟩
      | user v =>
        obtain ⟨e, he, hpage⟩ := held_user.1 hq
        exact held_user.2 ⟨e, hreleased.entry v e he, hpage⟩
    · exact hq
  have hnotGone : ∀ slot q, (holding f' (update s.process pid (some p'))).held slot = some q →
      ¬Gone p.pageDirectory d' (fun v => lowPages ≤ v) q := by
    intro slot q hq hgone
    obtain ⟨v, rfl, hnone⟩ := h.not_held_of_gone hgone
      (fun v e hv he hslot => h.high_alone hp hv he hslot) (hheld slot q hq)
    rw [held_update, if_pos rfl] at hq
    obtain ⟨e, he, -⟩ := held_user.1 hq
    rw [hp', hnone] at he
    cases he
  refine ⟨?_, h.threadsOk_put _ ⟨hranges, ?_, ?_, ?_⟩, h.counted_of_held ?_⟩
  · rw [process_put]
    refine h.safe.drop pid hp hreleased.entry hkernels.subset ?_
    intro slot q hq hfree
    rcases hreleased.freed q hfree with hfree | hgone
    · simp only [Frames.free, PPallocator.free, update_apply] at hfree
      split at hfree
      next heq =>
        -- the kernel stack is none of the process any more
        subst heq
        have hslot := h.kernelStack_alone hp ht (hheld slot _ hq)
        subst hslot
        rw [held_update, if_pos rfl] at hq
        exact absurd (held_kernel.1 hq).1 hkernelGone
      · exact hfree
    · exact absurd hgone (hnotGone slot q hq)
  · exact hok.kernels.sublist hkernels
  · intro t1 ht1
    exact hok.placed t1 (List.mem_of_mem_erase ht1)
  · intro t1 ht1
    exact hok.copies t1 (List.mem_of_mem_erase ht1)
  · rw [process_put]
    exact fun slot q hq => ⟨hheld slot q hq, (hreleased.count q).resolve_right (hnotGone slot q hq)⟩

theorem Inv.erase_deleteTask (hmain : t.isMain = true)
    (hshared : ∀ v < lowPages, p.FreedWith v → ∀ e, p.pageDirectory.entry v = some e → ∀ pid' p1,
      pid' ≠ pid → s.process pid' = some p1 → e.page ∉ p1.pageDirectory.lowMapped)
    (hdelete : ThreadManager.deleteTask s.frames p t = some (f', p', freed)) :
    Inv { s with frames := f', processes := s.processes.erase pid } := by
  have hok := h.threadsOk pid p hp
  simp only [ThreadManager.deleteTask, hmain, if_true, bind_eq_bind, bind_eq_some_iff] at hdelete
  obtain ⟨⟨f1, p1, freed1⟩, hthread, ⟨f2, p2, freed2⟩, hprocess, heq⟩ := hdelete
  obtain ⟨rfl, rfl, -⟩ := heq
  obtain ⟨⟨pool1, d1, rfl⟩, hranges, hreleased1⟩ :=
    deleteThread_released hok.rangesOk (hok.placed t ht) (hok.copies t ht) hthread
  have hreleased2 := deleteProcess_released hranges hprocess
  let area : Nat → Prop := fun v => lowPages ≤ v ∨ p.FreedWith v
  have hreleased := (hreleased1.mono fun v hv => Or.inl hv).trans (hreleased2.mono fun v hv => Or.inr hv)
  set s' : UserMemory := { s with frames := f2, processes := s.processes.erase pid } with hs'
  have hlookup : ∀ pid', s'.process pid' = if pid' = pid then none else s.process pid' := by
    intro pid'
    split
    next heq =>
      subst heq
      exact AList.lookup_erase ..
    next hne => exact AList.lookup_erase_ne hne
  have hheld : ∀ slot q, (holding f2 s'.process).held slot = some q →
      slot.1 ≠ pid ∧ (holding s.frames s.process).held slot = some q := by
    intro slot q hq
    simp only [holding, hlookup] at hq
    split at hq
    · cases hq
    next hne => exact ⟨hne, hq⟩
  -- what another process holds was in no area that is freed
  have hnotGone : ∀ slot q, (holding f2 s'.process).held slot = some q →
      ¬Gone p.pageDirectory p2.pageDirectory area q := by
    intro slot q hq hgone
    obtain ⟨hne, hold⟩ := hheld slot q hq
    have halone : ∀ v e, area v → p.pageDirectory.entry v = some e →
        (holding s.frames s.process).held slot = some e.page → slot = (pid, .user v) := by
      rintro v e (hhigh | hv) he hslot
      · exact h.high_alone hp hhigh he hslot
      · by_contra hneSlot
        obtain ⟨pid', w, p1, e', rfl, hlow, hlow', hp1, he', hpage⟩ :=
          h.other_mapper hp he hslot hneSlot
        exact hshared v hlow hv e he pid' p1 hne hp1 (mem_lowMapped.2 ⟨w, hlow', e', he', hpage⟩)
    obtain ⟨v, rfl, -⟩ := h.not_held_of_gone hgone halone hold
    exact hne rfl
  refine ⟨?_, ?_, h.counted_of_held ?_⟩
  · refine Holding.Safe.drop h.safe ?_ ?_
    · rintro ⟨pid', slot⟩ q hq
      obtain ⟨hne, hold⟩ := hheld _ q hq
      refine ⟨hold, fun hsole p1 hp1 => hsole p1 ?_⟩
      rw [hlookup, if_neg hne, hp1]
    · rintro slot q hq (hfree | rfl)
      · left
        rcases hreleased.freed q hfree with hfree | hgone
        · simp only [Frames.free, PPallocator.free, update_apply] at hfree
          split at hfree
          next heq =>
            subst heq
            obtain ⟨hne, hold⟩ := hheld slot _ hq
            rw [h.kernelStack_alone hp ht hold] at hne
            exact absurd rfl hne
          · exact hfree
        · exact absurd hgone (hnotGone slot q hq)
      · exact Or.inr rfl
  · intro pid' p1 hp1
    rw [hlookup] at hp1
    split at hp1
    · cases hp1
    · exact h.threadsOk pid' p1 hp1
  · exact fun slot q hq =>
      ⟨(hheld slot q hq).2, (hreleased.count q).resolve_right (hnotGone slot q hq)⟩

end

/-! ## Every run -/

theorem Inv.put_createProcess (h : s.Inv) (hnone : s.process id = none)
    (hcreate : ThreadManager.createProcess s.frames id = some (f', p')) : (s.put id f' p').Inv := by
  simp only [ThreadManager.createProcess, bind_eq_bind, bind_eq_some_iff] at hcreate
  obtain ⟨⟨a, page⟩, halloc, hcreate⟩ := hcreate
  have hempty : (s.put id s.frames .unmapped).Inv :=
    h.put_empty hnone (fun _ => rfl) rfl UserProcess.unmapped_rangesOk
  -- the page of the page directory
  have htaken := hempty.put_grown_same process_put_self
    ((filled_allocate _ halloc).grown rfl) rfl
  have hthread := htaken.put_createThread process_put_self hcreate
  rwa [put_put, put_put] at hthread

theorem Inv.step (h : s.Inv) {event : UserMemoryEvent} (hok : s.CountsShared event)
    (hstep : s.step event = some s') : s'.Inv := by
  cases event with
  | createProcess id =>
    simp only [UserMemory.step] at hstep
    split at hstep
    next hnone =>
      obtain ⟨⟨f', p'⟩, hcreate, rfl⟩ := map_eq_some_iff.1 hstep
      exact h.put_createProcess hnone hcreate
    · cases hstep
  | load pid headers =>
    simp only [UserMemory.step, bind_eq_bind, bind_eq_some_iff] at hstep
    obtain ⟨p, hp, ⟨f', p'⟩, hload, heq⟩ := hstep
    cases heq
    obtain ⟨hgrown, hsame, -⟩ := loadBinaryToCurrentAddressSpace_spec hload
    exact h.put_grown_same hp hgrown hsame.threads
  | createPagesInSpace pid virt pages =>
    simp only [UserMemory.step, bind_eq_bind, bind_eq_some_iff] at hstep
    obtain ⟨p, hp, ⟨f', p'⟩, hpages, heq⟩ := hstep
    cases heq
    obtain ⟨hgrown, hsame, -⟩ := UserProcess.createPagesInSpace_spec hpages
    exact h.put_grown_same hp hgrown hsame.threads
  | writeTlsMasterForProcess pid copySize totalSize alignment =>
    simp only [UserMemory.step, bind_eq_bind, bind_eq_some_iff] at hstep
    obtain ⟨p, hp, ⟨f', p'⟩, hwrite, heq⟩ := hstep
    cases heq
    obtain ⟨hgrown, hsame, -⟩ := UserProcess.writeTlsMasterForProcess_spec hwrite
    exact h.put_grown_same hp hgrown hsame.threads
  | prepareThreadLocalStorage pid t =>
    simp only [UserMemory.step, bind_eq_bind, bind_eq_some_iff] at hstep
    obtain ⟨p, hp, hstep⟩ := hstep
    split at hstep
    next hmem =>
      obtain ⟨⟨f', p', t'⟩, hprepare, heq⟩ := bind_eq_some_iff.1 hstep
      cases heq
      have hok := h.threadsOk pid p hp
      have hcopy := prepareThreadLocalStorage_copy hok.rangesOk hprepare
      obtain ⟨hgrown, ⟨pool', d', rfl⟩, virt, rfl⟩ := prepareThreadLocalStorage_spec hprepare
      refine h.put_replaced hp ⟨hgrown.filled, hgrown.rangesOk, hgrown.ranges⟩
        t { t with tlsCopyVirt := virt } rfl rfl ?_ ?_
      · obtain ⟨hpages, hreserved, hstart⟩ := hok.placed t hmem
        exact ⟨hpages, hreserved, hstart⟩
      · rcases hcopy with hcopy | hcopy
        · rw [hcopy]
          exact hok.copies t hmem
        · exact hcopy
    · cases hstep
  | createThread pid id =>
    simp only [UserMemory.step, bind_eq_bind, bind_eq_some_iff] at hstep
    obtain ⟨p, hp, ⟨f', p'⟩, hcreate, heq⟩ := hstep
    cases heq
    exact h.put_createThread hp hcreate
  | sbrk pid amount =>
    simp only [UserMemory.step, bind_eq_bind, bind_eq_some_iff] at hstep
    obtain ⟨p, hp, ⟨f', p'⟩, hsbrk, heq⟩ := hstep
    cases heq
    exact h.put_sbrk hp hsbrk
  | fork pid id =>
    simp only [UserMemory.step, bind_eq_bind, bind_eq_some_iff] at hstep
    obtain ⟨p, hp, t, hfind, hstep⟩ := hstep
    split at hstep
    next hnone =>
      obtain ⟨⟨f', c', p', child⟩, hfork, heq⟩ := bind_eq_some_iff.1 hstep
      cases heq
      have hforked := h.fork hp hnone (List.mem_of_find?_eq_some hfind) (hok p hp) hfork
      exact hforked.of_same rfl rfl
    · cases hstep
  | access pid t address written =>
    simp only [UserMemory.step, bind_eq_bind, bind_eq_some_iff] at hstep
    obtain ⟨p, hp, hstep⟩ := hstep
    split at hstep
    next hmem => exact h.access hp hmem hstep
    · cases hstep
  | deleteTask pid t =>
    simp only [UserMemory.step, bind_eq_bind, bind_eq_some_iff] at hstep
    obtain ⟨p, hp, hstep⟩ := hstep
    split at hstep
    next hmem =>
      obtain ⟨⟨f', p', freed⟩, hdelete, hstep⟩ := bind_eq_some_iff.1 hstep
      split at hstep
      next hmain =>
        cases hstep
        exact h.erase_deleteTask hp hmem hmain (hok hmain p hp) hdelete
      next hnot =>
        cases hstep
        simp only [ThreadManager.deleteTask, bind_eq_bind, bind_eq_some_iff] at hdelete
        obtain ⟨⟨f1, p1, freed1⟩, hthread, hdelete⟩ := hdelete
        rw [if_neg hnot] at hdelete
        cases hdelete
        exact h.put_deleteThread hp hmem hthread
    · cases hstep

theorem Initial.inv (h : s.Initial) : s.Inv := by
  have hnone : s.process = fun _ => none := by
    funext pid
    rw [process, h.1]
    rfl
  refine ⟨?_, ?_, ?_⟩
  · rw [hnone]
    exact safePages_none s.frames
  · intro pid p hp
    rw [hnone] at hp
    cases hp
  · intro q hq
    -- no process, no mapping
    obtain ⟨⟨pid, v⟩, hi⟩ := Finset.card_pos.1 (Nat.lt_of_lt_of_le Nat.two_pos hq)
    obtain ⟨-, p, e, hp, -⟩ := mem_mappers.1 hi
    rw [hnone] at hp
    cases hp

theorem reachable_inv (hs : userMemory.Reachable CountsShared s) : s.Inv := by
  refine hs.invariant (fun s (h : s.Initial) => h.inv) ?_
  intro s event s' h hok hstep
  exact h.step hok hstep

end UserMemory

/-- In every run in which no deleted process shares the pages it gives back, and no forked one's pages
lack references, no mapped page is free. -/
theorem mapped_pages_taken {s : UserMemory} (hs : userMemory.Reachable UserMemory.CountsShared s)
    {pid : Tid} {p : UserProcess} (hp : s.process pid = some p) {v : Nat} {e : PageEntry}
    (he : p.pageDirectory.entry v = some e) : s.frames.allocator.bitmap e.page = false := by
  have hinv := UserMemory.reachable_inv hs
  exact (hinv.taken ((held_eq hp _).trans (held_user.2 ⟨e, he, rfl⟩))).1

/-- No process yet, and the pages from `0x100` on are free. -/
def UserMemory.fresh : UserMemory :=
  { frames := ⟨⟨fun page => decide (0x100 ≤ page)⟩, ⟨fun _ => false, fun _ => 0⟩⟩
    contents := fun _ _ => 0
    processes := ∅ }

theorem UserMemory.fresh_init : userMemory.init .fresh := ⟨rfl, fun _ => rfl⟩

theorem UserMemory.countsShared_fork {s : UserMemory} {pid id : Pid} {p : UserProcess} {q : Nat}
    (hp : s.process pid = some p) (hlow : p.pageDirectory.lowMapped = [q]) (hmappings : s.mappings q = 1)
    (hcount : s.frames.tracker.count q = s16 1) : s.CountsShared (.fork pid id) := by
  intro p' hp' q' hq
  cases hp.symm.trans hp'
  rw [hlow, List.mem_singleton] at hq
  subst hq
  exact ⟨1, hmappings.le, by simp [hlow], hcount⟩

theorem mapped_pages_taken_forked : ∃ s p e, userMemory.Reachable UserMemory.CountsShared s ∧
    s.process 1 = some p ∧ p.pageDirectory.entry 0x8000 = some e ∧ s.mappings e.page = 2 ∧
    s.frames.allocator.bitmap e.page = false := by
  obtain ⟨s1, h1, p1, hp1, ⟨hlow, hmappings, hcount⟩, s, h2, p, hp, e, he, htwo⟩ :
      ∃ s1 ∈ userMemory.run .fresh [.createProcess 1, .createPagesInSpace 1 0x8000000 1],
        ∃ p1 ∈ s1.process 1,
          (p1.pageDirectory.lowMapped = [260] ∧ s1.mappings 260 = 1 ∧
            s1.frames.tracker.count 260 = s16 1) ∧
          ∃ s ∈ s1.step (.fork 1 2), ∃ p ∈ s.process 1, ∃ e ∈ p.pageDirectory.entry 0x8000,
            s.mappings e.page = 2 := by
    decide +kernel
  have hreach1 : userMemory.Reachable UserMemory.CountsShared s1 :=
    .of_run (.init UserMemory.fresh_init) (by simp [UserMemory.CountsShared]) h1
  have hreach := hreach1.step (UserMemory.countsShared_fork hp1 hlow hmappings hcount) h2
  exact ⟨s, p, e, hreach, hp, he, htwo, mapped_pages_taken hreach hp he⟩

/-- The process forks and its child exits: the page that the process still maps is free. -/
theorem exit_frees_shared_page : 0x8000 < lowPages ∧ ∃ s p e,
    userMemory.Reachable (fun _ _ => True) s ∧
    s.process 1 = some p ∧ p.pageDirectory.entry 0x8000 = some e ∧
    s.frames.allocator.bitmap e.page = true := by
  obtain ⟨s, hs, p, hp, e, he, hfree⟩ :
      ∃ s ∈ userMemory.run .fresh [.createProcess 1, .createPagesInSpace 1 0x8000000 1, .fork 1 2,
          .deleteTask 2 { id := 2, isMain := true, kernelStack := 266, userStackAreaStart := 0xA000F000 }],
        ∃ p ∈ s.process 1, ∃ e ∈ p.pageDirectory.entry 0x8000, s.frames.allocator.bitmap e.page = true := by
    decide +kernel
  exact ⟨by decide, s, p, e, System.reachable_of_run UserMemory.fresh_init hs, hp, he, hfree⟩

end MeetixOS.Kernel
