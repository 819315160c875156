import MeetixOS.Kernel.Tasking.SharedRuns

/-! # Writes to the pages of a forked process

`fork` leaves each low page of the parent to both processes, without write permission, and `handlePageFault`
gives the one that writes to it a copy of its own, but for the pages of the image only: it compares the
address with `imageStart` and `imageEnd`. The heap begins at `imageEnd`, so its first page still counts, and
a write to any other raises a signal. -/

open Option (bind_eq_bind bind_eq_some_iff bind_some map_some)

namespace MeetixOS.Kernel

open MeetixOS.Lib ThreadManager InterruptExceptionHandler

/-! ## What is to happen -/

namespace PPallocator

/-- There is a page that `allocate` can hand out. -/
def HasFree (a : PPallocator) : Prop := a.bitmap 0 = false ∧ ∃ q < physicalPages, a.bitmap q = true

theorem findFree_isSome {bitmap : Nat → Bool} {page n q : Nat} (hle : page ≤ q) (hlt : q < page + n)
    (hq : bitmap q = true) : ∃ found, findFree bitmap page n = some found := by
  induction n generalizing page with
  | zero => omega
  | succ n ih =>
    rw [findFree]
    by_cases hpage : bitmap page = true
    · exact ⟨page, if_pos hpage⟩
    · have hne : page ≠ q := by
        rintro rfl
        exact hpage hq
      rw [if_neg hpage]
      exact ih (by omega) (by omega)

theorem findFree_le {bitmap : Nat → Bool} {page n found : Nat} (h : findFree bitmap page n = some found) :
    page ≤ found ∧ found < page + n := by
  induction n generalizing page with
  | zero => simp [findFree] at h
  | succ n ih =>
    rw [findFree] at h
    split at h
    · obtain rfl := Option.some.inj h
      omega
    · have := ih h
      omega

theorem allocate_isSome_iff (a : PPallocator) : (∃ a' q, a.allocate = some (a', q)) ↔ a.HasFree := by
  constructor
  · rintro ⟨a', q, h⟩
    rw [allocate] at h
    split at h
    next found hfound =>
      split at h
      · cases h
      next hne =>
        have hrange := findFree_le hfound
        refine ⟨?_, found, by omega, findFree_spec hfound⟩
        -- page 0 would have been found first
        rw [← Bool.not_eq_true]
        intro hset
        have hfirst : findFree a.bitmap 0 physicalPages = some 0 := by
          rw [physicalPages, findFree, if_pos hset]
        exact hne (Option.mem_unique hfound hfirst)
    · cases h
  · rintro ⟨hzero, q, hq, hfree⟩
    rw [← Nat.zero_add physicalPages] at hq
    obtain ⟨found, hfound⟩ := findFree_isSome (Nat.zero_le q) hq hfree
    have hne : found ≠ 0 := by
      rintro rfl
      have := findFree_spec hfound
      rw [hzero] at this
      cases this
    exact ⟨_, found, by rw [allocate, hfound]; exact if_neg hne⟩

end PPallocator

namespace UserMemory

/-- The bytes that a process reads in a virtual page, if it is mapped. -/
def reads (s : UserMemory) (pid : Tid) (v : Nat) : Option (Nat → UInt8) :=
  (s.process pid).bind fun p => (p.pageDirectory.entry v).map fun e => s.contents e.page

/-- The fault is resolved: the process has a page of its own with the bytes that it read before. -/
def Copied (s : UserMemory) (pid : Tid) (p : UserProcess) (thread : ThreadMemory) (address : Nat) : Prop :=
  ∃ f' c' p' e,
    handlePageFault s.frames s.contents p thread address = some (f', c', p', thread, .resumed) ∧
    p'.pageDirectory.entry (pageOf address) = some e ∧ e.isWritable = true ∧
    s.reads pid (pageOf address) = some (c' e.page) ∧
    ∀ pid' v', (pid', v') ≠ (pid, pageOf address) → ∀ p1 e1,
      (s.put pid f' p').process pid' = some p1 → p1.pageDirectory.entry v' = some e1 → e1.page ≠ e.page

/-- Whatever the other processes access, in any order, a process reads what it read before. -/
def Undisturbed (s : UserMemory) (pid : Tid) (v : Nat) : Prop :=
  ∀ accesses : List UserMemoryEvent,
    (∀ event ∈ accesses, ∃ who thread address written, who ≠ pid ∧
      event = .access who thread address written) →
    ∀ s', userMemory.run s accesses = some s' → s'.reads pid v = s.reads pid v

variable {s s' : UserMemory} {pid id : Tid} {p : UserProcess} {t : ThreadMemory} {v address : Nat}

theorem reads_eq (hp : s.process pid = some p) {e : PageEntry} (he : p.pageDirectory.entry v = some e) :
    s.reads pid v = some (s.contents e.page) := by
  rw [reads, hp, bind_some, he, map_some]

theorem reads_congr (hprocess : s'.process pid = s.process pid)
    (hcontents : ∀ p e, s.process pid = some p → p.pageDirectory.entry v = some e →
      s'.contents e.page = s.contents e.page) : s'.reads pid v = s.reads pid v := by
  unfold reads
  rw [hprocess]
  cases hp : s.process pid with
  | none => rfl
  | some p =>
    rw [bind_some, bind_some]
    cases he : p.pageDirectory.entry v with
    | none => rfl
    | some e => rw [map_some, map_some, hcontents p e hp he]

/-! ## One access -/

theorem pageOf_pageAlignDown (address : Nat) : pageOf (pageAlignDown address) = pageOf address := by
  simp only [pageOf, pageAlignDown, pageSize]
  omega

theorem copyOnWrite_contents {f f' : Frames} {c c' : PageContents} {p p' : UserProcess}
    {accessed page : Nat} (h : copyOnWrite f c p accessed page = some (f', c', p')) :
    ∃ a q, f.allocator.allocate = some (a, q) ∧ c' = Function.update c q (c page) := by
  simp only [copyOnWrite, bind_eq_bind, bind_eq_some_iff] at h
  obtain ⟨⟨a, q⟩, halloc, ⟨a', d', written⟩, -, heq⟩ := h
  cases heq
  exact ⟨a, q, halloc, rfl⟩

theorem Inv.contents_handlePageFault (h : s.Inv) {f' : Frames} {c' : PageContents} {p' : UserProcess}
    {t' : ThreadMemory} {answer : FaultAnswer}
    (hhandle : handlePageFault s.frames s.contents p t address = some (f', c', p', t', answer))
    {slot : Tid × PageSlot} {q : Nat} (hq : (holding s.frames s.process).held slot = some q) :
    c' q = s.contents q := by
  rcases handlePageFault_cases hhandle with ⟨-, -, -, -, rfl, -⟩ | ⟨-, -, page, -, -, hcopy, -⟩ |
    ⟨-, -, -, -, rfl, -⟩
  · rfl
  · obtain ⟨a, q', halloc, rfl⟩ := copyOnWrite_contents hcopy
    have hne : q ≠ q' := by
      rintro rfl
      have htaken := (h.taken hq).1
      rw [(PPallocator.allocate_spec halloc).1] at htaken
      cases htaken
    exact Function.update_of_ne hne _ _
  · rfl

theorem Inv.access_others (h : s.Inv) (hp : s.process pid = some p) {written : Option UInt8}
    (haccess : s.access pid p t address written = some s') {pid' : Tid} (hne : pid' ≠ pid) :
    s'.reads pid' v = s.reads pid' v := by
  unfold UserMemory.access at haccess
  split at haccess
  next hfault =>
    obtain ⟨⟨f1, c1, p1, t1, answer⟩, hhandle, rfl⟩ := Option.map_eq_some_iff.1 haccess
    refine reads_congr (process_put_of_ne (f := f1) hne) ?_
    intro p2 e hp2 he
    have hheld : (holding s.frames s.process).held (pid', .user v) = some e.page :=
      (held_eq hp2 _).trans (held_user.2 ⟨e, he, rfl⟩)
    exact h.contents_handlePageFault hhandle hheld
  next hfault =>
    cases written with
    | none =>
      cases haccess
      rfl
    | some byte =>
      cases haccess
      refine reads_congr rfl ?_
      intro p2 e hp2 he
      -- a page that may be written is mapped nowhere else
      have hheld : (holding s.frames s.process).held (pid', .user v) = some e.page :=
        (held_eq hp2 _).trans (held_user.2 ⟨e, he, rfl⟩)
      simp only [PageDirectory.faults, Option.isSome_some, Bool.true_and] at hfault
      split at hfault
      · exact absurd rfl hfault
      next e0 he0 =>
        rw [Bool.not_eq_true, Bool.not_eq_false'] at hfault
        have hbehind : pageBehind p.pageDirectory (pageOf address) = e0.page := by
          rw [pageBehind, he0]
        have hother : e.page ≠ e0.page := by
          intro heq
          rw [heq] at hheld
          have hshared := (Inv.shared h.safe hp he0 hheld (by simp [hne])).2
          rw [hfault] at hshared
          cases hshared
        show Function.update s.contents _ _ e.page = _
        rw [hbehind, Function.update_of_ne hother]

theorem Inv.undisturbed (h : s.Inv) : s.Undisturbed pid v := by
  intro accesses
  induction accesses generalizing s with
  | nil =>
    intro _ s' hrun
    cases hrun
    rfl
  | cons event accesses ih =>
    intro hothers s' hrun
    obtain ⟨who, thread, address, written, hne, rfl⟩ := hothers event List.mem_cons_self
    obtain ⟨s1, hstep, hrun⟩ := bind_eq_some_iff.1 hrun
    have hok : s.CountsShared (.access who thread address written) := trivial
    have hinv := h.step hok hstep
    rw [ih hinv (fun event hevent => hothers event (List.mem_cons_of_mem _ hevent)) s' hrun]
    simp only [userMemory, UserMemory.step, bind_eq_bind, bind_eq_some_iff] at hstep
    obtain ⟨p, hp, hstep⟩ := hstep
    split at hstep
    · exact h.access_others hp hstep (Ne.symm hne)
    · cases hstep

/-! ## Faults -/

section

variable (h : s.Inv) (hp : s.process pid = some p) (ht : t ∈ p.threads)
include h hp ht

theorem Inv.not_inStackArea (hlow : pageOf address < lowPages) :
    inStackArea t (pageAlignDown address) = false := by
  rw [← Bool.not_eq_true]
  intro harea
  have hlow : address / 0x1000 < 0xA0000 := hlow
  have hbelow : pageAlignDown address < constKernelAreaStart := by
    simp only [pageAlignDown, pageSize, constKernelAreaStart]
    omega
  have hstart := (placed_grown ((h.threadsOk pid p hp).placed t ht) harea hbelow).2
  simp only [pageAlignDown, pageSize, constUserVirtualRangesStart] at hstart
  omega

theorem Inv.copied {e : PageEntry} (hlow : 1024 ≤ pageOf address ∧ pageOf address < lowPages)
    (he : p.pageDirectory.entry (pageOf address) = some e)
    (himage : p.imageStart ≤ pageAlignDown address ∧ pageAlignDown address ≤ p.imageEnd)
    (hfree : s.frames.allocator.HasFree) : s.Copied pid p t address := by
  obtain ⟨a, q, halloc⟩ := (PPallocator.allocate_isSome_iff _).2 hfree
  obtain ⟨hset, hzero, -⟩ := PPallocator.allocate_spec halloc
  have hpage := pageOf_pageAlignDown address
  obtain ⟨table, htable, hentry⟩ := bind_eq_some_iff.1 he
  have haccessed :
      AddressSpace.virtualToPhysical p.pageDirectory (pageAlignDown address) = some e.page := by
    rw [AddressSpace.virtualToPhysical, hpage, htable, map_some, hentry]
  have haligned : pageAlignDown address % pageSize = 0 := Nat.mul_mod_left ..
  have hkernel : ¬(pageOf (pageAlignDown address) / 1024 = 0 ∨
      pageAlignDown address ≥ constKernelAreaStart) := by
    have hlow : 1024 ≤ address / 0x1000 ∧ address / 0x1000 < 0xA0000 := hlow
    simp only [pageOf, pageAlignDown, pageSize, constKernelAreaStart]
    omega
  let d' := p.pageDirectory.setEntry (pageOf address) (some ⟨q, defaultUserPageFlags⟩)
  have hmap : AddressSpace.map a p.pageDirectory (pageAlignDown address) q true = some (a, d', true) := by
    rw [hpage] at hkernel
    simp only [AddressSpace.map, hpage]
    rw [if_neg (by rw [haligned]; simp), if_neg hkernel, htable]
    simp only [Bool.or_true, if_true]
    rfl
  obtain ⟨f', hcopy⟩ : ∃ f', copyOnWrite s.frames s.contents p (pageAlignDown address) e.page =
      some (f', Function.update s.contents q (s.contents e.page), { p with pageDirectory := d' }) := by
    simp only [copyOnWrite, bind_eq_bind, halloc, bind_some, hmap]
    exact ⟨_, rfl⟩
  have hhandle : handlePageFault s.frames s.contents p t address = some (f',
      Function.update s.contents q (s.contents e.page), { p with pageDirectory := d' }, t, .resumed) := by
    have hthere : (p.pageDirectory.entry (pageOf (pageAlignDown address))).isSome := by rw [hpage, he]; rfl
    have harea := h.not_inStackArea hp ht hlow.2
    simp only [handlePageFault, bind_eq_bind]
    rw [if_neg hkernel, haccessed, bind_some, harea, if_neg (by decide),
      if_pos ⟨himage.1, himage.2, hthere⟩, hcopy]
    rfl
  have hnew : ∀ v', d'.entry v' = if v' = pageOf address then some ⟨q, defaultUserPageFlags⟩
      else p.pageDirectory.entry v' := fun v' => PageDirectory.entry_setEntry ..
  have hwritable : (⟨q, defaultUserPageFlags⟩ : PageEntry).isWritable = true := by
    simp [PageEntry.isWritable, defaultUserPageFlags]
  refine ⟨f', _, _, ⟨q, defaultUserPageFlags⟩, hhandle, ?_, hwritable, ?_, ?_⟩
  · exact (hnew _).trans (if_pos rfl)
  · rw [reads_eq hp he, Function.update_self]
  · -- every other entry is one from before, and the page was free
    intro pid' v' hne p1 e1 hp1 he1 heq
    have hold : ∃ p2, s.process pid' = some p2 ∧ p2.pageDirectory.entry v' = some e1 := by
      by_cases hpid : pid' = pid
      · subst hpid
        rw [process_put_self] at hp1
        obtain rfl := Option.some.inj hp1
        have hv : v' ≠ pageOf address := fun hv => hne (by rw [hv])
        exact ⟨p, hp, ((hnew v').trans (if_neg hv)).symm.trans he1⟩
      · rw [process_put_of_ne hpid] at hp1
        exact ⟨p1, hp1, he1⟩
    obtain ⟨p2, hp2, he2⟩ := hold
    have htaken := (h.taken ((held_eq hp2 (.user v')).trans (held_user.2 ⟨e1, he2, rfl⟩))).1
    rw [heq, hset] at htaken
    cases htaken

/-- A write that faults on a low page is resolved exactly if the page is there, in the image or at its
end, and another page is free. -/
theorem Inv.copied_iff (hlow : 1024 ≤ pageOf address ∧ pageOf address < lowPages) :
    s.Copied pid p t address ↔
      (p.pageDirectory.entry (pageOf address)).isSome ∧
        (p.imageStart ≤ pageAlignDown address ∧ pageAlignDown address ≤ p.imageEnd) ∧
        s.frames.allocator.HasFree := by
  constructor
  · rintro ⟨f', c', p', e, hhandle, -⟩
    rcases handlePageFault_cases hhandle with ⟨harea, -⟩ |
      ⟨-, -, page, -, ⟨hstart, hstop, hthere⟩, hcopy, -⟩ | ⟨-, -, -, -, -, hanswer⟩
    · rw [h.not_inStackArea hp ht hlow.2] at harea
      cases harea
    · rw [pageOf_pageAlignDown] at hthere
      obtain ⟨a, q, halloc, -⟩ := copyOnWrite_contents hcopy
      exact ⟨hthere, ⟨hstart, hstop⟩, (PPallocator.allocate_isSome_iff _).1 ⟨a, q, halloc⟩⟩
    · cases hanswer
  · rintro ⟨hthere, himage, hfree⟩
    obtain ⟨e, he⟩ := Option.isSome_iff_exists.1 hthere
    exact h.copied hp ht hlow he himage hfree

end

/-! ## After a fork -/

theorem Inv.forked (h : s.Inv) (hp : s.process pid = some p) {e : PageEntry}
    (hlow : 1024 ≤ v ∧ v < lowPages) (he : p.pageDirectory.entry v = some e)
    (hfork : s.step (.fork pid id) = some s') (who : Tid) (hwho : who = pid ∨ who = id) :
    ∃ p1, s'.process who = some p1 ∧ p1.pageDirectory.entry v = some e.readOnly ∧
      s'.reads who v = s.reads pid v := by
  simp only [UserMemory.step, bind_eq_bind, bind_eq_some_iff] at hfork
  obtain ⟨p', hp', t, hfind, hstep⟩ := hfork
  obtain rfl := Option.mem_unique hp' hp
  split at hstep
  next hid =>
    obtain ⟨⟨f', c', parent, child⟩, hfork, heq⟩ := bind_eq_some_iff.1 hstep
    have hplaced := (h.threadsOk pid p' hp).placed t (List.mem_of_find?_eq_some hfind)
    obtain ⟨f1, f2, d, page, hforked⟩ := fork_spec hplaced hfork
    obtain rfl := hforked.parent
    have hne : pid ≠ id := by
      rintro rfl
      rw [hp] at hid
      cases hid
    obtain ⟨p1, hp1, he1, hcontents⟩ : ∃ p1, s'.process who = some p1 ∧
        p1.pageDirectory.entry v = some e.readOnly ∧ s'.contents = c' := by
      obtain rfl := Option.some.inj heq
      rcases hwho with rfl | rfl
      · let parent : UserProcess := { p' with pageDirectory := protectTables p'.pageDirectory }
        have hparent : ((s.put who f' parent).put id f' child).process who = some parent := by
          rw [process_put_of_ne hne, process_put_self]
        refine ⟨parent, hparent, ?_, rfl⟩
        rw [entry_protectTables, if_pos hlow, he, map_some]
      · refine ⟨child, process_put_self (f := f'), ?_, rfl⟩
        rw [hforked.low v hlow.2, hforked.entry, if_pos hlow, he, map_some]
    refine ⟨p1, hp1, he1, ?_⟩
    have htaken := (h.taken ((held_eq hp (.user v)).trans (held_user.2 ⟨e, he, rfl⟩))).1
    rw [reads_eq hp1 he1, reads_eq hp he, hcontents]
    exact congrArg some (hforked.contents e.page htaken)
  · cases hstep

end UserMemory

/-- A process forks that maps a low page; a write of either process to it then faults. In every run from
there on, such a write is resolved with a copy for the writer exactly if the page is still mapped, lies
in the image or behind its end, and another page is free; and whatever the others do a process reads in
the page what it read before. -/
theorem forked_writes_iff {s s1 : UserMemory} {pid id : Tid} {p : UserProcess} {v : Nat} {e : PageEntry}
    (hs : userMemory.Reachable UserMemory.CountsShared s) (hok : s.CountsShared (.fork pid id))
    (hfork : s.step (.fork pid id) = some s1) (hp : s.process pid = some p)
    (hlow : 1024 ≤ v ∧ v < lowPages) (he : p.pageDirectory.entry v = some e) (who : Tid)
    (hwho : who = pid ∨ who = id) :
    (s1.reads who v = s.reads pid v ∧ ∃ p1, s1.process who = some p1 ∧
      ∀ address, pageOf address = v → ∀ write, p1.pageDirectory.faults address write = write) ∧
    ∀ s2, (userMemory.startingAt s1).Reachable UserMemory.CountsShared s2 →
      s2.Undisturbed who v ∧
      ∀ p2 t address, s2.process who = some p2 → t ∈ p2.threads → pageOf address = v →
        p2.pageDirectory.faults address true = true →
        (s2.Copied who p2 t address ↔
          (p2.pageDirectory.entry v).isSome ∧
            (p2.imageStart ≤ pageAlignDown address ∧ pageAlignDown address ≤ p2.imageEnd) ∧
            s2.frames.allocator.HasFree) := by
  have hinv := UserMemory.reachable_inv hs
  obtain ⟨p1, hp1, he1, hreads⟩ := hinv.forked hp hlow he hfork who hwho
  refine ⟨⟨hreads, p1, hp1, ?_⟩, ?_⟩
  · intro address haddress write
    rw [PageDirectory.faults, haddress, he1]
    show (write && !e.readOnly.isWritable) = write
    rw [PageEntry.readOnly_isWritable]
    simp
  · intro s2 hrun
    have hs1 : userMemory.Reachable UserMemory.CountsShared s1 := .step hs hok hfork
    have hinv2 := UserMemory.reachable_inv (hs1.append hrun)
    refine ⟨hinv2.undisturbed, ?_⟩
    intro p2 t address hp2 ht haddress _
    rw [← haddress] at hlow ⊢
    exact hinv2.copied_iff hp2 ht hlow

theorem forked_writes_image : ∃ s p t, userMemory.Reachable UserMemory.CountsShared s ∧
    s.process 1 = some p ∧ t ∈ p.threads ∧ p.pageDirectory.faults 0x8000010 true = true ∧
    s.Copied 1 p t 0x8000010 ∧ s.Undisturbed 1 0x8000 := by
  obtain ⟨s, hs, p, hp, ⟨hmapped, hmappings, hcount⟩, e, he, s1, hfork, ⟨hzero, hfree⟩, p1, hp1, hfault,
      ⟨hthere, himage⟩, t, ht, -⟩ :
      ∃ s ∈ userMemory.run .fresh [.createProcess 1, .createPagesInSpace 1 0x8000000 1],
        ∃ p ∈ s.process 1,
          (p.pageDirectory.lowMapped = [260] ∧ s.mappings 260 = 1 ∧
            s.frames.tracker.count 260 = s16 1) ∧
          ∃ e ∈ p.pageDirectory.entry 0x8000, ∃ s1 ∈ s.step (.fork 1 2),
            (s1.frames.allocator.bitmap 0 = false ∧ s1.frames.allocator.bitmap 0x1000 = true) ∧
            ∃ p1 ∈ s1.process 1, p1.pageDirectory.faults 0x8000010 true = true ∧
              ((p1.pageDirectory.entry 0x8000).isSome = true ∧
                p1.imageStart ≤ pageAlignDown 0x8000010 ∧ pageAlignDown 0x8000010 ≤ p1.imageEnd) ∧
              ∃ t ∈ p1.threads, True := by
    decide +kernel
  have hreach : userMemory.Reachable UserMemory.CountsShared s :=
    .of_run (.init UserMemory.fresh_init) (by simp [UserMemory.CountsShared]) hs
  have hok : s.CountsShared (.fork 1 2) := UserMemory.countsShared_fork hp hmapped hmappings hcount
  obtain ⟨-, hlater⟩ := forked_writes_iff hreach hok hfork hp (by decide) he 1 (Or.inl rfl)
  obtain ⟨hundisturbed, hwrites⟩ := hlater s1 (.init rfl)
  have hcopied := (hwrites p1 t 0x8000010 hp1 ht rfl hfault).2
    ⟨hthere, himage, hzero, 0x1000, by decide, hfree⟩
  exact ⟨s1, p1, t, .step hreach hok hfork, hp1, ht, hfault, hcopied, hundisturbed⟩

/-- A process with two pages on its heap forks, and then writes to the second one, as it could before. -/
theorem forked_writes_heap : ∃ s s1 p e p1 t, userMemory.Reachable (fun _ _ => True) s ∧
    s.step (.fork 1 2) = some s1 ∧ s.process 1 = some p ∧ p.pageDirectory.entry 0x8002 = some e ∧
    0x8002 < lowPages ∧ e.isWritable = true ∧ s1.process 1 = some p1 ∧ t ∈ p1.threads ∧
    p1.pageDirectory.faults 0x8002000 true = true ∧
    (handlePageFault s1.frames s1.contents p1 t 0x8002000).map (fun result => result.2.2.2.2) =
      some .signalled := by
  obtain ⟨s, hs, p, hp, e, he, hwritable, s1, hfork, p1, hp1, t, ht, hfault, hsignalled⟩ :
      ∃ s ∈ userMemory.run .fresh [.createProcess 1, .createPagesInSpace 1 0x8000000 1, .sbrk 1 0x2000],
        ∃ p ∈ s.process 1, ∃ e ∈ p.pageDirectory.entry 0x8002, e.isWritable = true ∧
          ∃ s1 ∈ s.step (.fork 1 2), ∃ p1 ∈ s1.process 1, ∃ t ∈ p1.threads,
            p1.pageDirectory.faults 0x8002000 true = true ∧
            (handlePageFault s1.frames s1.contents p1 t 0x8002000).map (fun result => result.2.2.2.2) =
              some .signalled := by
    decide +kernel
  exact ⟨s, s1, p, e, p1, t, System.reachable_of_run UserMemory.fresh_init hs, hfork, hp, he, by decide,
    hwritable, hp1, ht, hfault, hsignalled⟩

end MeetixOS.Kernel
