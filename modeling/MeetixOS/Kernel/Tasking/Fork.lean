import Mathlib.Order.Interval.Finset.Nat
import MeetixOS.Kernel.System.PageFault

/-! # Forking

`ThreadManager::forkCurrentPageDirectory` and `ThreadManager::fork`. The new process gets the tables of its
parent below `CONST_USER_VIRTUAL_RANGES_START`, each entry write-protected and its page counted once more,
and a copy of the stacks; then the entries of the parent are write-protected too. -/

open Function (update update_of_ne)

namespace MeetixOS.Kernel

open MeetixOS.Lib

/-! ## The functions -/

/-- The entry without `PAGE_TABLE_READWRITE`. -/
def PageEntry.readOnly (e : PageEntry) : PageEntry :=
  { e with flags := if e.isWritable then e.flags - 2 else e.flags }

/-- The pages behind the entries of a table, in order. -/
def tablePages (table : Nat → Option PageEntry) : List Nat :=
  (List.range 1024).filterMap fun pi => (table pi).map PageEntry.page

/-- A copy of a table without write permissions. -/
def readOnlyTable (table : Nat → Option PageEntry) : Nat → Option PageEntry :=
  fun pi => (table pi).map PageEntry.readOnly

namespace PageDirectory

/-- The pages behind the entries below `CONST_USER_VIRTUAL_RANGES_START`, in order. -/
def lowMapped (directory : PageDirectory) : List Nat :=
  (List.range (lowPages / 1024)).flatMap fun ti =>
    match directory ti with
    | none => []
    | some table => tablePages table

end PageDirectory

namespace ThreadManager

/-- The deep copy of one table of the user: each page that is mapped is counted once more. -/
def cloneTable (f : Frames) (table : Nat → Option PageEntry) :
    Option (Frames × (Nat → Option PageEntry)) := do
  let (allocator, _) ← f.allocator.allocate
  some ((tablePages table).foldl Frames.increment { f with allocator }, readOnlyTable table)

/-- The deep copy of the tables. Those of the virtual ranges are left out; those of the kernel are in
every address space. -/
def cloneTables (current : PageDirectory) :
    List Nat → Frames → PageDirectory → Option (Frames × PageDirectory)
  | [], f, directory => some (f, directory)
  | ti :: rest, f, directory =>
    match current ti with
    | none => cloneTables current rest f directory
    | some table =>
      if ti * 1024 * pageSize ≥ constUserVirtualRangesStart then
        cloneTables current rest f directory
      else do
        let (f, cloned) ← cloneTable f table
        cloneTables current rest f (update directory ti (some cloned))

/-- The loop that makes all pages in all tables of the process area read-only. -/
def protectTables (directory : PageDirectory) : PageDirectory := fun ti =>
  if 1 ≤ ti ∧ ti * 1024 * pageSize < constUserVirtualRangesStart then
    (directory ti).map readOnlyTable
  else directory ti

/-- The contents of the pages of a stack are copied, page by page. -/
def copyStack (c : PageContents) (source target : PageDirectory) (sourceStart targetStart : Nat) :
    Nat → PageContents
  | 0 => c
  | n + 1 =>
    update (copyStack c source target sourceStart targetStart n)
      (pageBehind target (pageOf targetStart + n)) (c (pageBehind source (pageOf sourceStart + n)))

/-- `forkCurrentPageDirectory`, up to the write protection of the current directory: the new process
with its pages, the page of its kernel stack and the start of its user stack. -/
def forkCurrentPageDirectory (f : Frames) (c : PageContents) (process : UserProcess)
    (current : PageDirectory) (sourceThread : ThreadMemory) :
    Option (Frames × PageContents × UserProcess × Nat × Nat) := do
  let (allocator, _) ← f.allocator.allocate
  let (f, pageDirectory) ←
    cloneTables current (List.range' 1 1022) { f with allocator } PageDirectory.empty
  let (f, process, userStackStart) ←
    cloneUserStack f { process with pageDirectory } sourceThread.userStackPages
  let c := copyStack c current process.pageDirectory sourceThread.userStackAreaStart userStackStart
    sourceThread.userStackPages
  let (allocator, kernelStack) ← f.allocator.allocate
  some ({ f with allocator }, update c kernelStack (c sourceThread.kernelStack), process,
    kernelStack, userStackStart)

/-- `ThreadManager::fork`: the parent with its entries protected, and the new process. -/
def fork (f : Frames) (c : PageContents) (parent : UserProcess) (sourceThread : ThreadMemory)
    (id : Tid) : Option (Frames × PageContents × UserProcess × UserProcess) := do
  let process : UserProcess :=
    { virtualRanges :=
        AddressRangePool.initializePool constUserVirtualRangesStart constKernelAreaStart
      pageDirectory := PageDirectory.empty }
  let (f, c, process, kernelStack, userStackAreaStart) ←
    forkCurrentPageDirectory f c process parent.pageDirectory sourceThread
  let thread : ThreadMemory :=
    { id, isMain := true, kernelStack, userStackAreaStart,
      userStackPages := sourceThread.userStackPages }
  some (f, c, { parent with pageDirectory := protectTables parent.pageDirectory },
    { process with
      heapBreak := parent.heapBreak
      heapPages := parent.heapPages
      heapStart := parent.heapStart
      imageEnd := parent.imageEnd
      imageStart := parent.imageStart
      threads := [thread] })

end ThreadManager

/-! ## Tables -/

theorem PageEntry.readOnly_isWritable (e : PageEntry) : e.readOnly.isWritable = false := by
  simp only [PageEntry.readOnly, PageEntry.isWritable, decide_eq_true_eq, decide_eq_false_iff_not]
  split <;> omega

theorem tablePages_readOnlyTable (table : Nat → Option PageEntry) :
    tablePages (readOnlyTable table) = tablePages table := by
  simp only [tablePages, readOnlyTable, Option.map_map]
  rfl

theorem lowPages_eq : lowPages = lowPages / 1024 * 1024 := by decide

theorem range_tables (n : Nat) :
    List.range (n * 1024) =
      (List.range n).flatMap fun ti => (List.range 1024).map fun pi => ti * 1024 + pi := by
  induction n with
  | zero => rfl
  | succ n ih =>
    rw [Nat.succ_mul, List.range_add, ih, @List.range_succ n, List.flatMap_append,
      List.flatMap_singleton]

namespace PageDirectory

theorem lowMapped_eq (d : PageDirectory) :
    d.lowMapped = (List.range lowPages).filterMap fun v => (d.entry v).map PageEntry.page := by
  rw [lowPages_eq, range_tables, List.filterMap_flatMap]
  refine List.flatMap_congr fun ti _ => ?_
  rw [List.filterMap_map]
  cases htable : d ti with
  | none =>
    symm
    rw [List.filterMap_eq_nil_iff]
    intro pi hpi
    rw [List.mem_range] at hpi
    have hti : (ti * 1024 + pi) / 1024 = ti := by omega
    simp [entry, hti, htable]
  | some table =>
    refine List.filterMap_congr fun pi hpi => ?_
    rw [List.mem_range] at hpi
    have hti : (ti * 1024 + pi) / 1024 = ti := by omega
    have hpi' : (ti * 1024 + pi) % 1024 = pi := by omega
    simp [entry, hti, hpi', htable]

/-- The low virtual pages that are mapped to a page. -/
def lowHolders (d : PageDirectory) (q : Nat) : Finset Nat :=
  (Finset.range lowPages).filter fun v => (d.entry v).map PageEntry.page = some q

variable {d : PageDirectory} {q : Nat}

theorem mem_lowHolders {q v : Nat} :
    v ∈ d.lowHolders q ↔ v < lowPages ∧ ∃ e, d.entry v = some e ∧ e.page = q := by
  simp [lowHolders]

theorem count_lowMapped (d : PageDirectory) (q : Nat) : d.lowMapped.count q = (d.lowHolders q).card := by
  rw [lowMapped_eq, List.count_filterMap, List.countP_eq_length_filter, lowHolders, Finset.card_def,
    Finset.filter_val, Finset.range_val, Multiset.range, Multiset.filter_coe, Multiset.coe_card]
  simp [beq_eq_decide]

theorem mem_lowMapped :
    q ∈ d.lowMapped ↔ ∃ v < lowPages, ∃ e, d.entry v = some e ∧ e.page = q := by
  simp [lowMapped_eq]

end PageDirectory

namespace ThreadManager

theorem entry_protectTables (d : PageDirectory) (v : Nat) :
    (protectTables d).entry v =
      if 1024 ≤ v ∧ v < lowPages then (d.entry v).map PageEntry.readOnly else d.entry v := by
  have harea : (1 ≤ v / 1024 ∧ v / 1024 * 1024 * pageSize < constUserVirtualRangesStart) ↔
      1024 ≤ v ∧ v < lowPages := by
    simp only [lowPages, pageSize, constUserVirtualRangesStart]
    omega
  simp only [PageDirectory.entry, protectTables, harea]
  split
  · cases d (v / 1024) <;> rfl
  · rfl

end ThreadManager

/-! ## Counting -/

theorem s16_add (a b : Int) : s16 (s16 a + b) = s16 (a + b) := by
  simp [s16]

/-- What a function did to the frames that takes pages and counts those of a list once more. -/
structure Counted (f f' : Frames) (pages : List Nat) : Prop where
  free : ∀ q, f'.allocator.bitmap q = true → f.allocator.bitmap q = true
  count : ∀ q, q ∉ pages → f'.tracker.count q = f.tracker.count q
  added : ∀ q (n : Nat), f.tracker.count q = s16 n → f'.tracker.count q = s16 (n + pages.count q : Nat)

namespace Counted

variable {f f' f'' : Frames} {pages pages' : List Nat}

theorem refl (f : Frames) : Counted f f [] where
  free _ h := h
  count _ _ := rfl
  added _ _ h := h

theorem trans (h : Counted f f' pages) (h' : Counted f' f'' pages') : Counted f f'' (pages ++ pages') where
  free q hq := h.free q (h'.free q hq)
  count q hq := by
    rw [List.mem_append, not_or] at hq
    rw [h'.count q hq.2, h.count q hq.1]
  added q n hn := by
    rw [List.count_append, ← Nat.add_assoc]
    exact h'.added q _ (h.added q n hn)

theorem allocate {a : PPallocator} {page : Nat} (h : f.allocator.allocate = some (a, page)) :
    Counted f { f with allocator := a } [] where
  free _ hq := (filled_allocate PageDirectory.empty h).free hq
  count _ _ := rfl
  added _ _ h := h

theorem increment (f : Frames) (page : Nat) : Counted f (f.increment page) [page] where
  free _ h := h
  count q hq := (PPreferenceTracker.count_increment ..).trans (if_neg (by simpa using hq))
  added q n hn := by
    refine (PPreferenceTracker.count_increment ..).trans ?_
    split
    next heq =>
      subst heq
      rw [hn, s16_add, List.count_singleton_self, Nat.cast_add, Nat.cast_one]
    next hne => rw [hn, List.count_singleton, beq_false_of_ne (Ne.symm hne)]; rfl

theorem increments (f : Frames) (pages : List Nat) : Counted f (pages.foldl Frames.increment f) pages := by
  induction pages generalizing f with
  | nil => exact refl f
  | cons page rest ih => exact (increment f page).trans (ih _)

end Counted

namespace ThreadManager

/-- The pages that the deep copy of a table counts. -/
def clonedPages (current : PageDirectory) (ti : Nat) : List Nat :=
  if ti * 1024 * pageSize < constUserVirtualRangesStart then
    match current ti with
    | none => []
    | some table => tablePages table
  else []

variable {f f' : Frames}

theorem cloneTable_spec {table cloned : Nat → Option PageEntry}
    (h : cloneTable f table = some (f', cloned)) :
    Counted f f' (tablePages table) ∧ cloned = readOnlyTable table := by
  obtain ⟨⟨a, page⟩, halloc, heq⟩ := Option.bind_eq_some_iff.1 h
  simp only [Option.some.injEq, Prod.mk.injEq] at heq
  obtain ⟨rfl, rfl⟩ := heq
  have hcounted := (Counted.allocate halloc).trans (Counted.increments _ (tablePages table))
  rw [List.nil_append] at hcounted
  exact ⟨hcounted, rfl⟩

variable {tis : List Nat} {d d' current : PageDirectory}

theorem cloneTables_counted
    (h : cloneTables current tis f d = some (f', d')) :
    Counted f f' (tis.flatMap (clonedPages current)) := by
  induction tis generalizing f d with
  | nil =>
    cases h
    exact Counted.refl _
  | cons ti rest ih =>
    rw [List.flatMap_cons]
    cases htable : current ti with
    | none =>
      rw [clonedPages, htable, ite_self]
      simp only [cloneTables, htable] at h
      exact ih h
    | some table =>
      simp only [cloneTables, htable] at h
      split at h
      next hhigh =>
        rw [clonedPages, if_neg (Nat.not_lt.2 hhigh)]
        exact ih h
      next hlow =>
        obtain ⟨⟨f1, cloned⟩, htable', h⟩ := Option.bind_eq_some_iff.1 h
        rw [clonedPages, if_pos (Nat.not_le.1 hlow), htable]
        exact (cloneTable_spec htable').1.trans (ih h)

theorem cloneTables_table
    (hnodup : tis.Nodup) (hnone : ∀ ti ∈ tis, d ti = none)
    (h : cloneTables current tis f d = some (f', d')) (ti : Nat) :
    d' ti = if ti ∈ tis ∧ ti * 1024 * pageSize < constUserVirtualRangesStart then
      (current ti).map readOnlyTable else d ti := by
  induction tis generalizing f d with
  | nil =>
    cases h
    rw [if_neg (fun hti => List.not_mem_nil hti.1)]
  | cons first rest ih =>
    obtain ⟨hfirst, hnodup⟩ := List.nodup_cons.1 hnodup
    have hrest : ∀ t ∈ rest, d t = none := fun t ht => hnone t (List.mem_cons_of_mem _ ht)
    -- a table that is not cloned is none of the copy
    have hskip : (∀ table, current first = some table →
          ¬ first * 1024 * pageSize < constUserVirtualRangesStart) →
        cloneTables current rest f d = some (f', d') →
        d' ti = if ti ∈ first :: rest ∧ ti * 1024 * pageSize < constUserVirtualRangesStart then
          (current ti).map readOnlyTable else d ti := by
      intro hnot hrun
      rw [ih hnodup hrest hrun]
      by_cases heq : ti = first
      · subst heq
        rw [if_neg (fun hti => hfirst hti.1), hnone _ List.mem_cons_self]
        split
        next hlow =>
          cases htable : current ti with
          | none => rfl
          | some table => exact absurd hlow.2 (hnot table htable)
        · rfl
      · simp [heq]
    cases htable : current first with
    | none =>
      simp only [cloneTables, htable] at h
      exact hskip (fun table hthere => by rw [htable] at hthere; cases hthere) h
    | some table =>
      simp only [cloneTables, htable] at h
      split at h
      next hhigh => exact hskip (fun _ _ => Nat.not_lt.2 hhigh) h
      next hlow =>
        obtain ⟨⟨f1, cloned⟩, htable', h⟩ := Option.bind_eq_some_iff.1 h
        obtain ⟨-, rfl⟩ := cloneTable_spec htable'
        have hrest' : ∀ t ∈ rest, update d first (some (readOnlyTable table)) t = none := by
          intro t ht
          have hne : t ≠ first := by
            rintro rfl
            exact hfirst ht
          rw [update_of_ne hne, hrest t ht]
        rw [ih hnodup hrest' h]
        by_cases heq : ti = first
        · subst heq
          rw [if_neg (fun hti => hfirst hti.1), Function.update_self,
            if_pos ⟨List.mem_cons_self, Nat.not_le.1 hlow⟩, htable, Option.map_some]
        · simp [heq]

theorem cloneTables_spec
    (h : cloneTables current (List.range' 1 1022) f PageDirectory.empty = some (f', d')) :
    Counted f f' d'.lowMapped ∧ ∀ v, d'.entry v =
      if 1024 ≤ v ∧ v < lowPages then (current.entry v).map PageEntry.readOnly else none := by
  have htable := cloneTables_table List.nodup_range' (fun _ _ => rfl) h
  refine ⟨?_, fun v => ?_⟩
  · have hpages : (List.range' 1 1022).flatMap (clonedPages current) = d'.lowMapped := by
      have hhigh : (List.range' 640 383).flatMap (clonedPages current) = [] := by
        rw [List.flatMap_eq_nil_iff]
        intro ti hti
        rw [List.mem_range'_1] at hti
        rw [clonedPages, if_neg]
        simp only [pageSize, constUserVirtualRangesStart]
        omega
      have hzero : d' 0 = none := (htable 0).trans (if_neg (by simp))
      rw [show (1022 : Nat) = 639 + 383 from rfl, ← List.range'_append_1, List.flatMap_append, hhigh,
        List.append_nil, PageDirectory.lowMapped, show lowPages / 1024 = 639 + 1 by decide,
        List.range_eq_range', @List.range'_succ 0 639, List.flatMap_cons, hzero, List.nil_append]
      refine List.flatMap_congr fun ti hti => ?_
      rw [List.mem_range'_1] at hti
      have hlow : ti * 1024 * pageSize < constUserVirtualRangesStart := by
        simp only [pageSize, constUserVirtualRangesStart]
        omega
      rw [htable ti, if_pos ⟨List.mem_range'_1.2 (by omega), hlow⟩, clonedPages, if_pos hlow]
      cases current ti with
      | none => rfl
      | some table => exact (tablePages_readOnlyTable table).symm
    rw [← hpages]
    exact cloneTables_counted h
  · have harea : (v / 1024 ∈ List.range' 1 1022 ∧
        v / 1024 * 1024 * pageSize < constUserVirtualRangesStart) ↔ 1024 ≤ v ∧ v < lowPages := by
      rw [List.mem_range'_1]
      simp only [lowPages, pageSize, constUserVirtualRangesStart]
      omega
    simp only [PageDirectory.entry, htable, harea]
    split
    · cases current (v / 1024) <;> rfl
    · rfl

end ThreadManager

/-! ## The two processes -/

/-- The stack of a thread, and what it may still grow into, lies in the area of the virtual ranges. -/
structure ThreadMemory.StackPlaced (t : ThreadMemory) : Prop where
  pages : t.userStackPages ≤ threadUserStackReservedVirtualPages
  reserved : constUserVirtualRangesStart + threadUserStackReservedVirtualPages * pageSize ≤
    t.userStackAreaStart + t.userStackPages * pageSize
  start : t.userStackAreaStart ≤ constKernelAreaStart

namespace ThreadManager

variable {f f' : Frames} {c c' : PageContents} {p p' : UserProcess}

theorem cloneUserStack_spec {pages virt : Nat} (hp : p.RangesOk)
    (hpages : pages ≤ threadUserStackReservedVirtualPages)
    (h : cloneUserStack f p pages = some (f', p', virt)) :
    Grown f f' p p' ∧ (∃ pool' d', p' = { p with virtualRanges := pool', pageDirectory := d' }) ∧
      lowPages ≤ pageOf virt ∧ (∀ v < lowPages, p'.pageDirectory.entry v = p.pageDirectory.entry v) ∧
      (∀ i < pages, (p'.pageDirectory.entry (pageOf virt + i)).isSome) ∧
      constUserVirtualRangesStart + threadUserStackReservedVirtualPages * pageSize ≤
        virt + pages * pageSize ∧ virt ≤ constKernelAreaStart := by
  rw [cloneUserStack] at h
  split at h
  · cases h
  next pool' base halloc =>
    obtain ⟨⟨f1, d'⟩, hfresh, heq⟩ := Option.map_eq_some_iff.1 h
    cases heq
    obtain ⟨hcontiguous, hallocated⟩ := hp.allocate_spec start_aligned halloc
    obtain ⟨-, hstart, hstop, -⟩ := hcontiguous.bounds start_aligned hallocated.mem
    have hlow : lowPages ≤
        pageOf (base + (threadUserStackReservedVirtualPages - pages) * pageSize) :=
      Nat.div_le_div_right (Nat.le_add_right_of_le hstart)
    obtain ⟨hfilled, hsome, -⟩ := mapFresh_spec hfresh (Or.inr hlow)
    have hend : base + (threadUserStackReservedVirtualPages - pages) * pageSize + pages * pageSize =
        base + threadUserStackReservedVirtualPages * pageSize := by
      rw [Nat.add_assoc, ← Nat.add_mul, Nat.sub_add_cancel hpages]
    exact ⟨grown_allocate halloc hfilled, ⟨pool', d', rfl⟩, hlow,
      fun v hv => mapFresh_outside hfresh (Or.inl (hv.trans_le hlow)), hsome,
      by rw [hend]; exact Nat.add_le_add_right hstart _,
      (Nat.le_add_right _ _).trans (hend.trans_le hstop)⟩

theorem copyStack_of_ne {source target : PageDirectory} {sourceStart targetStart n q : Nat}
    (h : ∀ i < n, pageBehind target (pageOf targetStart + i) ≠ q) :
    copyStack c source target sourceStart targetStart n q = c q := by
  induction n with
  | zero => rfl
  | succ n ih =>
    rw [copyStack, update_of_ne (h n (Nat.lt_succ_self n)).symm]
    exact ih fun i hi => h i (Nat.lt_succ_of_lt hi)

/-- What `fork` does. The new process has the low entries of its parent in `d`, then gets its stack, and
last the page of its kernel stack. -/
structure Forked (f f' : Frames) (c c' : PageContents) (p p' child : UserProcess)
    (f1 f2 : Frames) (d : PageDirectory) (page : Nat) : Prop where
  parent : p' = { p with pageDirectory := protectTables p.pageDirectory }
  counted : Counted f f1 d.lowMapped
  entry : ∀ v, d.entry v =
    if 1024 ≤ v ∧ v < lowPages then (p.pageDirectory.entry v).map PageEntry.readOnly else none
  filled : Filled f1 f2 d child.pageDirectory
  low : ∀ v < lowPages, child.pageDirectory.entry v = d.entry v
  kernelStack : ∃ a, f2.allocator.allocate = some (a, page) ∧ f' = { f2 with allocator := a }
  rangesOk : child.RangesOk
  threads : ∃ t, child.threads = [t] ∧ t.kernelStack = page ∧ t.StackPlaced ∧ t.tlsCopyVirt = 0
  image : child.imageStart = p.imageStart ∧ child.imageEnd = p.imageEnd
  contents : ∀ q, f.allocator.bitmap q = false → c' q = c q

theorem fork_spec {child : UserProcess} {t : ThreadMemory} {id : Tid}
    (hstack : t.StackPlaced) (h : fork f c p t id = some (f', c', p', child)) :
    ∃ f1 f2 d page, Forked f f' c c' p p' child f1 f2 d page := by
  simp only [fork, forkCurrentPageDirectory, Option.bind_eq_bind, Option.bind_eq_some_iff] at h
  obtain ⟨⟨_, _, _, _, _⟩, ⟨⟨a, page⟩, halloc, ⟨f1, d⟩, hclone, ⟨f2, p2, virt⟩, hcloned,
    ⟨a', kernelStack⟩, hkernel, heq⟩, h⟩ := h
  cases heq
  cases h
  have hcounted := (Counted.allocate halloc).trans (cloneTables_spec hclone).1
  rw [List.nil_append] at hcounted
  have hentry := (cloneTables_spec hclone).2
  have hranges : { UserProcess.unmapped with pageDirectory := d }.RangesOk :=
    UserProcess.unmapped_rangesOk
  obtain ⟨hgrown, ⟨pool', d', rfl⟩, hhigh, hlow, hsome, hreserved, hstop⟩ :=
    cloneUserStack_spec hranges hstack.pages hcloned
  refine ⟨f1, f2, d, kernelStack, rfl, hcounted, hentry, hgrown.filled, hlow, ⟨a', hkernel, rfl⟩,
    hgrown.rangesOk hranges, ⟨_, rfl, rfl, ⟨hstack.pages, hreserved, hstop⟩, rfl⟩,
    ⟨rfl, rfl⟩, fun q hq => ?_⟩
  -- the pages that are written were free
  have hnew : ∀ page, f1.allocator.bitmap page = true → page ≠ q := by
    rintro page hpage rfl
    rw [hcounted.free page hpage] at hq
    cases hq
  have hkernelStack : kernelStack ≠ q :=
    hnew _ (hgrown.filled.free (PPallocator.allocate_spec hkernel).1)
  refine (update_of_ne hkernelStack.symm _ _).trans (copyStack_of_ne fun i hi => ?_)
  obtain ⟨e, he⟩ := Option.isSome_iff_exists.1 (hsome i hi)
  have hnone : d.entry (pageOf virt + i) = none := by
    rw [hentry, if_neg (by omega)]
  rw [pageBehind, he]
  exact hnew _ (hgrown.filled.added _ e hnone he).2.2.1
end ThreadManager

end MeetixOS.Kernel
