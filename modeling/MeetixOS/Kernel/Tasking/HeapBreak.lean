import MeetixOS.Kernel.Tasking.ProcessLife

/-! # The break of a heap

The first call of `sbrk` puts the heap behind the image, and each moves the break by a signed amount, in 32
bits: one loop maps pages until the break lies in them, the other unmaps the last page as long as the break
lies below it.

Only the upper limit is checked. A negative amount moves the break below the heap, and the shrinking loop
goes on with the image; a first call that asks for too much fails after it has started the heap. -/

open Option (bind_eq_bind bind_eq_some_iff map_eq_some_iff)

namespace MeetixOS.Kernel

open MeetixOS.Lib ThreadManager AddressSpace

variable {f f' : Frames} {p p' : UserProcess} {d' : PageDirectory}

/-! ## Calls -/

namespace UserProcess

/-- The break before a call: the first call starts the heap at the end of the image. -/
def brkOld (p : UserProcess) : Nat := if p.heapBreak = 0 then p.imageEnd else p.heapBreak

/-- The break that a call asks for. -/
def brkNew (p : UserProcess) (amount : Int) : Nat := ((p.brkOld + amount) % 2 ^ 32).toNat

/-- What `sbrk` returns: the old break in `m_out_address`, or `m_success = false`. -/
def sbrkResult (p : UserProcess) (amount : Int) : Option Nat :=
  if p.brkNew amount ≥ constUserMaximumHeapBreak then none else some p.brkOld

end UserProcess

/-- The calls of a process, and what happens between them. -/
inductive HeapEvent
  | sbrk (amount : Int)
  | others (s : Life)

/-- One step; a call does not come to an end where the kernel panics. -/
def Life.heapStep (s : Life) : HeapEvent → Option Life
  | .sbrk amount =>
    (s.process.sbrk s.frames amount).map fun (frames, process) => { frames, process }
  | .others s' => some s'

/-- The pages behind the low pages are taken, and none is behind two of them. -/
structure Life.LowPagesOk (s : Life) : Prop where
  taken : ∀ {v e}, v < lowPages → s.process.pageDirectory.entry v = some e →
    s.frames.allocator.bitmap e.page = false
  apart : ∀ {v w e e'}, v < lowPages → w < lowPages → s.process.pageDirectory.entry v = some e →
    s.process.pageDirectory.entry w = some e' → e.page = e'.page → v = w

/-- There is no heap yet, and nothing is mapped behind the image. -/
structure HeapUnused (p : UserProcess) : Prop where
  noBreak : p.heapBreak = 0
  noStart : p.heapStart = 0
  unmapped : ∀ v, p.imageEnd ≤ v * pageSize → v < lowPages → p.pageDirectory.entry v = none

/-- The heap has its pages mapped, and nothing is mapped behind it. -/
structure HeapMapped (p : UserProcess) : Prop where
  aligned : p.heapStart % pageSize = 0
  start : 0 < p.heapStart
  pages : 0 < p.heapPages
  stop : p.heapStart + p.heapPages * pageSize ≤ constUserMaximumHeapBreak
  mapped : ∀ v, pageOf p.heapStart ≤ v → v < lowPages →
    ((p.pageDirectory.entry v).isSome = true ↔ v < pageOf p.heapStart + p.heapPages)

/-- The break lies in the heap, and the end of the heap has an address. -/
structure BreakInHeap (p : UserProcess) : Prop where
  start : p.heapStart ≤ p.heapBreak
  stop : p.heapBreak ≤ p.heapStart + p.heapPages * pageSize
  address : p.heapStart + p.heapPages * pageSize < 2 ^ 32

/-- A process between two calls: no heap yet, or as `sbrk` leaves it. A forked one starts with the
heap of its parent. -/
structure Life.HeapReady (s : Life) : Prop extends s.LowPagesOk where
  heap : HeapUnused s.process ∨ HeapMapped s.process ∧ BreakInHeap s.process

/-- The calls of `sbrk` in a process, with everything else between them. -/
def heapCalls : System Life HeapEvent := ⟨Life.HeapReady, Life.heapStep⟩

/-- What happens between the calls leaves the heap's and the image's fields and the mapped low pages
alone. Pages behind them may change by copy on write. -/
structure Life.LeavesHeap (s s' : Life) : Prop extends s'.LowPagesOk where
  imageEnd : s'.process.imageEnd = s.process.imageEnd
  heapStart : s'.process.heapStart = s.process.heapStart
  heapBreak : s'.process.heapBreak = s.process.heapBreak
  heapPages : s'.process.heapPages = s.process.heapPages
  mapped : ∀ v < lowPages, (s'.process.pageDirectory.entry v).isSome =
    (s.process.pageDirectory.entry v).isSome

/-- The condition on a call: it does not move the break below the start of the heap, and if it is the
first one, it does not ask for too much. -/
def UserProcess.AsksInHeap (p : UserProcess) (amount : Int) : Prop :=
  if p.heapBreak = 0 then
    p.imageEnd ≤ p.brkNew amount ∧ p.brkNew amount < constUserMaximumHeapBreak
  else p.heapStart ≤ p.brkNew amount

instance (p : UserProcess) (amount : Int) : Decidable (p.AsksInHeap amount) :=
  decidable_of_iff (if p.heapBreak = 0 then
    p.imageEnd ≤ p.brkNew amount ∧ p.brkNew amount < constUserMaximumHeapBreak
    else p.heapStart ≤ p.brkNew amount) Iff.rfl

/-- The condition on the steps. -/
def Life.KeepsBreak (s : Life) : HeapEvent → Prop
  | .sbrk amount => s.process.AsksInHeap amount
  | .others s' => s.LeavesHeap s'

/-- After a successful call the break lies in the heap and exactly its pages are mapped; a failed
one changes nothing. -/
structure KeepsHeapPages (s s' : Life) (result : Option Nat) : Prop where
  inHeap : result.isSome = true → BreakInHeap s'.process
  mapped : result.isSome = true → ∀ v, pageOf s'.process.heapStart ≤ v → v < lowPages →
    ((s'.process.pageDirectory.entry v).isSome = true ↔
      v < pageOf s'.process.heapStart + s'.process.heapPages)
  image : ∀ v, v * pageSize < s'.process.heapStart →
    s'.process.pageDirectory.entry v = s.process.pageDirectory.entry v ∧
      ∀ e, s.process.pageDirectory.entry v = some e → s'.frames.allocator.bitmap e.page = false
  failed : result = none → s' = s

/-! ## Pages -/

theorem Life.LowPagesOk.filled (h : Life.LowPagesOk ⟨f, p⟩) (hfilled : Filled f f' p.pageDirectory d')
    (hp : p'.pageDirectory = d') : Life.LowPagesOk ⟨f', p'⟩ := by
  subst hp
  refine ⟨fun {v e} hv he => ?_, fun {v w e e'} hv hw he he' heq => ?_⟩
  · cases hentry : p.pageDirectory.entry v with
    | none => exact (hfilled.added v e hentry he).2.2.2
    | some e0 =>
      cases (hfilled.kept v e0 hentry).symm.trans he
      exact hfilled.taken _ (h.taken hv hentry)
  · -- a page that was mapped before was taken, a new one was free
    have hmixed : ∀ {v w e e'}, v < lowPages → p.pageDirectory.entry v = some e →
        p.pageDirectory.entry w = none → p'.pageDirectory.entry w = some e' → e.page ≠ e'.page := by
      intro v w e e' hv he hnone he' heq
      have hfree := (hfilled.added w e' hnone he').2.2.1
      rw [← heq, h.taken hv he] at hfree
      cases hfree
    cases hentry : p.pageDirectory.entry v with
    | none =>
      cases hentry' : p.pageDirectory.entry w with
      | none => exact (hfilled.apart v w e e' hentry hentry' he he' heq).symm
      | some e0 =>
        cases (hfilled.kept w e0 hentry').symm.trans he'
        exact absurd heq.symm (hmixed hw hentry' hentry he)
    | some e0 =>
      cases (hfilled.kept v e0 hentry).symm.trans he
      cases hentry' : p.pageDirectory.entry w with
      | none => exact absurd heq (hmixed hv hentry hentry' he')
      | some e1 =>
        cases (hfilled.kept w e1 hentry').symm.trans he'
        exact h.apart hv hw hentry hentry' heq

theorem Life.LowPagesOk.shrinkRound (h : Life.LowPagesOk ⟨f, p⟩) {virt page : Nat}
    (hlow : pageOf virt < lowPages) {e : PageEntry}
    (hentry : p.pageDirectory.entry (pageOf virt) = some e) (hpage : e.page = page)
    (hp : p'.pageDirectory = unmap p.pageDirectory virt) :
    Life.LowPagesOk ⟨UserProcess.shrinkRound f page, p'⟩ := by
  have hold : ∀ {v e'}, p'.pageDirectory.entry v = some e' →
      v ≠ pageOf virt ∧ p.pageDirectory.entry v = some e' := by
    intro v e' he'
    rw [hp, entry_unmap] at he'
    split at he'
    next => cases he'
    next hne => exact ⟨hne, he'⟩
  refine ⟨fun {v e'} hv he' => ?_, fun hv hw he he' => h.apart hv hw (hold he).2 (hold he').2⟩
  obtain ⟨hne, he'⟩ := hold he'
  have htaken := h.taken hv he'
  have hother : e'.page ≠ page := by
    rintro heq
    exact hne (h.apart hv hlow he' hentry (heq.trans hpage.symm))
  simp only [UserProcess.shrinkRound]
  split
  next => exact (Function.update_of_ne hother ..).trans htaken
  next => exact htaken

/-! ## The loops -/

namespace HeapMapped

theorem low (h : HeapMapped p) : pageOf p.heapStart + p.heapPages ≤ lowPages := by
  obtain ⟨haligned, -, -, hstop, -⟩ := h
  simp only [pageOf, lowPages, constUserVirtualRangesStart, constUserMaximumHeapBreak, pageSize] at *
  omega

theorem entry (h : HeapMapped p) {v : Nat} (hstart : pageOf p.heapStart ≤ v)
    (hstop : v < pageOf p.heapStart + p.heapPages) : ∃ e, p.pageDirectory.entry v = some e :=
  Option.isSome_iff_exists.1 ((h.mapped v hstart (hstop.trans_le h.low)).2 hstop)

theorem pagesOk (h : HeapMapped p) : HeapPagesOk p where
  aligned := h.aligned
  start := h.start
  pages := h.pages
  stop := h.stop.trans (by decide)
  low := .inr h.stop
  tables i hi := by
    obtain ⟨e, he⟩ := h.entry (Nat.le_add_right _ i) (Nat.add_lt_add_left hi _)
    exact PageDirectory.isSome_of_entry he

end HeapMapped

/-- What the loops do with a heap: its start stays where it is, and so do the pages before it. -/
structure HeapMoved (s s' : Life) : Prop extends s'.LowPagesOk where
  heap : HeapMapped s'.process
  heapStart : s'.process.heapStart = s.process.heapStart
  before : ∀ v < pageOf s.process.heapStart,
    s'.process.pageDirectory.entry v = s.process.pageDirectory.entry v

variable {s s' : Life} {brkNew n : Nat} {amount : Int}

theorem HeapMoved.refl (hlow : s.LowPagesOk) (hheap : HeapMapped s.process) : HeapMoved s s :=
  ⟨hlow, hheap, rfl, fun _ _ => rfl⟩

theorem HeapMoved.trans {s s' s'' : Life} (h : HeapMoved s s') (h' : HeapMoved s' s'') :
    HeapMoved s s'' where
  toLowPagesOk := h'.toLowPagesOk
  heap := h'.heap
  heapStart := h'.heapStart.trans h.heapStart
  before v hv := (h'.before v (by rwa [h.heapStart])).trans (h.before v hv)

section

variable (h : HeapMapped p) (hlow : Life.LowPagesOk ⟨f, p⟩)
include h hlow

theorem HeapMapped.expandRound (hbrk : brkNew < constUserMaximumHeapBreak)
    (habove : brkNew > p.virtAbove)
    (hfresh : f.mapFresh true 1 p.pageDirectory p.virtAbove = some (f', d')) :
    u32 (p.heapPages + 1) = p.heapPages + 1 ∧
      HeapMoved ⟨f, p⟩ ⟨f', { p with pageDirectory := d', heapPages := p.heapPages + 1 }⟩ := by
  obtain ⟨hfilled, hsome, -⟩ := mapFresh_spec hfresh (.inl rfl)
  have haligned := h.aligned
  rw [h.pagesOk.virtAbove] at habove hfresh hsome
  have hstop : p.heapStart + (p.heapPages + 1) * pageSize ≤ constUserMaximumHeapBreak := by
    simp only [constUserMaximumHeapBreak, pageSize] at *
    omega
  have hnew : pageOf (p.heapStart + p.heapPages * pageSize) = pageOf p.heapStart + p.heapPages :=
    pageOf_add_mul haligned _
  have hothers : ∀ v, v ≠ pageOf p.heapStart + p.heapPages → d'.entry v = p.pageDirectory.entry v := by
    intro v hv
    refine mapFresh_outside hfresh ?_
    omega
  refine ⟨?_, hlow.filled hfilled rfl, ?_, rfl, fun v hv => hothers v ?_⟩
  · simp only [u32, constUserMaximumHeapBreak, pageSize] at *
    omega
  · refine ⟨haligned, h.start, Nat.succ_pos _, hstop, fun v hv hvlow => ?_⟩
    show (d'.entry v).isSome = true ↔ v < pageOf p.heapStart + (p.heapPages + 1)
    by_cases hlast : v = pageOf p.heapStart + p.heapPages
    · have hthere := hsome 0 Nat.one_pos
      rw [Nat.add_zero, hnew, ← hlast] at hthere
      exact ⟨fun _ => by omega, fun _ => hthere⟩
    · rw [hothers v hlast, h.mapped v hv hvlow]
      omega
  · have hv : v < pageOf p.heapStart := hv
    omega

theorem HeapMapped.shrinkRound {brkNew page : Nat} (hbrk : p.heapStart ≤ brkNew)
    (hbelow : brkNew < p.virtBelow)
    (hpage : virtualToPhysical p.pageDirectory p.virtBelow = some page) :
    u32 (p.heapPages + 2 ^ 32 - 1) = p.heapPages - 1 ∧
      HeapMoved ⟨f, p⟩ ⟨UserProcess.shrinkRound f page, { p with
        pageDirectory := unmap p.pageDirectory p.virtBelow
        heapPages := p.heapPages - 1 }⟩ := by
  obtain ⟨hless, hpageLow, hheap'⟩ := h.pagesOk.shrinkRound hbrk hbelow
  have haligned := h.aligned
  have hpages' : 0 < p.heapPages - 1 := hheap'.pages
  have hlast : pageOf p.virtBelow = pageOf p.heapStart + (p.heapPages - 1) := by
    rw [h.pagesOk.virtBelow, pageOf_add_mul haligned]
  obtain ⟨e, he⟩ := h.entry (v := pageOf p.virtBelow) (by omega) (by omega)
  have hothers : ∀ v, v ≠ pageOf p.heapStart + (p.heapPages - 1) →
      (unmap p.pageDirectory p.virtBelow).entry v = p.pageDirectory.entry v := by
    intro v hv
    rw [entry_unmap, hlast, if_neg hv]
  refine ⟨hless, hlow.shrinkRound hpageLow he ?_ rfl, ?_, rfl, fun v hv => hothers v ?_⟩
  · rw [virtualToPhysical_of_entry he] at hpage
    exact Option.some.inj hpage
  · refine ⟨haligned, h.start, hpages', ?_, fun v hv hvlow => ?_⟩
    · exact (Nat.add_le_add_left (Nat.mul_le_mul_right _ (Nat.sub_le _ 1)) _).trans h.stop
    · show ((unmap p.pageDirectory p.virtBelow).entry v).isSome = true ↔
        v < pageOf p.heapStart + (p.heapPages - 1)
      by_cases hv' : v = pageOf p.heapStart + (p.heapPages - 1)
      · rw [entry_unmap, hlast, if_pos hv']
        simp only [Option.isSome_none, Bool.false_eq_true, false_iff]
        omega
      · rw [hothers v hv', h.mapped v hv hvlow]
        omega
  · have hv : v < pageOf p.heapStart := hv
    omega

theorem HeapMapped.expandHeap (hbrk : brkNew < constUserMaximumHeapBreak)
    (hfuel : brkNew ≤ p.heapStart + (p.heapPages + n) * pageSize)
    (hexpand : UserProcess.expandHeap brkNew n f p = some (f', p')) :
    HeapMoved ⟨f, p⟩ ⟨f', p'⟩ ∧ brkNew ≤ p'.heapStart + p'.heapPages * pageSize := by
  induction n generalizing f p with
  | zero =>
    cases hexpand
    exact ⟨.refl hlow h, hfuel⟩
  | succ n ih =>
    rw [UserProcess.expandHeap] at hexpand
    split at hexpand
    next habove =>
      simp only [bind_eq_bind, bind_eq_some_iff] at hexpand
      obtain ⟨⟨f1, d1⟩, hfresh, hexpand⟩ := hexpand
      obtain ⟨hmore, hround⟩ := h.expandRound hlow hbrk habove hfresh
      rw [hmore] at hexpand
      obtain ⟨hrest, htop⟩ := ih hround.heap hround.toLowPagesOk
        (hfuel.trans_eq (by simp [Nat.add_assoc, Nat.add_comm 1 n])) hexpand
      exact ⟨hround.trans hrest, htop⟩
    next hnot =>
      cases hexpand
      rw [h.pagesOk.virtAbove] at hnot
      exact ⟨.refl hlow h, Nat.not_lt.1 hnot⟩

theorem HeapMapped.shrinkHeap (hbrk : p.heapStart ≤ brkNew)
    (htop : brkNew ≤ p.heapStart + p.heapPages * pageSize)
    (hshrink : UserProcess.shrinkHeap brkNew n f p = some (f', p')) :
    HeapMoved ⟨f, p⟩ ⟨f', p'⟩ ∧ brkNew ≤ p'.heapStart + p'.heapPages * pageSize := by
  induction n generalizing f p with
  | zero =>
    cases hshrink
    exact ⟨.refl hlow h, htop⟩
  | succ n ih =>
    rw [UserProcess.shrinkHeap] at hshrink
    split at hshrink
    next hbelow =>
      simp only [bind_eq_bind, bind_eq_some_iff] at hshrink
      obtain ⟨page, hpage, hshrink⟩ := hshrink
      obtain ⟨hless, hround⟩ := h.shrinkRound hlow hbrk hbelow hpage
      rw [hless] at hshrink
      rw [h.pagesOk.virtBelow] at hbelow
      obtain ⟨hrest, htop'⟩ := ih hround.heap hround.toLowPagesOk hbrk hbelow.le hshrink
      exact ⟨hround.trans hrest, htop'⟩
    next =>
      cases hshrink
      exact ⟨.refl hlow h, htop⟩

end

/-! ## One call -/

theorem shrinkHeap_heapStart
    (h : UserProcess.shrinkHeap brkNew n f p = some (f', p')) : p'.heapStart = p.heapStart :=
  UserProcess.shrinkHeap_induction (P := fun _ p1 => p1.heapStart = p.heapStart)
    (fun _ _ _ hstart _ _ => hstart) rfl h

theorem HeapMapped.moveBreak (h : HeapMapped p) (hlow : Life.LowPagesOk ⟨f, p⟩)
    (hbrk : p.heapStart ≤ brkNew) (hlimit : brkNew < constUserMaximumHeapBreak)
    {f2 : Frames} {p2 p3 : UserProcess}
    (hexpand : UserProcess.expandHeap brkNew physicalPages f p = some (f2, p2))
    (hshrink : UserProcess.shrinkHeap brkNew physicalPages f2 p2 = some (f', p3)) :
    HeapMoved ⟨f, p⟩ ⟨f', p3⟩ ∧ brkNew ≤ p3.heapStart + p3.heapPages * pageSize := by
  have hfuel : brkNew ≤ p.heapStart + (p.heapPages + physicalPages) * pageSize := by
    simp only [constUserMaximumHeapBreak, physicalPages, pageSize] at *
    omega
  obtain ⟨hexpanded, htop⟩ := h.expandHeap hlow hlimit hfuel hexpand
  have hbrk2 : p2.heapStart ≤ brkNew := hexpanded.heapStart.trans_le hbrk
  obtain ⟨hshrunk, htop'⟩ := hexpanded.heap.shrinkHeap hexpanded.toLowPagesOk hbrk2 htop hshrink
  exact ⟨hexpanded.trans hshrunk, htop'⟩

theorem HeapUnused.initializeHeap (h : HeapUnused p) (hlow : Life.LowPagesOk ⟨f, p⟩)
    (hlimit : p.imageEnd < constUserMaximumHeapBreak)
    (hinit : UserProcess.initializeHeap f p = some (f', p')) :
    HeapMapped p' ∧ Life.LowPagesOk ⟨f', p'⟩ ∧
      ∀ v < pageOf p'.heapStart, p'.pageDirectory.entry v = p.pageDirectory.entry v := by
  obtain ⟨hgrown, -, haligned, htable, -, hsome⟩ := UserProcess.initializeHeap_spec hinit
  obtain ⟨⟨f1, d1⟩, hfresh, heq⟩ := map_eq_some_iff.1 hinit
  cases heq
  have hpos : 0 < p.imageEnd := by
    rw [Nat.pos_iff_ne_zero]
    intro hzero
    rw [hzero] at htable
    exact htable (by decide)
  refine ⟨⟨haligned, hpos, Nat.one_pos, ?_, fun v hv hvlow => ?_⟩, hlow.filled hgrown.filled rfl,
    fun v hv => mapFresh_outside hfresh (.inl hv)⟩
  · show p.imageEnd + 1 * pageSize ≤ constUserMaximumHeapBreak
    simp only [constUserMaximumHeapBreak, pageSize] at *
    omega
  · have hv : pageOf p.imageEnd ≤ v := hv
    by_cases hfirst : v = pageOf p.imageEnd
    · rw [hfirst]
      exact ⟨fun _ => Nat.lt_succ_self _, fun _ => hsome⟩
    · have hbehind : p.imageEnd ≤ v * pageSize := by
        simp only [pageOf, pageSize] at *
        omega
      rw [mapFresh_outside hfresh (.inr (by omega)), h.unmapped v hbehind hvlow]
      simp only [Option.isSome_none, Bool.false_eq_true, false_iff]
      omega

/-- The heap a call goes on with, once it is started: its break is the old one. -/
def Started (f f1 : Frames) (p p1 : UserProcess) : Prop :=
  p.heapBreak = 0 ∧ UserProcess.initializeHeap f p = some (f1, p1) ∨
    p.heapBreak ≠ 0 ∧ f1 = f ∧ p1 = p

theorem Started.heapBreak {f1 : Frames} {p1 : UserProcess} (h : Started f f1 p p1) :
    p1.heapBreak = p.brkOld := by
  rcases h with ⟨hbreak, hinit⟩ | ⟨hbreak, -, rfl⟩
  · obtain ⟨-, ⟨d1, rfl⟩, -⟩ := UserProcess.initializeHeap_spec hinit
    rw [UserProcess.brkOld, if_pos hbreak]
  · rw [UserProcess.brkOld, if_neg hbreak]

theorem sbrk_result (h : p.sbrk f amount = some (f', p')) :
    ∃ f1 p1, Started f f1 p p1 ∧
      (constUserMaximumHeapBreak ≤ p.brkNew amount ∧ p.sbrkResult amount = none ∧ f' = f1 ∧ p' = p1 ∨
        p.brkNew amount < constUserMaximumHeapBreak ∧ p.sbrkResult amount = some p.brkOld ∧
          ∃ f2 p2 p3, UserProcess.expandHeap (p.brkNew amount) physicalPages f1 p1 = some (f2, p2) ∧
            UserProcess.shrinkHeap (p.brkNew amount) physicalPages f2 p2 = some (f', p3) ∧
            p' = { p3 with heapBreak := p.brkNew amount }) := by
  obtain ⟨f1, p1, hstart, brkNew, hbrkNew, hmove⟩ := UserProcess.sbrk_cases h
  have hstarted : Started f f1 p p1 := hstart
  rw [hstarted.heapBreak, ← UserProcess.brkNew] at hbrkNew
  subst hbrkNew
  refine ⟨f1, p1, hstarted, ?_⟩
  rcases hmove with ⟨hlimit, rfl, rfl⟩ | ⟨hlimit, hmoved⟩
  · exact .inl ⟨hlimit, if_pos hlimit, rfl, rfl⟩
  · exact .inr ⟨hlimit, if_neg (Nat.not_le.2 hlimit), hmoved⟩

theorem image_kept (hlow : s'.LowPagesOk) (hheap : HeapMapped s'.process)
    (hbefore : ∀ v < pageOf s'.process.heapStart,
      s'.process.pageDirectory.entry v = s.process.pageDirectory.entry v) (v : Nat)
    (hv : v * pageSize < s'.process.heapStart) :
    s'.process.pageDirectory.entry v = s.process.pageDirectory.entry v ∧
      ∀ e, s.process.pageDirectory.entry v = some e → s'.frames.allocator.bitmap e.page = false := by
  have haligned := hheap.aligned
  have hpage : v < pageOf s'.process.heapStart := by
    simp only [pageOf, pageSize] at *
    omega
  refine ⟨hbefore v hpage, fun e he => ?_⟩
  rw [← hbefore v hpage] at he
  exact hlow.taken (hpage.trans_le ((Nat.le_add_right _ _).trans hheap.low)) he

theorem HeapMoved.heapReady (h : HeapMoved s s') (hstart : s'.process.heapStart ≤ brkNew)
    (hstop : brkNew ≤ s'.process.heapStart + s'.process.heapPages * pageSize) :
    Life.HeapReady { s' with process := { s'.process with heapBreak := brkNew } } := by
  have hmapped := h.heap
  refine ⟨⟨h.taken, h.apart⟩, .inr ⟨?_, hstart, hstop, hmapped.stop.trans_lt (by decide)⟩⟩
  exact ⟨hmapped.aligned, hmapped.start, hmapped.pages, hmapped.stop, hmapped.mapped⟩

theorem Life.HeapReady.sbrk (hs : s.HeapReady)
    (hasks : s.process.AsksInHeap amount) (h : s.heapStep (.sbrk amount) = some s') :
    s'.HeapReady ∧ KeepsHeapPages s s' (s.process.sbrkResult amount) := by
  obtain ⟨⟨f', p'⟩, hsbrk, rfl⟩ := map_eq_some_iff.1 h
  obtain ⟨f1, p1, hstarted, hmove⟩ := sbrk_result hsbrk
  -- the heap as it is before the break is moved
  have hbefore : Life.LowPagesOk ⟨f1, p1⟩ ∧ HeapMapped p1 ∧
      (∀ v < pageOf p1.heapStart, p1.pageDirectory.entry v = s.process.pageDirectory.entry v) ∧
      p1.heapStart ≤ s.process.brkNew amount ∧
      (constUserMaximumHeapBreak ≤ s.process.brkNew amount → f1 = s.frames ∧ p1 = s.process) := by
    unfold UserProcess.AsksInHeap at hasks
    rcases hstarted with ⟨hbreak, hinit⟩ | ⟨hbreak, rfl, rfl⟩
    · rw [if_pos hbreak] at hasks
      rcases hs.heap with hunused | ⟨hmapped, hbreaks⟩
      · obtain ⟨hheap, hlow, hsame⟩ :=
          hunused.initializeHeap hs.toLowPagesOk (hasks.1.trans_lt hasks.2) hinit
        obtain ⟨-, ⟨d1, rfl⟩, -⟩ := UserProcess.initializeHeap_spec hinit
        exact ⟨hlow, hheap, hsame, hasks.1, fun hlimit => absurd hasks.2 (Nat.not_lt.2 hlimit)⟩
      · exact absurd (hmapped.start.trans_le hbreaks.start) (by omega)
    · rw [if_neg hbreak] at hasks
      rcases hs.heap with hunused | ⟨hmapped, -⟩
      · exact absurd hunused.noBreak hbreak
      · exact ⟨hs.toLowPagesOk, hmapped, fun _ _ => rfl, hasks, fun _ => ⟨rfl, rfl⟩⟩
  obtain ⟨hlow, hheap, hsame, hbrk, hfailed⟩ := hbefore
  rcases hmove with ⟨hlimit, hresult, rfl, rfl⟩ | ⟨hlimit, hresult, f2, p2, p3, hexpand, hshrink, rfl⟩
  · obtain ⟨rfl, rfl⟩ := hfailed hlimit
    rw [hresult]
    exact ⟨hs, nofun, nofun, image_kept hlow hheap fun _ _ => rfl, fun _ => rfl⟩
  · obtain ⟨hmoved, htop⟩ := hheap.moveBreak hlow hbrk hlimit hexpand hshrink
    have hbrk3 := hmoved.heapStart.trans_le hbrk
    have hready := hmoved.heapReady hbrk3 htop
    have hmapped := hmoved.heap
    have hbefore : ∀ v < pageOf p3.heapStart,
        p3.pageDirectory.entry v = s.process.pageDirectory.entry v := by
      intro v hv
      rw [hmoved.heapStart] at hv
      exact (hmoved.before v hv).trans (hsame v hv)
    have himage := image_kept hmoved.toLowPagesOk hmapped hbefore
    rw [hresult]
    refine ⟨hready, fun _ => ?_, fun _ => hmapped.mapped, himage, nofun⟩
    exact ⟨hbrk3, htop, hmapped.stop.trans_lt (by decide)⟩

theorem Life.HeapReady.asksInHeap (hs : s.HeapReady) (h : s.heapStep (.sbrk amount) = some s')
    (hkeeps : KeepsHeapPages s s' (s.process.sbrkResult amount)) : s.process.AsksInHeap amount := by
  obtain ⟨⟨f', p'⟩, hsbrk, rfl⟩ := map_eq_some_iff.1 h
  obtain ⟨f1, p1, hstarted, ⟨hlimit, hresult, rfl, rfl⟩ | ⟨hlimit, hresult, hmoved⟩⟩ := sbrk_result hsbrk
  · have hsame := hkeeps.failed hresult
    have hbreak : s.process.heapBreak ≠ 0 := by
      rcases hstarted with ⟨hbreak, hinit⟩ | ⟨hbreak, -⟩
      · obtain ⟨-, ⟨d1, rfl⟩, -, htable, -⟩ := UserProcess.initializeHeap_spec hinit
        have hzero : s.process.imageEnd = 0 := (congrArg (·.process.heapBreak) hsame).trans hbreak
        rw [hzero] at htable
        exact absurd (by decide) htable
      · exact hbreak
    rw [UserProcess.AsksInHeap, if_neg hbreak]
    rcases hs.heap with hunused | ⟨hmapped, -⟩
    · exact absurd hunused.noBreak hbreak
    · exact ((Nat.le_add_right _ _).trans hmapped.stop).trans hlimit
  · obtain ⟨f2, p2, p3, hexpand, hshrink, rfl⟩ := hmoved
    have hin := hkeeps.inHeap (by rw [hresult]; rfl)
    have hstart3 : p3.heapStart = p1.heapStart := by
      obtain ⟨-, d2, pages, rfl⟩ := UserProcess.expandHeap_grown hexpand
      have hstart := shrinkHeap_heapStart hshrink
      exact hstart
    have hbrk := hstart3.symm.trans_le hin.start
    unfold UserProcess.AsksInHeap
    rcases hstarted with ⟨hbreak, hinit⟩ | ⟨hbreak, -, rfl⟩
    · obtain ⟨-, ⟨d1, rfl⟩, -⟩ := UserProcess.initializeHeap_spec hinit
      rw [if_pos hbreak]
      exact ⟨hbrk, hlimit⟩
    · rw [if_neg hbreak]
      exact hbrk

theorem HeapUnused.leavesHeap (hunused : HeapUnused s.process) (h : s.LeavesHeap s') :
    HeapUnused s'.process := by
  refine ⟨h.heapBreak.trans hunused.noBreak, h.heapStart.trans hunused.noStart, fun v hv hvlow => ?_⟩
  have hnone := h.mapped v hvlow
  rw [hunused.unmapped v (by rwa [← h.imageEnd]) hvlow] at hnone
  exact Option.not_isSome_iff_eq_none.1 (by rw [hnone]; exact Bool.false_ne_true)

theorem Life.HeapReady.others (hs : s.HeapReady) (h : s.LeavesHeap s') : s'.HeapReady := by
  refine ⟨h.toLowPagesOk, hs.heap.imp (·.leavesHeap h) fun ⟨hmapped, hbreak⟩ => ?_⟩
  · obtain ⟨haligned, hstart, hpages, hstop, hmaps⟩ := hmapped
    obtain ⟨hbrkStart, hbrkStop, haddress⟩ := hbreak
    rw [← h.heapStart] at haligned hstart hstop hmaps hbrkStart hbrkStop haddress
    rw [← h.heapPages] at hpages hstop hmaps hbrkStop haddress
    rw [← h.heapBreak] at hbrkStart hbrkStop
    exact ⟨⟨haligned, hstart, hpages, hstop, fun v hv hvlow => by
      rw [h.mapped v hvlow]; exact hmaps v hv hvlow⟩, hbrkStart, hbrkStop, haddress⟩

/-! ## Processes -/

theorem Life.PagesOk.lowPagesOk (h : s.PagesOk) : s.LowPagesOk where
  taken {v e} _ he := by
    have hnot := h.taken (held_user.2 ⟨e, he, rfl⟩)
    rw [← Bool.not_eq_true]
    exact fun hfree => hnot (.inl hfree)
  apart {v w e e'} _ _ he he' heq :=
    PageSlot.user.inj (h.alone (held_user.2 ⟨e', he', rfl⟩) (held_user.2 ⟨e, he, heq⟩))

/-- The steps of a life between the calls of `sbrk`: the threads and what they need, and the other
processes. -/
def LifeEvent.BetweenCalls : LifeEvent → Prop
  | .load _ | .createPagesInSpace .. | .sbrk _ | .deleteTask _ => False
  | _ => True

theorem Life.Inv.leavesHeap {event : LifeEvent} (h : s.Inv) (hlegal : s.Legal event)
    (hbetween : event.BetweenCalls) (hstep : s.step event = some s') : s.LeavesHeap s' := by
  -- where the fields are the same and the low entries are the same
  have hsame : s'.Inv → s'.process.imageEnd = s.process.imageEnd →
      SameThreadsAndHeap { s.process with threads := s'.process.threads } s'.process →
      (∀ v < lowPages, s'.process.pageDirectory.entry v = s.process.pageDirectory.entry v) →
      s.LeavesHeap s' := fun hinv himage hheap hlow =>
    ⟨hinv.toPagesOk.lowPagesOk, himage, hheap.heapStart, hheap.heapBreak, hheap.heapPages,
      fun v hv => by rw [hlow v hv]⟩
  have hinv : s'.Inv := by
    refine h.step hlegal ?_ hstep
    cases event with
    | sbrk amount | deleteTask thread => exact hbetween.elim
    | _ => trivial
  cases event with
  | load headers | createPagesInSpace virt pages | sbrk amount | deleteTask thread =>
    exact hbetween.elim
  | writeTlsMasterForProcess copySize totalSize alignment =>
    obtain ⟨⟨f', p'⟩, hwrite, rfl⟩ := map_eq_some_iff.1 hstep
    simp only [UserProcess.writeTlsMasterForProcess, bind_eq_bind,
      bind_eq_some_iff] at hwrite
    obtain ⟨⟨f1, p1, base⟩, hrange, heq⟩ := hwrite
    cases heq
    have hlow := (mapRange_low h.rangesOk hrange).2
    obtain ⟨-, pool', d', rfl⟩ := mapRange_spec hrange
    exact hsame hinv rfl ⟨rfl, rfl, rfl, rfl⟩ hlow
  | prepareThreadLocalStorage thread =>
    simp only [Life.step] at hstep
    split at hstep
    next =>
      obtain ⟨⟨f', p', thread'⟩, hprepare, rfl⟩ := map_eq_some_iff.1 hstep
      have hlow := prepareThreadLocalStorage_low h.rangesOk hprepare
      obtain ⟨-, ⟨pool', d', rfl⟩, -⟩ := prepareThreadLocalStorage_spec hprepare
      exact hsame hinv rfl ⟨rfl, rfl, rfl, rfl⟩ hlow
    next => cases hstep
  | createThread id =>
    obtain ⟨⟨f', p'⟩, hcreate, rfl⟩ := map_eq_some_iff.1 hstep
    have hlow := createThread_low h.rangesOk hcreate
    obtain ⟨-, -, -, -, pool', d', rfl | ⟨thread, rfl, -⟩⟩ := createThread_spec h.rangesOk hcreate
    · exact hsame hinv rfl ⟨rfl, rfl, rfl, rfl⟩ hlow
    · exact hsame hinv rfl ⟨rfl, rfl, rfl, rfl⟩ hlow
  | stackFault thread address =>
    simp only [Life.step] at hstep
    split at hstep
    next hfault =>
      obtain ⟨⟨f', p'⟩, hgrow, rfl⟩ := map_eq_some_iff.1 hstep
      have hlow := growStack_low h.rangesOk (h.stackOk thread hfault.1) hfault.2.1 hgrow
      obtain ⟨⟨f1, d'⟩, -, heq⟩ := map_eq_some_iff.1 hgrow
      cases heq
      exact hsame hinv rfl ⟨rfl, rfl, rfl, rfl⟩ hlow
    next => cases hstep
  | others frames =>
    cases hstep
    exact hsame hinv rfl ⟨rfl, rfl, rfl, rfl⟩ fun _ _ => rfl

/-- The steps that construct a process: it gets its image from a binary, or page by page. -/
def Life.Constructs (s : Life) (event : LifeEvent) : Prop :=
  s.Legal event ∧ match event with
    | .load _ => s.process.imageEnd = 0
    | .createPagesInSpace .. => True
    | event => event.BetweenCalls

theorem HeapUnused.load (h : HeapUnused p) (hp : p.RangesOk) (himage : p.imageEnd = 0)
    {headers : List Elf32Phdr}
    (hload : Elf32Loader.loadBinaryToCurrentAddressSpace f p headers = some (f', p')) :
    HeapUnused p' := by
  have hnone : ∀ v < lowPages, p.pageDirectory.entry v = none := fun v hv =>
    h.unmapped v (by rw [himage]; exact Nat.zero_le _) hv
  obtain ⟨-, hsame, -⟩ := loadBinaryToCurrentAddressSpace_spec hload
  refine ⟨hsame.heapBreak.trans h.noBreak, hsame.heapStart.trans h.noStart, fun v hv hvlow => ?_⟩
  simp only [Elf32Loader.loadBinaryToCurrentAddressSpace, bind_eq_bind,
    bind_eq_some_iff] at hload
  obtain ⟨⟨f1, p1⟩, hsegments, htls⟩ := hload
  obtain ⟨⟨f2, d'⟩, hfresh, heq⟩ := map_eq_some_iff.1 hsegments
  cases heq
  -- the image is the only part of the low pages that is mapped
  have hloaded : ∀ v, pageAlignUp (Elf32Loader.imageRange headers).2 ≤ v * pageSize → v < lowPages →
      d'.entry v = none := by
    intro v hv hvlow
    refine (mapFresh_outside hfresh ?_).trans (hnone v hvlow)
    simp only [pageOf, pageAlignDown, pageSize] at *
    omega
  simp only [Elf32Loader.loadTlsMasterCopy] at htls
  split at htls
  · cases htls
    exact hloaded v hv hvlow
  · obtain ⟨⟨f3, p3, base⟩, hrange, heq⟩ := map_eq_some_iff.1 htls
    cases heq
    have hlow := (mapRange_low (by exact hp) hrange).2 v hvlow
    obtain ⟨-, pool', d2, rfl⟩ := mapRange_spec hrange
    exact hlow.trans (hloaded v hv hvlow)

theorem HeapUnused.createPagesInSpace (h : HeapUnused p) {virt pages : Nat}
    (hpages : UserProcess.createPagesInSpace f p virt pages = some (f', p')) : HeapUnused p' := by
  simp only [UserProcess.createPagesInSpace] at hpages
  split at hpages
  next hcount =>
    obtain ⟨⟨f1, d'⟩, hfresh, heq⟩ := map_eq_some_iff.1 hpages
    cases heq
    obtain ⟨-, -, hbounds⟩ := mapFresh_spec hfresh (.inl rfl)
    obtain ⟨haligned, -, hstop⟩ := hbounds hcount.1
    have hend := u32_of_lt (hstop.trans_lt (by decide))
    refine ⟨h.noBreak, h.noStart, fun v hv hvlow => ?_⟩
    have hv : (if p.imageEnd = 0 ∨ p.imageEnd < u32 (virt + pages * pageSize) then
        u32 (virt + pages * pageSize) else p.imageEnd) ≤ v * pageSize := hv
    have hbehind : p.imageEnd ≤ v * pageSize ∧ virt + pages * pageSize ≤ v * pageSize := by
      split at hv <;> omega
    refine (mapFresh_outside hfresh (.inr ?_)).trans (h.unmapped v hbehind.1 hvlow)
    simp only [pageOf, pageSize] at *
    omega
  next =>
    cases hpages
    exact h

theorem heapReady_of_constructed (hs : processLives.Reachable Life.Constructs s) : s.HeapReady := by
  have hinv : s.Inv ∧ HeapUnused s.process := by
    refine hs.invariant (I := fun s => s.Inv ∧ HeapUnused s.process) ?_ ?_
    · intro s hinit
      refine ⟨Life.Initial.inv hinit, ?_⟩
      obtain ⟨f, id, hcreate⟩ := hinit
      simp only [createProcess, bind_eq_bind, bind_eq_some_iff] at hcreate
      obtain ⟨⟨a, page⟩, -, hcreate⟩ := hcreate
      have hp := UserProcess.unmapped_rangesOk
      have hlow := createThread_low hp hcreate
      obtain ⟨-, -, -, -, pool', d', heq | ⟨thread, heq, -⟩⟩ := createThread_spec hp hcreate
      · exact ⟨by rw [heq]; rfl, by rw [heq]; rfl, fun v _ hv => hlow v hv⟩
      · exact ⟨by rw [heq]; rfl, by rw [heq]; rfl, fun v _ hv => hlow v hv⟩
    · rintro s event s' ⟨hinv, hunused⟩ ⟨hlegal, hevent⟩ hstep
      have hkeeps : s.KeepsHeap event := by
        cases event with
        | sbrk amount | deleteTask thread => exact hevent.elim
        | _ => trivial
      have hinv' := hinv.step hlegal hkeeps hstep
      refine ⟨hinv', ?_⟩
      have hbetween : event.BetweenCalls → HeapUnused s'.process := by
        intro hbetween
        exact hunused.leavesHeap (hinv.leavesHeap hlegal hbetween hstep)
      cases event with
      | load headers =>
        obtain ⟨⟨f', p'⟩, hload, rfl⟩ := map_eq_some_iff.1 hstep
        exact hunused.load hinv.rangesOk hevent hload
      | createPagesInSpace virt pages =>
        obtain ⟨⟨f', p'⟩, hpages, rfl⟩ := map_eq_some_iff.1 hstep
        exact hunused.createPagesInSpace hpages
      | _ => exact hbetween hevent
  exact ⟨hinv.1.toPagesOk.lowPagesOk, .inl hinv.2⟩

/-! ## Runs -/

theorem reachable_heapReady (hs : heapCalls.Reachable Life.KeepsBreak s) : s.HeapReady := by
  refine hs.invariant (fun s h => h) ?_
  intro s event s' hinv hok hstep
  cases event with
  | sbrk amount => exact (hinv.sbrk hok hstep).1
  | others s1 =>
    obtain rfl := Option.some.inj hstep
    exact hinv.others hok

/-- In every run of calls that move the break within the heap, with anything between them that leaves it
alone, each returning call keeps the heap, its pages and the image, and changes nothing if it fails, if
and only if it moves the break within the heap, too. -/
theorem sbrk_keeps_heap_iff {s s' : Life} (hs : heapCalls.Reachable Life.KeepsBreak s) {amount : Int}
    (h : s.heapStep (.sbrk amount) = some s') :
    KeepsHeapPages s s' (s.process.sbrkResult amount) ↔ s.process.AsksInHeap amount :=
  have hready := reachable_heapReady hs
  ⟨hready.asksInHeap h, fun hasks => (hready.sbrk hasks h).2⟩

/-! ## Two processes -/

/-- A process with one page for its image. -/
def Life.constructed : Option Life :=
  Life.created.bind fun s => processLives.run s [.createPagesInSpace 0x8000000 1]

theorem Life.constructed_heapReady (h : Life.constructed = some s) : s.HeapReady := by
  obtain ⟨s0, h0, hrun⟩ := bind_eq_some_iff.1 h
  refine heapReady_of_constructed (.of_run (.init (Life.created_initial h0)) ?_ hrun)
  intro event hevent s
  obtain rfl := List.mem_singleton.1 hevent
  exact ⟨trivial, trivial⟩

theorem sbrk_keeps_heap_shrunk :
    ∃ s s', heapCalls.Reachable Life.KeepsBreak s ∧ s.process.heapPages = 3 ∧
      s.heapStep (.sbrk (-8192)) = some s' ∧ s'.process.heapPages = 1 ∧
      KeepsHeapPages s s' (some 0x8003328) := by
  obtain ⟨s0, h0, hasks0, s, hs, hasks, hthree, s', hs', hone, hresult⟩ :
      ∃ s0 ∈ Life.constructed, s0.process.AsksInHeap 9000 ∧ ∃ s ∈ s0.heapStep (.sbrk 9000),
        s.process.AsksInHeap (-8192) ∧ s.process.heapPages = 3 ∧ ∃ s' ∈ s.heapStep (.sbrk (-8192)),
          s'.process.heapPages = 1 ∧ s.process.sbrkResult (-8192) = some 0x8003328 := by
    decide +kernel
  have hreach : heapCalls.Reachable Life.KeepsBreak s :=
    .step (a := .sbrk 9000) (.init (Life.constructed_heapReady h0)) hasks0 hs
  refine ⟨s, s', hreach, hthree, hs', hone, ?_⟩
  rw [← hresult]
  exact (sbrk_keeps_heap_iff hreach hs').2 hasks

/-- An empty heap whose break is moved down by a page and a byte: the page of the image is freed, the
number of pages wraps, and the break lies below the heap. A failed first call still starts the heap. -/
theorem sbrk_below_heap :
    (∃ s s', heapCalls.Reachable Life.KeepsBreak s ∧ s.heapStep (.sbrk (-4097)) = some s' ∧
      s'.process.heapStart = 0x8001000 ∧ s'.process.heapBreak = 0x7FFFFFF ∧
      s'.process.heapPages = 0xFFFFFFFF ∧
      s.process.pageDirectory.entry 0x8000 = some ⟨0x104, defaultUserPageFlags⟩ ∧
      s'.process.pageDirectory.entry 0x8000 = none ∧ s'.frames.allocator.bitmap 0x104 = true ∧
      ¬ KeepsHeapPages s s' (s.process.sbrkResult (-4097))) ∧
    ∃ s s', heapCalls.Reachable Life.KeepsBreak s ∧ s.heapStep (.sbrk 0x7FFFFFFF) = some s' ∧
      s.process.sbrkResult 0x7FFFFFFF = none ∧ s.process.heapPages = 0 ∧ s'.process.heapPages = 1 ∧
      ¬ KeepsHeapPages s s' (s.process.sbrkResult 0x7FFFFFFF) := by
  constructor
  · obtain ⟨s0, h0, hasks0, s, hs, hentry, s', hs', hstart, hbreak, hpages, hentry', hfree⟩ :
        ∃ s0 ∈ Life.constructed, s0.process.AsksInHeap 0 ∧ ∃ s ∈ s0.heapStep (.sbrk 0),
          s.process.pageDirectory.entry 0x8000 = some ⟨0x104, defaultUserPageFlags⟩ ∧
          ∃ s' ∈ s.heapStep (.sbrk (-4097)), s'.process.heapStart = 0x8001000 ∧
            s'.process.heapBreak = 0x7FFFFFF ∧ s'.process.heapPages = 0xFFFFFFFF ∧
            s'.process.pageDirectory.entry 0x8000 = none ∧
            s'.frames.allocator.bitmap 0x104 = true := by
      decide +kernel
    have hreach : heapCalls.Reachable Life.KeepsBreak s :=
      .step (a := .sbrk 0) (.init (Life.constructed_heapReady h0)) hasks0 hs
    refine ⟨s, s', hreach, hs', hstart, hbreak, hpages, hentry, hentry', hfree, fun hkeeps => ?_⟩
    have hsame := (hkeeps.image 0x8000 (by rw [hstart]; decide)).1
    rw [hentry, hentry'] at hsame
    cases hsame
  · obtain ⟨s, hs, s', hs', hresult, hnone, hone⟩ :
        ∃ s ∈ Life.constructed, ∃ s' ∈ s.heapStep (.sbrk 0x7FFFFFFF),
          s.process.sbrkResult 0x7FFFFFFF = none ∧ s.process.heapPages = 0 ∧
          s'.process.heapPages = 1 := by
      decide +kernel
    refine ⟨s, s', .init (Life.constructed_heapReady hs), hs', hresult, hnone, hone, fun hkeeps => ?_⟩
    rw [hkeeps.failed hresult, hnone] at hone
    cases hone

end MeetixOS.Kernel
