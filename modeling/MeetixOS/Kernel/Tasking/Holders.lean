import MeetixOS.Lib.Holding
import MeetixOS.Kernel.Tasking.ProcessMemory

/-! # Who holds a page

The pages of several processes as a `Holding`: a virtual page holds the page that it is mapped to, and a
thread the page of its kernel stack. A slot is sole unless it is a virtual page below
`CONST_USER_VIRTUAL_RANGES_START` that its process may not write, as `fork` leaves it behind. Page 0
counts as available, since it is never handed out. -/

open Function (update)

namespace MeetixOS.Kernel

open MeetixOS.Lib

/-- What holds a page for a process: a virtual page, or a thread with its kernel stack. -/
inductive PageSlot
  | user (v : Nat)
  | kernel (page : Nat)
  deriving DecidableEq

namespace UserProcess

/-- The pages of the kernel stacks of a process. -/
def kernelStacks (p : UserProcess) : List Nat := p.threads.map ThreadMemory.kernelStack

/-- The page that a slot of the process holds. -/
def held (p : UserProcess) : PageSlot → Option Nat
  | .user v => (p.pageDirectory.entry v).map PageEntry.page
  | .kernel page => if page ∈ p.kernelStacks then some page else none

/-- The slot does not share its page. -/
def Sole (p : UserProcess) : PageSlot → Prop
  | .user v => lowPages ≤ v ∨ ∀ e, p.pageDirectory.entry v = some e → e.isWritable = true
  | .kernel _ => True

end UserProcess

/-- The page is free, or is page 0. -/
def Frames.Available (f : Frames) (page : Nat) : Prop := f.allocator.bitmap page = true ∨ page = 0

section

variable {ι : Type}

/-- The pages that the processes hold. -/
def holding (f : Frames) (process : ι → Option UserProcess) : Holding (ι × PageSlot) Nat where
  held i := (process i.1).bind fun p => p.held i.2
  free := f.Available

/-- The slots of all processes that do not share their pages. -/
def SoleIn (process : ι → Option UserProcess) (i : ι × PageSlot) : Prop :=
  ∀ p, process i.1 = some p → p.Sole i.2

/-- No page that a process holds is free, and only write-protected low pages are shared. -/
def SafePages (f : Frames) (process : ι → Option UserProcess) : Prop :=
  (holding f process).Safe (SoleIn process)

variable {f f' : Frames} {process : ι → Option UserProcess} {pid : ι} {p p' : UserProcess}

theorem held_eq (hp : process pid = some p) (slot : PageSlot) :
    (holding f process).held (pid, slot) = p.held slot := by
  simp [holding, hp]

theorem held_user {v q : Nat} : p.held (.user v) = some q ↔
    ∃ e, p.pageDirectory.entry v = some e ∧ e.page = q := by
  simp [UserProcess.held]

theorem held_kernel {page q : Nat} :
    p.held (.kernel page) = some q ↔ page ∈ p.kernelStacks ∧ page = q := by
  rw [UserProcess.held]
  split
  next hmem => simp [hmem]
  next hmem => simp [hmem]

theorem SafePages.kernelStack_new (hs : SafePages f process) (pid : ι) (hp : process pid = some p)
    {a : PPallocator} {page : Nat} (halloc : f.allocator.allocate = some (a, page)) :
    page ∉ p.kernelStacks := by
  intro hmem
  have hheld : (holding f process).held (pid, .kernel page) = some page :=
    (held_eq hp _).trans (held_kernel.2 ⟨hmem, rfl⟩)
  exact hs.taken _ _ hheld (Or.inl (PPallocator.allocate_spec halloc).1)

theorem safePages_none (f : Frames) : SafePages f fun _ : ι => none := by
  refine ⟨?_, ?_⟩
  · intro slot q hq
    cases hq
  · intro slot slot' q hq
    cases hq

variable [DecidableEq ι]

theorem held_update (slot : ι × PageSlot) :
    (holding f (update process pid (some p'))).held slot =
      if slot.1 = pid then p'.held slot.2 else (holding f process).held slot := by
  simp only [holding, Function.update_apply]
  split <;> rfl

theorem soleIn_update {slot : ι × PageSlot} (hne : slot.1 ≠ pid)
    (h : SoleIn (update process pid (some p')) slot) : SoleIn process slot := by
  intro q hq
  exact h q (by rw [Function.update_of_ne hne, hq])

theorem soleIn_of_same (hp : process pid = some p) {slot : PageSlot} {q : Nat}
    (hheld : p'.held slot = some q)
    (hsame : ∀ v e, p'.pageDirectory.entry v = some e → slot = .user v →
      p.pageDirectory.entry v = some e)
    (h : SoleIn (update process pid (some p')) (pid, slot)) : SoleIn process (pid, slot) := by
  intro p1 hp1
  cases hp.symm.trans hp1
  have hsole := h p' (by rw [Function.update_self])
  cases slot with
  | kernel page => trivial
  | user v =>
    obtain ⟨e, he, -⟩ := held_user.1 hheld
    refine hsole.imp_right fun hwritable e' he' => ?_
    cases (hsame v e he rfl).symm.trans he'
    exact hwritable e he

theorem SafePages.start (hs : SafePages f process) (pid : ι)
    (hempty : ∀ v, p'.pageDirectory.entry v = none) (hthreads : p'.threads = []) :
    SafePages f (update process pid (some p')) := by
  have hheld : ∀ slot q, (holding f (update process pid (some p'))).held slot = some q →
      slot.1 ≠ pid ∧ (holding f process).held slot = some q := by
    rintro ⟨pid', slot⟩ q hq
    rw [held_update] at hq
    split at hq
    · cases slot with
      | user v =>
        obtain ⟨e, he, -⟩ := held_user.1 hq
        rw [hempty v] at he
        cases he
      | kernel page =>
        obtain ⟨hmem, -⟩ := held_kernel.1 hq
        rw [UserProcess.kernelStacks, hthreads] at hmem
        cases hmem
    next hne => exact ⟨hne, hq⟩
  refine Holding.Safe.drop hs ?_ fun _ _ _ h => h
  intro slot q hq
  obtain ⟨hne, hold⟩ := hheld slot q hq
  exact ⟨hold, soleIn_update hne⟩

section

variable (hs : SafePages f process) (pid : ι) (hp : process pid = some p)
include hs hp

theorem SafePages.filled (hfilled : Filled f f' p.pageDirectory p'.pageDirectory)
    (hkernel : ∀ page ∈ p'.kernelStacks, page ∈ p.kernelStacks) :
    SafePages f' (update process pid (some p')) := by
  -- a page that the process holds now was held by the same slot, or was free
  have hcases : ∀ slot q, p'.held slot = some q → p.held slot = some q ∨
      ∃ v e, slot = .user v ∧ p.pageDirectory.entry v = none ∧
        p'.pageDirectory.entry v = some e ∧ e.page = q := by
    intro slot q hq
    cases slot with
    | kernel page =>
      obtain ⟨hmem, rfl⟩ := held_kernel.1 hq
      exact Or.inl (held_kernel.2 ⟨hkernel page hmem, rfl⟩)
    | user v =>
      obtain ⟨e, he, rfl⟩ := held_user.1 hq
      cases hentry : p.pageDirectory.entry v with
      | none => exact Or.inr ⟨v, e, rfl, hentry, he, rfl⟩
      | some e' =>
        cases (hfilled.kept v e' hentry).symm.trans he
        exact Or.inl (held_user.2 ⟨e, hentry, rfl⟩)
  have htaken : ∀ q, ¬ f.Available q → ¬ f'.Available q := by
    rintro q hq (hfree | rfl)
    · exact hq (Or.inl (hfilled.free hfree))
    · exact hq (Or.inr rfl)
  have hnew : ∀ v e, p.pageDirectory.entry v = none → p'.pageDirectory.entry v = some e →
      f.Available e.page ∧ ¬ f'.Available e.page := by
    intro v e hnone he
    obtain ⟨-, hne, hfree, htaken⟩ := hfilled.added v e hnone he
    refine ⟨Or.inl hfree, ?_⟩
    rintro (hfree' | hzero)
    · rw [htaken] at hfree'
      cases hfree'
    · exact hne hzero
  refine Holding.Safe.fill hs ?_ ?_ ?_
  · rintro ⟨pid', slot⟩ q hq
    rw [held_update] at hq
    split at hq
    next heq =>
      obtain rfl : pid' = pid := heq
      rcases hcases slot q hq with hold | ⟨v, e, rfl, hnone, he, rfl⟩
      · refine Or.inl ⟨(held_eq hp slot).trans hold, soleIn_of_same hp hq ?_⟩
        rintro v e he rfl
        obtain ⟨e', he', -⟩ := held_user.1 hold
        cases (hfilled.kept v e' he').symm.trans he
        exact he'
      · exact Or.inr (hnew v e hnone he).1
    next hne => exact Or.inl ⟨hq, soleIn_update hne⟩
  · rintro ⟨pid1, slot1⟩ ⟨pid2, slot2⟩ q hfree h1 h2
    -- a free page was held by no slot, so both slots are new ones of the process
    have hnewSlot : ∀ pid' slot, (holding f' (update process pid (some p'))).held (pid', slot) =
        some q → pid' = pid ∧ ∃ v e, slot = .user v ∧ p.pageDirectory.entry v = none ∧
          p'.pageDirectory.entry v = some e ∧ e.page = q := by
      intro pid' slot hq
      rw [held_update] at hq
      split at hq
      next heq =>
        refine ⟨heq, (hcases slot q hq).resolve_left fun hold => ?_⟩
        exact hs.taken (pid, slot) q ((held_eq hp slot).trans hold) hfree
      next hne => exact absurd hfree (hs.taken (pid', slot) q hq)
    obtain ⟨rfl, v, e, rfl, hv, hve, rfl⟩ := hnewSlot pid1 slot1 h1
    obtain ⟨rfl, w, e', rfl, hw, hwe, hpage⟩ := hnewSlot pid2 slot2 h2
    rw [hfilled.apart v w e e' hv hw hve hwe hpage.symm]
  · rintro ⟨pid', slot⟩ q hq
    rw [held_update] at hq
    split at hq
    next heq =>
      rcases hcases slot q hq with hold | ⟨v, e, rfl, hnone, he, rfl⟩
      · exact htaken q (hs.taken (pid, slot) q ((held_eq hp slot).trans hold))
      · exact (hnew v e hnone he).2
    next hne => exact htaken q (hs.taken (pid', slot) q hq)

theorem SafePages.kernelStack {a : PPallocator} {page : Nat}
    (halloc : f.allocator.allocate = some (a, page))
    (hdirectory : p'.pageDirectory = p.pageDirectory)
    (hkernel : ∀ page' ∈ p'.kernelStacks, page' = page ∨ page' ∈ p.kernelStacks) :
    SafePages { f with allocator := a } (update process pid (some p')) := by
  obtain ⟨hfree, hne, hbitmap⟩ := PPallocator.allocate_spec halloc
  have havailable : ∀ q, ({ f with allocator := a } : Frames).Available q → f.Available q ∧ q ≠ page := by
    rintro q (hq | rfl)
    · rw [show a.bitmap q = _ by rw [hbitmap], Function.update_apply] at hq
      split at hq
      · cases hq
      next hqne => exact ⟨Or.inl hq, hqne⟩
    · exact ⟨Or.inr rfl, hne.symm⟩
  have hcases : ∀ slot q, p'.held slot = some q →
      p.held slot = some q ∨ slot = .kernel page ∧ q = page := by
    intro slot q hq
    cases slot with
    | user v =>
      rw [held_user, hdirectory] at hq
      exact Or.inl (held_user.2 hq)
    | kernel page' =>
      obtain ⟨hmem, rfl⟩ := held_kernel.1 hq
      rcases hkernel page' hmem with rfl | hmem
      · exact Or.inr ⟨rfl, rfl⟩
      · exact Or.inl (held_kernel.2 ⟨hmem, rfl⟩)
  refine Holding.Safe.fill hs ?_ ?_ ?_
  · rintro ⟨pid', slot⟩ q hq
    rw [held_update] at hq
    split at hq
    next heq =>
      obtain rfl : pid' = pid := heq
      rcases hcases slot q hq with hold | ⟨rfl, rfl⟩
      · refine Or.inl ⟨(held_eq hp slot).trans hold, soleIn_of_same hp hq ?_⟩
        rintro v e he rfl
        rwa [hdirectory] at he
      · exact Or.inr (Or.inl hfree)
    next hne' => exact Or.inl ⟨hq, soleIn_update hne'⟩
  · rintro ⟨pid1, slot1⟩ ⟨pid2, slot2⟩ q hq h1 h2
    have hnewSlot : ∀ pid' slot, (holding { f with allocator := a }
        (update process pid (some p'))).held (pid', slot) = some q →
          pid' = pid ∧ slot = .kernel page := by
      intro pid' slot hheld
      rw [held_update] at hheld
      split at hheld
      next heq =>
        refine ⟨heq, ((hcases slot q hheld).resolve_left fun hold => ?_).1⟩
        exact hs.taken (pid, slot) q ((held_eq hp slot).trans hold) hq
      next hne' => exact absurd hq (hs.taken (pid', slot) q hheld)
    obtain ⟨rfl, rfl⟩ := hnewSlot pid1 slot1 h1
    obtain ⟨rfl, rfl⟩ := hnewSlot pid2 slot2 h2
    rfl
  · rintro ⟨pid', slot⟩ q hq havail
    obtain ⟨hold, hqne⟩ := havailable q havail
    rw [held_update] at hq
    split at hq
    · rcases hcases slot q hq with hheld | ⟨-, rfl⟩
      · exact hs.taken (pid, slot) q ((held_eq hp slot).trans hheld) hold
      · exact hqne rfl
    · exact hs.taken (pid', slot) q hq hold

theorem SafePages.drop
    (hentry : ∀ v e, p'.pageDirectory.entry v = some e → p.pageDirectory.entry v = some e)
    (hkernel : ∀ page ∈ p'.kernelStacks, page ∈ p.kernelStacks)
    (hfree : ∀ slot q, (holding f (update process pid (some p'))).held slot = some q →
      f'.allocator.bitmap q = true → f.allocator.bitmap q = true) :
    SafePages f' (update process pid (some p')) := by
  have hcases : ∀ slot q, p'.held slot = some q → p.held slot = some q := by
    intro slot q hq
    cases slot with
    | user v =>
      obtain ⟨e, he, hpage⟩ := held_user.1 hq
      exact held_user.2 ⟨e, hentry v e he, hpage⟩
    | kernel page =>
      obtain ⟨hmem, hpage⟩ := held_kernel.1 hq
      exact held_kernel.2 ⟨hkernel page hmem, hpage⟩
  refine Holding.Safe.drop hs ?_ ?_
  · rintro ⟨pid', slot⟩ q hq
    rw [held_update] at hq
    split at hq
    next heq =>
      obtain rfl : pid' = pid := heq
      exact ⟨(held_eq hp slot).trans (hcases slot q hq),
        soleIn_of_same hp hq fun v e he _ => hentry v e he⟩
    next hne => exact ⟨hq, soleIn_update hne⟩
  · rintro slot q hq (hfree' | rfl)
    · exact Or.inl (hfree slot q hq hfree')
    · exact Or.inr rfl

end

end

end MeetixOS.Kernel
