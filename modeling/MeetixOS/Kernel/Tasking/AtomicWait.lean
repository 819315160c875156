import MeetixOS.Lib.Separated
import MeetixOS.Kernel.Tasking.Schedule

/-! # Atomic waits

The `atomicWait` call, `WaiterAtomicWait` and the scheduler's walk over the wait queue that checks it. An
atom is a `bool` in user memory, named by its address. `log` records who got an atom and who cleared it. A
global lock makes a call and a round of the scheduler one step each.

A waiter is named by its number; `waiterOf` says which numbers are atomic waits, and for which atoms. -/

open Function (update)
open Option (bind_eq_some_iff map_eq_some_iff)

namespace MeetixOS.Kernel

open MeetixOS.Lib

/-! ## Model -/

/-- The atoms, by address. -/
abbrev Atoms := Address → Bool

/-- `SyscallAtomicLock`; a null pointer is `none`. -/
structure SyscallAtomicLock where
  atom1 : Address
  atom2 : Option Address := none
  setOnFinish : Bool := true
  isTry : Bool := false

/-- What comes of the call: `m_was_set` of a try, a thread that waits, or one that goes on. -/
inductive AtomicWaitResult
  | tried (wasSet : Bool)
  | waits
  | passes
  deriving DecidableEq

/-- `*atom1 = true; if (atom2) *atom2 = true`. -/
def setAtoms (atoms : Atoms) (atom1 : Address) (atom2 : Option Address) : Atoms :=
  match atom2 with
  | none => update atoms atom1 true
  | some atom2 => update (update atoms atom1 true) atom2 true

/-- The `atomicWait` call, up to the waiting. -/
def atomicWait (data : SyscallAtomicLock) (atoms : Atoms) : Atoms × AtomicWaitResult :=
  if data.isTry then
    if atoms data.atom1 && data.atom2.all atoms then (atoms, .tried false)
    else (setAtoms atoms data.atom1 data.atom2, .tried true)
  else if atoms data.atom1 && data.atom2.all atoms then (atoms, .waits)
  else if data.setOnFinish then (setAtoms atoms data.atom1 data.atom2, .passes)
  else (atoms, .passes)

structure WaiterAtomicWait where
  atom1 : Address
  atom2 : Option Address := none
  setOnFinish : Bool := true
  deriving DecidableEq

def WaiterAtomicWait.checkWaiting (waiter : WaiterAtomicWait) (atoms : Atoms) : Bool × Atoms :=
  let keepWaiting := atoms waiter.atom1 && waiter.atom2.all atoms
  if !keepWaiting && waiter.setOnFinish then
    (keepWaiting, setAtoms atoms waiter.atom1 waiter.atom2)
  else (keepWaiting, atoms)

/-- The waiter that a call makes. -/
def SyscallAtomicLock.waiter (data : SyscallAtomicLock) : WaiterAtomicWait :=
  { atom1 := data.atom1, atom2 := data.atom2, setOnFinish := data.setOnFinish }

/-- A thread got an atom, or cleared it. -/
inductive AtomEvent
  | acquired (id : Tid) (atom : Address)
  | released (id : Tid) (atom : Address)
  deriving DecidableEq

/-- The threads, the atoms, and who got and cleared them so far. -/
structure AtomicTasking where
  tasking : Tasking
  atoms : Atoms := fun _ => false
  log : List AtomEvent := []

namespace AtomicTasking

variable (waiterOf : Nat → Option WaiterAtomicWait)

/-- The atomic wait that a thread is in. -/
def atomicWaiter : Option Waiter → Option WaiterAtomicWait
  | some (.other number) => waiterOf number
  | _ => none

/-- `atomicWait` by a thread; `number` is that of the waiter, if it has to wait. -/
def lock (s : AtomicTasking) (id : Tid) (data : SyscallAtomicLock) (number : Nat) :
    Option AtomicTasking :=
  match atomicWait data s.atoms with
  | (_, .tried false) => some s
  | (atoms, .tried true) => some { s with atoms, log := s.log ++ [.acquired id data.atom1] }
  | (_, .waits) => (s.tasking.wait id (some (.other number))).map fun tasking => { s with tasking }
  | (atoms, .passes) =>
    if data.setOnFinish then some { s with atoms, log := s.log ++ [.acquired id data.atom1] }
    else some s

/-- A thread clears an atom. -/
def unlock (s : AtomicTasking) (id : Tid) (atom : Address) : AtomicTasking :=
  { s with atoms := update s.atoms atom false, log := s.log ++ [.released id atom] }

/-- `Scheduler::_checkWaitingState`. -/
def checkWaitingState (s : AtomicTasking) (checkWaiting : Tid → Option Waiter) (id : Tid)
    (thread : Thread) : Option AtomicTasking :=
  match atomicWaiter waiterOf thread.waitManager with
  | none => (s.tasking.checkWaitingState checkWaiting id thread).map fun tasking =>
    { s with tasking }
  | some waiter =>
    match waiter.checkWaiting s.atoms with
    | (true, atoms) => some { s with atoms }
    | (false, atoms) => (s.tasking.unwait id).map fun tasking =>
      { tasking, atoms
        log := if waiter.setOnFinish then s.log ++ [.acquired id waiter.atom1] else s.log }

/-- The loop of `Scheduler::_processWaitQueue`, at the entry `entry`. -/
def processWaitQueue (core : Nat) (checkWaiting : Tid → Option Waiter) :
    Nat → AtomicTasking → Option Tid → Option AtomicTasking
  | _, s, none => some s
  | 0, _, some _ => none
  | fuel + 1, s, some id => do
      let thread ← s.tasking.threads id
      let sched ← s.tasking.schedulers[core]?
      let next := sched.next id
      match s.tasking.checkAliveState core id thread with
      | (tasking, false) => processWaitQueue core checkWaiting fuel { s with tasking } next
      | (tasking, true) =>
        let s ← checkWaitingState waiterOf { s with tasking } checkWaiting id thread
        processWaitQueue core checkWaiting fuel s next

/-- `Scheduler::schedule`. -/
def schedule (s : AtomicTasking) (core : Nat) (checkWaiting : Tid → Option Waiter) :
    Option AtomicTasking := do
  let sched ← s.tasking.schedulers[core]?
  let s ← processWaitQueue waiterOf core checkWaiting sched.waitQueue.length s
    sched.waitQueue.head?
  let (tasking, _) ← (s.tasking.select core (s.tasking.entries.length + 1)
    sched.currentEntry).toOption
  some { s with tasking }

/-! ## The system -/

/-- What threads and the scheduler do. The other operations on threads come with a `TaskingCall`. -/
inductive AtomicEvent
  | lock (id : Tid) (data : SyscallAtomicLock) (number : Nat)
  | unlock (id : Tid) (atom : Address)
  | schedule (core : Nat) (checkWaiting : Tid → Option Waiter)
  | other (call : TaskingCall)

/-- A call that is not a round of the scheduler and makes no atomic wait. -/
def isOther : TaskingCall → Bool
  | .schedule _ _ => false
  | .wait _ number => (waiterOf number).isNone
  | _ => true

/-- One step. A waiter that a call makes is for the atoms of the call. -/
def step (s : AtomicTasking) : AtomicEvent → Option AtomicTasking
  | .lock id data number =>
    if waiterOf number = some data.waiter then s.lock id data number else none
  | .unlock id atom => some (s.unlock id atom)
  | .schedule core checkWaiting => s.schedule waiterOf core checkWaiting
  | .other call =>
    if isOther waiterOf call then (s.tasking.call call).map fun tasking => { s with tasking }
    else none

/-- All of it in any order, from the start of the kernel, with any atoms. -/
def system : System AtomicTasking AtomicEvent where
  init s := s.log = [] ∧ ∃ cores, s.tasking = Tasking.initializeBsp cores
  step := step waiterOf

/-- The threads take single atoms. -/
def SingleAtom (_ : AtomicTasking) : AtomicEvent → Prop
  | .lock _ data _ => data.atom2 = none
  | _ => True

/-- The entry says that a thread got the atom. -/
def Acquires (atom : Address) (e : AtomEvent) : Prop := ∃ id, e = .acquired id atom

/-- The entry says that the atom was cleared. -/
def Releases (atom : Address) (e : AtomEvent) : Prop := ∃ id, e = .released id atom

/-! ## Mutual exclusion -/

/-- Between two threads that got an atom it was cleared, and if it is clear, the last one that got it
has cleared it. -/
structure Inv (s : AtomicTasking) : Prop where
  separated : ∀ atom, Separated (Acquires atom) (Releases atom) s.log
  ended : ∀ atom, s.atoms atom = false → Ended (Acquires atom) (Releases atom) s.log

variable {waiterOf} {s s' : AtomicTasking} {id : Tid} {atom : Address}

theorem Inv.tasking (h : Inv s) (tasking : Tasking) : Inv { s with tasking } :=
  ⟨h.separated, h.ended⟩

theorem Inv.acquire (h : Inv s) (hatom : s.atoms atom = false) (tasking : Tasking) :
    Inv { tasking, atoms := update s.atoms atom true,
          log := s.log ++ [.acquired id atom] } where
  separated := fun a => by
    refine (h.separated a).append ?_
    rintro ⟨id', heq⟩
    cases heq
    exact h.ended _ hatom
  ended := fun a ha => by
    have ha : update s.atoms atom true a = false := ha
    have hne : a ≠ atom := by
      rintro rfl
      rw [Function.update_self] at ha
      cases ha
    rw [Function.update_of_ne hne] at ha
    refine ended_append ?_ (.inr (h.ended a ha))
    rintro ⟨id', heq⟩
    cases heq
    exact hne rfl

theorem Inv.unlock (h : Inv s) : Inv (s.unlock id atom) where
  separated := fun a => (h.separated a).append fun ⟨id', heq⟩ => nomatch heq
  ended := fun a ha => by
    have hnot : ¬ Acquires a (AtomEvent.released id atom) := fun ⟨id', heq⟩ => nomatch heq
    by_cases heq : a = atom
    · subst heq
      exact ended_append hnot (.inl ⟨id, rfl⟩)
    · refine ended_append hnot (.inr (h.ended a ?_))
      have ha : update s.atoms atom false a = false := ha
      rwa [Function.update_of_ne heq] at ha

theorem atomicWait_single (atoms : Atoms) (setOnFinish isTry : Bool) :
    atomicWait { atom1 := atom, setOnFinish, isTry } atoms =
      if atoms atom then (atoms, if isTry then .tried false else .waits)
      else (if isTry || setOnFinish then update atoms atom true else atoms,
        if isTry then .tried true else .passes) := by
  cases isTry <;> cases setOnFinish <;> cases h : atoms atom <;>
    simp [atomicWait, setAtoms, h]

theorem checkWaiting_single (atoms : Atoms) (setOnFinish : Bool) :
    ({ atom1 := atom, setOnFinish } : WaiterAtomicWait).checkWaiting atoms =
      if atoms atom then (true, atoms)
      else (false, if setOnFinish then update atoms atom true else atoms) := by
  cases setOnFinish <;> cases h : atoms atom <;>
    simp [WaiterAtomicWait.checkWaiting, setAtoms, h]

theorem Inv.lock (h : Inv s) {data : SyscallAtomicLock} (hdata : data.atom2 = none) {number : Nat}
    (hlock : s.lock id data number = some s') : Inv s' := by
  obtain ⟨atom, atom2, setOnFinish, isTry⟩ := data
  obtain rfl : atom2 = none := hdata
  rw [AtomicTasking.lock, atomicWait_single] at hlock
  cases hatom : s.atoms atom with
  | true =>
    -- the atom is taken: a try fails, and a wait waits
    rw [hatom] at hlock
    cases isTry with
    | true =>
      cases hlock
      exact h
    | false =>
      obtain ⟨tasking, -, rfl⟩ := map_eq_some_iff.1 hlock
      exact h.tasking tasking
  | false =>
    rw [hatom] at hlock
    cases isTry with
    | true =>
      cases hlock
      exact h.acquire hatom s.tasking
    | false =>
      cases setOnFinish with
      | true =>
        cases hlock
        exact h.acquire hatom s.tasking
      | false =>
        cases hlock
        exact h

variable {checkWaiting : Tid → Option Waiter}

section

variable (hsingle : ∀ number waiter, waiterOf number = some waiter → waiter.atom2 = none)
  (h : Inv s)
include hsingle h

theorem Inv.checkWaitingState {thread : Thread}
    (hcheck : s.checkWaitingState waiterOf checkWaiting id thread = some s') : Inv s' := by
  rw [AtomicTasking.checkWaitingState] at hcheck
  split at hcheck
  next =>
    obtain ⟨tasking, -, rfl⟩ := map_eq_some_iff.1 hcheck
    exact h.tasking tasking
  next waiter hwaiter =>
    have hatom2 : waiter.atom2 = none := by
      cases hmanager : thread.waitManager with
      | none =>
        rw [hmanager] at hwaiter
        cases hwaiter
      | some w =>
        rw [hmanager] at hwaiter
        cases w with
        | performInterruption => cases hwaiter
        | other number => exact hsingle number waiter hwaiter
    obtain ⟨atom, atom2, setOnFinish⟩ := waiter
    obtain rfl : atom2 = none := hatom2
    rw [checkWaiting_single] at hcheck
    cases hatom : s.atoms atom with
    | true =>
      rw [hatom] at hcheck
      cases hcheck
      exact h
    | false =>
      rw [hatom] at hcheck
      obtain ⟨tasking, -, rfl⟩ := map_eq_some_iff.1 hcheck
      cases setOnFinish with
      | true => exact h.acquire hatom tasking
      | false => exact h.tasking tasking

theorem Inv.processWaitQueue {core : Nat} {fuel : Nat} {entry : Option Tid}
    (hloop : processWaitQueue waiterOf core checkWaiting fuel s entry = some s') : Inv s' := by
  induction fuel generalizing s entry with
  | zero =>
    cases entry with
    | none =>
      cases hloop
      exact h
    | some id => cases hloop
  | succ fuel ih =>
    cases entry with
    | none =>
      cases hloop
      exact h
    | some id =>
      obtain ⟨thread, -, hloop⟩ := bind_eq_some_iff.1 hloop
      obtain ⟨sched, -, hloop⟩ := bind_eq_some_iff.1 hloop
      split at hloop
      next tasking _ => exact ih (h.tasking tasking) hloop
      next tasking _ =>
        obtain ⟨s1, hcheck, hloop⟩ := bind_eq_some_iff.1 hloop
        exact ih ((h.tasking tasking).checkWaitingState hsingle hcheck) hloop

theorem Inv.schedule {core : Nat} (hschedule : s.schedule waiterOf core checkWaiting = some s') :
    Inv s' := by
  obtain ⟨sched, -, hschedule⟩ := bind_eq_some_iff.1 hschedule
  obtain ⟨s1, hloop, hschedule⟩ := bind_eq_some_iff.1 hschedule
  obtain ⟨⟨tasking, id⟩, -, hschedule⟩ := bind_eq_some_iff.1 hschedule
  cases hschedule
  exact (h.processWaitQueue hsingle hloop).tasking tasking

theorem Inv.step {a : AtomicEvent} (ha : SingleAtom s a) (hstep : s.step waiterOf a = some s') :
    Inv s' := by
  cases a with
  | lock id data number =>
    simp only [AtomicTasking.step] at hstep
    split at hstep
    next => exact h.lock ha hstep
    next => cases hstep
  | unlock id atom =>
    cases hstep
    exact h.unlock
  | schedule core checkWaiting => exact h.schedule hsingle hstep
  | other call =>
    simp only [AtomicTasking.step] at hstep
    split at hstep
    next =>
      obtain ⟨tasking, -, rfl⟩ := map_eq_some_iff.1 hstep
      exact h.tasking tasking
    next => cases hstep

end

/-- In every run in which the threads take single atoms, an atom is cleared between any two threads that
get it. A try, a wait that does not wait and a queued waiter get it exactly when it is clear, and leave
the same atoms. -/
theorem atomicWait_exclusive
    (hsingle : ∀ number waiter, waiterOf number = some waiter → waiter.atom2 = none)
    (hs : (system waiterOf).Reachable SingleAtom s) :
    (∀ atom, Separated (Acquires atom) (Releases atom) s.log) ∧
    ∀ (atom : Address) (atoms : Atoms),
      let tried := atomicWait { atom1 := atom, isTry := true } atoms
      let passed := atomicWait { atom1 := atom } atoms
      let checked := ({ atom1 := atom } : WaiterAtomicWait).checkWaiting atoms
      (tried.2 = .tried true ↔ atoms atom = false) ∧ (passed.2 = .passes ↔ atoms atom = false) ∧
      (checked.1 = false ↔ atoms atom = false) ∧ tried.1 = passed.1 ∧ passed.1 = checked.2 := by
  have hinv : Inv s := by
    refine System.Reachable.invariant (fun s hinit => ?_) (fun s a s' h ha hstep => ?_) hs
    · exact ⟨fun _ => hinit.1 ▸ separated_nil, fun _ _ => hinit.1 ▸ ended_nil⟩
    · exact h.step hsingle ha hstep
  refine ⟨hinv.separated, fun atom atoms => ?_⟩
  simp only [atomicWait_single, checkWaiting_single]
  cases atoms atom <;> simp

theorem atomicWait_exclusive_two : ∃ s : AtomicTasking,
    s.log = [.acquired 2 100, .released 2 100, .acquired 3 100] ∧
    Separated (Acquires 100) (Releases 100) s.log := by
  let waiterOf : Nat → Option WaiterAtomicWait := fun _ => some { atom1 := 100 }
  let events : List AtomicEvent := [.other (.add 0 1 .main .idle 1),
    .other (.add 0 2 .main .normal 2), .other (.add 0 3 .main .normal 3),
    .lock 2 { atom1 := 100, isTry := true } 0, .lock 3 { atom1 := 100 } 0,
    .schedule 0 fun _ => none, .unlock 2 100, .schedule 0 fun _ => none]
  obtain ⟨s, hs, hlog⟩ : ∃ s ∈ (system waiterOf).run { tasking := Tasking.initializeBsp 1 } events,
      s.log = [.acquired 2 100, .released 2 100, .acquired 3 100] := by
    decide
  have hinit : (system waiterOf).Reachable SingleAtom { tasking := Tasking.initializeBsp 1 } :=
    .init ⟨rfl, 1, rfl⟩
  have hreach := hinit.of_run (by simp [events, SingleAtom]) hs
  have hsingle : ∀ number waiter, waiterOf number = some waiter → waiter.atom2 = none := by
    intro _ _ h
    cases h
    rfl
  exact ⟨s, hlog, (atomicWait_exclusive hsingle hreach).1 100⟩

end AtomicTasking

end MeetixOS.Kernel
