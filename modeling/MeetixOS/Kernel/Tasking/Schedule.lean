import MeetixOS.Lib.Runs
import MeetixOS.Kernel.Tasking.Tasking

/-! # Scheduling

`Scheduler::schedule` with its loops, and the system of all operations that change the queues or the
waiters. A pointer to an entry is followed as the source does: the next entry is saved before the current
one is checked, and looked up when its turn comes. An entry whose thread is gone is `deletedEntry`.

`checkWaiting` is the rest of the kernel: the waiter that a thread has after a check, or `none` to wake it. -/

namespace MeetixOS.Kernel

open MeetixOS.Lib

/-- How `schedule` can fail to select a thread: it follows a deleted entry, it panics, or its loop does
not end. -/
inductive ScheduleFault
  | deletedEntry (thread : Tid)
  | noScheduler
  | noIdleThread
  | waitingInRunQueue (thread : Tid)
  | endless
  deriving DecidableEq, Repr

/-- The start of the run queue, or the idle entry if there is none. -/
def Scheduler.first (s : Scheduler) : Except ScheduleFault Tid :=
  match s.runQueue.head?, s.idleEntry with
  | some id, _ => .ok id
  | none, some id => .ok id
  | none, none => .error .noIdleThread

namespace Tasking

/-- `Scheduler::_checkAliveState`: a dead thread is removed, and with a main thread all threads of its
process. -/
def checkAliveState (s : Tasking) (core : Nat) (id : Tid) (thread : Thread) : Tasking × Bool :=
  if thread.alive then (s, true)
  else if thread.type = .main then ((s.removeThreads thread.process).tasking, false)
  else ((({ tasking := s } : Removal).remove core id thread).tasking, false)

/-- `Scheduler::_checkWaitingState`. The waiter that performs the interruption never waits. -/
def checkWaitingState (s : Tasking) (checkWaiting : Tid → Option Waiter) (id : Tid)
    (thread : Thread) : Option Tasking :=
  match thread.waitManager with
  | none => some s
  | some .performInterruption => s.unwait id
  | some (.other _) =>
    match checkWaiting id with
    | none => s.unwait id
    | some waiter => s.wait id (some waiter)

/-- The loop of `Scheduler::_processWaitQueue`, at the entry `entry`. -/
def processWaitQueue (core : Nat) (checkWaiting : Tid → Option Waiter) :
    Nat → Tasking → Option Tid → Except ScheduleFault Tasking
  | _, s, none => .ok s
  | 0, _, some _ => .error .endless
  | fuel + 1, s, some id =>
    match s.threads id, s.schedulers[core]? with
    | some thread, some sched =>
      let next := sched.next id
      match s.checkAliveState core id thread with
      | (s, false) => processWaitQueue core checkWaiting fuel s next
      | (s, true) =>
        match s.checkWaitingState checkWaiting id thread with
        | none => .error .noScheduler
        | some s => processWaitQueue core checkWaiting fuel s next
    | none, _ => .error (.deletedEntry id)
    | _, none => .error .noScheduler

/-- The entry the selecting loop turns to when it comes from `entry`: the next one in the run queue, or
else the first. -/
def candidate (s : Tasking) (sched : Scheduler) (entry : Option Tid) :
    Except ScheduleFault Tid :=
  match entry with
  | none => sched.first
  | some id =>
    match s.threads id, sched.next id with
    | none, _ => .error (.deletedEntry id)
    | some _, some next => .ok next
    | some _, none => sched.first

/-- The thread is what the core runs. -/
def setCurrentEntry (s : Tasking) (core : Nat) (id : Tid) : Tasking :=
  s.modifyScheduler core fun sched => { sched with currentEntry := some id }

/-- The loop of `Scheduler::schedule` that selects the next thread. -/
def select (core : Nat) : Nat → Tasking → Option Tid → Except ScheduleFault (Tasking × Tid)
  | 0, _, _ => .error .endless
  | fuel + 1, s, entry =>
    match s.schedulers[core]? with
    | none => .error .noScheduler
    | some sched =>
      match s.candidate sched entry with
      | .error fault => .error fault
      | .ok id =>
        match s.threads id with
        | none => .error (.deletedEntry id)
        | some thread =>
          if thread.waitManager.isSome then .error (.waitingInRunQueue id)
          else
            match s.checkAliveState core id thread with
            | (s, false) => select core fuel s none
            | (s, true) => .ok (s.setCurrentEntry core id, id)

/-- `Scheduler::schedule`. The walk over the wait queue overwrites `currentEntry`, but it is set back
afterwards. Each round takes an entry from its queue, so its length is enough fuel, unless a dead idle
thread is selected. -/
def schedule (s : Tasking) (core : Nat) (checkWaiting : Tid → Option Waiter) :
    Except ScheduleFault (Tasking × Tid) :=
  match s.schedulers[core]? with
  | none => .error .noScheduler
  | some sched =>
    match processWaitQueue core checkWaiting sched.waitQueue.length s sched.waitQueue.head? with
    | .error fault => .error fault
    | .ok s => select core (s.entries.length + 1) s sched.currentEntry

end Tasking

/-! ## The system -/

/-- The operations on threads and queues, with the threads and cores they are called for. -/
inductive TaskingCall
  | add (core : Nat) (id : Tid) (type : ThreadType) (priority : ThreadPriority) (process : Pid)
  | wait (id : Tid) (waiter : Nat)
  | unwait (id : Tid)
  | kill (id : Tid)
  | enterIrqHandler (id : Tid) (irq : Nat)
  | enterSignalHandler (id : Tid) (signal : Int)
  | restoreInterruptedState (id : Tid)
  | increaseWaitPriority (core : Nat) (id : Tid)
  | schedule (core : Nat) (checkWaiting : Tid → Option Waiter)

namespace Tasking

/-- Before the first thread is added. -/
def initializeBsp (cores : Nat) : Tasking :=
  { schedulers := List.replicate cores {}, threads := fun _ => none }

/-- `thread->alive = false`, as the kill and exit calls and the default signal handling do it. -/
def kill (s : Tasking) (id : Tid) : Option Tasking :=
  (s.threads id).map fun thread => s.setThread id { thread with alive := false }

/-- Runs a call; `none` if it does not come to an end. A thread is added once, when it is new. -/
def call (s : Tasking) : TaskingCall → Option Tasking
  | .add core id type priority process =>
    if core < s.schedulers.length ∧ s.threads id = none then
      some (s.add core id { type, priority, process })
    else none
  | .wait id waiter => s.wait id (some (.other waiter))
  | .unwait id => s.unwait id
  | .kill id => s.kill id
  | .enterIrqHandler id irq => s.enterIrqHandler id irq
  | .enterSignalHandler id signal => s.enterSignalHandler id signal
  | .restoreInterruptedState id => s.restoreInterruptedState id
  | .increaseWaitPriority core id => some (s.modifyScheduler core (·.increaseWaitPriority id))
  | .schedule core checkWaiting => (s.schedule core checkWaiting).toOption.map Prod.fst

end Tasking

/-- The operations in any order. -/
def taskingCalls : System Tasking TaskingCall where
  init s := ∃ cores, s = Tasking.initializeBsp cores
  step := Tasking.call

end MeetixOS.Kernel
