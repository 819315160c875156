import MeetixOS.Kernel.Types

/-! # Threads and schedulers

`tasking/thread.cpp`, `tasking/scheduling/scheduler.cpp` and what they use of `tasking/tasking.cpp` and
`tasking/ThreadManager.cpp`. A process is named by the id of its main thread, and a task entry by its
thread, so a queue is a list of threads; a pointer to an entry is dangling if the thread is gone from
`threads`. `removeThreads` reads the `Process` object for each entry; `Removal` records that it was read
when it had been deleted with the main thread. -/

namespace MeetixOS.Kernel

/-! ## Data -/

inductive ThreadType
  | main
  | sub
  | vm86
  deriving DecidableEq, Repr

inductive ThreadPriority
  | normal
  | idle
  deriving DecidableEq, Repr

/-- A `Waiter`: the one that performs an interruption, or one of the others, by number. -/
inductive Waiter
  | performInterruption
  | other (number : Nat)
  deriving DecidableEq, Repr

/-- What a thread is interrupted for (`ThreadInterruptionInfoType` and its number). -/
inductive Interruption
  | irq (irq : Nat)
  | signal (signal : Int)
  deriving DecidableEq, Repr

/-- `ThreadInterruptionInfo`: the cause, and the waiter the thread had. -/
structure ThreadInterruptionInfo where
  cause : Interruption
  waitManager : Option Waiter
  deriving DecidableEq

/-- `Thread`, with its process named by the id of the main thread and its scheduler by the core. -/
structure Thread where
  type : ThreadType
  priority : ThreadPriority := .normal
  process : Pid
  alive : Bool := true
  scheduler : Option Nat := none
  waitManager : Option Waiter := none
  interruptionInfo : Option ThreadInterruptionInfo := none
  deriving DecidableEq

/-- `Scheduler`: the queues of one core. -/
structure Scheduler where
  runQueue : List Tid := []
  waitQueue : List Tid := []
  idleEntry : Option Tid := none
  currentEntry : Option Tid := none
  deriving DecidableEq

/-- The schedulers of all cores and the threads that have not been deleted. -/
structure Tasking where
  schedulers : List Scheduler
  threads : Tid → Option Thread

/-! ## Queues -/

namespace Scheduler

/-- The entries of a scheduler, in the order `removeThreads` walks over them. -/
def entries (s : Scheduler) : List Tid := s.runQueue ++ s.waitQueue

/-- `Scheduler::add`; an idle thread is not added to a queue. -/
def add (s : Scheduler) (thread : Tid) (priority : ThreadPriority) : Scheduler :=
  if priority = .idle then { s with idleEntry := some thread }
  else { s with runQueue := thread :: s.runQueue }

def moveToRunQueue (s : Scheduler) (thread : Tid) : Scheduler :=
  if thread ∈ s.waitQueue then
    { s with waitQueue := s.waitQueue.erase thread, runQueue := thread :: s.runQueue }
  else s

def moveToWaitQueue (s : Scheduler) (thread : Tid) : Scheduler :=
  if thread ∈ s.runQueue then
    { s with
      runQueue := s.runQueue.erase thread
      waitQueue := thread :: s.waitQueue
      currentEntry := if s.currentEntry = some thread then none else s.currentEntry }
  else s

def increaseWaitPriority (s : Scheduler) (thread : Tid) : Scheduler :=
  if thread ∈ s.waitQueue then { s with waitQueue := thread :: s.waitQueue.erase thread } else s

/-- `_removeFromQueue` on the run queue, or else on the wait queue. -/
def removeEntry (s : Scheduler) (thread : Tid) : Scheduler :=
  if thread ∈ s.runQueue then { s with runQueue := s.runQueue.erase thread }
  else { s with waitQueue := s.waitQueue.erase thread }

/-- The entry behind `thread` in a queue. -/
def nextIn : List Tid → Tid → Option Tid
  | [], _ => none
  | t :: ts, thread => if t = thread then ts.head? else nextIn ts thread

/-- `entry->next`: an entry is linked in one of the queues; the idle entry is in none. -/
def next (s : Scheduler) (thread : Tid) : Option Tid :=
  if thread ∈ s.waitQueue then nextIn s.waitQueue thread else nextIn s.runQueue thread

end Scheduler

namespace Tasking

/-- The entries of all cores. -/
def entries (s : Tasking) : List Tid := s.schedulers.flatMap Scheduler.entries

/-- Changes the scheduler of one core. -/
def modifyScheduler (s : Tasking) (core : Nat) (f : Scheduler → Scheduler) : Tasking :=
  { s with schedulers := s.schedulers.modify core f }

/-- Writes a thread object. -/
def setThread (s : Tasking) (id : Tid) (thread : Thread) : Tasking :=
  { s with threads := Function.update s.threads id (some thread) }

/-- Adds a new thread to the scheduler of a core. -/
def add (s : Tasking) (core : Nat) (id : Tid) (thread : Thread) : Tasking :=
  (s.setThread id { thread with scheduler := some core }).modifyScheduler core
    (·.add id thread.priority)

/-! ## Waiting -/

/-- `Thread::wait`; `none` is a null pointer (a thread that is gone or has no scheduler). -/
def wait (s : Tasking) (id : Tid) (newWaitManager : Option Waiter) : Option Tasking := do
  let thread ← s.threads id
  let s ← match thread.waitManager with
    | some _ => some s
    | none => thread.scheduler.map fun core => s.modifyScheduler core (·.moveToWaitQueue id)
  some (s.setThread id { thread with waitManager := newWaitManager })

/-- `Thread::unwait`. -/
def unwait (s : Tasking) (id : Tid) : Option Tasking := do
  let thread ← s.threads id
  match thread.waitManager with
  | none => some s
  | some _ =>
    let core ← thread.scheduler
    some ((s.setThread id { thread with waitManager := none }).modifyScheduler core
      (·.moveToRunQueue id))

/-- `enterIrqHandler` and `enterSignalHandler`: the waiter is put aside. A thread is not interrupted
twice. -/
def enterHandler (s : Tasking) (id : Tid) (cause : Interruption) : Option Tasking := do
  let thread ← s.threads id
  match thread.interruptionInfo with
  | some _ => some s
  | none =>
    let info : ThreadInterruptionInfo := { cause, waitManager := thread.waitManager }
    (s.setThread id { thread with interruptionInfo := some info, waitManager := none }).wait id
      (some .performInterruption)

/-- `Thread::enterIrqHandler`. -/
def enterIrqHandler (s : Tasking) (id : Tid) (irq : Nat) : Option Tasking :=
  s.enterHandler id (.irq irq)

/-- `Thread::enterSignalHandler`. -/
def enterSignalHandler (s : Tasking) (id : Tid) (signal : Int) : Option Tasking :=
  s.enterHandler id (.signal signal)

/-- `Thread::restoreInterruptedState`: the waiter from before is set again, whatever it was. -/
def restoreInterruptedState (s : Tasking) (id : Tid) : Option Tasking := do
  let thread ← s.threads id
  let info ← thread.interruptionInfo
  let s ← s.wait id info.waitManager
  let thread ← s.threads id
  some (s.setThread id { thread with interruptionInfo := none })

end Tasking

/-! ## Removing the threads of a process -/

/-- A walk of `Tasking::removeThreads`: the state, the threads deleted so far, whether the `Process`
object is deleted, and whether it was read after that. -/
structure Removal where
  tasking : Tasking
  deleted : List Tid := []
  processDeleted : Bool := false
  readDeleted : Bool := false

namespace Removal

/-- `ThreadManager::deleteTask`; deleting a main thread deletes its process. -/
def deleteTask (r : Removal) (id : Tid) (thread : Thread) : Removal :=
  { r with
    tasking := { r.tasking with threads := Function.update r.tasking.threads id none }
    deleted := r.deleted ++ [id]
    processDeleted := r.processDeleted || thread.type = .main }

/-- `Scheduler::_remove`: a thread that is in no queue is not deleted. -/
def remove (r : Removal) (core : Nat) (id : Tid) (thread : Thread) : Removal :=
  match r.tasking.schedulers[core]? with
  | none => r
  | some sched =>
    if id ∈ sched.runQueue ∨ id ∈ sched.waitQueue then
      let tasking := r.tasking.modifyScheduler core (·.removeEntry id)
      ({ r with tasking } : Removal).deleteTask id thread
    else r

/-- One step of the loops in `Scheduler::removeThreads`: the id of the process' main thread is read for
every entry, and the entries of the process are removed. -/
def visit (core : Nat) (process : Pid) (r : Removal) (id : Tid) : Removal :=
  let r := { r with readDeleted := r.readDeleted || r.processDeleted }
  match r.tasking.threads id with
  | none => r
  | some thread => if thread.process = process then r.remove core id thread else r

/-- `Scheduler::removeThreads`. An entry is linked only once, so each loop visits the queue as it
was. -/
def removeThreads (r : Removal) (core : Nat) (process : Pid) : Removal :=
  match r.tasking.schedulers[core]? with
  | none => r
  | some sched =>
    let r := sched.runQueue.foldl (visit core process) r
    match r.tasking.schedulers[core]? with
    | none => r
    | some sched => sched.waitQueue.foldl (visit core process) r

end Removal

/-- `Tasking::removeThreads`, over the schedulers of all cores. -/
def Tasking.removeThreads (s : Tasking) (process : Pid) : Removal :=
  (List.range s.schedulers.length).foldl (fun r core => r.removeThreads core process)
    { tasking := s }

end MeetixOS.Kernel
