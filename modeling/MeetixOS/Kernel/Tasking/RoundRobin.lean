import Mathlib.Data.List.Rotate
import MeetixOS.Kernel.Tasking.Selection

/-! # Scheduling in turn

With an empty wait queue and a run queue of threads that are alive, each `schedule` selects the entry
behind the current one, or the first entry behind the last one. So as many calls as there are threads
select each of them once (`schedule_in_turn`). -/

namespace MeetixOS.Kernel

open MeetixOS.Lib

namespace Tasking

variable {s s' : Tasking}

/-! ## Run queues -/

/-- The queues are linked, and no thread in a run queue waits. -/
structure RunInv (s : Tasking) : Prop extends s.Linked where
  ready : ∀ {core : Nat} {id : Tid} {thread : Thread}, s.RunsOn core id →
    s.threads id = some thread → thread.waitManager = none

theorem RunInv.of_runs (hs : s.RunInv) (hlinked : s'.Linked)
    (hruns : ∀ core id thread, s'.RunsOn core id → s'.threads id = some thread →
      thread.waitManager = none ∨ s.RunsOn core id ∧ s.threads id = some thread) : s'.RunInv where
  toLinked := hlinked
  ready {core id thread} hrun hthread := by
    rcases hruns core id thread hrun hthread with hnone | ⟨hrun0, hthread0⟩
    · exact hnone
    · exact hs.ready hrun0 hthread0

variable {id : Tid} {thread thread' : Thread} {entry : Option Tid}
  {checkWaiting : Tid → Option Waiter} {ids : List Tid}

variable {core j : Nat}

theorem runsOn_modifyScheduler_cases {f : Scheduler → Scheduler}
    (h : (s.modifyScheduler core f).RunsOn j id) :
    s.RunsOn j id ∨ core = j ∧ ∃ sched, s.schedulers[j]? = some sched ∧ id ∉ sched.runQueue ∧
      id ∈ (f sched).runQueue := by
  obtain ⟨sched', hsched', hmem⟩ := h
  obtain ⟨sched, hsched, rfl⟩ := Option.map_eq_some_iff.1 (getElem?_modifyScheduler.symm.trans hsched')
  by_cases hold : id ∈ sched.runQueue
  · exact .inl ⟨sched, hsched, hold⟩
  · split at hmem
    next hj => exact .inr ⟨hj, sched, hsched, hold, hmem⟩
    next => exact absurd hmem hold

theorem runsOn_moveToWaitQueue {id t : Tid}
    (h : (s.modifyScheduler core (·.moveToWaitQueue id)).RunsOn j t) : s.RunsOn j t := by
  rcases runsOn_modifyScheduler_cases h with hold | ⟨-, sched, -, hnot, hmem⟩
  · exact hold
  · unfold Scheduler.moveToWaitQueue at hmem
    split at hmem
    · exact absurd (List.mem_of_mem_erase hmem) hnot
    · exact absurd hmem hnot

theorem Linked.not_runsOn_moveToWaitQueue (hs : s.Linked)
    (hthread : s.threads id = some thread) (hcore : thread.scheduler = some core) :
    ¬ (s.modifyScheduler core (·.moveToWaitQueue id)).RunsOn j id := by
  intro h
  obtain ⟨sched0, hsched0, hmem0⟩ := runsOn_moveToWaitQueue h
  obtain ⟨u, hu, -, hj⟩ := hs.queued ⟨sched0, hsched0, List.mem_append_left _ hmem0⟩
  obtain rfl := Option.mem_unique hthread hu
  obtain rfl := Option.mem_unique hcore hj
  obtain ⟨sched', hsched', hmem⟩ := h
  rw [getElem?_modifyScheduler, hsched0, Option.map_some, if_pos rfl] at hsched'
  obtain rfl := Option.some.inj hsched'
  have hnodup : sched0.runQueue.Nodup := (List.nodup_append.1 (hs.entries_nodup hsched0)).1
  rw [Scheduler.moveToWaitQueue, if_pos hmem0] at hmem
  exact hnodup.not_mem_erase hmem

theorem runsOn_moveToRunQueue {id t : Tid}
    (h : (s.modifyScheduler core (·.moveToRunQueue id)).RunsOn j t) : s.RunsOn j t ∨ t = id := by
  rcases runsOn_modifyScheduler_cases h with hold | ⟨-, sched, -, hnot, hmem⟩
  · exact .inl hold
  · unfold Scheduler.moveToRunQueue at hmem
    split at hmem
    · exact .inr ((List.mem_cons.1 hmem).resolve_right hnot)
    · exact absurd hmem hnot

variable {core : Nat}

theorem runsOn_purge {dead : List Tid} (h : (s.purge dead).RunsOn core id) :
    s.RunsOn core id ∧ id ∉ dead := by
  obtain ⟨sched', hsched', hmem⟩ := h
  rw [Tasking.purge, List.getElem?_map] at hsched'
  obtain ⟨sched, hsched, rfl⟩ := Option.map_eq_some_iff.1 hsched'
  obtain ⟨hrun, hnot⟩ := List.mem_filter.1 hmem
  exact ⟨⟨sched, hsched, hrun⟩, of_decide_eq_true hnot⟩

section

variable (hs : s.RunInv) (hthread : s.threads id = some thread)
include hs hthread

theorem RunInv.setThread (hpriority : thread'.priority = thread.priority)
    (hscheduler : thread'.scheduler = thread.scheduler)
    (hready : thread'.waitManager = none ∨ thread'.waitManager = thread.waitManager ∨ ∀ core,
      ¬ s.RunsOn core id) :
    (s.setThread id thread').RunInv := by
  refine hs.of_runs (hs.toLinked.setThread hthread hpriority hscheduler) ?_
  intro core t u hrun hu
  by_cases ht : t = id
  · subst ht
    obtain rfl := Option.mem_unique hu threads_setThread_self
    rcases hready with hnone | hsame | hnot
    · exact .inl hnone
    · exact .inl (hsame.trans (hs.ready hrun hthread))
    · exact absurd hrun (hnot core)
  · exact .inr ⟨hrun, (threads_setThread_of_ne ht).symm.trans hu⟩

theorem RunInv.moveToWaitQueue (hcore : thread.scheduler = some core)
    (hpriority : thread'.priority = thread.priority)
    (hscheduler : thread'.scheduler = thread.scheduler) :
    ((s.modifyScheduler core (·.moveToWaitQueue id)).setThread id thread').RunInv := by
  have hmoved := hs.of_runs (hs.toLinked.moveToWaitQueue core id) fun j t u hrun hu =>
      .inr ⟨runsOn_moveToWaitQueue hrun, hu⟩
  exact hmoved.setThread hthread hpriority hscheduler
    (.inr (.inr fun j => hs.toLinked.not_runsOn_moveToWaitQueue hthread hcore))

theorem RunInv.moveToRunQueue (hpriority : thread'.priority = thread.priority)
    (hscheduler : thread'.scheduler = thread.scheduler) (hnone : thread'.waitManager = none) :
    ((s.modifyScheduler core (·.moveToRunQueue id)).setThread id thread').RunInv := by
  refine hs.of_runs ((hs.toLinked.moveToRunQueue core id).setThread hthread hpriority hscheduler) ?_
  intro j t u hrun hu
  by_cases ht : t = id
  · subst ht
    obtain rfl := Option.mem_unique hu threads_setThread_self
    exact .inl hnone
  · exact .inr ⟨(runsOn_moveToRunQueue hrun).resolve_right ht, (threads_setThread_of_ne ht).symm.trans hu⟩

end

section

variable (hs : s.RunInv)
include hs

theorem RunInv.purge {dead : List Tid} (hdead : ∀ id ∈ dead, id ∈ s.entries) :
    (s.purge dead).RunInv := by
  refine hs.of_runs (hs.toLinked.purge hdead) fun core id thread hrun hthread => ?_
  obtain ⟨hrun0, hnot⟩ := runsOn_purge hrun
  exact .inr ⟨hrun0, (if_neg hnot).symm.trans hthread⟩

theorem RunInv.setCurrentEntry (core : Nat) (id : Tid) : (s.setCurrentEntry core id).RunInv :=
  hs.of_runs (hs.toLinked.setCurrentEntry core id) fun _ _ _ hrun hthread =>
    .inr ⟨runsOn_setCurrentEntry.1 hrun, hthread⟩

theorem RunInv.wait {waiter : Option Waiter} (h : s.wait id waiter = some s') : s'.RunInv := by
  obtain ⟨thread, hthread, ⟨hsome, rfl⟩ | ⟨-, core, hcore, rfl⟩⟩ := wait_cases h
  · refine hs.setThread hthread rfl rfl (.inr (.inr fun core hrun => ?_))
    rw [hs.ready hrun hthread] at hsome
    cases hsome
  · exact hs.moveToWaitQueue hthread hcore rfl rfl

theorem RunInv.unwait (h : s.unwait id = some s') : s'.RunInv := by
  obtain ⟨thread, hthread, ⟨-, rfl⟩ | ⟨-, core, -, rfl⟩⟩ := unwait_cases h
  · exact hs
  · exact hs.moveToRunQueue hthread rfl rfl rfl

theorem RunInv.enterHandler {cause : Interruption} (h : s.enterHandler id cause = some s') :
    s'.RunInv := by
  obtain ⟨thread, hthread, ⟨-, rfl⟩ | ⟨-, core, hcore, rfl⟩⟩ := enterHandler_cases h
  · exact hs
  · exact hs.moveToWaitQueue hthread hcore rfl rfl

theorem RunInv.restoreInterruptedState (h : s.restoreInterruptedState id = some s') :
    s'.RunInv := by
  obtain ⟨thread, info, s1, hthread, -, hs1, rfl⟩ := restoreInterruptedState_cases h
  exact (hs.wait hs1).setThread (threads_wait hthread hs1) rfl rfl (.inr (.inl rfl))

theorem RunInv.add (hcore : core < s.schedulers.length) (hnew : s.threads id = none)
    (hnone : thread.waitManager = none) : (s.add core id thread).RunInv := by
  refine hs.of_runs (hs.toLinked.add hcore hnew) fun j t u hrun hu => ?_
  by_cases ht : t = id
  · subst ht
    obtain rfl := Option.mem_unique hu threads_setThread_self
    exact .inl hnone
  · refine .inr ⟨?_, (threads_setThread_of_ne ht).symm.trans hu⟩
    rcases runsOn_modifyScheduler_cases hrun with hold | ⟨-, sched, -, hnot, hmem⟩
    · exact hold
    · unfold Scheduler.add at hmem
      split at hmem
      · exact absurd hmem hnot
      · exact absurd ((List.mem_cons.1 hmem).resolve_left ht) hnot

end

/-- The loop turns to the idle entry only where the run queue is empty. -/
theorem Linked.empty_of_idle (hs : s.Linked) {sched : Scheduler}
    (hsched : s.schedulers[core]? = some sched) (hcandidate : s.candidate sched entry = .ok id)
    (hidle : sched.idleEntry = some id) : sched.runQueue = [] := by
  obtain ⟨idle, hthread, hpriority⟩ := hs.idle hsched hidle
  have hnot : id ∉ sched.entries := by
    intro hmem
    obtain ⟨u, hu, hne, -⟩ := hs.queued ⟨sched, hsched, hmem⟩
    obtain rfl := Option.mem_unique hthread hu
    exact hne hpriority
  have hfirst : sched.first = .ok id → sched.runQueue = [] := fun h =>
    (first_cases h).elim (fun hrun => absurd (List.mem_append_left _ hrun) hnot) And.left
  unfold candidate at hcandidate
  split at hcandidate
  next => exact hfirst hcandidate
  next t =>
    split at hcandidate
    next => cases hcandidate
    next next _ hnext =>
      obtain rfl := Except.ok.inj hcandidate
      unfold Scheduler.next at hnext
      split at hnext
      · exact absurd (List.mem_append_right _ (mem_of_nextIn hnext)) hnot
      · exact absurd (List.mem_append_left _ (mem_of_nextIn hnext)) hnot
    next => exact hfirst hcandidate

/-! ### Every call keeps it -/

section

variable (hs : s.RunInv)
include hs

theorem RunInv.checkWaitingState (hthread : s.threads id = some thread)
    (h : s.checkWaitingState checkWaiting id thread = some s') : s'.RunInv := by
  rcases checkWaitingState_cases hthread h with rfl | ⟨hsome, waiter, rfl⟩ | ⟨-, core, -, rfl⟩
  · exact hs
  · refine hs.setThread hthread rfl rfl (.inr (.inr fun core hrun => ?_))
    rw [hs.ready hrun hthread] at hsome
    cases hsome
  · exact hs.moveToRunQueue hthread rfl rfl rfl

theorem RunInv.processWaitQueue {core fuel : Nat}
    (h : processWaitQueue core checkWaiting fuel s entry = .ok s') : s'.RunInv := by
  induction fuel generalizing s entry with
  | zero =>
    cases entry with
    | none => exact Except.ok.inj h ▸ hs
    | some id => cases h
  | succ fuel ih =>
    cases entry with
    | none => exact Except.ok.inj h ▸ hs
    | some id =>
      unfold Tasking.processWaitQueue at h
      split at h
      next thread sched hthread hsched =>
        rcases checkAliveState_cases hs.toLinked core id thread with
          ⟨-, heq⟩ | ⟨-, dead, heq, hdead, -⟩
        · simp only [heq] at h
          split at h
          next => cases h
          next s1 hs1 => exact ih (hs.checkWaitingState hthread hs1) h
        · simp only [heq] at h
          exact ih (hs.purge hdead) h
      next => cases h
      next => cases h

theorem RunInv.select {core fuel : Nat} (h : select core fuel s entry = .ok (s', id)) :
    s'.RunInv ∧ ∀ sched, s'.schedulers[core]? = some sched → sched.idleEntry = some id →
      sched.runQueue = [] := by
  induction fuel generalizing s entry with
  | zero => cases h
  | succ fuel ih =>
    unfold Tasking.select at h
    split at h
    next => cases h
    next sched hsched =>
      split at h
      next => cases h
      next t hcandidate =>
        split at h
        next => cases h
        next thread hthread =>
          split at h
          next => cases h
          next =>
            rcases checkAliveState_cases hs.toLinked core t thread with
              ⟨-, heq⟩ | ⟨-, dead, heq, hdead, -⟩
            · simp only [heq] at h
              obtain ⟨rfl, rfl⟩ := Prod.mk.inj (Except.ok.inj h)
              refine ⟨hs.setCurrentEntry core t, fun sched' hsched' hidle => ?_⟩
              rw [Tasking.setCurrentEntry, getElem?_modifyScheduler, hsched, Option.map_some,
                if_pos rfl] at hsched'
              obtain rfl := Option.some.inj hsched'
              show sched.runQueue = []
              exact hs.toLinked.empty_of_idle hsched hcandidate hidle
            · simp only [heq] at h
              exact ih (hs.purge hdead) h

theorem RunInv.schedule (h : s.schedule core checkWaiting = .ok (s', id)) :
    s'.RunInv ∧ ∀ sched, s'.schedulers[core]? = some sched → sched.idleEntry = some id →
      sched.runQueue = [] := by
  unfold Tasking.schedule at h
  split at h
  next => cases h
  next sched hsched =>
    split at h
    next => cases h
    next s1 hwalk => exact (hs.processWaitQueue hwalk).select h

theorem RunInv.call {call : TaskingCall} (h : s.call call = some s') : s'.RunInv := by
  cases call with
  | add core id type priority process =>
    simp only [Tasking.call] at h
    split at h
    next hnew =>
      obtain rfl := Option.some.inj h
      exact hs.add hnew.1 hnew.2 rfl
    next => cases h
  | wait id waiter => exact hs.wait h
  | unwait id => exact hs.unwait h
  | kill id =>
    obtain ⟨thread, hthread, rfl⟩ := Option.map_eq_some_iff.1 h
    exact hs.setThread hthread rfl rfl (.inr (.inl rfl))
  | enterIrqHandler id irq | enterSignalHandler id signal => exact hs.enterHandler h
  | restoreInterruptedState id => exact hs.restoreInterruptedState h
  | increaseWaitPriority core id =>
    obtain rfl := Option.some.inj h
    refine hs.of_runs (hs.toLinked.increaseWaitPriority core id) fun j t u hrun hu => ?_
    rcases runsOn_modifyScheduler_cases hrun with hold | ⟨-, sched, -, hnot, hmem⟩
    · exact .inr ⟨hold, hu⟩
    · unfold Scheduler.increaseWaitPriority at hmem
      split at hmem
      · exact absurd hmem hnot
      · exact absurd hmem hnot
  | schedule core checkWaiting =>
    obtain ⟨id, hschedule⟩ := call_schedule h
    exact (hs.schedule hschedule).1

end

theorem runInv_initializeBsp (cores : Nat) : (initializeBsp cores).RunInv where
  toLinked := (queueInv_initializeBsp cores).toLinked
  ready {core id thread} _ hthread := by cases hthread

theorem reachable_runInv (hs : taskingCalls.Reachable (fun _ _ => True) s) : s.RunInv := by
  refine hs.invariant ?_ ?_
  · rintro s ⟨cores, rfl⟩
    exact runInv_initializeBsp cores
  · intro s call s' hinv _ hstep
    exact hinv.call hstep

/-! ## Turns -/

/-- So many calls of `schedule`, with the threads that they select. -/
def scheduleTimes (core : Nat) (checkWaiting : Tid → Option Waiter) :
    Nat → Tasking → Except ScheduleFault (Tasking × List Tid)
  | 0, s => .ok (s, [])
  | n + 1, s => do
      let (s, id) ← s.schedule core checkWaiting
      let (s, ids) ← scheduleTimes core checkWaiting n s
      .ok (s, id :: ids)

theorem scheduleTimes_add {core m n : Nat} {s1 s2 : Tasking}
    {ids ids' : List Tid} (hfirst : scheduleTimes core checkWaiting m s = .ok (s1, ids))
    (hrest : scheduleTimes core checkWaiting n s1 = .ok (s2, ids')) :
    scheduleTimes core checkWaiting (m + n) s = .ok (s2, ids ++ ids') := by
  induction m generalizing s ids with
  | zero =>
    cases hfirst
    rw [Nat.zero_add]
    exact hrest
  | succ m ih =>
    rw [Nat.succ_add]
    unfold scheduleTimes at hfirst ⊢
    cases hschedule : s.schedule core checkWaiting with
    | error fault =>
      rw [hschedule] at hfirst
      cases hfirst
    | ok r =>
      rw [hschedule] at hfirst
      dsimp only [bind, Except.bind] at hfirst ⊢
      cases htimes : scheduleTimes core checkWaiting m r.1 with
      | error fault =>
        rw [htimes] at hfirst
        cases hfirst
      | ok r' =>
        rw [htimes] at hfirst
        cases hfirst
        rw [ih htimes]
        rfl

theorem scheduleTimes_succ {core n : Nat} {s1 s2 : Tasking}
    (hfirst : s.schedule core checkWaiting = .ok (s1, id))
    (hrest : scheduleTimes core checkWaiting n s1 = .ok (s2, ids)) :
    scheduleTimes core checkWaiting (n + 1) s = .ok (s2, id :: ids) := by
  unfold scheduleTimes
  rw [hfirst]
  dsimp only [bind, Except.bind]
  rw [hrest]

/-- The wait queue of the core is empty, and the threads of its run queue are alive and do not wait. -/
structure InTurn (s : Tasking) (core : Nat) (queue : List Tid) : Prop where
  scheduler : ∃ sched, s.schedulers[core]? = some sched ∧ sched.runQueue = queue ∧
    sched.waitQueue = []
  alive : ∀ t ∈ queue, ∃ thread, s.threads t = some thread ∧ thread.alive = true ∧
    thread.waitManager = none
  nodup : queue.Nodup

variable {core : Nat} {queue : List Tid}

theorem InTurn.setCurrentEntry (h : s.InTurn core queue) (id : Tid) :
    (s.setCurrentEntry core id).InTurn core queue where
  scheduler := by
    obtain ⟨sched, hsched, hrun, hwait⟩ := h.scheduler
    refine ⟨{ sched with currentEntry := some id }, ?_, hrun, hwait⟩
    exact getElem?_modifyScheduler.trans (by rw [hsched, Option.map_some, if_pos rfl])
  alive := h.alive
  nodup := h.nodup

theorem InTurn.current_setCurrentEntry (h : s.InTurn core queue) (id : Tid) :
    (s.setCurrentEntry core id).current core = some id := by
  obtain ⟨sched, hsched, -⟩ := h.scheduler
  rw [Tasking.current_setCurrentEntry, if_pos rfl, hsched, Option.map_some]

theorem InTurn.schedule (h : s.InTurn core queue) (checkWaiting : Tid → Option Waiter) {entry : Tid}
    (hcurrent : s.current core = some entry) {before behind : List Tid}
    (hqueue : queue = before ++ entry :: behind) (hnext : (behind ++ queue).head? = some id) :
    s.schedule core checkWaiting = .ok (s.setCurrentEntry core id, id) := by
  obtain ⟨sched, hsched, hrun, hwait⟩ := h.scheduler
  have hentry : sched.currentEntry = some entry := by
    rwa [current, hsched, Option.bind_some] at hcurrent
  have hmem : id ∈ queue := by
    rcases List.mem_append.1 (List.mem_of_mem_head? hnext) with hbehind | hmem
    · rw [hqueue]
      exact List.mem_append_right _ (List.mem_cons_of_mem _ hbehind)
    · exact hmem
  have hnot : entry ∉ before := by
    intro hbefore
    have hnodup := h.nodup
    rw [hqueue] at hnodup
    exact (List.nodup_append.1 hnodup).2.2 entry hbefore entry List.mem_cons_self rfl
  have hlink : sched.next entry = behind.head? := by
    rw [Scheduler.next, hwait, if_neg List.not_mem_nil, hrun, hqueue, nextIn_append hnot]
  obtain ⟨current, hthread, -⟩ := h.alive entry (by
    rw [hqueue]
    exact List.mem_append_right _ List.mem_cons_self)
  obtain ⟨thread, hfound, halive, hready⟩ := h.alive id hmem
  have hcandidate : s.candidate sched (some entry) = .ok id := by
    cases behind with
    | nil =>
      have hfirst : sched.runQueue.head? = some id := by rw [hrun]; exact hnext
      simp [candidate, hthread, hlink, List.head?_nil, Scheduler.first, hfirst]
    | cons first rest =>
      obtain rfl : first = id := Option.some.inj hnext
      simp [candidate, hthread, hlink]
  have hwalk : processWaitQueue core checkWaiting sched.waitQueue.length s sched.waitQueue.head? =
      .ok s := by rw [hwait]; rfl
  unfold Tasking.schedule
  simp only [hsched, hwalk, hentry]
  rw [Tasking.select, hsched]
  simp [hcandidate, hfound, hready, checkAliveState, halive]

theorem schedulers_setCurrentEntry (s : Tasking) (core : Nat) (id : Tid) (j : Nat) :
    (s.setCurrentEntry core id).schedulers[j]? = (s.schedulers[j]?).map fun sched =>
      if core = j then { sched with currentEntry := some id } else sched :=
  getElem?_modifyScheduler

theorem setCurrentEntry_setCurrentEntry (s : Tasking) (core : Nat) (a b : Tid) :
    (s.setCurrentEntry core a).setCurrentEntry core b = s.setCurrentEntry core b := by
  have hschedulers : ((s.setCurrentEntry core a).setCurrentEntry core b).schedulers =
      (s.setCurrentEntry core b).schedulers := by
    refine List.ext_getElem? fun j => ?_
    rw [schedulers_setCurrentEntry, schedulers_setCurrentEntry, schedulers_setCurrentEntry, Option.map_map]
    congr 1
    funext sched
    by_cases hj : core = j <;> simp [hj]
  exact congrArg (fun schedulers => ({ s with schedulers } : Tasking)) hschedulers

theorem setCurrentEntry_current (h : s.current core = some id) : s.setCurrentEntry core id = s := by
  have hschedulers : (s.setCurrentEntry core id).schedulers = s.schedulers := by
    refine List.ext_getElem? fun j => ?_
    rw [schedulers_setCurrentEntry]
    cases hsched : s.schedulers[j]? with
    | none => rfl
    | some sched =>
      rw [Option.map_some]
      split
      next hj =>
        subst hj
        rw [current, hsched, Option.bind_some] at h
        rw [← h]
      next => rfl
  exact congrArg (fun schedulers => ({ s with schedulers } : Tasking)) hschedulers

section

variable {entry : Tid} (h : s.InTurn core queue) (checkWaiting : Tid → Option Waiter)
  (hcurrent : s.current core = some entry)
include h hcurrent

theorem InTurn.walk {before ids rest : List Tid} (hqueue : queue = before ++ entry :: (ids ++ rest)) :
    scheduleTimes core checkWaiting ids.length s =
      .ok (s.setCurrentEntry core ((entry :: ids).getLast (List.cons_ne_nil _ _)), ids) := by
  induction ids generalizing s before entry with
  | nil =>
    rw [List.getLast_singleton, setCurrentEntry_current hcurrent]
    rfl
  | cons id ids ih =>
    have hbehind : queue = (before ++ [entry]) ++ id :: (ids ++ rest) := by
      rw [hqueue, List.append_assoc, List.singleton_append, List.cons_append]
    have hrest := ih (h.setCurrentEntry id) (h.current_setCurrentEntry id) hbehind
    rw [setCurrentEntry_setCurrentEntry] at hrest
    exact scheduleTimes_succ (h.schedule checkWaiting hcurrent hqueue rfl) hrest

/-- As many calls as there are threads select those behind the current one, then the others, and end
where they began. -/
theorem InTurn.round {before behind : List Tid} (hqueue : queue = before ++ entry :: behind) :
    scheduleTimes core checkWaiting queue.length s = .ok (s, behind ++ (before ++ [entry])) := by
  obtain ⟨first, ids, hfront⟩ := List.exists_cons_of_ne_nil
    (List.append_ne_nil_of_right_ne_nil before (List.cons_ne_nil _ _))
  have hwhole : queue = first :: ids ++ behind := by
    rw [hqueue, ← hfront, List.append_assoc, List.singleton_append]
  have hto := h.walk checkWaiting hcurrent
    (show queue = before ++ entry :: (behind ++ []) by rwa [List.append_nil])
  -- the last entry of the run queue, which the first one follows
  obtain ⟨last, hlast⟩ : ∃ last, last = (entry :: behind).getLast (List.cons_ne_nil _ _) := ⟨_, rfl⟩
  rw [← hlast] at hto
  have hend : queue = (before ++ (entry :: behind).dropLast) ++ last :: [] := by
    rw [hqueue, hlast, List.append_assoc, List.dropLast_append_getLast]
  have hnext : (([] : List Tid) ++ queue).head? = some first := by
    rw [hwhole]
    rfl
  have hwrap := (h.setCurrentEntry last).schedule checkWaiting (h.current_setCurrentEntry last) hend hnext
  rw [setCurrentEntry_setCurrentEntry] at hwrap
  have hfrom := (h.setCurrentEntry first).walk checkWaiting (h.current_setCurrentEntry first)
    (show queue = [] ++ first :: (ids ++ behind) from hwhole)
  have hback : (first :: ids).getLast (List.cons_ne_nil _ _) = entry := by
    simp [← hfront]
  rw [setCurrentEntry_setCurrentEntry, hback, setCurrentEntry_current hcurrent] at hfrom
  have hlength : queue.length = behind.length + (ids.length + 1) := by
    rw [hwhole, List.length_append, List.length_cons]
    omega
  rw [hlength, hfront]
  exact scheduleTimes_add hto (scheduleTimes_succ hwrap hfrom)

end

theorem RunInv.inTurn (hs : s.RunInv) {sched : Scheduler} (hsched : s.schedulers[core]? = some sched)
    (hwait : sched.waitQueue = [])
    (halive : ∀ t ∈ sched.runQueue, ∀ thread, s.threads t = some thread → thread.alive = true) :
    s.InTurn core sched.runQueue where
  scheduler := ⟨sched, hsched, rfl, hwait⟩
  alive t ht := by
    obtain ⟨thread, hthread, -⟩ := hs.queued ⟨sched, hsched, List.mem_append_left _ ht⟩
    exact ⟨thread, hthread, halive t ht thread hthread, hs.ready ⟨sched, hsched, ht⟩ hthread⟩
  nodup := (List.nodup_append.1 (hs.entries_nodup hsched)).1

end Tasking

/-- In every run: with an empty wait queue and a run queue of threads that are alive, as many calls of
`schedule` as there are threads select each once, in the order of the run queue from the current entry
on, and change nothing. Any call selects the idle thread only if it leaves an empty run queue. -/
theorem schedule_in_turn {s : Tasking} (hs : taskingCalls.Reachable (fun _ _ => True) s) (core : Nat)
    (checkWaiting : Tid → Option Waiter) :
    (∀ sched entry, s.schedulers[core]? = some sched → sched.waitQueue = [] →
      (∀ t ∈ sched.runQueue, ∀ thread, s.threads t = some thread → thread.alive = true) →
      sched.currentEntry = some entry → entry ∈ sched.runQueue →
      ∃ before behind, sched.runQueue = before ++ entry :: behind ∧
        s.scheduleTimes core checkWaiting sched.runQueue.length =
          .ok (s, behind ++ (before ++ [entry])) ∧
        ∀ t ∈ sched.runQueue, (behind ++ (before ++ [entry])).count t = 1) ∧
    ∀ s' id sched, s.schedule core checkWaiting = .ok (s', id) →
      s'.schedulers[core]? = some sched → sched.idleEntry = some id → sched.runQueue = [] := by
  have hinv := Tasking.reachable_runInv hs
  constructor
  · intro sched entry hsched hwait halive hcurrent hentry
    obtain ⟨before, behind, hqueue⟩ := List.append_of_mem hentry
    have hturn : s.InTurn core sched.runQueue := hinv.inTurn hsched hwait halive
    have hround := hturn.round checkWaiting (by rw [Tasking.current, hsched]; exact hcurrent) hqueue
    refine ⟨before, behind, hqueue, hround, fun t ht => ?_⟩
    -- the threads are those of the run queue, from the entry behind the current one on
    have hperm : (behind ++ (before ++ [entry])).Perm sched.runQueue := by
      have hsplit : sched.runQueue = (before ++ [entry]) ++ behind := by
        rw [hqueue, List.append_assoc, List.singleton_append]
      rw [hsplit]
      exact List.perm_append_comm
    rw [hperm.count_eq]
    exact List.count_eq_one_of_mem hturn.nodup ht
  · intro s' id sched hschedule hsched hidle
    exact (hinv.schedule hschedule).2 sched hsched hidle

theorem schedule_in_turn_three :
    ∃ s, taskingCalls.Reachable (fun _ _ => True) s ∧
      s.schedulers = [{ runQueue := [3, 2, 1], currentEntry := some 3, idleEntry := some 9 }] ∧
      ∃ before behind : List Tid, [3, 2, 1] = before ++ 3 :: behind ∧
        s.scheduleTimes 0 (fun _ => none) 3 = .ok (s, behind ++ (before ++ [3])) ∧
        ∀ t ∈ ([3, 2, 1] : List Tid), (behind ++ (before ++ [3])).count t = 1 := by
  obtain ⟨s, hs, hscheds, halive⟩ : ∃ s ∈ taskingCalls.run (.initializeBsp 1)
      [.add 0 9 .main .idle 9, .add 0 1 .main .normal 1, .add 0 2 .main .normal 2,
        .add 0 3 .main .normal 3, .schedule 0 fun _ => none],
      s.schedulers = [{ runQueue := [3, 2, 1], currentEntry := some 3, idleEntry := some 9 }] ∧
        ∀ t ∈ ([3, 2, 1] : List Tid), ∀ thread ∈ s.threads t, thread.alive = true := by
    decide
  have hreach := System.reachable_of_run (M := taskingCalls) ⟨1, rfl⟩ hs
  refine ⟨s, hreach, hscheds, ?_⟩
  exact (schedule_in_turn hreach 0 fun _ => none).1 _ 3 (by rw [hscheds]; rfl) rfl halive rfl
    List.mem_cons_self

end MeetixOS.Kernel
