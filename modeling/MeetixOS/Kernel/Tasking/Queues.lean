import Mathlib.Data.List.Perm.Basic
import MeetixOS.Kernel.Tasking.RemoveThreads
import MeetixOS.Kernel.Tasking.Schedule

/-! # Queues and waiters

The position of a thread and its waiter are changed by separate calls. `Linked` is what every run keeps of
the queues: entries are linked once, belong to threads that exist, and an idle thread is in no queue.

`QueueInv` adds that a thread is in the wait queue exactly if it has a waiter. `restoreInterruptedState` of
a thread that was interrupted while running breaks it: it waits then, with the null waiter from before. -/

open Option (bind_eq_some_iff bind_some map_eq_some_iff map_some mem_unique)

namespace MeetixOS.Kernel

open MeetixOS.Lib

/-! ## Moving an entry permutes the entries -/

namespace Scheduler

variable {s : Scheduler} {id t : Tid}

theorem entries_moveToWaitQueue : (s.moveToWaitQueue id).entries.Perm s.entries := by
  unfold moveToWaitQueue
  split
  next h =>
    have hcons := (List.perm_cons_erase h).symm
    exact List.perm_middle.trans (hcons.append_right s.waitQueue)
  next => exact List.Perm.refl _

theorem entries_moveToRunQueue : (s.moveToRunQueue id).entries.Perm s.entries := by
  unfold moveToRunQueue
  split
  next h =>
    have hcons := (List.perm_cons_erase h).symm
    exact List.perm_middle.symm.trans (hcons.append_left s.runQueue)
  next => exact List.Perm.refl _

theorem entries_increaseWaitPriority : (s.increaseWaitPriority id).entries.Perm s.entries := by
  unfold increaseWaitPriority
  split
  next h => exact (List.perm_cons_erase h).symm.append_left s.runQueue
  next => exact List.Perm.refl _

variable {priority : ThreadPriority}

theorem mem_entries_add :
    t ∈ (s.add id priority).entries ↔ (priority ≠ .idle ∧ t = id) ∨ t ∈ s.entries := by
  unfold add
  split
  next h => simp [h, entries]
  next h => simp [h, entries]

theorem waitQueue_add :
    (s.add id priority).waitQueue = s.waitQueue := by
  unfold add
  split <;> rfl

theorem currentEntry_add :
    (s.add id priority).currentEntry = s.currentEntry := by
  unfold add
  split <;> rfl

/-- The entry the scheduler continues from is not in the wait queue. -/
def CurrentRuns (s : Scheduler) : Prop := ∀ t, s.currentEntry = some t → t ∉ s.waitQueue

theorem mem_waitQueue_moveToWaitQueue :
    t ∈ (s.moveToWaitQueue id).waitQueue ↔ t ∈ s.waitQueue ∨ t = id ∧ id ∈ s.runQueue := by
  unfold moveToWaitQueue
  split
  next h => simp [h, or_comm]
  next h => simp [h]

theorem mem_waitQueue_moveToRunQueue (hnodup : s.entries.Nodup) :
    t ∈ (s.moveToRunQueue id).waitQueue ↔ t ∈ s.waitQueue ∧ t ≠ id := by
  have hwait : s.waitQueue.Nodup := (List.nodup_append.1 hnodup).2.1
  unfold moveToRunQueue
  split
  next => rw [hwait.mem_erase_iff, and_comm]
  next h => exact ⟨fun ht => ⟨ht, fun heq => h (heq ▸ ht)⟩, And.left⟩

theorem mem_waitQueue_increaseWaitPriority :
    t ∈ (s.increaseWaitPriority id).waitQueue ↔ t ∈ s.waitQueue := by
  unfold increaseWaitPriority
  split
  next h => exact (List.perm_cons_erase h).symm.mem_iff
  next => rfl

theorem CurrentRuns.moveToWaitQueue (hs : s.CurrentRuns) : (s.moveToWaitQueue id).CurrentRuns := by
  intro t hcurrent
  rw [mem_waitQueue_moveToWaitQueue, not_or]
  unfold Scheduler.moveToWaitQueue at hcurrent
  split at hcurrent
  next =>
    by_cases hself : s.currentEntry = some id
    · rw [if_pos hself] at hcurrent
      cases hcurrent
    · rw [if_neg hself] at hcurrent
      exact ⟨hs t hcurrent, fun h => hself (h.1 ▸ hcurrent)⟩
  next hrun => exact ⟨hs t hcurrent, fun h => hrun h.2⟩

theorem CurrentRuns.moveToRunQueue (hs : s.CurrentRuns) (hnodup : s.entries.Nodup) :
    (s.moveToRunQueue id).CurrentRuns := by
  intro t hcurrent hmem
  rw [mem_waitQueue_moveToRunQueue hnodup] at hmem
  refine hs t ?_ hmem.1
  unfold Scheduler.moveToRunQueue at hcurrent
  split at hcurrent <;> exact hcurrent

end Scheduler

namespace Tasking

variable {s s' : Tasking}

variable {thread thread' : Thread} {core j : Nat} {sched : Scheduler} {f : Scheduler → Scheduler}
  {dead : List Tid} {waiter : Option Waiter} {checkWaiting : Tid → Option Waiter}
  {entry : Option Tid}

variable {id : Tid}

theorem threads_setThread_self : (s.setThread id thread).threads id = some thread :=
  Function.update_self ..

theorem threads_setThread_of_ne {id t : Tid} (h : t ≠ id) :
    (s.setThread id thread).threads t = s.threads t :=
  Function.update_of_ne h ..

/-! ## Linked queues -/

/-- The entry of `id` is linked in a queue of `core`. -/
def LinkedAt (s : Tasking) (core : Nat) (id : Tid) : Prop :=
  ∃ sched, s.schedulers[core]? = some sched ∧ id ∈ sched.entries

/-- The queues are linked through entries of existing threads, each once. Idle threads stand beside the
queues. -/
structure Linked (s : Tasking) : Prop where
  nodup : s.entries.Nodup
  queued : ∀ {core : Nat} {id : Tid}, s.LinkedAt core id →
    ∃ thread, s.threads id = some thread ∧ thread.priority ≠ .idle ∧ thread.scheduler = some core
  idle : ∀ {core : Nat} {sched : Scheduler} {id : Tid}, s.schedulers[core]? = some sched →
    sched.idleEntry = some id → ∃ thread, s.threads id = some thread ∧ thread.priority = .idle

theorem mem_entries : id ∈ s.entries ↔ ∃ core, s.LinkedAt core id := by
  simp only [entries, List.mem_flatMap, LinkedAt]
  constructor
  · rintro ⟨sched, hsched, hid⟩
    obtain ⟨core, hcore⟩ := List.mem_iff_getElem?.1 hsched
    exact ⟨core, sched, hcore, hid⟩
  · rintro ⟨core, sched, hcore, hid⟩
    exact ⟨sched, List.mem_of_getElem? hcore, hid⟩

theorem Linked.entries_nodup (hs : s.Linked)
    (hsched : s.schedulers[core]? = some sched) : sched.entries.Nodup :=
  (List.nodup_flatMap.1 hs.nodup).1 sched (List.mem_of_getElem? hsched)

/-- The queues as a distribution of threads. -/
def Linked.distribution (hs : s.Linked) : Distribution :=
  { toTasking := s
    nodup := hs.nodup
    live := fun id hid => by
      obtain ⟨core, hlinked⟩ := mem_entries.1 hid
      obtain ⟨thread, hthread, -⟩ := hs.queued hlinked
      rw [hthread, Option.isSome_some] }

/-! ### Changes that keep the queues linked -/

theorem getElem?_modifyScheduler :
    (s.modifyScheduler core f).schedulers[j]? =
      (s.schedulers[j]?).map fun sched => if core = j then f sched else sched :=
  List.getElem?_modify f core s.schedulers j

theorem entries_modifyScheduler (new : List Tid) (hcore : core < s.schedulers.length)
    (hf : ∀ sched, (f sched).entries.Perm (new ++ sched.entries)) :
    (s.modifyScheduler core f).entries.Perm (new ++ s.entries) := by
  have hsplit : s.entries = (s.schedulers.take core).flatMap Scheduler.entries ++
      (s.schedulers[core].entries ++ (s.schedulers.drop (core + 1)).flatMap Scheduler.entries) := by
    rw [← List.flatMap_cons, List.getElem_cons_drop, ← List.flatMap_append,
      List.take_append_drop]
    rfl
  rw [hsplit]
  simp only [entries, modifyScheduler, List.modify_eq_take_cons_drop hcore, List.flatMap_append,
    List.flatMap_cons]
  refine List.Perm.trans ?_ (List.perm_append_comm_assoc _ _ _)
  refine List.Perm.append_left _ ?_
  rw [← List.append_assoc]
  exact (hf _).append_right _

theorem linkedAt_modifyScheduler (hf : ∀ sched, (f sched).entries.Perm sched.entries) :
    (s.modifyScheduler core f).LinkedAt j id ↔ s.LinkedAt j id := by
  simp only [LinkedAt, getElem?_modifyScheduler, map_eq_some_iff]
  constructor
  · rintro ⟨_, ⟨sched, hsched, rfl⟩, hid⟩
    refine ⟨sched, hsched, ?_⟩
    split at hid
    next => exact (hf sched).mem_iff.1 hid
    next => exact hid
  · rintro ⟨sched, hsched, hid⟩
    refine ⟨_, ⟨sched, hsched, rfl⟩, ?_⟩
    split
    next => exact (hf sched).mem_iff.2 hid
    next => exact hid

theorem Linked.modifyScheduler (hs : s.Linked) (core : Nat)
    (hf : ∀ sched, (f sched).entries.Perm sched.entries)
    (hidle : ∀ sched, (f sched).idleEntry = sched.idleEntry) :
    (s.modifyScheduler core f).Linked where
  nodup := by
    by_cases hcore : core < s.schedulers.length
    · exact (entries_modifyScheduler [] hcore hf).nodup_iff.2 hs.nodup
    · rw [Tasking.modifyScheduler, List.modify_eq_self (Nat.not_lt.1 hcore)]
      exact hs.nodup
  queued h := hs.queued ((linkedAt_modifyScheduler hf).1 h)
  idle h hentry := by
    rw [getElem?_modifyScheduler, map_eq_some_iff] at h
    obtain ⟨sched, hsched, rfl⟩ := h
    refine hs.idle hsched ?_
    split at hentry
    next => rw [← hidle, hentry]
    next => exact hentry

section

variable (hs : s.Linked) (core : Nat) (id : Tid)
include hs

theorem Linked.moveToRunQueue : (s.modifyScheduler core (·.moveToRunQueue id)).Linked := by
  refine hs.modifyScheduler core (fun _ => Scheduler.entries_moveToRunQueue) fun sched => ?_
  unfold Scheduler.moveToRunQueue
  split <;> rfl

theorem Linked.moveToWaitQueue : (s.modifyScheduler core (·.moveToWaitQueue id)).Linked := by
  refine hs.modifyScheduler core (fun _ => Scheduler.entries_moveToWaitQueue) fun sched => ?_
  unfold Scheduler.moveToWaitQueue
  split <;> rfl

theorem Linked.increaseWaitPriority :
    (s.modifyScheduler core (·.increaseWaitPriority id)).Linked := by
  refine hs.modifyScheduler core (fun _ => Scheduler.entries_increaseWaitPriority) fun sched => ?_
  unfold Scheduler.increaseWaitPriority
  split <;> rfl

theorem Linked.setCurrentEntry : (s.setCurrentEntry core id).Linked :=
  hs.modifyScheduler core (fun _ => List.Perm.refl _) fun _ => rfl

end

theorem Linked.setThread (hs : s.Linked)
    (hthread : s.threads id = some thread) (hpriority : thread'.priority = thread.priority)
    (hscheduler : thread'.scheduler = thread.scheduler) : (s.setThread id thread').Linked where
  nodup := hs.nodup
  queued {core t} h := by
    obtain ⟨old, hold, hrest⟩ := hs.queued h
    by_cases ht : t = id
    · subst ht
      obtain rfl := mem_unique hthread hold
      exact ⟨thread', threads_setThread_self, by rwa [hpriority, hscheduler]⟩
    · exact ⟨old, (threads_setThread_of_ne ht).trans hold, hrest⟩
  idle {core sched t} h hentry := by
    obtain ⟨old, hold, hrest⟩ := hs.idle h hentry
    by_cases ht : t = id
    · subst ht
      obtain rfl := mem_unique hthread hold
      exact ⟨thread', threads_setThread_self, hpriority.trans hrest⟩
    · exact ⟨old, (threads_setThread_of_ne ht).trans hold, hrest⟩

theorem getElem?_purge (h : s.schedulers[core]? = some sched) :
    (s.purge dead).schedulers[core]? = some (sched.purge dead) := by
  rw [purge, List.getElem?_map, h, map_some]

theorem linkedAt_purge :
    (s.purge dead).LinkedAt core id ↔ s.LinkedAt core id ∧ id ∉ dead := by
  simp only [LinkedAt, purge, List.getElem?_map, map_eq_some_iff]
  constructor
  · rintro ⟨_, ⟨sched, hsched, rfl⟩, hid⟩
    obtain ⟨hmem, hnot⟩ := Scheduler.mem_entries_purge.1 hid
    exact ⟨⟨sched, hsched, hmem⟩, hnot⟩
  · rintro ⟨⟨sched, hsched, hmem⟩, hnot⟩
    exact ⟨_, ⟨sched, hsched, rfl⟩, Scheduler.mem_entries_purge.2 ⟨hmem, hnot⟩⟩

theorem entries_purge (s : Tasking) (dead : List Tid) :
    (s.purge dead).entries = s.entries.filter fun id => id ∉ dead := by
  simp [entries, Tasking.purge, List.flatMap_map, List.filter_flatMap, Scheduler.entries_purge]

theorem Linked.purge (hs : s.Linked) (hdead : ∀ id ∈ dead, id ∈ s.entries) :
    (s.purge dead).Linked where
  nodup := by
    rw [entries_purge]
    exact hs.nodup.filter _
  queued h := by
    obtain ⟨hlinked, hnot⟩ := linkedAt_purge.1 h
    obtain ⟨thread, hthread, hrest⟩ := hs.queued hlinked
    exact ⟨thread, (if_neg hnot).trans hthread, hrest⟩
  idle {core sched id} h hentry := by
    rw [Tasking.purge, List.getElem?_map, map_eq_some_iff] at h
    obtain ⟨sched0, hsched0, rfl⟩ := h
    obtain ⟨thread, hthread, hidle⟩ := hs.idle hsched0 hentry
    -- an idle thread has no entry, so it is not among the purged ones
    have hnot : id ∉ dead := by
      intro hmem
      obtain ⟨core', hlinked⟩ := mem_entries.1 (hdead id hmem)
      obtain ⟨other, hother, hne, -⟩ := hs.queued hlinked
      obtain rfl := mem_unique hthread hother
      exact hne hidle
    exact ⟨thread, (if_neg hnot).trans hthread, hidle⟩

theorem not_mem_entries_of_new (hs : s.Linked) (hnew : s.threads id = none) :
    id ∉ s.entries := by
  intro h
  obtain ⟨_, hlinked⟩ := mem_entries.1 h
  obtain ⟨thread, hthread, -⟩ := hs.queued hlinked
  rw [hnew] at hthread
  exact Option.some_ne_none thread hthread.symm

theorem Linked.add (hs : s.Linked) (hcore : core < s.schedulers.length)
    (hnew : s.threads id = none) : (s.add core id thread).Linked := by
  have hother : ∀ {t : Tid} {old : Thread}, s.threads t = some old →
      (s.setThread id { thread with scheduler := some core }).threads t = some old := by
    intro t old hold
    have hne : t ≠ id := by
      rintro rfl
      exact Option.some_ne_none old (hold.symm.trans hnew)
    exact (threads_setThread_of_ne hne).trans hold
  have hself : (s.setThread id { thread with scheduler := some core }).threads id =
      some { thread with scheduler := some core } := threads_setThread_self
  refine ⟨?_, ?_, ?_⟩
  · by_cases hidle : thread.priority = .idle
    · have hf : ∀ sched : Scheduler,
          (sched.add id thread.priority).entries.Perm ([] ++ sched.entries) := by
        intro sched
        rw [Scheduler.add, if_pos hidle]
        exact List.Perm.refl _
      exact (entries_modifyScheduler [] hcore hf).nodup_iff.2 hs.nodup
    · have hf : ∀ sched : Scheduler,
          (sched.add id thread.priority).entries.Perm ([id] ++ sched.entries) := by
        intro sched
        rw [Scheduler.add, if_neg hidle]
        exact List.Perm.refl _
      refine (entries_modifyScheduler [id] hcore hf).nodup_iff.2 ?_
      exact List.nodup_cons.2 ⟨not_mem_entries_of_new hs hnew, hs.nodup⟩
  · rintro j t ⟨sched, hsched, ht⟩
    obtain ⟨sched0, hsched0, rfl⟩ := map_eq_some_iff.1
      (getElem?_modifyScheduler.symm.trans hsched)
    have hcases : (thread.priority ≠ .idle ∧ t = id ∧ core = j) ∨ t ∈ sched0.entries := by
      split at ht
      next hj => exact (Scheduler.mem_entries_add.1 ht).imp_left fun h => ⟨h.1, h.2, hj⟩
      next => exact .inr ht
    rcases hcases with ⟨hne, rfl, rfl⟩ | hmem
    · exact ⟨_, hself, hne, rfl⟩
    · obtain ⟨old, hold, hrest⟩ := hs.queued ⟨sched0, hsched0, hmem⟩
      exact ⟨old, hother hold, hrest⟩
  · intro j sched t hsched hentry
    obtain ⟨sched0, hsched0, rfl⟩ := map_eq_some_iff.1
      (getElem?_modifyScheduler.symm.trans hsched)
    have hcases : (thread.priority = .idle ∧ id = t) ∨ sched0.idleEntry = some t := by
      split at hentry
      next =>
        unfold Scheduler.add at hentry
        split at hentry
        next hidle => exact .inl ⟨hidle, Option.some.inj hentry⟩
        next => exact .inr hentry
      next => exact .inr hentry
    rcases hcases with ⟨hidle, rfl⟩ | hentry0
    · exact ⟨_, hself, hidle⟩
    · obtain ⟨old, hold, hrest⟩ := hs.idle hsched0 hentry0
      exact ⟨old, hother hold, hrest⟩

/-! ### Removal of dead threads -/

theorem remove_eq_purge (hs : s.Linked) (hlinked : s.LinkedAt core id) :
    (({ tasking := s } : Removal).remove core id thread).tasking = s.purge [id] := by
  obtain ⟨sched, hsched, hid⟩ := hlinked
  have hschedulers : (s.modifyScheduler core (·.removeEntry id)).schedulers =
      (s.purge [id]).schedulers := by
    have h := Removal.purge_remove hs.nodup [] hsched hid
    rwa [purge_nil, List.nil_append] at h
  simp only [Removal.remove, hsched, if_pos (List.mem_append.1 hid), Removal.deleteTask]
  rw [hschedulers]
  have hthreads := Removal.threads_purge_append s [] id
  rw [purge_nil, List.nil_append] at hthreads
  simp [modifyScheduler, hthreads]

theorem checkAliveState_cases (hs : s.Linked) (core : Nat) (id : Tid) (thread : Thread) :
    (thread.alive = true ∧ s.checkAliveState core id thread = (s, true)) ∨
    (thread.alive = false ∧ ∃ dead, s.checkAliveState core id thread = (s.purge dead, false) ∧
      (∀ t ∈ dead, t ∈ s.entries) ∧
      ((thread.type = .main ∧ dead = s.entries.filter (s.ofProcess thread.process)) ∨
        (thread.type ≠ .main ∧ s.LinkedAt core id ∧ dead = [id]) ∨
        (thread.type ≠ .main ∧ ¬ s.LinkedAt core id ∧ dead = []))) := by
  unfold checkAliveState
  cases halive : thread.alive with
  | true => exact .inl ⟨rfl, rfl⟩
  | false =>
    refine .inr ⟨rfl, ?_⟩
    rw [if_neg Bool.false_ne_true]
    by_cases hmain : thread.type = .main
    · rw [if_pos hmain]
      have hall : s.removeThreads thread.process =
          Removal.after s thread.process s.entries :=
        removeThreads_eq hs.distribution thread.process
      refine ⟨_, by rw [hall]; rfl, fun t ht => List.mem_of_mem_filter ht, .inl ⟨hmain, rfl⟩⟩
    · rw [if_neg hmain]
      by_cases hlinked : s.LinkedAt core id
      · refine ⟨[id], by rw [remove_eq_purge hs hlinked], ?_, .inr (.inl ⟨hmain, hlinked, rfl⟩)⟩
        intro t ht
        rw [List.mem_singleton] at ht
        exact mem_entries.2 ⟨core, ht ▸ hlinked⟩
      · refine ⟨[], ?_, fun _ ht => absurd ht List.not_mem_nil,
          .inr (.inr ⟨hmain, hlinked, rfl⟩)⟩
        have hself : ({ tasking := s } : Removal).remove core id thread = { tasking := s } := by
          unfold Removal.remove
          split
          next => rfl
          next sched hsched =>
            rw [if_neg fun h => hlinked ⟨sched, hsched, List.mem_append.2 h⟩]
        rw [hself, purge_nil]

/-! ### What the waiting calls do -/

theorem wait_cases (h : s.wait id waiter = some s') :
    ∃ thread, s.threads id = some thread ∧
      ((thread.waitManager.isSome ∧
          s' = s.setThread id { thread with waitManager := waiter }) ∨
        (thread.waitManager = none ∧ ∃ core, thread.scheduler = some core ∧
          s' = (s.modifyScheduler core (·.moveToWaitQueue id)).setThread id
            { thread with waitManager := waiter })) := by
  obtain ⟨thread, hthread, h⟩ := bind_eq_some_iff.1 h
  refine ⟨thread, hthread, ?_⟩
  cases hwaiter : thread.waitManager with
  | some old =>
    rw [hwaiter] at h
    exact .inl ⟨rfl, (Option.some.inj h).symm⟩
  | none =>
    rw [hwaiter] at h
    obtain ⟨s1, hs1, h⟩ := bind_eq_some_iff.1 h
    obtain ⟨core, hcore, rfl⟩ := map_eq_some_iff.1 hs1
    exact .inr ⟨rfl, core, hcore, (Option.some.inj h).symm⟩

theorem threads_wait
    (hthread : s.threads id = some thread) (h : s.wait id waiter = some s') :
    s'.threads id = some { thread with waitManager := waiter } := by
  obtain ⟨t, ht, ⟨-, rfl⟩ | ⟨-, core, -, rfl⟩⟩ := wait_cases h <;>
    · obtain rfl := mem_unique hthread ht
      exact threads_setThread_self

theorem unwait_cases (h : s.unwait id = some s') :
    ∃ thread, s.threads id = some thread ∧
      ((thread.waitManager = none ∧ s' = s) ∨
        (thread.waitManager.isSome ∧ ∃ core, thread.scheduler = some core ∧
          s' = (s.modifyScheduler core (·.moveToRunQueue id)).setThread id
            { thread with waitManager := none })) := by
  obtain ⟨thread, hthread, h⟩ := bind_eq_some_iff.1 h
  refine ⟨thread, hthread, ?_⟩
  cases hwaiter : thread.waitManager with
  | none =>
    rw [hwaiter] at h
    exact .inl ⟨rfl, (Option.some.inj h).symm⟩
  | some old =>
    rw [hwaiter] at h
    obtain ⟨core, hcore, h⟩ := bind_eq_some_iff.1 h
    exact .inr ⟨rfl, core, hcore, (Option.some.inj h).symm⟩

theorem enterHandler_cases {cause : Interruption} (h : s.enterHandler id cause = some s') :
    ∃ thread, s.threads id = some thread ∧
      ((thread.interruptionInfo.isSome ∧ s' = s) ∨
        (thread.interruptionInfo = none ∧ ∃ core, thread.scheduler = some core ∧
          s' = (s.modifyScheduler core (·.moveToWaitQueue id)).setThread id
            { thread with
              interruptionInfo := some { cause, waitManager := thread.waitManager }
              waitManager := some .performInterruption })) := by
  obtain ⟨thread, hthread, h⟩ := bind_eq_some_iff.1 h
  refine ⟨thread, hthread, ?_⟩
  cases hinfo : thread.interruptionInfo with
  | some info =>
    rw [hinfo] at h
    exact .inl ⟨rfl, (Option.some.inj h).symm⟩
  | none =>
    rw [hinfo] at h
    obtain ⟨t, ht, hcases⟩ := wait_cases h
    have heq := mem_unique ht threads_setThread_self
    subst heq
    rcases hcases with ⟨hsome, -⟩ | ⟨-, core, hcore, rfl⟩
    · cases hsome
    · refine .inr ⟨rfl, core, hcore, ?_⟩
      simp [setThread, modifyScheduler]

theorem restoreInterruptedState_cases (h : s.restoreInterruptedState id = some s') :
    ∃ thread info s1, s.threads id = some thread ∧ thread.interruptionInfo = some info ∧
      s.wait id info.waitManager = some s1 ∧
      s' = s1.setThread id { thread with
        waitManager := info.waitManager
        interruptionInfo := none } := by
  obtain ⟨thread, hthread, h⟩ := bind_eq_some_iff.1 h
  obtain ⟨info, hinfo, h⟩ := bind_eq_some_iff.1 h
  obtain ⟨s1, hs1, h⟩ := bind_eq_some_iff.1 h
  obtain ⟨thread1, hthread1, h⟩ := bind_eq_some_iff.1 h
  refine ⟨thread, info, s1, hthread, hinfo, hs1, ?_⟩
  have heq := mem_unique hthread1 ((threads_wait hthread hs1))
  rw [← Option.some.inj h, heq]

theorem checkWaitingState_cases (hthread : s.threads id = some thread)
    (h : s.checkWaitingState checkWaiting id thread = some s') :
    s' = s ∨
    (thread.waitManager.isSome ∧ ∃ waiter,
      s' = s.setThread id { thread with waitManager := some waiter }) ∨
    (thread.waitManager.isSome ∧ ∃ core, thread.scheduler = some core ∧
      s' = (s.modifyScheduler core (·.moveToRunQueue id)).setThread id
        { thread with waitManager := none }) := by
  have hunwait : s.unwait id = some s' → s' = s ∨ (thread.waitManager.isSome ∧ ∃ core,
      thread.scheduler = some core ∧ s' = (s.modifyScheduler core (·.moveToRunQueue id)).setThread id
        { thread with waitManager := none }) := by
    intro h
    obtain ⟨t, ht, hcases⟩ := unwait_cases h
    obtain rfl := mem_unique hthread ht
    exact hcases.imp_left And.right
  unfold Tasking.checkWaitingState at h
  split at h
  next => exact .inl (Option.some.inj h).symm
  next => exact (hunwait h).imp_right .inr
  next number hwaiter =>
    split at h
    next => exact (hunwait h).imp_right .inr
    next waiter _ =>
      obtain ⟨t, ht, ⟨hsome, hs'⟩ | ⟨hnone, -⟩⟩ := wait_cases h
      · obtain rfl := mem_unique hthread ht
        exact .inr (.inl ⟨hsome, waiter, hs'⟩)
      · obtain rfl := mem_unique hthread ht
        rw [hnone] at hwaiter
        cases hwaiter

/-! ### The entries the schedulers continue from -/

/-- `currentEntry` of a core. -/
def current (s : Tasking) (core : Nat) : Option Tid :=
  (s.schedulers[core]?).bind fun sched => sched.currentEntry

theorem current_modifyScheduler (hf : ∀ sched, (f sched).currentEntry = sched.currentEntry) :
    (s.modifyScheduler core f).current = s.current := by
  funext j
  rw [current, getElem?_modifyScheduler, current]
  cases s.schedulers[j]? with
  | none => rfl
  | some sched =>
    split
    next => exact hf sched
    next => rfl

theorem current_purge (s : Tasking) (dead : List Tid) : (s.purge dead).current = s.current := by
  funext j
  rw [current, purge, List.getElem?_map, current]
  cases s.schedulers[j]? <;> rfl

theorem current_checkWaitingState (hthread : s.threads id = some thread)
    (h : s.checkWaitingState checkWaiting id thread = some s') : s'.current = s.current := by
  rcases checkWaitingState_cases hthread h with rfl | ⟨-, waiter, rfl⟩ | ⟨-, core, -, rfl⟩
  · rfl
  · rfl
  · refine current_modifyScheduler fun sched => ?_
    unfold Scheduler.moveToRunQueue
    split <;> rfl

/-! ## Positions and waiters -/

/-- The queues are linked, every thread of a core is in one of its queues, in the wait queue exactly if
it has a waiter, idle threads have none, and no scheduler continues from the wait queue. -/
structure QueueInv (s : Tasking) : Prop extends s.Linked where
  placed : ∀ {id : Tid} {thread : Thread} {core : Nat}, s.threads id = some thread →
    thread.priority ≠ .idle → thread.scheduler = some core →
    ∃ sched, s.schedulers[core]? = some sched ∧ id ∈ sched.entries ∧
      (id ∈ sched.waitQueue ↔ thread.waitManager.isSome)
  idleRuns : ∀ {id : Tid} {thread : Thread}, s.threads id = some thread →
    thread.priority = .idle → thread.waitManager = none
  current : ∀ {core : Nat} {sched : Scheduler}, s.schedulers[core]? = some sched → sched.CurrentRuns

theorem QueueInv.setThread (hs : s.QueueInv)
    (hthread : s.threads id = some thread) (hpriority : thread'.priority = thread.priority)
    (hscheduler : thread'.scheduler = thread.scheduler)
    (hwaiter : thread'.waitManager.isSome = thread.waitManager.isSome) :
    (s.setThread id thread').QueueInv where
  toLinked := hs.toLinked.setThread hthread hpriority hscheduler
  placed {t old core} hold hne hcore := by
    by_cases ht : t = id
    · subst ht
      obtain rfl := mem_unique hold threads_setThread_self
      obtain ⟨sched, hsched, hmem, hiff⟩ := hs.placed hthread (hpriority ▸ hne) (hscheduler ▸ hcore)
      exact ⟨sched, hsched, hmem, by rw [hiff, hwaiter]⟩
    · exact hs.placed ((threads_setThread_of_ne ht).symm.trans hold) hne hcore
  idleRuns {t old} hold hidle := by
    by_cases ht : t = id
    · subst ht
      obtain rfl := mem_unique hold threads_setThread_self
      rw [← Option.isNone_iff_eq_none, ← Option.not_isSome, hwaiter,
        hs.idleRuns hthread (hpriority ▸ hidle)]
      rfl
    · exact hs.idleRuns ((threads_setThread_of_ne ht).symm.trans hold) hidle
  current := hs.current

theorem QueueInv.current_modifyScheduler (hs : s.QueueInv)
    (hf : ∀ sched, s.schedulers[core]? = some sched → (f sched).CurrentRuns)
    (h : (s.modifyScheduler core f).schedulers[j]? = some sched) : sched.CurrentRuns := by
  rw [getElem?_modifyScheduler, map_eq_some_iff] at h
  obtain ⟨sched0, hsched0, rfl⟩ := h
  split
  next hj =>
    subst hj
    exact hf sched0 hsched0
  next => exact hs.current hsched0

theorem QueueInv.permute (hs : s.QueueInv) (hlinked : (s.modifyScheduler core f).Linked)
    (hf : ∀ sched, (f sched).entries.Perm sched.entries)
    (hwait : ∀ sched t, t ∈ (f sched).waitQueue ↔ t ∈ sched.waitQueue)
    (hcurrent : ∀ sched, s.schedulers[core]? = some sched → (f sched).CurrentRuns) :
    (s.modifyScheduler core f).QueueInv where
  toLinked := hlinked
  placed {t thread j} hthread hne hcore := by
    obtain ⟨sched, hsched, hmem, hiff⟩ := hs.placed hthread hne hcore
    refine ⟨_, by rw [getElem?_modifyScheduler, hsched, map_some], ?_⟩
    split
    next => exact ⟨(hf sched).mem_iff.2 hmem, (hwait sched t).trans hiff⟩
    next => exact ⟨hmem, hiff⟩
  idleRuns := hs.idleRuns
  current h := hs.current_modifyScheduler hcurrent h

section

variable {id : Tid} (hs : s.QueueInv) (hthread : s.threads id = some thread)
  (hne : thread.priority ≠ .idle) (hcore : thread.scheduler = some core)
  (hpriority : thread'.priority = thread.priority)
  (hscheduler : thread'.scheduler = thread.scheduler)
include hs hthread hne hcore hpriority hscheduler

theorem QueueInv.move (hlinked : (s.modifyScheduler core f).Linked)
    (hf : ∀ sched, (f sched).entries.Perm sched.entries)
    (hothers : ∀ sched t, sched.entries.Nodup → t ≠ id → (t ∈ (f sched).waitQueue ↔ t ∈ sched.waitQueue))
    (hself : ∀ sched, sched.entries.Nodup → id ∈ sched.entries →
      (id ∈ (f sched).waitQueue ↔ thread'.waitManager.isSome))
    (hcurrent : ∀ sched, s.schedulers[core]? = some sched → (f sched).CurrentRuns) :
    ((s.modifyScheduler core f).setThread id thread').QueueInv where
  toLinked := hlinked.setThread hthread hpriority hscheduler
  placed {t old j} hold hold' hj := by
    by_cases ht : t = id
    · subst ht
      obtain rfl := mem_unique hold threads_setThread_self
      obtain rfl := mem_unique hj ((hscheduler.trans hcore))
      obtain ⟨sched, hsched, hmem, -⟩ := hs.placed hthread hne hcore
      refine ⟨f sched, ?_, (hf sched).mem_iff.2 hmem,
        hself sched (hs.toLinked.entries_nodup hsched) hmem⟩
      exact getElem?_modifyScheduler.trans (by rw [hsched, map_some, if_pos rfl])
    · have hold0 : s.threads t = some old := (threads_setThread_of_ne ht).symm.trans hold
      obtain ⟨sched, hsched, hmem, hiff⟩ := hs.placed hold0 hold' hj
      refine ⟨_, getElem?_modifyScheduler.trans (by rw [hsched, map_some]), ?_⟩
      split
      next =>
        refine ⟨(hf sched).mem_iff.2 hmem, ?_⟩
        exact (hothers sched t (hs.toLinked.entries_nodup hsched) ht).trans hiff
      next => exact ⟨hmem, hiff⟩
  idleRuns {t old} hold hidle' := by
    by_cases ht : t = id
    · subst ht
      obtain rfl := mem_unique hold threads_setThread_self
      exact absurd (hpriority ▸ hidle') hne
    · exact hs.idleRuns ((threads_setThread_of_ne ht).symm.trans hold) hidle'
  current h := hs.current_modifyScheduler hcurrent h

theorem QueueInv.moveToWaitQueue (hwaiter : thread'.waitManager.isSome) :
    ((s.modifyScheduler core (·.moveToWaitQueue id)).setThread id thread').QueueInv := by
  refine hs.move hthread hne hcore hpriority hscheduler (hs.toLinked.moveToWaitQueue core id)
    (fun _ => Scheduler.entries_moveToWaitQueue) ?_ ?_
    fun _ hsched => (hs.current hsched).moveToWaitQueue
  · intro sched t _ ht
    simp [Scheduler.mem_waitQueue_moveToWaitQueue, ht]
  · intro sched _ hid
    rw [Scheduler.mem_waitQueue_moveToWaitQueue]
    exact ⟨fun _ => hwaiter, fun _ => (List.mem_append.1 hid).symm.imp_right (⟨rfl, ·⟩)⟩

theorem QueueInv.moveToRunQueue (hwaiter : thread'.waitManager = none) :
    ((s.modifyScheduler core (·.moveToRunQueue id)).setThread id thread').QueueInv := by
  refine hs.move hthread hne hcore hpriority hscheduler (hs.toLinked.moveToRunQueue core id)
    (fun _ => Scheduler.entries_moveToRunQueue) ?_ ?_
    fun _ hsched => (hs.current hsched).moveToRunQueue (hs.toLinked.entries_nodup hsched)
  · intro sched t hnodup ht
    rw [Scheduler.mem_waitQueue_moveToRunQueue hnodup, and_iff_left ht]
  · intro sched hnodup _
    simp [Scheduler.mem_waitQueue_moveToRunQueue hnodup, hwaiter]

end

theorem QueueInv.purge (hs : s.QueueInv) (hdead : ∀ id ∈ dead, id ∈ s.entries) :
    (s.purge dead).QueueInv where
  toLinked := hs.toLinked.purge hdead
  placed {t thread core} hthread hne hcore := by
    obtain ⟨hnot, hthread0⟩ : t ∉ dead ∧ s.threads t = some thread := by
      simpa [Tasking.purge] using hthread
    obtain ⟨sched, hsched, hmem, hiff⟩ := hs.placed hthread0 hne hcore
    refine ⟨sched.purge dead, getElem?_purge hsched, Scheduler.mem_entries_purge.2 ⟨hmem, hnot⟩, ?_⟩
    simp only [Scheduler.purge, List.mem_filter, decide_eq_true hnot, and_true, hiff]
  idleRuns {t thread} hthread hidle := by
    obtain ⟨-, hthread0⟩ : t ∉ dead ∧ s.threads t = some thread := by
      simpa [Tasking.purge] using hthread
    exact hs.idleRuns hthread0 hidle
  current {core sched} h := by
    rw [Tasking.purge, List.getElem?_map, map_eq_some_iff] at h
    obtain ⟨sched0, hsched0, rfl⟩ := h
    intro t hcurrent hmem
    exact hs.current hsched0 t hcurrent (List.mem_of_mem_filter hmem)

theorem QueueInv.add (hs : s.QueueInv)
    (hcore : core < s.schedulers.length) (hnew : s.threads id = none)
    (hwaiter : thread.waitManager = none) : (s.add core id thread).QueueInv where
  toLinked := hs.toLinked.add hcore hnew
  placed {t old j} hold hne hj := by
    by_cases ht : t = id
    · subst ht
      obtain rfl := mem_unique hold threads_setThread_self
      obtain rfl := Option.some.inj hj
      obtain ⟨sched, hsched⟩ : ∃ sched, s.schedulers[core]? = some sched :=
        ⟨_, List.getElem?_eq_getElem hcore⟩
      refine ⟨sched.add t thread.priority, ?_, Scheduler.mem_entries_add.2 (.inl ⟨hne, rfl⟩), ?_⟩
      · exact getElem?_modifyScheduler.trans (by rw [Tasking.setThread, hsched]; simp)
      · have hnot : t ∉ sched.waitQueue := fun h =>
          not_mem_entries_of_new hs.toLinked hnew
            (mem_entries.2 ⟨core, sched, hsched, List.mem_append_right _ h⟩)
        simp [Scheduler.waitQueue_add, hnot, hwaiter]
    · obtain ⟨sched, hsched, hmem, hiff⟩ :=
        hs.placed ((threads_setThread_of_ne ht).symm.trans hold) hne hj
      refine ⟨_, getElem?_modifyScheduler.trans (by rw [Tasking.setThread, hsched, map_some]), ?_⟩
      split
      next => exact ⟨Scheduler.mem_entries_add.2 (.inr hmem), by rw [Scheduler.waitQueue_add, hiff]⟩
      next => exact ⟨hmem, hiff⟩
  idleRuns {t old} hold hidle := by
    by_cases ht : t = id
    · subst ht
      obtain rfl := mem_unique hold threads_setThread_self
      exact hwaiter
    · exact hs.idleRuns ((threads_setThread_of_ne ht).symm.trans hold) hidle
  current {j sched} h := by
    refine hs.current_modifyScheduler (fun sched hsched => ?_) h
    intro t hcurrent
    rw [Scheduler.currentEntry_add] at hcurrent
    rw [Scheduler.waitQueue_add]
    exact hs.current hsched t hcurrent

/-! ### The calls -/

/-- The thread is not an idle thread. -/
def NotIdle (s : Tasking) (id : Tid) : Prop := ∀ thread ∈ s.threads id, thread.priority ≠ .idle

/-- The thread was waiting when it was interrupted. -/
def WaitedBefore (s : Tasking) (id : Tid) : Prop :=
  ∀ thread ∈ s.threads id, ∀ info ∈ thread.interruptionInfo, info.waitManager ≠ none

section

variable (hs : s.QueueInv)
include hs

theorem QueueInv.wait (hwaiter : waiter.isSome) (hne : s.NotIdle id)
    (h : s.wait id waiter = some s') : s'.QueueInv := by
  obtain ⟨thread, hthread, ⟨hsome, rfl⟩ | ⟨-, core, hcore, rfl⟩⟩ := wait_cases h
  · exact hs.setThread hthread rfl rfl (hwaiter.trans hsome.symm)
  · exact hs.moveToWaitQueue hthread (hne thread hthread) hcore rfl rfl hwaiter

theorem QueueInv.unwait (h : s.unwait id = some s') : s'.QueueInv := by
  obtain ⟨thread, hthread, ⟨-, rfl⟩ | ⟨hsome, core, hcore, rfl⟩⟩ := unwait_cases h
  · exact hs
  · have hne : thread.priority ≠ .idle := by
      intro hidle
      rw [hs.idleRuns hthread hidle] at hsome
      cases hsome
    exact hs.moveToRunQueue hthread hne hcore rfl rfl rfl

theorem QueueInv.enterHandler {cause : Interruption} (hne : s.NotIdle id)
    (h : s.enterHandler id cause = some s') : s'.QueueInv := by
  obtain ⟨thread, hthread, ⟨-, rfl⟩ | ⟨-, core, hcore, rfl⟩⟩ := enterHandler_cases h
  · exact hs
  · exact hs.moveToWaitQueue hthread (hne thread hthread) hcore rfl rfl rfl

theorem QueueInv.restoreInterruptedState (hne : s.NotIdle id)
    (hwaited : s.WaitedBefore id) (h : s.restoreInterruptedState id = some s') : s'.QueueInv := by
  obtain ⟨thread, info, s1, hthread, hinfo, hs1, rfl⟩ := restoreInterruptedState_cases h
  have hsome : info.waitManager.isSome :=
    Option.isSome_iff_ne_none.2 (hwaited thread hthread info hinfo)
  exact (hs.wait hsome hne hs1).setThread (threads_wait hthread hs1) rfl rfl rfl

theorem QueueInv.increaseWaitPriority (core : Nat) (id : Tid) :
    (s.modifyScheduler core (·.increaseWaitPriority id)).QueueInv := by
  refine hs.permute (hs.toLinked.increaseWaitPriority core id)
    (fun _ => Scheduler.entries_increaseWaitPriority)
    (fun _ _ => Scheduler.mem_waitQueue_increaseWaitPriority) ?_
  intro sched hsched t ht
  rw [Scheduler.mem_waitQueue_increaseWaitPriority]
  refine hs.current hsched t ?_
  unfold Scheduler.increaseWaitPriority at ht
  split at ht <;> exact ht

end

/-! ### The loops of `schedule` -/

theorem QueueInv.checkWaitingState (hs : s.QueueInv)
    (hthread : s.threads id = some thread)
    (h : s.checkWaitingState checkWaiting id thread = some s') : s'.QueueInv := by
  have hne : thread.waitManager.isSome → thread.priority ≠ .idle := by
    intro hsome hidle
    rw [hs.idleRuns hthread hidle] at hsome
    cases hsome
  rcases checkWaitingState_cases hthread h with
    rfl | ⟨hsome, waiter, rfl⟩ | ⟨hsome, core, hcore, rfl⟩
  · exact hs
  · exact hs.setThread hthread rfl rfl hsome.symm
  · exact hs.moveToRunQueue hthread (hne hsome) hcore rfl rfl rfl

theorem QueueInv.processWaitQueue (hs : s.QueueInv) {core fuel : Nat} :
    (∀ s', processWaitQueue core checkWaiting fuel s entry = .ok s' →
        s'.QueueInv ∧ s'.current = s.current) ∧
      ∀ id, Tasking.processWaitQueue core checkWaiting fuel s entry ≠
        .error (.waitingInRunQueue id) := by
  induction fuel generalizing s entry with
  | zero =>
    cases entry with
    | none => exact ⟨fun s' h => Except.ok.inj h ▸ ⟨hs, rfl⟩, fun _ h => (by cases h)⟩
    | some id => exact ⟨fun _ h => (by cases h), fun _ h => (by cases h)⟩
  | succ fuel ih =>
    cases entry with
    | none => exact ⟨fun s' h => Except.ok.inj h ▸ ⟨hs, rfl⟩, fun _ h => (by cases h)⟩
    | some id =>
      unfold Tasking.processWaitQueue
      split
      next thread sched hthread hsched =>
        rcases checkAliveState_cases hs.toLinked core id thread with
          ⟨-, heq⟩ | ⟨-, dead, heq, hdead, -⟩
        · simp only [heq]
          split
          next => exact ⟨fun _ h => (by cases h), fun _ h => (by cases h)⟩
          next s1 hs1 =>
            rw [← current_checkWaitingState hthread hs1]
            exact ih (hs.checkWaitingState hthread hs1)
        · simp only [heq]
          rw [← current_purge s dead]
          exact ih (hs.purge hdead)
      next => exact ⟨fun _ h => (by cases h), fun _ h => (by cases h)⟩
      next => exact ⟨fun _ h => (by cases h), fun _ h => (by cases h)⟩

theorem mem_of_nextIn {queue : List Tid} {id next : Tid}
    (h : Scheduler.nextIn queue id = some next) : next ∈ queue := by
  induction queue with
  | nil => cases h
  | cons t ts ih =>
    rw [Scheduler.nextIn] at h
    split at h
    next => exact List.mem_cons_of_mem _ (List.mem_of_mem_head? h)
    next => exact List.mem_cons_of_mem _ (ih h)

theorem first_cases (h : sched.first = .ok id) :
    id ∈ sched.runQueue ∨ sched.runQueue = [] ∧ sched.idleEntry = some id := by
  unfold Scheduler.first at h
  split at h
  next first _ hhead =>
    obtain rfl := Except.ok.inj h
    exact .inl (List.mem_of_mem_head? hhead)
  next _ idle hhead hidle =>
    obtain rfl := Except.ok.inj h
    exact .inr ⟨List.head?_eq_none_iff.1 hhead, hidle⟩
  next => cases h

theorem candidate_cases (hentry : ∀ t, entry = some t → t ∉ sched.waitQueue)
    (h : s.candidate sched entry = .ok id) :
    id ∈ sched.runQueue ∨ sched.runQueue = [] ∧ sched.idleEntry = some id := by
  unfold candidate at h
  split at h
  next => exact first_cases h
  next t =>
    split at h
    next => cases h
    next next _ hnext =>
      obtain rfl := Except.ok.inj h
      rw [Scheduler.next, if_neg (hentry t rfl)] at hnext
      exact .inl (mem_of_nextIn hnext)
    next => exact first_cases h

theorem first_error {fault : ScheduleFault} (h : sched.first = .error fault) :
    fault = .noIdleThread := by
  unfold Scheduler.first at h
  split at h
  next => cases h
  next => cases h
  next => exact (Except.error.inj h).symm

theorem candidate_error {fault : ScheduleFault} (h : s.candidate sched entry = .error fault) :
    fault = .noIdleThread ∨ ∃ t, entry = some t ∧ s.threads t = none ∧ fault = .deletedEntry t := by
  unfold candidate at h
  split at h
  next => exact .inl (first_error h)
  next t =>
    split at h
    next hnone => exact .inr ⟨t, rfl, hnone, (Except.error.inj h).symm⟩
    next => cases h
    next => exact .inl (first_error h)

theorem Linked.not_waiting (hs : s.Linked) (hsched : s.schedulers[core]? = some sched)
    (hid : id ∈ sched.runQueue ∨ sched.idleEntry = some id) : id ∉ sched.waitQueue := by
  intro hwait
  rcases hid with hrun | hidle
  · exact (List.nodup_append.1 (hs.entries_nodup hsched)).2.2 id hrun id hwait rfl
  · obtain ⟨idle, hthread, hpriority⟩ := hs.idle hsched hidle
    obtain ⟨thread, hthread', hne, -⟩ := hs.queued ⟨sched, hsched, List.mem_append_right _ hwait⟩
    obtain rfl := mem_unique hthread hthread'
    exact hne hpriority

theorem QueueInv.no_waiter (hs : s.QueueInv) (hsched : s.schedulers[core]? = some sched)
    (hid : id ∈ sched.runQueue ∨ sched.idleEntry = some id) (hthread : s.threads id = some thread) :
    thread.waitManager.isSome = false := by
  have hnot := hs.toLinked.not_waiting hsched hid
  rcases hid with hrun | hidle
  · obtain ⟨t, ht, hne, hcore⟩ := hs.queued ⟨sched, hsched, List.mem_append_left _ hrun⟩
    obtain rfl := mem_unique hthread ht
    obtain ⟨sched', hsched', -, hiff⟩ := hs.placed hthread hne hcore
    obtain rfl := mem_unique hsched hsched'
    exact Bool.eq_false_iff.2 fun h => hnot (hiff.2 h)
  · obtain ⟨t, ht, hpriority⟩ := hs.idle hsched hidle
    obtain rfl := mem_unique hthread ht
    rw [hs.idleRuns hthread hpriority]
    rfl

theorem QueueInv.select (hs : s.QueueInv) {core fuel : Nat}
    (hentry : ∀ sched, s.schedulers[core]? = some sched → ∀ t, entry = some t →
      t ∉ sched.waitQueue) :
    (∀ s' id, select core fuel s entry = .ok (s', id) → s'.QueueInv) ∧
      ∀ id, Tasking.select core fuel s entry ≠ .error (.waitingInRunQueue id) := by
  induction fuel generalizing s entry with
  | zero => exact ⟨fun _ _ h => (by cases h), fun _ h => (by cases h)⟩
  | succ fuel ih =>
    unfold Tasking.select
    cases hsched : s.schedulers[core]? with
    | none => exact ⟨fun _ _ h => (by cases h), fun _ h => (by cases h)⟩
    | some sched =>
      dsimp only
      cases hcandidate : s.candidate sched entry with
      | error fault =>
        refine ⟨fun _ _ h => (by cases h), fun id h => ?_⟩
        rcases candidate_error hcandidate with rfl | ⟨_, -, -, rfl⟩ <;> cases h
      | ok t =>
        have ht := (candidate_cases (hentry sched hsched) hcandidate).imp_right And.right
        dsimp only
        cases hthread : s.threads t with
        | none => exact ⟨fun _ _ h => (by cases h), fun _ h => (by cases h)⟩
        | some thread =>
          dsimp only
          rw [hs.no_waiter hsched ht hthread, if_neg Bool.false_ne_true]
          rcases checkAliveState_cases hs.toLinked core t thread with
            ⟨-, heq⟩ | ⟨-, dead, heq, hdead, -⟩
          · rw [heq]
            refine ⟨fun s' id h => ?_, fun _ h => (by cases h)⟩
            obtain ⟨rfl, rfl⟩ := Prod.mk.inj (Except.ok.inj h)
            refine hs.permute (hs.toLinked.setCurrentEntry core t)
              (fun _ => List.Perm.refl _) (fun _ _ => Iff.rfl) ?_
            intro sched' hsched' u hu
            obtain rfl := mem_unique hsched hsched'
            obtain rfl := Option.some.inj hu
            show t ∉ sched.waitQueue
            exact hs.toLinked.not_waiting hsched ht
          · rw [heq]
            exact ih (hs.purge hdead) fun _ _ _ hnone => (by cases hnone)

theorem QueueInv.schedule (hs : s.QueueInv) (core : Nat) (checkWaiting : Tid → Option Waiter) :
    (∀ s' id, s.schedule core checkWaiting = .ok (s', id) → s'.QueueInv) ∧
      ∀ id, s.schedule core checkWaiting ≠ .error (.waitingInRunQueue id) := by
  unfold Tasking.schedule
  cases hsched : s.schedulers[core]? with
  | none => exact ⟨fun _ _ h => (by cases h), fun _ h => (by cases h)⟩
  | some sched =>
    dsimp only
    cases hwalk : Tasking.processWaitQueue core checkWaiting sched.waitQueue.length s
        sched.waitQueue.head? with
    | error fault =>
      refine ⟨fun _ _ h => (by cases h), fun id h => ?_⟩
      obtain rfl := Except.error.inj h
      exact hs.processWaitQueue.2 id hwalk
    | ok s1 =>
      obtain ⟨hs1, hcurrent⟩ := hs.processWaitQueue.1 s1 hwalk
      refine hs1.select fun sched1 hsched1 t ht => hs1.current hsched1 t ?_
      have h := congrFun hcurrent core
      rw [Tasking.current, Tasking.current, hsched1, hsched, bind_some, bind_some] at h
      rw [h, ht]

/-! ## Runs -/

/-- Every thread of a core is in exactly one of its queues, once, and it is in the wait queue if and
only if it has a waiter. -/
def QueuesAgree (s : Tasking) : Prop :=
  ∀ (id : Tid) (thread : Thread) (core : Nat), s.threads id = some thread →
    thread.priority ≠ .idle → thread.scheduler = some core →
    ∃ sched, s.schedulers[core]? = some sched ∧
      sched.runQueue.count id + sched.waitQueue.count id = 1 ∧
      (id ∈ sched.waitQueue ↔ thread.waitManager ≠ none)

theorem QueueInv.queuesAgree (hs : s.QueueInv) : s.QueuesAgree := by
  intro id thread core hthread hne hcore
  obtain ⟨sched, hsched, hmem, hiff⟩ := hs.placed hthread hne hcore
  refine ⟨sched, hsched, ?_, hiff.trans Option.isSome_iff_ne_none⟩
  rw [← List.count_append]
  exact List.count_eq_one_of_mem (hs.toLinked.entries_nodup hsched) hmem

theorem queueInv_initializeBsp (cores : Nat) : (initializeBsp cores).QueueInv := by
  have hsched : ∀ {core : Nat} {sched : Scheduler},
      (initializeBsp cores).schedulers[core]? = some sched → sched = {} := by
    intro core sched h
    exact List.eq_of_mem_replicate (List.mem_of_getElem? h)
  refine ⟨⟨?_, ?_, ?_⟩, ?_, ?_, ?_⟩
  · have hnil : (initializeBsp cores).entries = [] := by
      rw [entries, List.flatMap_eq_nil_iff]
      intro sched h
      rw [List.eq_of_mem_replicate h]
      rfl
    rw [hnil]
    exact List.nodup_nil
  · rintro core id ⟨sched, h, hmem⟩
    rw [hsched h] at hmem
    cases hmem
  · intro core sched id h hidle
    rw [hsched h] at hidle
    cases hidle
  · intro id thread core h
    cases h
  · intro id thread h
    cases h
  · intro core sched h t ht
    rw [hsched h] at ht
    cases ht

end Tasking

/-- A thread is restored only if it was waiting when it was interrupted, and idle threads neither wait
nor are interrupted. -/
def TaskingCall.KeepsQueues (s : Tasking) : TaskingCall → Prop
  | .wait id _ => s.NotIdle id
  | .enterIrqHandler id _ => s.NotIdle id
  | .enterSignalHandler id _ => s.NotIdle id
  | .restoreInterruptedState id => s.NotIdle id ∧ s.WaitedBefore id
  | _ => True

namespace Tasking

variable {s s' : Tasking}

theorem call_schedule {core : Nat} {checkWaiting : Tid → Option Waiter}
    (h : s.call (.schedule core checkWaiting) = some s') :
    ∃ id, s.schedule core checkWaiting = .ok (s', id) := by
  rw [call] at h
  cases hschedule : s.schedule core checkWaiting with
  | error fault =>
    rw [hschedule] at h
    cases h
  | ok result =>
    rw [hschedule] at h
    exact ⟨result.2, by rw [← Option.some.inj h]⟩

theorem QueueInv.call (hs : s.QueueInv) {call : TaskingCall} (hok : call.KeepsQueues s)
    (h : s.call call = some s') : s'.QueueInv := by
  cases call with
  | add core id type priority process =>
    simp only [Tasking.call] at h
    split at h
    next hnew =>
      obtain rfl := Option.some.inj h
      exact hs.add hnew.1 hnew.2 rfl
    next => cases h
  | wait id waiter => exact hs.wait rfl hok h
  | unwait id => exact hs.unwait h
  | kill id =>
    obtain ⟨thread, hthread, rfl⟩ := map_eq_some_iff.1 h
    exact hs.setThread hthread rfl rfl rfl
  | enterIrqHandler id irq | enterSignalHandler id signal => exact hs.enterHandler hok h
  | restoreInterruptedState id => exact hs.restoreInterruptedState hok.1 hok.2 h
  | increaseWaitPriority core id =>
    obtain rfl := Option.some.inj h
    exact hs.increaseWaitPriority core id
  | schedule core checkWaiting =>
    obtain ⟨id, hschedule⟩ := call_schedule h
    exact (hs.schedule core checkWaiting).1 s' id hschedule

end Tasking

/-- In every run whose calls meet the condition, queues and waiters agree in every state, and `schedule`
does not panic over a thread that waits. -/
theorem queues_agree_with_waiters {s : Tasking}
    (hs : taskingCalls.Reachable (fun s call => call.KeepsQueues s) s) :
    s.QueuesAgree ∧ ∀ core checkWaiting id,
      s.schedule core checkWaiting ≠ .error (.waitingInRunQueue id) := by
  have hinv : s.QueueInv := by
    refine hs.invariant ?_ ?_
    · rintro s ⟨cores, rfl⟩
      exact Tasking.queueInv_initializeBsp cores
    · intro s call s' hinv hok hstep
      exact hinv.call hok hstep
  exact ⟨hinv.queuesAgree, fun core checkWaiting => (hinv.schedule core checkWaiting).2⟩

instance (s : Tasking) (id : Tid) : Decidable (s.NotIdle id) :=
  inferInstanceAs (Decidable (∀ thread ∈ s.threads id, thread.priority ≠ .idle))

instance (s : Tasking) (id : Tid) : Decidable (s.WaitedBefore id) :=
  inferInstanceAs (Decidable (∀ thread ∈ s.threads id, ∀ info ∈ thread.interruptionInfo,
    info.waitManager ≠ none))

instance (s : Tasking) : ∀ call : TaskingCall, Decidable (call.KeepsQueues s)
  | .add .. | .unwait .. | .kill .. | .increaseWaitPriority .. | .schedule .. =>
    inferInstanceAs (Decidable True)
  | .wait id _ | .enterIrqHandler id _ | .enterSignalHandler id _ =>
    inferInstanceAs (Decidable (s.NotIdle id))
  | .restoreInterruptedState id =>
    inferInstanceAs (Decidable (s.NotIdle id ∧ s.WaitedBefore id))

theorem queues_agree_after_signal_while_waiting :
    ∃ s, taskingCalls.Reachable (fun s call => call.KeepsQueues s) s ∧
      s.schedulers = [{ waitQueue := [1] }] ∧ s.QueuesAgree := by
  obtain ⟨s, hs, hqueues⟩ : ∃ s ∈ taskingCalls.runGuarded (fun s call => call.KeepsQueues s)
      (.initializeBsp 1) [.add 0 1 .main .normal 1, .wait 1 7, .enterSignalHandler 1 2,
        .schedule 0 fun _ => none, .restoreInterruptedState 1], s.schedulers = [{ waitQueue := [1] }] := by
    decide
  have hreach := System.Reachable.of_runGuarded (M := taskingCalls) (.init ⟨1, rfl⟩) hs
  exact ⟨s, hreach, hqueues, (queues_agree_with_waiters hreach).1⟩

/-- A thread that runs is interrupted by a signal and handles it. The restored state leaves it in the
wait queue without a waiter, where nothing wakes it. -/
theorem restore_without_waiter_strands_thread :
    ∃ s, taskingCalls.Reachable (fun _ _ => True) s ∧ ¬ s.QueuesAgree := by
  obtain ⟨s, hs, hqueues, hthread⟩ : ∃ s ∈ taskingCalls.run (.initializeBsp 1)
      [.add 0 1 .main .normal 1, .enterSignalHandler 1 2, .schedule 0 fun _ => none,
        .restoreInterruptedState 1], s.schedulers = [{ waitQueue := [1] }] ∧
      s.threads 1 = some { type := .main, process := 1, scheduler := some 0 } := by
    decide
  refine ⟨s, System.reachable_of_run ⟨1, rfl⟩ hs, fun hagree => ?_⟩
  obtain ⟨sched, hsched, -, hiff⟩ := hagree 1 _ 0 hthread (by decide) rfl
  rw [hqueues] at hsched
  obtain rfl := Option.some.inj hsched
  exact hiff.1 List.mem_cons_self rfl

end MeetixOS.Kernel
