import MeetixOS.Kernel.Tasking.Queues

/-! # The entries `schedule` follows

`schedule` keeps two pointers over calls that delete entries: the next entry of the wait queue while the
current one is checked, and the running entry while the wait queue is processed. A dead main thread takes
all threads of its process with it, so it must not stand directly in front of one of them (`WalkSafe`), nor
may a scheduler continue from one (`EntriesSafe`). -/

open Option (any_some bind_some isSome_iff_exists map_eq_some_iff map_some mem_unique)
open List (head?_cons mem_append_right mem_cons_of_mem mem_cons_self mem_filter nodup_append)

namespace MeetixOS.Kernel

open MeetixOS.Lib

namespace Tasking

variable {s s' s0 : Tasking}

/-- The process that is removed when the entry is checked: it is the main thread, and dead. -/
def condemned (s : Tasking) (id : Tid) : Option Pid :=
  (s.threads id).bind fun thread =>
    if thread.alive = false ∧ thread.type = .main then some thread.process else none

/-- The walk over the rest of a wait queue finds every entry it is led to: when a process is removed,
the next entry is not one of its threads. -/
inductive WalkSafe (s : Tasking) : List Tid → Prop
  | nil : WalkSafe s []
  | stays {id : Tid} {ids : List Tid} (hid : s.condemned id = none) (hids : WalkSafe s ids) :
      WalkSafe s (id :: ids)
  | removes {id : Tid} {ids : List Tid} {process : Pid} (hid : s.condemned id = some process)
      (hnext : ∀ next ∈ ids.head?, s.ofProcess process next = false)
      (hids : WalkSafe s (ids.filter fun t => !s.ofProcess process t)) : WalkSafe s (id :: ids)

/-- A thread that may be removed when the entries in `queue` are checked. -/
def Doomed (s : Tasking) (queue : List Tid) (id : Tid) : Prop :=
  id ∈ s.entries ∧
    (id ∈ queue ∨ ∃ t ∈ queue, ∃ process, s.condemned t = some process ∧ s.ofProcess process id)

/-- The entry is in the run queue of the core. -/
def RunsOn (s : Tasking) (core : Nat) (id : Tid) : Prop :=
  ∃ sched, s.schedulers[core]? = some sched ∧ id ∈ sched.runQueue

/-! ## Shrinking -/

/-- `s` comes from `s0` by removing doomed threads and waking threads. -/
structure Shrinks (doomed : Tid → Prop) (s0 s : Tasking) : Prop where
  threads : ∀ {t : Tid} {thread : Thread}, s.threads t = some thread →
    ∃ thread0, s0.threads t = some thread0 ∧ thread.alive = thread0.alive ∧
      thread.type = thread0.type ∧ thread.process = thread0.process ∧
      thread.priority = thread0.priority
  linked : ∀ {core : Nat} {t : Tid}, s.LinkedAt core t → s0.LinkedAt core t
  current : s.current = s0.current
  idle : ∀ core : Nat, (s.schedulers[core]?).map Scheduler.idleEntry =
    (s0.schedulers[core]?).map Scheduler.idleEntry
  kept : ∀ {t : Tid}, ¬ doomed t → (s0.threads t).isSome → (s.threads t).isSome
  runs : ∀ {core : Nat} {t : Tid}, ¬ doomed t → s0.RunsOn core t → s.RunsOn core t

theorem Shrinks.refl (doomed : Tid → Prop) (s : Tasking) : Shrinks doomed s s where
  threads h := ⟨_, h, rfl, rfl, rfl, rfl⟩
  linked h := h
  current := rfl
  idle _ := rfl
  kept _ h := h
  runs _ h := h

theorem Shrinks.mono {doomed doomed' : Tid → Prop} (h : Shrinks doomed s0 s)
    (hsub : ∀ t, doomed t → doomed' t) : Shrinks doomed' s0 s where
  threads := h.threads
  linked := h.linked
  current := h.current
  idle := h.idle
  kept ht := h.kept fun hd => ht (hsub _ hd)
  runs ht := h.runs fun hd => ht (hsub _ hd)

variable {doomed : Tid → Prop}

variable {dead queue rest ids : List Tid} {id : Tid} {thread : Thread}
  {checkWaiting : Tid → Option Waiter} {core j : Nat}

section

variable (h : Shrinks doomed s0 s)
include h

theorem Shrinks.purge (hdead : ∀ t ∈ dead, doomed t) :
    Shrinks doomed s0 (s.purge dead) where
  threads {t thread} ht := by
    obtain ⟨-, ht'⟩ : t ∉ dead ∧ s.threads t = some thread := by
      simpa [Tasking.purge] using ht
    exact h.threads ht'
  linked ht := h.linked (linkedAt_purge.1 ht).1
  current := (current_purge s dead).trans h.current
  idle core := by
    rw [← h.idle core, Tasking.purge, List.getElem?_map, Option.map_map]
    rfl
  kept {t} ht hsome := by
    have hnot : t ∉ dead := fun hmem => ht (hdead t hmem)
    simpa only [Tasking.purge, if_neg hnot] using h.kept ht hsome
  runs {core t} ht hruns := by
    have hnot : t ∉ dead := fun hmem => ht (hdead t hmem)
    obtain ⟨sched, hsched, hmem⟩ := h.runs ht hruns
    exact ⟨sched.purge dead, getElem?_purge hsched,
      mem_filter.2 ⟨hmem, decide_eq_true hnot⟩⟩

theorem Shrinks.setThread {thread thread' : Thread} (hthread : s.threads id = some thread)
    (halive : thread'.alive = thread.alive) (htype : thread'.type = thread.type)
    (hprocess : thread'.process = thread.process) (hpriority : thread'.priority = thread.priority) :
    Shrinks doomed s0 (s.setThread id thread') where
  threads {t u} hu := by
    by_cases ht : t = id
    · subst ht
      obtain rfl := mem_unique hu threads_setThread_self
      rw [halive, htype, hprocess, hpriority]
      exact h.threads hthread
    · exact h.threads ((threads_setThread_of_ne ht).symm.trans hu)
  linked ht := h.linked ht
  current := h.current
  idle := h.idle
  kept {t} ht hsome := by
    by_cases heq : t = id
    · rw [heq, threads_setThread_self]
      rfl
    · rw [threads_setThread_of_ne heq]
      exact h.kept ht hsome
  runs ht hruns := h.runs ht hruns

theorem Shrinks.moveToRunQueue (core : Nat) (id : Tid) :
    Shrinks doomed s0 (s.modifyScheduler core (·.moveToRunQueue id)) where
  threads := h.threads
  linked ht := h.linked
    ((linkedAt_modifyScheduler fun _ => Scheduler.entries_moveToRunQueue).1 ht)
  current := by
    rw [← h.current]
    refine current_modifyScheduler fun sched => ?_
    unfold Scheduler.moveToRunQueue
    split <;> rfl
  idle j := by
    rw [← h.idle j, getElem?_modifyScheduler, Option.map_map]
    congr 1
    funext sched
    simp only [Function.comp_apply]
    unfold Scheduler.moveToRunQueue
    split
    next => split <;> rfl
    next => rfl
  kept := h.kept
  runs {j t} ht hruns := by
    obtain ⟨sched, hsched, hmem⟩ := h.runs ht hruns
    refine ⟨_, getElem?_modifyScheduler.trans (by rw [hsched, map_some]), ?_⟩
    unfold Scheduler.moveToRunQueue
    split
    next =>
      split
      next => exact mem_cons_of_mem _ hmem
      next => exact hmem
    next => exact hmem

theorem Shrinks.checkWaitingState (hthread : s.threads id = some thread)
    (hstate : s.checkWaitingState checkWaiting id thread = some s') : Shrinks doomed s0 s' := by
  rcases checkWaitingState_cases hthread hstate with rfl | ⟨-, waiter, rfl⟩ | ⟨-, core, -, rfl⟩
  · exact h
  · exact h.setThread hthread rfl rfl rfl rfl
  · exact (h.moveToRunQueue core id).setThread hthread rfl rfl rfl rfl

theorem Shrinks.ofProcess_eq (hid : (s.threads id).isSome) (process : Pid) :
    s.ofProcess process id = s0.ofProcess process id := by
  obtain ⟨thread, hthread⟩ := isSome_iff_exists.1 hid
  obtain ⟨thread0, hthread0, -, -, hprocess, -⟩ := h.threads hthread
  rw [ofProcess, ofProcess, hthread, hthread0, any_some, any_some, hprocess]

theorem Shrinks.condemned_eq (hid : (s.threads id).isSome) : s.condemned id = s0.condemned id := by
  obtain ⟨thread, hthread⟩ := isSome_iff_exists.1 hid
  obtain ⟨thread0, hthread0, halive, htype, hprocess, -⟩ := h.threads hthread
  rw [condemned, condemned, hthread, hthread0, bind_some, bind_some, halive, htype,
    hprocess]

end

theorem condemned_of_dead (hthread : s.threads id = some thread) (hdead : thread.alive = false)
    (hmain : thread.type = .main) : s.condemned id = some thread.process := by
  rw [condemned, hthread, bind_some, if_pos ⟨hdead, hmain⟩]

theorem dead_of_condemned {process : Pid}
    (hthread : s.threads id = some thread) (h : s.condemned id = some process) :
    thread.alive = false ∧ thread.type = .main ∧ thread.process = process := by
  rw [condemned, hthread, bind_some] at h
  split at h
  next hdead => exact ⟨hdead.1, hdead.2, Option.some.inj h⟩
  next => cases h

theorem Shrinks.doomed_of_condemned (h : Shrinks (s0.Doomed queue) s0 s) (hs : s.Linked)
    {process : Pid} (hid : id ∈ queue) (hcondemned : s0.condemned id = some process) :
    ∀ t ∈ s.entries.filter (s.ofProcess process), s0.Doomed queue t := by
  intro t ht
  obtain ⟨hmem, hof⟩ := mem_filter.1 ht
  obtain ⟨core, hlinked⟩ := mem_entries.1 hmem
  obtain ⟨thread, hthread, -⟩ := hs.queued hlinked
  rw [h.ofProcess_eq (isSome_iff_exists.2 ⟨thread, hthread⟩)] at hof
  exact ⟨mem_entries.2 ⟨core, h.linked hlinked⟩, .inr ⟨id, hid, process, hcondemned, hof⟩⟩

/-! ## The walk over the wait queue -/

/-- The wait queue of the core ends in `rest`. -/
def WaitsBehind (s : Tasking) (core : Nat) (rest : List Tid) : Prop :=
  ∃ sched before, s.schedulers[core]? = some sched ∧ sched.waitQueue = before ++ rest

theorem WaitsBehind.linkedAt {t : Tid} (h : s.WaitsBehind core rest)
    (ht : t ∈ rest) : s.LinkedAt core t := by
  obtain ⟨sched, before, hsched, hqueue⟩ := h
  refine ⟨sched, hsched, mem_append_right _ ?_⟩
  rw [hqueue]
  exact mem_append_right _ ht

theorem WaitsBehind.nodup (hs : s.Linked) (h : s.WaitsBehind core rest) : rest.Nodup := by
  obtain ⟨sched, before, hsched, hqueue⟩ := h
  have hwait : sched.waitQueue.Nodup := (nodup_append.1 (hs.entries_nodup hsched)).2.1
  rw [hqueue] at hwait
  exact (nodup_append.1 hwait).2.1

theorem nextIn_append {before ids : List Tid} (h : id ∉ before) :
    Scheduler.nextIn (before ++ id :: ids) id = ids.head? := by
  induction before with
  | nil => rw [List.nil_append, Scheduler.nextIn, if_pos rfl]
  | cons t ts ih =>
    rw [List.mem_cons, not_or] at h
    rw [List.cons_append, Scheduler.nextIn, if_neg (Ne.symm h.1), ih h.2]

theorem WaitsBehind.checkWaitingState (hs : s.Linked) (hthread : s.threads id = some thread)
    (hcore : thread.scheduler = some core) (h : s.WaitsBehind core (id :: ids))
    (hstate : s.checkWaitingState checkWaiting id thread = some s') : s'.WaitsBehind core ids := by
  obtain ⟨sched, before, hsched, hqueue⟩ := h
  have hstays : s.WaitsBehind core ids :=
    ⟨sched, before ++ [id], hsched, by rw [hqueue, List.append_assoc, List.singleton_append]⟩
  rcases checkWaitingState_cases hthread hstate with rfl | ⟨-, waiter, rfl⟩ | ⟨-, core', hcore', rfl⟩
  · exact hstays
  · exact hstays
  · obtain rfl := mem_unique hcore hcore'
    have hnodup : (before ++ id :: ids).Nodup :=
      hqueue ▸ (nodup_append.1 (hs.entries_nodup hsched)).2.1
    have hnot : id ∉ before := fun hmem =>
      (nodup_append.1 hnodup).2.2 id hmem id mem_cons_self rfl
    have hid : id ∈ sched.waitQueue := by
      rw [hqueue]
      exact mem_append_right _ mem_cons_self
    refine ⟨sched.moveToRunQueue id, before, ?_, ?_⟩
    · exact getElem?_modifyScheduler.trans (by rw [hsched, map_some, if_pos rfl])
    · rw [Scheduler.moveToRunQueue, if_pos hid]
      rw [hqueue, List.erase_append_right _ hnot, List.erase_cons_head]

theorem WaitsBehind.purge (h : s.WaitsBehind core (id :: ids)) (hid : id ∈ dead) :
    (s.purge dead).WaitsBehind core (ids.filter fun t => t ∉ dead) := by
  obtain ⟨sched, before, hsched, hqueue⟩ := h
  refine ⟨sched.purge dead, before.filter fun t => t ∉ dead, getElem?_purge hsched, ?_⟩
  rw [Scheduler.purge]
  simp only [hqueue, List.filter_append]
  simp [hid]

theorem Linked.checkWaitingState (hs : s.Linked) (hthread : s.threads id = some thread)
    (h : s.checkWaitingState checkWaiting id thread = some s') : s'.Linked := by
  rcases checkWaitingState_cases hthread h with rfl | ⟨-, waiter, rfl⟩ | ⟨-, core, -, rfl⟩
  · exact hs
  · exact hs.setThread hthread rfl rfl
  · exact (hs.moveToRunQueue core id).setThread hthread rfl rfl

theorem checkWaitingState_isSome (checkWaiting : Tid → Option Waiter)
    (hthread : s.threads id = some thread) (hcore : thread.scheduler = some core) :
    ∃ s', s.checkWaitingState checkWaiting id thread = some s' := by
  have hunwait : ∃ s', s.unwait id = some s' := by
    unfold unwait
    rw [hthread]
    cases hwaiter : thread.waitManager <;> simp [hwaiter, hcore]
  unfold Tasking.checkWaitingState
  split
  next => exact ⟨s, rfl⟩
  next => exact hunwait
  next number hwaiter =>
    split
    next => exact hunwait
    next waiter _ =>
      unfold wait
      simp [hthread, hwaiter]

theorem processWaitQueue_round (hs : s.Linked)
    (checkWaiting : Tid → Option Waiter) (fuel : Nat) (h : s.WaitsBehind core (id :: ids)) :
    ∃ thread, s.threads id = some thread ∧ thread.scheduler = some core ∧
      s.LinkedAt core id ∧
      ((s.condemned id = none ∧ ∃ s', s.checkWaitingState checkWaiting id thread = some s' ∧
          processWaitQueue core checkWaiting (fuel + 1) s (some id) =
            processWaitQueue core checkWaiting fuel s' ids.head?) ∨
        (s.condemned id = none ∧
          processWaitQueue core checkWaiting (fuel + 1) s (some id) =
            processWaitQueue core checkWaiting fuel (s.purge [id]) ids.head?) ∨
        (s.condemned id = some thread.process ∧
          processWaitQueue core checkWaiting (fuel + 1) s (some id) =
            processWaitQueue core checkWaiting fuel
              (s.purge (s.entries.filter (s.ofProcess thread.process))) ids.head?)) := by
  obtain ⟨sched, before, hsched, hqueue⟩ := h
  have hid : id ∈ sched.waitQueue := by
    rw [hqueue]
    exact mem_append_right _ mem_cons_self
  have hlinked : s.LinkedAt core id := ⟨sched, hsched, mem_append_right _ hid⟩
  obtain ⟨thread, hthread, -, hcore⟩ := hs.queued hlinked
  have hnext : sched.next id = ids.head? := by
    have hnodup : (before ++ id :: ids).Nodup :=
      hqueue ▸ (nodup_append.1 (hs.entries_nodup hsched)).2.1
    rw [Scheduler.next, if_pos hid, hqueue]
    exact nextIn_append fun hmem =>
      (nodup_append.1 hnodup).2.2 id hmem id mem_cons_self rfl
  refine ⟨thread, hthread, hcore, hlinked, ?_⟩
  rw [processWaitQueue]
  simp only [hthread, hsched, hnext]
  rcases checkAliveState_cases hs core id thread with
    ⟨halive, heq⟩ | ⟨hdead, dead, heq, -, ⟨hmain, rfl⟩ | ⟨hmain, -, rfl⟩ | ⟨-, hnot, -⟩⟩
  · obtain ⟨s', hs'⟩ := checkWaitingState_isSome checkWaiting hthread hcore
    refine .inl ⟨?_, s', hs', by simp [heq, hs']⟩
    rw [condemned, hthread, bind_some, if_neg fun h => (by simp [halive] at h)]
  · exact .inr (.inr ⟨condemned_of_dead hthread hdead hmain, by simp [heq]⟩)
  · refine .inr (.inl ⟨?_, by simp [heq]⟩)
    rw [condemned, hthread, bind_some, if_neg fun h => hmain h.2]
  · exact absurd hlinked hnot

theorem processWaitQueue_walk (checkWaiting : Tid → Option Waiter) (hwalk : s0.WalkSafe rest)
    {fuel : Nat} (hs : s.Linked) (hshrinks : Shrinks (s0.Doomed queue) s0 s)
    (hrest : s.WaitsBehind core rest) (hsub : ∀ t ∈ rest, t ∈ queue) (hfuel : rest.length ≤ fuel) :
    ∃ s', processWaitQueue core checkWaiting fuel s rest.head? = .ok s' ∧ s'.Linked ∧
      Shrinks (s0.Doomed queue) s0 s' := by
  -- along the walk: the rest of the wait queue is linked, and is what the walk will visit
  induction hwalk generalizing s fuel with
  | nil =>
    refine ⟨s, ?_, hs, hshrinks⟩
    cases fuel <;> rfl
  | @stays id ids hid hids ih =>
    obtain ⟨fuel, rfl⟩ : ∃ n, fuel = n + 1 :=
      Nat.exists_eq_add_one_of_ne_zero fun h => (by simp [h] at hfuel)
    obtain ⟨thread, hthread, hcore, hlinked, hround⟩ :=
      processWaitQueue_round hs checkWaiting fuel hrest
    have hsome : (s.threads id).isSome := isSome_iff_exists.2 ⟨thread, hthread⟩
    have hsub' : ∀ t ∈ ids, t ∈ queue := fun t ht => hsub t (mem_cons_of_mem _ ht)
    have hfuel' : ids.length ≤ fuel := Nat.le_of_succ_le_succ hfuel
    rw [head?_cons]
    rcases hround with ⟨-, s1, hs1, heq⟩ | ⟨-, heq⟩ | ⟨hcondemned, -⟩
    · rw [heq]
      exact ih (hs.checkWaitingState hthread hs1) (hshrinks.checkWaitingState hthread hs1)
        (hrest.checkWaitingState hs hthread hcore hs1) hsub' hfuel'
    · rw [heq]
      have hentry : ∀ t ∈ [id], t ∈ s.entries := by
        intro t ht
        rw [List.mem_singleton.1 ht]
        exact mem_entries.2 ⟨core, hlinked⟩
      refine ih (hs.purge hentry) (hshrinks.purge ?_) ?_ hsub' hfuel'
      · intro t ht
        rw [List.mem_singleton.1 ht]
        exact ⟨mem_entries.2 ⟨core, hshrinks.linked hlinked⟩, .inl (hsub id mem_cons_self)⟩
      · have hnot : id ∉ ids := (List.nodup_cons.1 (hrest.nodup hs)).1
        have hsame : ids.filter (fun t => t ∉ [id]) = ids := by
          apply List.filter_eq_self.2
          intro t ht
          have hne : t ≠ id := fun h => hnot (h ▸ ht)
          simp [hne]
        rw [← hsame]
        exact hrest.purge (List.mem_singleton.2 rfl)
    · rw [hshrinks.condemned_eq hsome, hid] at hcondemned
      cases hcondemned
  | @removes id ids process hid hnext hids ih =>
    obtain ⟨fuel, rfl⟩ : ∃ n, fuel = n + 1 :=
      Nat.exists_eq_add_one_of_ne_zero fun h => (by simp [h] at hfuel)
    obtain ⟨thread, hthread, -, hlinked, hround⟩ :=
      processWaitQueue_round hs checkWaiting fuel hrest
    have hsome : (s.threads id).isSome := isSome_iff_exists.2 ⟨thread, hthread⟩
    have hcondemned : s.condemned id = some process := (hshrinks.condemned_eq hsome).trans hid
    obtain ⟨-, -, rfl⟩ := dead_of_condemned hthread hcondemned
    rw [head?_cons]
    rcases hround with ⟨hnone, -⟩ | ⟨hnone, -⟩ | ⟨-, heq⟩
    · rw [hcondemned] at hnone
      cases hnone
    · rw [hcondemned] at hnone
      cases hnone
    · have hfilter : ids.filter (fun t => t ∉ s.entries.filter (s.ofProcess thread.process)) =
          ids.filter fun t => !s0.ofProcess thread.process t := by
        apply List.filter_congr
        intro t ht
        have hlinkedt : s.LinkedAt core t := hrest.linkedAt (mem_cons_of_mem _ ht)
        obtain ⟨u, hu, -⟩ := hs.queued hlinkedt
        rw [← hshrinks.ofProcess_eq (isSome_iff_exists.2 ⟨u, hu⟩)]
        simp [mem_entries.2 ⟨core, hlinkedt⟩]
      have hhead : ids.head? = (ids.filter fun t => !s0.ofProcess thread.process t).head? := by
        cases ids with
        | nil => rfl
        | cons t ts =>
          have ht := hnext t rfl
          rw [List.filter_cons_of_pos (by rw [ht]; rfl), head?_cons, head?_cons]
      have hself : id ∈ s.entries.filter (s.ofProcess thread.process) := by
        refine mem_filter.2 ⟨mem_entries.2 ⟨core, hlinked⟩, ?_⟩
        rw [ofProcess, hthread, any_some, decide_eq_true_iff]
      rw [heq, hhead]
      refine ih (hs.purge fun t ht => List.mem_of_mem_filter ht)
        (hshrinks.purge (hshrinks.doomed_of_condemned hs (hsub id mem_cons_self) hid))
        (hfilter ▸ hrest.purge hself) (fun t ht => ?_) ?_
      · exact hsub t (mem_cons_of_mem _ (List.mem_of_mem_filter ht))
      · exact (List.length_filter_le _ _).trans (Nat.le_of_succ_le_succ hfuel)

/-! ## The selecting loop -/

/-- The idle thread of the core is dead. -/
def IdleDead (s : Tasking) (core : Nat) : Prop :=
  ∃ sched id thread, s.schedulers[core]? = some sched ∧ sched.idleEntry = some id ∧
    s.threads id = some thread ∧ thread.alive = false

/-- The faults other than following a deleted entry: a panic, no such core, or nothing to run but a
dead idle thread. -/
def Excused (s : Tasking) (core : Nat) : ScheduleFault → Prop
  | .deletedEntry _ => False
  | .noScheduler => s.schedulers[core]? = none
  | .noIdleThread => True
  | .waitingInRunQueue _ => True
  | .endless => s.IdleDead core

/-- The thread is the idle thread of the core or in its run queue, and alive. -/
def Selectable (s : Tasking) (core : Nat) (id : Tid) : Prop :=
  ∃ sched thread, s.schedulers[core]? = some sched ∧
    (id ∈ sched.runQueue ∨ sched.idleEntry = some id) ∧
    s.threads id = some thread ∧ thread.alive = true

/-- The core has nothing to run but its idle thread. -/
structure OnlyIdle (s : Tasking) (core : Nat) (id : Tid) (thread : Thread) : Prop
    extends s.Linked where
  only : ∃ sched, s.schedulers[core]? = some sched ∧ sched.runQueue = [] ∧
    sched.idleEntry = some id
  found : s.threads id = some thread

theorem OnlyIdle.purge (h : s.OnlyIdle core id thread) (hdead : ∀ t ∈ dead, t ∈ s.entries) :
    (s.purge dead).OnlyIdle core id thread := by
  obtain ⟨sched, hsched, hempty, hidle⟩ := h.only
  refine ⟨h.toLinked.purge hdead, ⟨sched.purge dead, getElem?_purge hsched, ?_, hidle⟩, ?_⟩
  · rw [Scheduler.purge, hempty, List.filter_nil]
  · -- the idle thread has no entry
    have hnot : id ∉ dead := by
      intro hmem
      obtain ⟨_, hlinked⟩ := mem_entries.1 (hdead id hmem)
      obtain ⟨u, hu, hne, -⟩ := h.toLinked.queued hlinked
      obtain ⟨v, hv, hpriority⟩ := h.toLinked.idle hsched hidle
      obtain rfl := mem_unique hu hv
      exact hne hpriority
    exact (if_neg hnot).trans h.found

theorem OnlyIdle.select (h : s.OnlyIdle core id thread)
    (hdead : thread.alive = false) (hwaiter : thread.waitManager.isSome = false) (fuel : Nat) :
    select core fuel s none = .error .endless := by
  induction fuel generalizing s with
  | zero => rfl
  | succ fuel ih =>
    obtain ⟨sched, hsched, hempty, hidle⟩ := h.only
    have hcandidate : s.candidate sched none = .ok id := by
      simp [candidate, Scheduler.first, hempty, hidle]
    rw [Tasking.select, hsched]
    simp only [hcandidate, h.found, hwaiter, Bool.false_eq_true, if_false]
    rcases checkAliveState_cases h.toLinked core id thread with
      ⟨halive, -⟩ | ⟨-, dead, heq, hentries, -⟩
    · rw [hdead] at halive
      cases halive
    · simp only [heq]
      exact ih (h.purge hentries)

theorem length_entries_purge_lt (hid : id ∈ s.entries)
    (hdead : id ∈ dead) : (s.purge dead).entries.length < s.entries.length := by
  rw [entries_purge]
  refine List.length_filter_lt_length_iff_exists.2 ⟨id, hid, ?_⟩
  simp [hdead]

theorem Shrinks.doomed_of_dead
    (h : Shrinks (s0.Doomed queue) s0 s) (hs : s.Linked)
    (hqueue : ∀ t, s0.LinkedAt core t → t ∈ queue) (hlinked : s.LinkedAt core id)
    (hthread : s.threads id = some thread) (hdead : thread.alive = false)
    (hwhich : (thread.type = .main ∧ dead = s.entries.filter (s.ofProcess thread.process)) ∨
      (thread.type ≠ .main ∧ s.LinkedAt core id ∧ dead = [id]) ∨
      (thread.type ≠ .main ∧ ¬ s.LinkedAt core id ∧ dead = [])) :
    id ∈ dead ∧ ∀ t ∈ dead, s0.Doomed queue t := by
  have hid : id ∈ queue := hqueue id (h.linked hlinked)
  have hentry : id ∈ s.entries := mem_entries.2 ⟨core, hlinked⟩
  rcases hwhich with ⟨hmain, rfl⟩ | ⟨-, -, rfl⟩ | ⟨-, hnot, -⟩
  · constructor
    · refine mem_filter.2 ⟨hentry, ?_⟩
      rw [ofProcess, hthread, any_some, decide_eq_true_iff]
    · have hcondemned : s0.condemned id = some thread.process := by
        rw [← h.condemned_eq (isSome_iff_exists.2 ⟨thread, hthread⟩)]
        exact condemned_of_dead hthread hdead hmain
      exact h.doomed_of_condemned hs hid hcondemned
  · refine ⟨mem_cons_self, fun t ht => ?_⟩
    rw [List.mem_singleton.1 ht]
    exact ⟨mem_entries.2 ⟨core, h.linked hlinked⟩, .inl hid⟩
  · exact absurd hlinked hnot

theorem Shrinks.idleDead (h : Shrinks doomed s0 s) (hidle : s.IdleDead core) :
    s0.IdleDead core := by
  obtain ⟨sched, id, thread, hsched, hentry, hthread, hdead⟩ := hidle
  obtain ⟨thread0, hthread0, halive, -⟩ := h.threads hthread
  have hidle := h.idle core
  rw [hsched, map_some, eq_comm, map_eq_some_iff] at hidle
  obtain ⟨sched0, hsched0, hentry0⟩ := hidle
  exact ⟨sched0, id, thread0, hsched0, hentry0.trans hentry, hthread0, halive ▸ hdead⟩

theorem select_selects {core fuel : Nat} {entry : Option Tid} (hs : s.Linked)
    (hshrinks : Shrinks (s0.Doomed queue) s0 s) (hqueue : ∀ t, s0.LinkedAt core t → t ∈ queue)
    {sched : Scheduler} (hsched : s.schedulers[core]? = some sched)
    (hentry : ∀ t, entry = some t → (s.threads t).isSome ∧ t ∉ sched.waitQueue)
    (hfuel : s.entries.length < fuel) :
    (∃ s1 id, select core fuel s entry = .ok (s1.setCurrentEntry core id, id) ∧
      s1.Linked ∧ Shrinks (s0.Doomed queue) s0 s1 ∧ s1.Selectable core id) ∨
    ∃ fault, select core fuel s entry = .error fault ∧ s0.Excused core fault := by
  induction fuel generalizing s entry sched with
  | zero => exact absurd hfuel (Nat.not_lt_zero _)
  | succ fuel ih =>
    rw [select, hsched]
    dsimp only
    cases hcandidate : s.candidate sched entry with
    | error fault =>
      refine .inr ⟨fault, rfl, ?_⟩
      rcases candidate_error hcandidate with rfl | ⟨t, ht, hnone, -⟩
      · trivial
      · have hsome := (hentry t ht).1
        rw [hnone] at hsome
        cases hsome
    | ok id =>
      have hcases := candidate_cases (fun t ht => (hentry t ht).2) hcandidate
      have hthread : ∃ thread, s.threads id = some thread := by
        rcases hcases with hrun | ⟨-, hidle⟩
        · obtain ⟨thread, hthread, -⟩ := hs.queued ⟨sched, hsched, List.mem_append_left _ hrun⟩
          exact ⟨thread, hthread⟩
        · obtain ⟨thread, hthread, -⟩ := hs.idle hsched hidle
          exact ⟨thread, hthread⟩
      obtain ⟨thread, hthread⟩ := hthread
      simp only [hthread]
      cases hwaiter : thread.waitManager.isSome with
      | true => exact .inr ⟨.waitingInRunQueue id, rfl, trivial⟩
      | false =>
        rw [if_neg Bool.false_ne_true]
        rcases checkAliveState_cases hs core id thread with
          ⟨halive, heq⟩ | ⟨hdead, dead, heq, hentries, hwhich⟩
        · exact .inl ⟨s, id, by simp [heq], hs, hshrinks, sched, thread, hsched,
            hcases.imp_right And.right, hthread, halive⟩
        · simp only [heq]
          rcases hcases with hrun | ⟨hempty, hidle⟩
          · have hlinked : s.LinkedAt core id :=
              ⟨sched, hsched, List.mem_append_left _ hrun⟩
            have hid : id ∈ s.entries := mem_entries.2 ⟨core, hlinked⟩
            obtain ⟨hself, hdoomed⟩ :=
              hshrinks.doomed_of_dead hs hqueue hlinked hthread hdead hwhich
            have hlt := length_entries_purge_lt hid hself
            exact ih (hs.purge hentries) (hshrinks.purge hdoomed) (getElem?_purge hsched)
              (fun t ht => (by cases ht)) (by omega)
          · have honly : s.OnlyIdle core id thread :=
              ⟨hs, ⟨sched, hsched, hempty, hidle⟩, hthread⟩
            refine .inr ⟨.endless, (honly.purge hentries).select hdead hwaiter fuel, ?_⟩
            exact hshrinks.idleDead ⟨sched, id, thread, hsched, hidle, hthread, hdead⟩

/-! ## Whole calls and runs -/

/-- The queues are linked, and every scheduler continues from an idle entry or from one of its run
queue, or not at all. -/
structure EntryInv (s : Tasking) : Prop extends s.Linked where
  currentLinked : ∀ {core : Nat} {id : Tid}, s.current core = some id →
    ∃ thread, s.threads id = some thread ∧ (thread.priority = .idle ∨ s.RunsOn core id)

/-- No thread that a scheduler continues from is removed when the entries in `queue` are checked. -/
def Spares (s : Tasking) (queue : List Tid) (current : Option Tid) : Prop :=
  ∀ id, current = some id → id ∈ s.entries → ∀ t ∈ queue, ∀ process,
    s.condemned t = some process → s.ofProcess process id = false

/-- The wait queue is safe to walk, and no core continues from a thread that is removed. -/
def EntriesSafe (s : Tasking) (core : Nat) : Prop :=
  ∀ sched, s.schedulers[core]? = some sched → s.WalkSafe sched.waitQueue ∧
    s.Spares sched.waitQueue (s.current core) ∧
    ∀ other, other ≠ core → s.Spares sched.entries (s.current other)

/-- What `schedule` may end with: an alive thread of the run queue or the idle thread, or an excuse. -/
def Selects (s : Tasking) (core : Nat) : Except ScheduleFault (Tasking × Tid) → Prop
  | .ok (s', id) => s'.Selectable core id
  | .error fault => s.Excused core fault

theorem EntryInv.not_doomed (hs : s.EntryInv)
    (hcurrent : s.current core = some id) (hspares : s.Spares queue (s.current core))
    (hqueue : s.RunsOn core id → id ∉ queue) : ¬ s.Doomed queue id := by
  rintro ⟨hentry, hmem | ⟨t, ht, process, hcondemned, hof⟩⟩
  · obtain ⟨thread, hthread, hidle | hruns⟩ := hs.currentLinked hcurrent
    · obtain ⟨_, hlinked⟩ := mem_entries.1 hentry
      obtain ⟨u, hu, hne, -⟩ := hs.queued hlinked
      obtain rfl := mem_unique hthread hu
      exact hne hidle
    · exact hqueue hruns hmem
  · rw [hspares id hcurrent hentry t ht process hcondemned] at hof
    cases hof

theorem current_setCurrentEntry :
    (s.setCurrentEntry core id).current j =
      if core = j then (s.schedulers[j]?).map fun _ => id else s.current j := by
  rw [current, setCurrentEntry, getElem?_modifyScheduler, current]
  cases s.schedulers[j]? <;> split <;> simp_all

theorem runsOn_setCurrentEntry {id t : Tid} :
    (s.setCurrentEntry core id).RunsOn j t ↔ s.RunsOn j t := by
  simp only [RunsOn, setCurrentEntry, getElem?_modifyScheduler, map_eq_some_iff]
  constructor
  · rintro ⟨_, ⟨sched, hsched, rfl⟩, ht⟩
    refine ⟨sched, hsched, ?_⟩
    split at ht <;> exact ht
  · rintro ⟨sched, hsched, ht⟩
    refine ⟨_, ⟨sched, hsched, rfl⟩, ?_⟩
    split <;> exact ht

theorem Selectable.setCurrentEntry (h : s.Selectable core id) :
    (s.setCurrentEntry core id).Selectable core id := by
  obtain ⟨sched, thread, hsched, hid, hthread⟩ := h
  refine ⟨{ sched with currentEntry := some id }, thread, ?_, hid, hthread⟩
  exact getElem?_modifyScheduler.trans (by rw [hsched, map_some, if_pos rfl])

theorem Doomed.mono {queue queue' : List Tid} (h : s.Doomed queue id)
    (hsub : ∀ t ∈ queue, t ∈ queue') : s.Doomed queue' id := by
  obtain ⟨hentry, hmem | ⟨t, ht, hprocess⟩⟩ := h
  · exact ⟨hentry, .inl (hsub id hmem)⟩
  · exact ⟨hentry, .inr ⟨t, hsub t ht, hprocess⟩⟩

theorem Shrinks.scheduler (h : Shrinks doomed s0 s) {sched0 : Scheduler}
    (hsched0 : s0.schedulers[core]? = some sched0) : ∃ sched, s.schedulers[core]? = some sched := by
  have hidle := h.idle core
  rw [hsched0, map_some, map_eq_some_iff] at hidle
  obtain ⟨sched, hsched, -⟩ := hidle
  exact ⟨sched, hsched⟩

theorem EntryInv.current_survives (hs : s.EntryInv) {sched sched1 : Scheduler} {s1 : Tasking}
    (hcurrent : s.current core = some id) (hsched : s.schedulers[core]? = some sched)
    (hspares : s.Spares sched.waitQueue (s.current core)) (hs1 : s1.Linked)
    (hwalked : Shrinks (s.Doomed sched.waitQueue) s s1)
    (hsched1 : s1.schedulers[core]? = some sched1) :
    (s1.threads id).isSome ∧ id ∉ sched1.waitQueue := by
  have hnot : ¬ s.Doomed sched.waitQueue id := by
    refine hs.not_doomed hcurrent hspares ?_
    rintro ⟨sched', hsched', hrun⟩
    obtain rfl := mem_unique hsched hsched'
    exact hs.toLinked.not_waiting hsched (.inl hrun)
  obtain ⟨thread, hthread, hwhere⟩ := hs.currentLinked hcurrent
  refine ⟨hwalked.kept hnot (isSome_iff_exists.2 ⟨thread, hthread⟩), fun hwait => ?_⟩
  rcases hwhere with hidle | hruns
  · obtain ⟨u, hu, hne, -⟩ :=
      hs.queued (hwalked.linked ⟨sched1, hsched1, mem_append_right _ hwait⟩)
    obtain rfl := mem_unique hthread hu
    exact hne hidle
  · obtain ⟨sched', hsched', hrun⟩ := hwalked.runs hnot hruns
    obtain rfl := mem_unique hsched1 hsched'
    exact hs1.not_waiting hsched1 (.inl hrun) hwait

theorem EntryInv.schedule (hs : s.EntryInv) (hsafe : s.EntriesSafe core)
    (checkWaiting : Tid → Option Waiter) :
    (∃ s1 id, s.schedule core checkWaiting = .ok (s1.setCurrentEntry core id, id) ∧
      s1.Linked ∧ s1.Selectable core id ∧
      ∀ sched, s.schedulers[core]? = some sched → Shrinks (s.Doomed sched.entries) s s1) ∨
    ∃ fault, s.schedule core checkWaiting = .error fault ∧ s.Excused core fault := by
  unfold Tasking.schedule
  cases hsched : s.schedulers[core]? with
  | none => exact .inr ⟨.noScheduler, rfl, hsched⟩
  | some sched =>
    obtain ⟨hwalk, hspares, -⟩ := hsafe sched hsched
    obtain ⟨s1, hrun, hs1, hwalked⟩ := processWaitQueue_walk checkWaiting hwalk
      hs.toLinked (Shrinks.refl (s.Doomed sched.waitQueue) s) ⟨sched, [], hsched, rfl⟩
      (fun t ht => ht) (Nat.le_refl _)
    obtain ⟨sched1, hsched1⟩ := hwalked.scheduler hsched
    have hentry : ∀ t, sched.currentEntry = some t →
        (s1.threads t).isSome ∧ t ∉ sched1.waitQueue := by
      intro t ht
      have hcurrent : s.current core = some t := by
        rw [current, hsched, bind_some, ht]
      exact hs.current_survives hcurrent hsched hspares hs1 hwalked hsched1
    have hshrinks : Shrinks (s.Doomed sched.entries) s s1 :=
      hwalked.mono fun t ht => ht.mono fun u hu => mem_append_right _ hu
    have hqueue : ∀ t, s.LinkedAt core t → t ∈ sched.entries := by
      rintro t ⟨sched', hsched', ht⟩
      obtain rfl := mem_unique hsched hsched'
      exact ht
    dsimp only
    rw [hrun]
    rcases select_selects hs1 hshrinks hqueue hsched1 hentry (Nat.lt_succ_self _) with
      ⟨s2, id, heq, hs2, hshrinks2, hid⟩ | ⟨fault, heq, hexcused⟩
    · refine .inl ⟨s2, id, heq, hs2, hid, fun sched' hsched' => ?_⟩
      obtain rfl := Option.some.inj hsched'
      exact hshrinks2
    · exact .inr ⟨fault, heq, hexcused⟩

/-! ### Every call keeps the invariant -/

theorem EntryInv.setThread (hs : s.EntryInv) {thread thread' : Thread}
    (hthread : s.threads id = some thread) (hpriority : thread'.priority = thread.priority)
    (hscheduler : thread'.scheduler = thread.scheduler) : (s.setThread id thread').EntryInv where
  toLinked := hs.toLinked.setThread hthread hpriority hscheduler
  currentLinked {core t} hcurrent := by
    obtain ⟨old, hold, hwhere⟩ := hs.currentLinked hcurrent
    by_cases ht : t = id
    · subst ht
      obtain rfl := mem_unique hthread hold
      exact ⟨thread', threads_setThread_self, hwhere.imp_left hpriority.trans⟩
    · exact ⟨old, (threads_setThread_of_ne ht).trans hold, hwhere⟩

theorem runsOn_modifyScheduler {f : Scheduler → Scheduler}
    (hf : ∀ sched t, (f sched).currentEntry = some t →
      sched.currentEntry = some t ∧ (t ∈ sched.runQueue → t ∈ (f sched).runQueue))
    (hcurrent : (s.modifyScheduler core f).current j = some id) :
    s.current j = some id ∧ (s.RunsOn j id → (s.modifyScheduler core f).RunsOn j id) := by
  rw [current, Option.bind_eq_some_iff] at hcurrent
  obtain ⟨sched', hsched', hentry⟩ := hcurrent
  obtain ⟨sched, hsched, heq⟩ := map_eq_some_iff.1
    (getElem?_modifyScheduler.symm.trans hsched')
  have hboth : sched.currentEntry = some id ∧ (id ∈ sched.runQueue → id ∈ sched'.runQueue) := by
    split at heq
    next =>
      subst heq
      exact hf sched id hentry
    next =>
      subst heq
      exact ⟨hentry, fun h => h⟩
  refine ⟨by rw [current, hsched, bind_some, hboth.1], ?_⟩
  rintro ⟨sched2, hsched2, hrun⟩
  obtain rfl := mem_unique hsched hsched2
  exact ⟨sched', hsched', hboth.2 hrun⟩

section

variable (hs : s.EntryInv)
include hs

theorem EntryInv.modifyScheduler {f : Scheduler → Scheduler}
    (hlinked : (s.modifyScheduler core f).Linked)
    (hf : ∀ sched t, (f sched).currentEntry = some t → sched.currentEntry = some t ∧
      (t ∈ sched.runQueue → t ∈ (f sched).runQueue)) :
    (s.modifyScheduler core f).EntryInv where
  toLinked := hlinked
  currentLinked hcurrent := by
    obtain ⟨hbefore, hruns⟩ := runsOn_modifyScheduler hf hcurrent
    obtain ⟨thread, hthread, hwhere⟩ := hs.currentLinked hbefore
    exact ⟨thread, hthread, hwhere.imp_right hruns⟩

theorem EntryInv.moveToWaitQueue (core : Nat) (id : Tid) :
    (s.modifyScheduler core (·.moveToWaitQueue id)).EntryInv := by
  refine hs.modifyScheduler (hs.toLinked.moveToWaitQueue core id) fun sched t hcurrent => ?_
  unfold Scheduler.moveToWaitQueue at hcurrent ⊢
  split at hcurrent
  next hrun =>
    by_cases hself : sched.currentEntry = some id
    · rw [if_pos hself] at hcurrent
      cases hcurrent
    · rw [if_neg hself] at hcurrent
      rw [if_pos hrun]
      have hne : t ≠ id := fun h => hself (h ▸ hcurrent)
      exact ⟨hcurrent, fun ht => (List.mem_erase_of_ne hne).2 ht⟩
  next hrun =>
    rw [if_neg hrun]
    exact ⟨hcurrent, fun ht => ht⟩

theorem EntryInv.moveToRunQueue (core : Nat) (id : Tid) :
    (s.modifyScheduler core (·.moveToRunQueue id)).EntryInv := by
  refine hs.modifyScheduler (hs.toLinked.moveToRunQueue core id) fun sched t hcurrent => ?_
  unfold Scheduler.moveToRunQueue at hcurrent ⊢
  split at hcurrent
  next hwait =>
    rw [if_pos hwait]
    exact ⟨hcurrent, fun ht => mem_cons_of_mem _ ht⟩
  next hwait =>
    rw [if_neg hwait]
    exact ⟨hcurrent, fun ht => ht⟩

theorem EntryInv.add (hcore : core < s.schedulers.length) (hnew : s.threads id = none) :
    (s.add core id thread).EntryInv where
  toLinked := hs.toLinked.add hcore hnew
  currentLinked {j t} hcurrent := by
    obtain ⟨hbefore, hruns⟩ := runsOn_modifyScheduler (fun sched u hu => by
      rw [Scheduler.currentEntry_add] at hu
      refine ⟨hu, fun hrun => ?_⟩
      unfold Scheduler.add
      split
      next => exact hrun
      next => exact mem_cons_of_mem _ hrun) hcurrent
    obtain ⟨old, hold, hwhere⟩ := hs.currentLinked hbefore
    have hne : t ≠ id := by
      rintro rfl
      exact Option.some_ne_none old (hold.symm.trans hnew)
    exact ⟨old, (threads_setThread_of_ne hne).trans hold, hwhere.imp_right hruns⟩

theorem EntryInv.wait {waiter : Option Waiter} (h : s.wait id waiter = some s') : s'.EntryInv := by
  obtain ⟨thread, hthread, ⟨-, rfl⟩ | ⟨-, core, -, rfl⟩⟩ := wait_cases h
  · exact hs.setThread hthread rfl rfl
  · exact (hs.moveToWaitQueue core id).setThread hthread rfl rfl

theorem EntryInv.unwait (h : s.unwait id = some s') : s'.EntryInv := by
  obtain ⟨thread, hthread, ⟨-, rfl⟩ | ⟨-, core, -, rfl⟩⟩ := unwait_cases h
  · exact hs
  · exact (hs.moveToRunQueue core id).setThread hthread rfl rfl

theorem EntryInv.enterHandler {cause : Interruption} (h : s.enterHandler id cause = some s') :
    s'.EntryInv := by
  obtain ⟨thread, hthread, ⟨-, rfl⟩ | ⟨-, core, -, rfl⟩⟩ := enterHandler_cases h
  · exact hs
  · exact (hs.moveToWaitQueue core id).setThread hthread rfl rfl

theorem EntryInv.restoreInterruptedState (h : s.restoreInterruptedState id = some s') :
    s'.EntryInv := by
  obtain ⟨thread, info, s1, hthread, hinfo, hs1, rfl⟩ := restoreInterruptedState_cases h
  exact (hs.wait hs1).setThread (threads_wait hthread hs1) rfl rfl

end

theorem EntryInv.after_schedule (hs : s.EntryInv) (hsafe : s.EntriesSafe core)
    (h : s.schedule core checkWaiting = .ok (s', id)) : s'.EntryInv := by
  obtain ⟨sched, hsched⟩ : ∃ sched, s.schedulers[core]? = some sched := by
    unfold Tasking.schedule at h
    split at h
    next => cases h
    next sched hsched => exact ⟨sched, hsched⟩
  rcases hs.schedule hsafe checkWaiting with ⟨s1, id', heq, hs1, hid, hshrinks⟩ | ⟨fault, heq, -⟩
  · obtain ⟨rfl, rfl⟩ := Prod.mk.inj (Except.ok.inj (h.symm.trans heq))
    have hothers := (hsafe sched hsched).2.2
    specialize hshrinks sched hsched
    refine ⟨hs1.setCurrentEntry core id, ?_⟩
    intro j t hcurrent
    simp only [runsOn_setCurrentEntry]
    rw [current_setCurrentEntry] at hcurrent
    split at hcurrent
    next hj =>
      subst hj
      obtain ⟨sched1, thread, hsched1, hwhere, hthread, -⟩ := hid
      rw [hsched1] at hcurrent
      obtain rfl := Option.some.inj hcurrent
      refine ⟨thread, hthread, ?_⟩
      rcases hwhere with hrun | hidle
      · exact .inr ⟨sched1, hsched1, hrun⟩
      · obtain ⟨idle, hidle, hpriority⟩ := hs1.idle hsched1 hidle
        obtain rfl := mem_unique hthread hidle
        exact .inl hpriority
    next hj =>
      rw [hshrinks.current] at hcurrent
      have hnot : ¬ s.Doomed sched.entries t := by
        refine hs.not_doomed hcurrent (hothers j (Ne.symm hj)) ?_
        rintro ⟨schedj, hschedj, hrun⟩ hmem
        exact hj (Removal.core_unique hs.nodup hsched hschedj hmem (List.mem_append_left _ hrun))
      obtain ⟨thread, hthread, hwhere⟩ := hs.currentLinked hcurrent
      obtain ⟨thread1, hthread1⟩ := isSome_iff_exists.1
        (hshrinks.kept hnot (isSome_iff_exists.2 ⟨thread, hthread⟩))
      obtain ⟨thread0, hthread0, -, -, -, hpriority⟩ := hshrinks.threads hthread1
      obtain rfl := mem_unique hthread hthread0
      exact ⟨thread1, hthread1, hwhere.imp hpriority.trans (hshrinks.runs hnot)⟩
  · rw [heq] at h
    cases h

end Tasking

/-- The calls that keep every pointer to an entry good. -/
def TaskingCall.KeepsEntries (s : Tasking) : TaskingCall → Prop
  | .schedule core _ => s.EntriesSafe core
  | _ => True

namespace Tasking

variable {s s' : Tasking}

theorem EntryInv.call (hs : s.EntryInv) {call : TaskingCall} (hok : call.KeepsEntries s)
    (h : s.call call = some s') : s'.EntryInv := by
  cases call with
  | add core id type priority process =>
    simp only [Tasking.call] at h
    split at h
    next hnew =>
      obtain rfl := Option.some.inj h
      exact hs.add hnew.1 hnew.2
    next => cases h
  | wait id waiter => exact hs.wait h
  | unwait id => exact hs.unwait h
  | kill id =>
    obtain ⟨thread, hthread, rfl⟩ := map_eq_some_iff.1 h
    exact hs.setThread hthread rfl rfl
  | enterIrqHandler id irq | enterSignalHandler id signal => exact hs.enterHandler h
  | restoreInterruptedState id => exact hs.restoreInterruptedState h
  | increaseWaitPriority core id =>
    obtain rfl := Option.some.inj h
    refine hs.modifyScheduler (hs.toLinked.increaseWaitPriority core id) fun sched t hcurrent => ?_
    unfold Scheduler.increaseWaitPriority at hcurrent ⊢
    split at hcurrent
    next hwait =>
      rw [if_pos hwait]
      exact ⟨hcurrent, fun ht => ht⟩
    next hwait =>
      rw [if_neg hwait]
      exact ⟨hcurrent, fun ht => ht⟩
  | schedule core checkWaiting =>
    obtain ⟨id, hschedule⟩ := call_schedule h
    exact hs.after_schedule hok hschedule

theorem entryInv_initializeBsp (cores : Nat) : (initializeBsp cores).EntryInv where
  toLinked := (queueInv_initializeBsp cores).toLinked
  currentLinked {core id} h := by
    rw [current, Option.bind_eq_some_iff] at h
    obtain ⟨sched, hsched, hcurrent⟩ := h
    rw [List.eq_of_mem_replicate (List.mem_of_getElem? hsched)] at hcurrent
    cases hcurrent

end Tasking

/-- Where the condition is met, `schedule` follows no deleted entry and selects a live thread of the
queue or the idle one. -/
theorem schedule_follows_linked_entries {s : Tasking}
    (hs : taskingCalls.Reachable (fun s call => call.KeepsEntries s) s) {core : Nat}
    (hsafe : s.EntriesSafe core) (checkWaiting : Tid → Option Waiter) :
    s.Selects core (s.schedule core checkWaiting) := by
  have hinv : s.EntryInv := by
    refine hs.invariant ?_ ?_
    · rintro s ⟨cores, rfl⟩
      exact Tasking.entryInv_initializeBsp cores
    · intro s call s' hinv hok hstep
      exact hinv.call hok hstep
  rcases hinv.schedule hsafe checkWaiting with ⟨s1, id, heq, -, hid, -⟩ | ⟨fault, heq, hexcused⟩
  · rw [heq]
    exact hid.setCurrentEntry
  · rw [heq]
    exact hexcused

theorem schedule_follows_linked_entries_after_kill :
    ∃ s, taskingCalls.Reachable (fun s call => call.KeepsEntries s) s ∧ s.EntriesSafe 0 ∧
      (s.schedule 0 fun _ => some (.other 7)).map Prod.snd = .ok 9 ∧
      s.Selects 0 (s.schedule 0 fun _ => some (.other 7)) := by
  obtain ⟨s, hs, hselected, hscheds, hfirst, hsecond, hother⟩ :
      ∃ s ∈ taskingCalls.run (.initializeBsp 1) [.add 0 9 .main .idle 9, .add 0 1 .main .normal 1,
          .add 0 2 .sub .normal 1, .add 0 3 .main .normal 3, .wait 3 7, .wait 1 7, .kill 1],
        (s.schedule 0 fun _ => some (.other 7)).map Prod.snd = .ok 9 ∧
          s.schedulers = [{ runQueue := [2], waitQueue := [1, 3], idleEntry := some 9 }] ∧
          s.condemned 1 = some 1 ∧ s.condemned 3 = none ∧ s.ofProcess 1 3 = false := by
    decide
  have hreach : taskingCalls.Reachable (fun s call => call.KeepsEntries s) s :=
    .of_run (.init ⟨1, rfl⟩) (by simp [TaskingCall.KeepsEntries]) hs
  have hcurrent : ∀ core, s.current core = none := by
    intro core
    rw [Tasking.current, hscheds]
    cases core <;> rfl
  have hspares : ∀ queue core, s.Spares queue (s.current core) := by
    intro queue core id h
    rw [hcurrent] at h
    cases h
  have hsafe : s.EntriesSafe 0 := by
    intro sched hsched
    rw [hscheds] at hsched
    obtain rfl := Option.some.inj hsched
    refine ⟨.removes hfirst ?_ ?_, hspares _ 0, fun other _ => hspares _ other⟩
    · rintro next ⟨⟩
      exact hother
    · rw [List.filter_cons_of_pos (by rw [hother]; rfl), List.filter_nil]
      exact .stays hsecond .nil
  exact ⟨s, hreach, hsafe, hselected, schedule_follows_linked_entries hreach hsafe _⟩

/-- A dead main thread directly in front of a thread of its process in the wait queue: the walk goes on
at the entry that was deleted with it. -/
theorem schedule_follows_deleted_entry :
    ∃ s, taskingCalls.Reachable (fun _ _ => True) s ∧ ¬ s.Selects 0 (s.schedule 0 fun _ => none) := by
  obtain ⟨s, hs, hfault⟩ : ∃ s ∈ taskingCalls.run (.initializeBsp 1)
      [.add 0 1 .main .normal 1, .add 0 2 .sub .normal 1, .wait 2 7, .wait 1 7, .kill 1],
      (s.schedule 0 fun _ => none).map Prod.snd = .error (.deletedEntry 2) := by
    decide
  refine ⟨s, System.reachable_of_run ⟨1, rfl⟩ hs, fun hselects => ?_⟩
  cases hschedule : s.schedule 0 fun _ => none with
  | ok result =>
    rw [hschedule] at hfault
    cases hfault
  | error fault =>
    rw [hschedule] at hfault hselects
    obtain rfl := Except.error.inj hfault
    exact hselects

end MeetixOS.Kernel
