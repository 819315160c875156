import Mathlib.Data.List.Nodup
import MeetixOS.Kernel.Tasking.Tasking

/-! # Removing the threads of a process

`Tasking::removeThreads` walks the run and then the wait queue of each core and deletes the threads of one
process. `Removal.after` is the state in which the walk has visited a list of entries, in closed form. What
it removes is always right, but it reads the `Process` object at every entry, which is deleted with the
main thread: this goes well exactly if that is the last entry (`removeThreads_exact_iff`). -/

namespace MeetixOS.Kernel

/-- The thread belongs to the process. -/
def Tasking.ofProcess (s : Tasking) (process : Pid) (id : Tid) : Bool :=
  (s.threads id).any fun thread => thread.process = process

/-- The thread is the main thread with which the process object is deleted. -/
def Tasking.isMain (s : Tasking) (process : Pid) (id : Tid) : Bool :=
  (s.threads id).any fun thread => thread.process = process && thread.type = .main

/-- A distribution of threads over the queues: each entry is linked once and has its thread. -/
structure Distribution extends Tasking where
  nodup : toTasking.entries.Nodup
  live : ∀ id ∈ toTasking.entries, (toTasking.threads id).isSome

/-! ## Removal in closed form -/

/-- The queues without the threads in `dead`. -/
def Scheduler.purge (s : Scheduler) (dead : List Tid) : Scheduler :=
  { s with
    runQueue := s.runQueue.filter fun id => id ∉ dead
    waitQueue := s.waitQueue.filter fun id => id ∉ dead }

/-- The state without the threads in `dead`. -/
def Tasking.purge (s : Tasking) (dead : List Tid) : Tasking :=
  { schedulers := s.schedulers.map fun sched => sched.purge dead
    threads := fun id => if id ∈ dead then none else s.threads id }

namespace Scheduler

theorem entries_purge (s : Scheduler) (dead : List Tid) :
    (s.purge dead).entries = s.entries.filter fun id => id ∉ dead :=
  (List.filter_append ..).symm

theorem mem_entries_purge {s : Scheduler} {dead : List Tid} {id : Tid} :
    id ∈ (s.purge dead).entries ↔ id ∈ s.entries ∧ id ∉ dead := by
  rw [entries_purge, List.mem_filter, decide_eq_true_eq]

theorem purge_eq_self {s : Scheduler} {dead : List Tid} (h : ∀ id ∈ s.entries, id ∉ dead) :
    s.purge dead = s := by
  have hrun := List.filter_eq_self.2 fun id hid => decide_eq_true (h id (List.mem_append_left _ hid))
  have hwait := List.filter_eq_self.2 fun id hid => decide_eq_true (h id (List.mem_append_right _ hid))
  rw [purge, hrun, hwait]

theorem purge_nil (s : Scheduler) : s.purge [] = s :=
  purge_eq_self fun _ _ => List.not_mem_nil

theorem purge_append (s : Scheduler) (dead dead' : List Tid) :
    (s.purge dead).purge dead' = s.purge (dead ++ dead') := by
  simp [purge, List.filter_filter, List.mem_append, Bool.decide_and, Bool.and_comm]

theorem removeEntry_eq_purge {s : Scheduler} (hnodup : s.entries.Nodup) {id : Tid} :
    s.removeEntry id = s.purge [id] := by
  obtain ⟨hrun, hwait, hdisj⟩ := List.nodup_append.1 hnodup
  have herase : ∀ {q : List Tid}, q.Nodup → q.erase id = q.filter fun t => t ∉ [id] := by
    intro q hq
    rw [hq.erase_eq_filter]
    apply List.filter_congr
    intro t _
    simp [bne, BEq.beq]
  have hself : ∀ {q : List Tid}, id ∉ q → q.filter (fun t => t ∉ [id]) = q := by
    intro q hq
    apply List.filter_eq_self.2
    intro t ht
    have hne : t ≠ id := fun h => hq (h ▸ ht)
    simp [hne]
  by_cases hid : id ∈ s.runQueue
  · have hnot : id ∉ s.waitQueue := fun h => hdisj id hid id h rfl
    rw [removeEntry, if_pos hid, purge, herase hrun, hself hnot]
  · rw [removeEntry, if_neg hid, purge, herase hwait, hself hid]

end Scheduler

theorem Tasking.purge_nil (s : Tasking) : s.purge [] = s := by
  simp [Tasking.purge, Scheduler.purge_nil]

/-- Some element that satisfies `p` is not the last one. -/
def followed (p : Tid → Bool) : List Tid → Bool
  | [] => false
  | id :: ids => (p id && !ids.isEmpty) || followed p ids

theorem followed_append_singleton (p : Tid → Bool) (ids : List Tid) (id : Tid) :
    followed p (ids ++ [id]) = (followed p ids || ids.any p) := by
  induction ids with
  | nil => simp [followed]
  | cons x xs ih =>
    rw [List.cons_append, followed, ih, followed, List.any_cons]
    cases p x <;> cases xs.isEmpty <;> cases followed p xs <;> cases xs.any p <;> simp

theorem followed_eq_false_iff {p : Tid → Bool} {ids : List Tid} :
    followed p ids = false ↔ ∀ pre id post, ids = pre ++ id :: post → p id = true → post = [] := by
  induction ids with
  | nil => simp [followed]
  | cons x xs ih =>
    rw [followed, Bool.or_eq_false_iff, ih]
    constructor
    · rintro ⟨hx, hxs⟩ pre id post heq hid
      cases pre with
      | nil =>
        obtain ⟨rfl, rfl⟩ := List.cons.inj heq
        simpa [hid] using hx
      | cons y ys => exact hxs ys id post (List.cons.inj heq).2 hid
    · intro h
      refine ⟨?_, fun pre id post heq => h (x :: pre) id post (by rw [heq, List.cons_append])⟩
      cases hx : p x with
      | false => rfl
      | true =>
        rw [h [] x xs rfl hx]
        rfl

namespace Removal

/-- The walk after it has visited `visited`. -/
def after (s : Tasking) (process : Pid) (visited : List Tid) : Removal :=
  { tasking := s.purge (visited.filter (s.ofProcess process))
    deleted := visited.filter (s.ofProcess process)
    processDeleted := visited.any (s.isMain process)
    readDeleted := followed (s.isMain process) visited }

variable {s : Tasking} {process : Pid}

variable {visited : List Tid} {core : Nat} {sched : Scheduler} {id : Tid}

theorem scheduler_after (hsched : s.schedulers[core]? = some sched) :
    (after s process visited).tasking.schedulers[core]? =
      some (sched.purge (visited.filter (s.ofProcess process))) := by
  simp [after, Tasking.purge, hsched]

theorem core_unique (hnodup : s.entries.Nodup) {i j : Nat} {a b : Scheduler}
    (ha : s.schedulers[i]? = some a) (hb : s.schedulers[j]? = some b) (hida : id ∈ a.entries)
    (hidb : id ∈ b.entries) : i = j := by
  obtain ⟨hi, rfl⟩ := List.getElem?_eq_some_iff.1 ha
  obtain ⟨hj, rfl⟩ := List.getElem?_eq_some_iff.1 hb
  have hpair := List.pairwise_iff_getElem.1 (List.nodup_flatMap.1 hnodup).2
  rcases Nat.lt_trichotomy i j with hlt | heq | hgt
  · exact absurd hidb (hpair i j hi hj hlt hida)
  · exact heq
  · exact absurd hida (hpair j i hj hi hgt hidb)

theorem purge_remove (hnodup : s.entries.Nodup)
    (dead : List Tid) (hsched : s.schedulers[core]? = some sched) (hid : id ∈ sched.entries) :
    ((s.purge dead).modifyScheduler core (·.removeEntry id)).schedulers =
      (s.purge (dead ++ [id])).schedulers := by
  apply List.ext_getElem?
  intro j
  simp only [Tasking.modifyScheduler, Tasking.purge, List.getElem?_modify, List.getElem?_map]
  cases hj : s.schedulers[j]? with
  | none => simp
  | some sj =>
    have hsj : sj.entries.Nodup :=
      (List.nodup_flatMap.1 hnodup).1 sj (List.mem_of_getElem? hj)
    have hpurged : (sj.purge dead).entries.Nodup := by
      rw [Scheduler.entries_purge]
      exact hsj.filter _
    by_cases hcore : core = j
    · simp [hcore, Scheduler.removeEntry_eq_purge hpurged, Scheduler.purge_append]
    · have hnot : ∀ t ∈ (sj.purge dead).entries, t ∉ [id] := by
        intro t ht htid
        rw [List.mem_singleton] at htid
        subst htid
        exact hcore (core_unique hnodup hsched hj hid (Scheduler.mem_entries_purge.1 ht).1)
      simp [if_neg hcore, ← Scheduler.purge_append, Scheduler.purge_eq_self hnot]

theorem threads_purge_append (s : Tasking) (dead : List Tid) (id : Tid) :
    Function.update (s.purge dead).threads id none = (s.purge (dead ++ [id])).threads := by
  funext t
  simp only [Tasking.purge, Function.update_apply, List.mem_append, List.mem_singleton]
  by_cases ht : t = id <;> simp [ht]

variable (process)

theorem visit_after (hnodup : s.entries.Nodup) (hsched : s.schedulers[core]? = some sched)
    (hid : id ∈ sched.entries) (hlive : (s.threads id).isSome) (hnew : id ∉ visited) :
    visit core process (after s process visited) id = after s process (visited ++ [id]) := by
  obtain ⟨thread, hthread⟩ := Option.isSome_iff_exists.1 hlive
  have hdead : id ∉ visited.filter (s.ofProcess process) := fun h => hnew (List.mem_of_mem_filter h)
  have hget : (after s process visited).tasking.threads id = some thread := by
    simp only [after, Tasking.purge, if_neg hdead, hthread]
  have hof : s.ofProcess process id = decide (thread.process = process) := by
    rw [Tasking.ofProcess, hthread, Option.any_some]
  have hmain : s.isMain process id = (decide (thread.process = process) && thread.type = .main) := by
    rw [Tasking.isMain, hthread, Option.any_some]
  have hread := followed_append_singleton (s.isMain process) visited id
  simp only [visit, hget]
  by_cases hp : thread.process = process
  · have hfilter : (visited ++ [id]).filter (s.ofProcess process) =
        visited.filter (s.ofProcess process) ++ [id] := by
      rw [List.filter_append, List.filter_cons_of_pos (by rw [hof, decide_eq_true hp]),
        List.filter_nil]
    have hlinked := List.mem_append.1 (Scheduler.mem_entries_purge.2 ⟨hid, hdead⟩)
    have hscheds : (((s.purge (visited.filter (s.ofProcess process))).modifyScheduler core
        (·.removeEntry id)).schedulers) =
        (s.purge (visited.filter (s.ofProcess process) ++ [id])).schedulers :=
      purge_remove hnodup _ hsched hid
    have hcore : (s.purge (visited.filter (s.ofProcess process))).schedulers[core]? =
        some (sched.purge (visited.filter (s.ofProcess process))) := scheduler_after hsched
    rw [if_pos hp]
    simp only [remove, after, hcore, if_pos hlinked, deleteTask, hfilter, hread, List.any_append,
      List.any_cons, List.any_nil, hmain, decide_eq_true hp, Bool.true_and, Bool.or_false]
    rw [hscheds]
    simp [Tasking.modifyScheduler, threads_purge_append]
  · have hfilter : (visited ++ [id]).filter (s.ofProcess process) =
        visited.filter (s.ofProcess process) := by
      rw [List.filter_append, List.filter_cons_of_neg (by rw [hof, decide_eq_false hp]; simp),
        List.filter_nil, List.append_nil]
    rw [if_neg hp]
    simp [after, hfilter, hread, hmain, decide_eq_false hp]

section

variable (hnodup : s.entries.Nodup) (hlive : ∀ id ∈ s.entries, (s.threads id).isSome)
include hnodup hlive

theorem foldl_visit (hsched : s.schedulers[core]? = some sched) (ids : List Tid)
    (visited : List Tid) (hids : ∀ id ∈ ids, id ∈ sched.entries) (hnew : (visited ++ ids).Nodup) :
    ids.foldl (visit core process) (after s process visited) = after s process (visited ++ ids) := by
  induction ids generalizing visited with
  | nil => rw [List.foldl_nil, List.append_nil]
  | cons id ids ih =>
    have hid : id ∈ sched.entries := hids id List.mem_cons_self
    have hmem : id ∈ s.entries := List.mem_flatMap.2 ⟨sched, List.mem_of_getElem? hsched, hid⟩
    have hnot : id ∉ visited := fun h =>
      (List.nodup_append.1 hnew).2.2 id h id List.mem_cons_self rfl
    have hstep := visit_after process hnodup hsched hid (hlive id hmem) hnot
    rw [List.append_cons] at hnew ⊢
    rw [List.foldl_cons, hstep]
    exact ih (visited ++ [id]) (fun t ht => hids t (List.mem_cons_of_mem _ ht)) hnew

theorem removeThreads_after (hsched : s.schedulers[core]? = some sched)
    (hnew : (visited ++ sched.entries).Nodup) :
    (after s process visited).removeThreads core process =
      after s process (visited ++ sched.entries) := by
  have hassoc : visited ++ sched.entries = (visited ++ sched.runQueue) ++ sched.waitQueue := by
    rw [Scheduler.entries, List.append_assoc]
  have hrunNew := (List.nodup_append.1 (hassoc ▸ hnew)).1
  -- neither queue has an entry that was visited before its loop starts
  have hrun : (sched.purge (visited.filter (s.ofProcess process))).runQueue = sched.runQueue :=
    List.filter_eq_self.2 fun id hid => decide_eq_true fun h =>
      (List.nodup_append.1 hrunNew).2.2 id (List.mem_of_mem_filter h) id hid rfl
  have hwait : (sched.purge ((visited ++ sched.runQueue).filter (s.ofProcess process))).waitQueue =
      sched.waitQueue :=
    List.filter_eq_self.2 fun id hid => decide_eq_true fun h =>
      (List.nodup_append.1 (hassoc ▸ hnew)).2.2 id (List.mem_of_mem_filter h) id hid rfl
  have hfoldRun := foldl_visit process hnodup hlive hsched sched.runQueue visited
    (fun id hid => List.mem_append_left _ hid) hrunNew
  have hfoldWait := foldl_visit process hnodup hlive hsched sched.waitQueue
    (visited ++ sched.runQueue) (fun id hid => List.mem_append_right _ hid) (hassoc ▸ hnew)
  simp only [removeThreads, scheduler_after hsched, hrun, hfoldRun, hwait, hfoldWait, hassoc]

theorem foldl_removeThreads (n : Nat) (hn : n ≤ s.schedulers.length) :
    (List.range n).foldl (fun r core => r.removeThreads core process) { tasking := s } =
      after s process ((s.schedulers.take n).flatMap Scheduler.entries) := by
  induction n with
  | zero => simp [after, Tasking.purge_nil, followed]
  | succ n ih =>
    have hlt : n < s.schedulers.length := hn
    have hget := List.getElem?_eq_getElem hlt
    have htake : (s.schedulers.take (n + 1)).flatMap Scheduler.entries =
        (s.schedulers.take n).flatMap Scheduler.entries ++ s.schedulers[n].entries := by
      rw [List.take_succ_eq_append_getElem hlt, List.flatMap_append, List.flatMap_singleton]
    have hsub : ((s.schedulers.take n).flatMap Scheduler.entries ++
        s.schedulers[n].entries).Nodup := by
      rw [Tasking.entries, ← List.take_append_drop (n + 1) s.schedulers, List.flatMap_append,
        htake] at hnodup
      exact (List.nodup_append.1 hnodup).1
    rw [List.range_succ, List.foldl_append, ih (Nat.le_of_succ_le hn), List.foldl_cons,
      List.foldl_nil, removeThreads_after process hnodup hlive hget hsub, htake]

end

end Removal

/-! ## The walk as a whole -/

theorem removeThreads_eq (d : Distribution) (process : Pid) :
    d.toTasking.removeThreads process = Removal.after d.toTasking process d.toTasking.entries := by
  have h := Removal.foldl_removeThreads process d.nodup d.live
    d.toTasking.schedulers.length (Nat.le_refl _)
  rw [List.take_length] at h
  exact h

/-- The removal `r` from `s` takes exactly the threads of the process, each once, leaves the others in
their queues and order, and reads no deleted process object. -/
structure RemovesExactly (s : Tasking) (process : Pid) (r : Removal) : Prop where
  queues : r.tasking.schedulers = s.schedulers.map fun sched =>
    { sched with
      runQueue := sched.runQueue.filter fun id => !s.ofProcess process id
      waitQueue := sched.waitQueue.filter fun id => !s.ofProcess process id }
  threads : ∀ id, r.tasking.threads id =
    if id ∈ s.entries ∧ s.ofProcess process id then none else s.threads id
  deleted : ∀ id, id ∈ r.deleted ↔ id ∈ s.entries ∧ s.ofProcess process id
  once : r.deleted.Nodup
  unread : r.readDeleted = false

/-- The main thread of the process is not in a queue, or its entry is the last one the walk over the
queues of all cores visits. -/
def MainLast (s : Tasking) (process : Pid) : Prop :=
  ∀ before id behind, s.entries = before ++ id :: behind → s.isMain process id → behind = []

/-- `removeThreads` does what it should exactly if the main thread comes last. -/
theorem removeThreads_exact_iff (d : Distribution) (process : Pid) :
    RemovesExactly d.toTasking process (d.toTasking.removeThreads process) ↔
      MainLast d.toTasking process := by
  have hmem : ∀ id, id ∈ d.toTasking.entries.filter (d.toTasking.ofProcess process) ↔
      id ∈ d.toTasking.entries ∧ d.toTasking.ofProcess process id := fun id => List.mem_filter
  rw [removeThreads_eq]
  constructor
  · intro h
    exact followed_eq_false_iff.1 h.unread
  · intro h
    refine ⟨?_, ?_, hmem, d.nodup.filter _, followed_eq_false_iff.2 h⟩
    · apply List.map_congr_left
      intro sched hsched
      have hfilter : ∀ {q : List Tid}, (∀ id ∈ q, id ∈ sched.entries) →
          q.filter (fun id => id ∉ d.toTasking.entries.filter (d.toTasking.ofProcess process)) =
            q.filter fun id => !d.toTasking.ofProcess process id := by
        intro q hq
        apply List.filter_congr
        intro id hid
        have hentry : id ∈ d.toTasking.entries := List.mem_flatMap.2 ⟨sched, hsched, hq id hid⟩
        simp [hentry]
      simp only [Scheduler.purge]
      rw [hfilter fun id hid => List.mem_append_left _ hid,
        hfilter fun id hid => List.mem_append_right _ hid]
    · intro id
      simp [Removal.after, Tasking.purge, hmem]

/-- One core, with the main thread of a process in front of a second thread of it. -/
def mainFirst : Tasking :=
  { schedulers := [{ runQueue := [1, 2] }]
    threads := fun id =>
      if id = 1 then some { type := .main, process := 1 }
      else if id = 2 then some { type := .sub, process := 1 } else none }

/-- With the main thread first, the second entry is compared with a deleted process. -/
theorem removeThreads_reads_deleted_process :
    ∃ d : Distribution, d.toTasking = mainFirst ∧
      ¬ RemovesExactly d.toTasking 1 (d.toTasking.removeThreads 1) := by
  refine ⟨{ toTasking := mainFirst, nodup := by decide, live := by decide }, rfl, fun h => ?_⟩
  have hread : (mainFirst.removeThreads 1).readDeleted = true := by decide
  exact Bool.noConfusion (hread.symm.trans h.unread)

end MeetixOS.Kernel
