import MeetixOS.Kernel.Tasking.Tasking

/-! # Names of threads

`Tasking::registerTaskForIdentifier` with `Tasking::getTaskByIdentifier` and `Thread::setIdentifier`.
The name that is looked up is the one that the call gives; a sub thread appends it to the identifier
that it has. -/

namespace MeetixOS.Kernel.ThreadNames

/-! ## The code -/

/-- What naming needs of a `Thread`. -/
structure NamedThread where
  type : ThreadType
  alive : Bool := true
  identifier : Option String := none

/-- The queues of a `Scheduler`. -/
structure SchedulerQueues where
  runQueue : List Tid := []
  waitQueue : List Tid := []

/-- The threads and the schedulers of the cores, some of which may not be there. -/
structure NamedTasks where
  thread : Tid → NamedThread
  schedulers : List (Option SchedulerQueues)

/-- The identifier that `Thread::setIdentifier` leaves. -/
def NamedThread.newIdentifier (thread : NamedThread) (newIdentifier : String) : String :=
  match thread.type, thread.identifier with
  | .sub, some old => old ++ newIdentifier
  | _, _ => newIdentifier

namespace NamedTasks

/-- The test of `Scheduler::getTaskByIdentifier` on an entry of a queue. -/
def isNamed (s : NamedTasks) (identifier : String) (tid : Tid) : Bool :=
  (s.thread tid).alive && (s.thread tid).identifier = some identifier

/-- `Tasking::getTaskByIdentifier`: each core's run queue, then its wait queue. -/
def getTaskByIdentifier (s : NamedTasks) (identifier : String) : Option Tid :=
  s.schedulers.findSome? fun scheduler => scheduler.bind fun queues =>
    queues.runQueue.find? (s.isNamed identifier) <|> queues.waitQueue.find? (s.isNamed identifier)

/-- `Thread::setIdentifier`. -/
def setIdentifier (s : NamedTasks) (tid : Tid) (newIdentifier : String) : NamedTasks :=
  let thread := s.thread tid
  { s with thread := Function.update s.thread tid
             { thread with identifier := some (thread.newIdentifier newIdentifier) } }

/-- `Tasking::registerTaskForIdentifier`. -/
def registerTaskForIdentifier (s : NamedTasks) (task : Tid) (newIdentifier : String) :
    NamedTasks × Bool :=
  match s.getTaskByIdentifier newIdentifier with
  | some _ => (s, false)
  | none => (s.setIdentifier task newIdentifier, true)

/-! ## Lookups -/

/-- Alive and in a queue of some core. -/
def Live (s : NamedTasks) (tid : Tid) : Prop :=
  (s.thread tid).alive = true ∧
    ∃ queues, some queues ∈ s.schedulers ∧ (tid ∈ queues.runQueue ∨ tid ∈ queues.waitQueue)

/-- No other live thread has the identifier. -/
def FreeFor (s : NamedTasks) (tid : Tid) (identifier : String) : Prop :=
  ∀ t, s.Live t → t ≠ tid → (s.thread t).identifier ≠ some identifier

/-- The thread has an identifier that no other live thread has, and looking it up gives no other one. -/
def OwnsName (s : NamedTasks) (tid : Tid) : Prop :=
  ∃ identifier, (s.thread tid).identifier = some identifier ∧ s.FreeFor tid identifier ∧
    ∀ t, s.getTaskByIdentifier identifier = some t → t = tid

variable {s : NamedTasks} {tid t : Tid} {name : String}

theorem getTaskByIdentifier_live (h : s.getTaskByIdentifier name = some t) :
    s.Live t ∧ (s.thread t).identifier = some name := by
  obtain ⟨scheduler, hmem, hfind⟩ := List.exists_of_findSome?_eq_some h
  obtain ⟨queues, rfl, hfind⟩ := Option.bind_eq_some_iff.1 hfind
  have hqueue : (t ∈ queues.runQueue ∨ t ∈ queues.waitQueue) ∧ s.isNamed name t := by
    rcases (Option.orElse_eq_some _ _ _).1 hfind with hrun | ⟨-, hwait⟩
    · exact ⟨.inl (List.mem_of_find?_eq_some hrun), List.find?_some hrun⟩
    · exact ⟨.inr (List.mem_of_find?_eq_some hwait), List.find?_some hwait⟩
  obtain ⟨hqueue, hnamed⟩ := hqueue
  simp only [isNamed, Bool.and_eq_true, decide_eq_true_eq] at hnamed
  exact ⟨⟨hnamed.1, queues, hmem, hqueue⟩, hnamed.2⟩

theorem getTaskByIdentifier_eq_none (h : s.getTaskByIdentifier name = none) (hlive : s.Live t) :
    (s.thread t).identifier ≠ some name := by
  intro hname
  obtain ⟨halive, queues, hmem, hqueue⟩ := hlive
  have hnamed : s.isNamed name t := by simp [isNamed, halive, hname]
  have hnone := List.findSome?_eq_none_iff.1 h _ hmem
  simp only [Option.bind_some, Option.orElse_eq_none] at hnone
  rcases hqueue with hrun | hwait
  · exact List.find?_eq_none.1 hnone.1 t hrun hnamed
  · exact List.find?_eq_none.1 hnone.2 t hwait hnamed

theorem ownsName_iff {identifier : String} (h : (s.thread tid).identifier = some identifier) :
    s.OwnsName tid ↔ s.FreeFor tid identifier := by
  constructor
  · rintro ⟨own, hown, hfree, -⟩
    rw [h, Option.some.injEq] at hown
    rwa [hown]
  · intro hfree
    refine ⟨identifier, h, hfree, fun t ht => ?_⟩
    obtain ⟨hlive, hname⟩ := getTaskByIdentifier_live ht
    exact not_not.1 fun hne => hfree t hlive hne hname

/-! ## One call -/

/-- What a sub thread with an identifier has behind the call is not the identifier of another live
thread. -/
def AppendedFree (s : NamedTasks) (tid : Tid) (name : String) : Prop :=
  (s.thread tid).type = .sub → ∀ old, (s.thread tid).identifier = some old →
    s.FreeFor tid (old ++ name)

theorem setIdentifier_live : (s.setIdentifier tid name).Live t ↔ s.Live t := by
  unfold Live setIdentifier
  by_cases h : t = tid
  · subst h
    simp
  · simp [h]

theorem setIdentifier_identifier :
    ((s.setIdentifier tid name).thread t).identifier =
      if t = tid then some ((s.thread tid).newIdentifier name) else (s.thread t).identifier := by
  unfold setIdentifier
  by_cases h : t = tid
  · subst h
    simp
  · simp [h]

theorem setIdentifier_freeFor {identifier : String} :
    (s.setIdentifier tid name).FreeFor tid identifier ↔ s.FreeFor tid identifier := by
  refine forall_congr' fun t => ?_
  rw [setIdentifier_live, setIdentifier_identifier]
  refine imp_congr_right fun _ => imp_congr_right fun hne => ?_
  rw [if_neg hne]

theorem setIdentifier_ownsName_iff (h : s.getTaskByIdentifier name = none) :
    (s.setIdentifier tid name).OwnsName tid ↔ s.AppendedFree tid name := by
  have hown : ((s.setIdentifier tid name).thread tid).identifier =
      some ((s.thread tid).newIdentifier name) := by
    rw [setIdentifier_identifier, if_pos rfl]
  rw [ownsName_iff hown, setIdentifier_freeFor, AppendedFree, NamedThread.newIdentifier]
  split
  next hsub hold => simp [hsub, hold]
  next hother =>
    refine iff_of_true (fun t hlive _ => getTaskByIdentifier_eq_none h hlive) ?_
    intro hsub old hold
    exact absurd hold (hother old hsub)

theorem OwnsName.setIdentifier (h : s.OwnsName t) (hlive : s.Live t) (hne : t ≠ tid)
    (hown : (s.setIdentifier tid name).OwnsName tid) : (s.setIdentifier tid name).OwnsName t := by
  obtain ⟨identifier, hid, hfree, -⟩ := h
  have hid' : ((s.setIdentifier tid name).thread t).identifier = some identifier := by
    rw [setIdentifier_identifier, if_neg hne, hid]
  refine (ownsName_iff hid').2 fun u hu hut => ?_
  by_cases hcaller : u = tid
  · subst hcaller
    obtain ⟨own, hcallerId, hcallerFree, -⟩ := hown
    intro hsame
    rw [hcallerId] at hsame
    exact hcallerFree t (setIdentifier_live.2 hlive) hne (hid'.trans hsame.symm)
  · rw [setIdentifier_identifier, if_neg hcaller]
    exact hfree u (setIdentifier_live.1 hu) hut

/-! ## Runs -/

/-- Behind each call, registered threads own their names, and a failed call leaves the
identifiers. -/
def RunCorrect (s : NamedTasks) (registered : List Tid) : List (Tid × String) → Prop
  | [] => True
  | (tid, name) :: rest =>
    let (s', success) := s.registerTaskForIdentifier tid name
    let registered := if success then tid :: registered else registered
    (∀ t ∈ registered, s'.OwnsName t) ∧
      (success = false → ∀ t, (s'.thread t).identifier = (s.thread t).identifier) ∧
      RunCorrect s' registered rest

/-- In each call whose name is not in use, a sub thread with an identifier does not come to the
identifier of another live thread. -/
def RunAppendsFree (s : NamedTasks) : List (Tid × String) → Prop
  | [] => True
  | (tid, name) :: rest =>
    (s.getTaskByIdentifier name = none → s.AppendedFree tid name) ∧
      RunAppendsFree (s.registerTaskForIdentifier tid name).1 rest

theorem runCorrect_iff (calls : List (Tid × String)) (registered : List Tid)
    (hcalls : ∀ call ∈ calls, s.Live call.1) (hlive : ∀ t ∈ registered, s.Live t)
    (hown : ∀ t ∈ registered, s.OwnsName t) :
    s.RunCorrect registered calls ↔ s.RunAppendsFree calls := by
  induction calls generalizing s registered with
  | nil => exact Iff.rfl
  | cons call rest ih =>
    obtain ⟨tid, name⟩ := call
    rw [RunCorrect, RunAppendsFree, registerTaskForIdentifier]
    obtain ⟨hcaller, hrest⟩ := List.forall_mem_cons.1 hcalls
    rcases hfind : s.getTaskByIdentifier name with - | t
    · have hnext : (∀ t ∈ tid :: registered, (s.setIdentifier tid name).OwnsName t) →
          ((s.setIdentifier tid name).RunCorrect (tid :: registered) rest ↔
            (s.setIdentifier tid name).RunAppendsFree rest) :=
        ih (tid :: registered) (fun c hc => setIdentifier_live.2 (hrest c hc))
          (fun t ht => setIdentifier_live.2 (List.forall_mem_cons.2 ⟨hcaller, hlive⟩ t ht))
      have hall : (∀ t ∈ tid :: registered, (s.setIdentifier tid name).OwnsName t) ↔
          s.AppendedFree tid name := by
        rw [← setIdentifier_ownsName_iff hfind]
        refine ⟨fun h => h tid List.mem_cons_self, fun h t ht => ?_⟩
        by_cases hcase : t = tid
        · rwa [hcase]
        · have hmem : t ∈ registered := (List.mem_cons.1 ht).resolve_left hcase
          exact (hown t hmem).setIdentifier (hlive t hmem) hcase h
      constructor
      · rintro ⟨h, -, hrun⟩
        exact ⟨fun _ => hall.1 h, (hnext h).1 hrun⟩
      · rintro ⟨h, hrun⟩
        have h := hall.2 (h rfl)
        exact ⟨h, nofun, (hnext h).2 hrun⟩
    · constructor
      · rintro ⟨-, -, hrun⟩
        exact ⟨nofun, (ih registered hrest hlive hown).1 hrun⟩
      · rintro ⟨-, hrun⟩
        exact ⟨hown, fun _ _ => rfl, (ih registered hrest hlive hown).2 hrun⟩

end NamedTasks

/-- Live threads register names, in any order and any number of times. -/
theorem registerThreadName_correct_iff (s : NamedTasks) (calls : List (Tid × String))
    (hcalls : ∀ call ∈ calls, s.Live call.1) : s.RunCorrect [] calls ↔ s.RunAppendsFree calls :=
  NamedTasks.runCorrect_iff calls [] hcalls nofun nofun

/-- A process with its main thread, and another thread of it; both wait on the second core. -/
def twoThreads (mainName subName : String) : NamedTasks where
  thread tid :=
    if tid = 1 then { type := .main, identifier := some mainName }
    else { type := .sub, identifier := some subName }
  schedulers := [none, some { waitQueue := [1, 2] }]

theorem registerThreadName_correct_iff_two :
    (twoThreads "shell" "shell::").RunCorrect [] [(2, "reader"), (1, "sh")] := by
  refine (registerThreadName_correct_iff _ _ ?_).2 ⟨fun _ _ old hold t _ _ => ?_, nofun, trivial⟩
  · simp only [List.forall_mem_cons, List.not_mem_nil, false_implies, implies_true, and_true]
    exact ⟨⟨by decide, _, List.mem_cons_of_mem _ List.mem_cons_self, by decide⟩,
      by decide, _, List.mem_cons_of_mem _ List.mem_cons_self, by decide⟩
  · obtain rfl : "shell::" = old := Option.some.inj hold
    simp only [twoThreads]
    split <;> decide

/-- The sub thread `a` registers `b` and comes to the name of the main thread. -/
theorem registerThreadName_appended_in_use :
    let r := (twoThreads "ab" "a").registerTaskForIdentifier 2 "b"
    r.2 = true ∧ (r.1.thread 2).identifier = (r.1.thread 1).identifier ∧
      r.1.getTaskByIdentifier "ab" = some 1 := by
  decide

end MeetixOS.Kernel.ThreadNames
