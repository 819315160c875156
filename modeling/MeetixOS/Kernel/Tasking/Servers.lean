import MeetixOS.Lib.Runs
import MeetixOS.Kernel.Utils.LinkedList

/-! # Servers

`Tasking::addServer`, `Tasking::getServer` and what `Tasking::removeThreads` does to the list of servers,
which holds pointers to processes; a process is named by the id of its main thread. `none` is a null pointer
or the use of something that was deleted.

`llist::find` needs two values, and `llist::remove` leaves the pointer to the last node behind. So the list
stays right as long as the removed server is not the one registered last (`RemovesOlder`). -/

open Function (update update_of_ne update_self)
open Option (map_eq_some_iff map_some)

namespace MeetixOS.Kernel

open MeetixOS.Lib

/-! ## Model -/

/-- What the servers need of a `Process`: its flag and the identifier of its main thread. -/
structure ServerProcess where
  isServer : Bool := false
  identifier : String
  deriving DecidableEq

/-- The processes, the list of servers with its nodes, and the next thread id. -/
structure Servers where
  process : Pid → Option ServerProcess := fun _ => none
  list : LinkedList := {}
  nodes : Nodes Pid := fun _ => none
  nextId : Pid := 1

namespace Servers

/-- `String::equals` with the identifier of a listed process; the process is dereferenced. -/
def hasIdentifier (s : Servers) (identifier : String) (pid : Pid) : Option Bool :=
  (s.process pid).map fun process => process.identifier = identifier

/-- `Tasking::getServer`. -/
def getServer (s : Servers) (identifier : String) : Option (Option Pid) :=
  s.list.firstWhere s.nodes (s.hasIdentifier identifier)

/-- `Tasking::addServer`; `fresh` is the address of the new node. -/
def addServer (s : Servers) (pid : Pid) (fresh : Address) : Option (Servers × Bool) := do
  let process ← s.process pid
  if process.isServer then some (s, true)
  else match ← s.list.firstWhere s.nodes (s.hasIdentifier process.identifier) with
    | some _ => some (s, false)
    | none =>
      let (list, nodes) ← s.list.add s.nodes pid fresh
      let process := { process with isServer := true }
      some ({ s with process := update s.process pid (some process), list, nodes }, true)

/-- `Tasking::removeThreads`, which ends with the process deleted. -/
def removeThreads (s : Servers) (pid : Pid) : Option Servers := do
  let process ← s.process pid
  let (list, nodes) ← if process.isServer then s.list.erase s.nodes pid else some (s.list, s.nodes)
  some { s with process := update s.process pid none, list, nodes }

/-- A process is created; its id is a new one. -/
def createProcess (s : Servers) (identifier : String) : Servers :=
  { s with process := update s.process s.nextId (some { identifier }),
           nextId := s.nextId + 1 }

/-- `Thread::setIdentifier`, on the main thread of a process. -/
def setIdentifier (s : Servers) (pid : Pid) (identifier : String) : Option Servers := do
  let process ← s.process pid
  some { s with process := update s.process pid (some { process with identifier }) }

end Servers

/-! ## Runs -/

/-- The servers, and the processes that `addServer` added and that were not removed since, in
order. -/
structure ServerRun where
  servers : Servers := {}
  registered : List Pid := []

/-- A call. The address that `new` returns in `addServer` is part of the event. -/
inductive ServerEvent
  | createProcess (identifier : String)
  | setIdentifier (pid : Pid) (identifier : String)
  | addServer (pid : Pid) (fresh : Address)
  | removeThreads (pid : Pid)

namespace ServerRun

/-- The processes that a call names are not deleted, and `new` returns memory that is not in use. -/
def Callable (s : ServerRun) : ServerEvent → Prop
  | .createProcess _ => True
  | .setIdentifier pid _ => (s.servers.process pid).isSome
  | .addServer pid fresh => (s.servers.process pid).isSome ∧ s.servers.nodes fresh = none
  | .removeThreads pid => (s.servers.process pid).isSome

instance (s : ServerRun) : ∀ a, Decidable (s.Callable a)
  | .createProcess _ => inferInstanceAs (Decidable True)
  | .setIdentifier _ _ | .removeThreads _ => inferInstanceAs (Decidable (_ = true))
  | .addServer _ _ => inferInstanceAs (Decidable (_ ∧ _))

def step (s : ServerRun) : ServerEvent → Option ServerRun
  | .createProcess identifier => some { s with servers := s.servers.createProcess identifier }
  | .setIdentifier pid identifier => do
      let servers ← s.servers.setIdentifier pid identifier
      some { s with servers }
  | .addServer pid fresh => do
      let (servers, success) ← s.servers.addServer pid fresh
      let isNew := success = true ∧ pid ∉ s.registered
      some { servers, registered := if isNew then s.registered ++ [pid] else s.registered }
  | .removeThreads pid => do
      let servers ← s.servers.removeThreads pid
      some { servers, registered := s.registered.erase pid }

/-- The system of all sequences of calls. -/
def system : System ServerRun ServerEvent where
  init s := s = {}
  step s a := if s.Callable a then s.step a else none

/-- A server that is removed is not the one that was registered last. -/
def RemovesOlder (s : ServerRun) : ServerEvent → Prop
  | .removeThreads pid => s.registered.getLast? ≠ some pid
  | _ => True

instance (s : ServerRun) : ∀ a, Decidable (s.RemovesOlder a)
  | .createProcess _ | .setIdentifier _ _ | .addServer _ _ => inferInstanceAs (Decidable True)
  | .removeThreads _ => inferInstanceAs (Decidable (_ ≠ _))

/-- A process has an identifier. -/
def Named (s : ServerRun) (identifier : String) (pid : Pid) : Prop :=
  (s.servers.process pid).map ServerProcess.identifier = some identifier

/-- `getServer` returns a process of that name if there is one; a walk meets no deleted node and no
removed process. -/
structure Correct (s : ServerRun) : Prop where
  getServer : ∀ identifier, ∃ answer, s.servers.getServer identifier = some answer ∧
    (answer.isSome ↔ ∃ pid ∈ s.registered, s.Named identifier pid) ∧
    ∀ pid, answer = some pid → pid ∈ s.registered ∧ s.Named identifier pid
  reachable : ∀ a, s.servers.list.Reaches s.servers.nodes a →
    ∃ node, s.servers.nodes a = some node ∧ (s.servers.process node.value).isSome

/-! ## The invariant -/

/-- The list is linked and holds the registered servers, which are the processes with the flag. -/
structure Inv (s : ServerRun) : Prop where
  holds : ∃ entries, s.servers.list.Holds s.servers.nodes entries ∧
    entries.map Prod.snd = s.registered
  nodup : s.registered.Nodup
  registered : ∀ pid, pid ∈ s.registered ↔
    (s.servers.process pid).map ServerProcess.isServer = some true
  ids : ∀ pid, (s.servers.process pid).isSome → pid < s.servers.nextId

variable {s s' : ServerRun} {pid : Pid} {fresh : Address} {identifier : String}

theorem hasIdentifier_eq_some_true :
    s.servers.hasIdentifier identifier pid = some true ↔ s.Named identifier pid := by
  rw [Servers.hasIdentifier, Named, map_eq_some_iff, map_eq_some_iff]
  simp

theorem Inv.process (h : Inv s) (hpid : pid ∈ s.registered) :
    ∃ process, s.servers.process pid = some process ∧ process.isServer = true :=
  map_eq_some_iff.1 ((h.registered pid).1 hpid)

theorem Inv.firstWhere_eq (h : Inv s) (identifier : String) :
    ∃ answer, s.servers.list.firstWhere s.servers.nodes (s.servers.hasIdentifier identifier) =
        some answer ∧
      (answer.isSome ↔ ∃ pid ∈ s.registered, s.Named identifier pid) ∧
      ∀ pid, answer = some pid → pid ∈ s.registered ∧ s.Named identifier pid := by
  obtain ⟨entries, hholds, hentries⟩ := h.holds
  have hmem : ∀ e ∈ entries, e.2 ∈ s.registered := fun e he => hentries ▸ List.mem_map_of_mem he
  have htest : ∀ e ∈ entries, (s.servers.hasIdentifier identifier e.2).isSome := fun e he => by
    obtain ⟨process, hprocess, -⟩ := h.process (hmem e he)
    rw [Servers.hasIdentifier, hprocess]
    rfl
  refine ⟨_, hholds.firstWhere_eq htest, ?_, fun pid hpid => ?_⟩
  · rw [Option.isSome_map, List.find?_isSome]
    simp only [decide_eq_true_eq, hasIdentifier_eq_some_true]
    constructor
    · rintro ⟨e, he, hnamed⟩
      exact ⟨e.2, hmem e he, hnamed⟩
    · rintro ⟨pid, hpid, hnamed⟩
      rw [← hentries] at hpid
      obtain ⟨e, he, rfl⟩ := List.mem_map.1 hpid
      exact ⟨e, he, hnamed⟩
  · obtain ⟨e, hfind, rfl⟩ := map_eq_some_iff.1 hpid
    have htrue := List.find?_some hfind
    simp only [decide_eq_true_eq, hasIdentifier_eq_some_true] at htrue
    exact ⟨hmem e (List.mem_of_find?_eq_some hfind), htrue⟩

theorem Inv.correct (h : Inv s) : Correct s where
  getServer := h.firstWhere_eq
  reachable := fun a ha => by
    obtain ⟨entries, hholds, hentries⟩ := h.holds
    obtain ⟨v, hv⟩ := hholds.reaches ha
    obtain ⟨node, hnode, hvalue⟩ := map_eq_some_iff.1 (hholds.value _ hv)
    have hmem : v ∈ s.registered := hentries ▸ List.mem_map_of_mem hv
    obtain ⟨process, hprocess, -⟩ := h.process hmem
    refine ⟨node, hnode, ?_⟩
    rw [show node.value = v from hvalue, hprocess]
    rfl

theorem inv_init : Inv {} where
  holds := ⟨[], LinkedList.holds_nil, rfl⟩
  nodup := List.nodup_nil
  registered := fun _ => ⟨fun h => absurd h List.not_mem_nil, fun h => nomatch h⟩
  ids := fun _ h => nomatch h

/-! ## Calls -/

theorem Inv.createProcess (h : Inv s) (identifier : String) :
    Inv { s with servers := s.servers.createProcess identifier } := by
  have hnew : s.servers.process s.servers.nextId = none := by
    by_contra hsome
    exact absurd (h.ids _ (Option.isSome_iff_ne_none.2 hsome)) (lt_irrefl _)
  refine { h with registered := fun pid => ?_, ids := fun pid hpid => ?_ }
  · rw [h.registered pid]
    show _ ↔ (update s.servers.process s.servers.nextId _ pid).map _ = _
    by_cases heq : pid = s.servers.nextId
    · subst heq
      simp [hnew]
    · rw [update_of_ne heq]
  · refine Int.lt_add_one_iff.2 ?_
    by_cases heq : pid = s.servers.nextId
    · exact heq.le
    · have hpid : (update s.servers.process s.servers.nextId _ pid).isSome := hpid
      rw [update_of_ne heq] at hpid
      exact (h.ids pid hpid).le

variable {process : ServerProcess}

theorem Inv.setProcess (h : Inv s) (process' : ServerProcess)
    (hprocess : s.servers.process pid = some process) (hflag : process'.isServer = process.isServer) :
    Inv { s with servers := { s.servers with
      process := update s.servers.process pid (some process') } } := by
  refine { h with registered := fun p => ?_, ids := fun p hp => ?_ }
  · rw [h.registered p]
    show _ ↔ (update s.servers.process pid _ p).map _ = _
    by_cases heq : p = pid
    · subst heq
      rw [update_self, hprocess, map_some, map_some, hflag]
    · rw [update_of_ne heq]
  · have hp : (update s.servers.process pid _ p).isSome := hp
    refine h.ids p ?_
    by_cases heq : p = pid
    · subst heq
      rw [hprocess]
      rfl
    · rwa [update_of_ne heq] at hp

theorem Inv.register (h : Inv s)
    (hprocess : s.servers.process pid = some process) (hflag : process.isServer = false)
    (hfresh : s.servers.nodes fresh = none) : ∃ list nodes,
      s.servers.list.add s.servers.nodes pid fresh = some (list, nodes) ∧
      Inv { servers := { s.servers with
              process := update s.servers.process pid
                (some { process with isServer := true })
              list, nodes },
            registered := s.registered ++ [pid] } := by
  obtain ⟨entries, hholds, hentries⟩ := h.holds
  have hnot : pid ∉ s.registered := fun hmem => by
    obtain ⟨process', hprocess', htrue⟩ := h.process hmem
    cases hprocess.symm.trans hprocess'
    rw [hflag] at htrue
    cases htrue
  have hnode : fresh ∉ entries.map Prod.fst := fun hmem => by
    obtain ⟨e, he, rfl⟩ := List.mem_map.1 hmem
    have hvalue := hholds.value e he
    rw [hfresh] at hvalue
    cases hvalue
  obtain ⟨list, nodes, hadd, hholds'⟩ := hholds.add_eq pid hnode
  refine ⟨list, nodes, hadd, ⟨_, hholds', by rw [List.map_append, hentries]; rfl⟩, ?_, fun p => ?_,
    fun p hp => ?_⟩
  · exact List.nodup_append.2 ⟨h.nodup, List.nodup_singleton _, fun p hp q hq heq =>
      hnot (List.mem_singleton.1 hq ▸ heq ▸ hp)⟩
  · rw [List.mem_append, List.mem_singleton, h.registered p]
    by_cases heq : p = pid
    · subst heq
      simp
    · simp [heq]
  · have hp : (update s.servers.process pid _ p).isSome := hp
    refine h.ids p ?_
    by_cases heq : p = pid
    · subst heq
      rw [hprocess]
      rfl
    · rwa [update_of_ne heq] at hp

theorem Inv.addServer (h : Inv s) (hpid : (s.servers.process pid).isSome)
    (hfresh : s.servers.nodes fresh = none) :
    ∃ s', s.step (.addServer pid fresh) = some s' ∧ Inv s' := by
  obtain ⟨process, hprocess⟩ := Option.isSome_iff_exists.1 hpid
  obtain ⟨answer, hanswer, -⟩ := h.firstWhere_eq process.identifier
  simp only [step, Servers.addServer, hprocess, Option.bind_eq_bind, Option.bind_some]
  cases hflag : process.isServer with
  | true =>
    have hmem : pid ∈ s.registered := (h.registered pid).2 (by rw [hprocess, map_some, hflag])
    exact ⟨s, by simp [hmem], h⟩
  | false =>
    simp only [hanswer, Bool.false_eq_true, if_false, Option.bind_some]
    cases answer with
    | some other => exact ⟨s, by simp, h⟩
    | none =>
      obtain ⟨list, nodes, hadd, hinv⟩ := h.register hprocess hflag hfresh
      have hnot : pid ∉ s.registered := by
        rw [h.registered pid, hprocess, map_some, hflag]
        decide
      exact ⟨_, by simp [hadd, hnot], hinv⟩

theorem Inv.removed (h : Inv s) {list : LinkedList} {nodes : Nodes Pid}
    (hholds : ∃ entries, list.Holds nodes entries ∧ entries.map Prod.snd = s.registered.erase pid) :
    Inv { servers := { s.servers with
            process := update s.servers.process pid none, list, nodes },
          registered := s.registered.erase pid } := by
  refine ⟨hholds, h.nodup.erase pid, fun p => ?_, fun p hp => ?_⟩
  · rw [h.nodup.mem_erase_iff, h.registered p]
    by_cases heq : p = pid
    · subst heq
      simp
    · simp [heq]
  · have hp : (update s.servers.process pid none p).isSome := hp
    refine h.ids p ?_
    by_cases heq : p = pid
    · subst heq
      rw [update_self] at hp
      cases hp
    · rwa [update_of_ne heq] at hp

theorem step_removeThreads {list : LinkedList} {nodes : Nodes Pid}
    (hprocess : s.servers.process pid = some process) (hflag : process.isServer = true)
    (herase : s.servers.list.erase s.servers.nodes pid = some (list, nodes)) :
    s.step (.removeThreads pid) = some
      { servers := { s.servers with
          process := update s.servers.process pid none, list, nodes },
        registered := s.registered.erase pid } := by
  simp [step, Servers.removeThreads, hprocess, hflag, herase]

theorem Inv.removeThreads (h : Inv s) (hpid : (s.servers.process pid).isSome) :
    ∃ s', s.step (.removeThreads pid) = some s' ∧
      (s.registered.getLast? ≠ some pid → Inv s') ∧
      (s.registered.getLast? = some pid → ¬ Correct s') := by
  obtain ⟨process, hprocess⟩ := Option.isSome_iff_exists.1 hpid
  obtain ⟨entries, hholds, hentries⟩ := h.holds
  cases hflag : process.isServer with
  | false =>
    have hnot : pid ∉ s.registered := by
      rw [h.registered pid, hprocess, map_some, hflag]
      decide
    have hinv := h.removed ⟨entries, hholds, by rw [hentries, List.erase_of_not_mem hnot]⟩
    refine ⟨_, ?_, fun _ => hinv, fun hlast => absurd (List.mem_of_mem_getLast? hlast) hnot⟩
    simp [step, Servers.removeThreads, hprocess, hflag]
  | true =>
    have hmem : pid ∈ entries.map Prod.snd := by
      rw [hentries, h.registered pid, hprocess, map_some, hflag]
    obtain ⟨⟨a, p⟩, he, hp⟩ := List.mem_map.1 hmem
    obtain rfl : p = pid := hp
    obtain ⟨before, behind, rfl⟩ := List.append_of_mem he
    rw [List.map_append, List.map_cons] at hentries
    obtain ⟨-, hnodup, hdisjoint⟩ := List.nodup_append.1 (hentries ▸ h.nodup)
    have hbefore : p ∉ before.map Prod.snd := fun hmem =>
      hdisjoint p hmem p List.mem_cons_self rfl
    cases behind with
    | cons c behind =>
      -- the node is not the last: the list without it is linked again
      obtain ⟨list, nodes, herase, hholds'⟩ := hholds.erase_eq hbefore
      refine ⟨_, step_removeThreads hprocess hflag herase, fun _ => h.removed ⟨_, hholds', ?_⟩,
        fun hlast => ?_⟩
      · rw [← hentries, List.erase_append_right _ hbefore, List.erase_cons_head, List.map_append]
      · rw [← hentries, List.getLast?_append_of_ne_nil _ (List.cons_ne_nil _ _), List.map_cons,
          List.getLast?_cons_cons] at hlast
        exact absurd (List.mem_of_mem_getLast? hlast) (List.nodup_cons.1 hnodup).1
    | nil =>
      have hlast : s.registered.getLast? = some p := by
        rw [← hentries, List.map_nil, List.getLast?_concat]
      rcases List.eq_nil_or_concat before with rfl | ⟨init, b, rfl⟩
      · -- the only server: it is not found and stays in the list
        refine ⟨_, step_removeThreads hprocess hflag (hholds.erase_single p),
          fun hne => absurd hlast hne, fun _ hcorrect => ?_⟩
        obtain ⟨node, hnode, hlive⟩ := hcorrect.reachable a (.first hholds.first)
        obtain ⟨node', hnode', hvalue, -⟩ := LinkedList.Holds.node_eq [] hholds
        cases hnode.symm.trans hnode'
        subst hvalue
        have hlive : (update s.servers.process node.value none node.value).isSome := hlive
        rw [update_self] at hlive
        cases hlive
      · -- the last of several: the node before it points to the deleted one
        rw [List.concat_eq_append] at hholds hbefore
        rw [List.append_assoc, List.singleton_append] at hholds
        obtain ⟨list, nodes, herase, hreach, hdeleted⟩ := hholds.erase_last hbefore
        refine ⟨_, step_removeThreads hprocess hflag herase, fun hne => absurd hlast hne,
          fun _ hcorrect => ?_⟩
        obtain ⟨node, hnode, -⟩ := hcorrect.reachable a hreach
        cases hdeleted.symm.trans hnode

/-! ## All runs -/

theorem Inv.step (h : Inv s) {a : ServerEvent} (ha : s.Callable a) :
    ∃ s', system.step s a = some s' ∧ (s.RemovesOlder a → Inv s') ∧
      (¬ s.RemovesOlder a → ¬ Correct s') := by
  have hsystem : system.step s a = s.step a := if_pos ha
  rw [hsystem]
  cases a with
  | createProcess identifier =>
    exact ⟨_, rfl, fun _ => h.createProcess identifier, fun hnot => absurd trivial hnot⟩
  | setIdentifier pid identifier =>
    obtain ⟨process, hprocess⟩ := Option.isSome_iff_exists.1 ha
    have hinv := h.setProcess { process with identifier } hprocess rfl
    refine ⟨_, ?_, fun _ => hinv, fun hnot => absurd trivial hnot⟩
    simp [ServerRun.step, Servers.setIdentifier, hprocess]
  | addServer pid fresh =>
    obtain ⟨s', hs', hinv⟩ := h.addServer ha.1 ha.2
    exact ⟨s', hs', fun _ => hinv, fun hnot => absurd trivial hnot⟩
  | removeThreads pid =>
    obtain ⟨s', hs', hinv, hwrong⟩ := h.removeThreads ha
    exact ⟨s', hs', hinv, fun hnot => hwrong (not_not.1 hnot)⟩

theorem inv_of_reachable (hs : system.Reachable RemovesOlder s) : Inv s := by
  refine System.Reachable.invariant (fun s hinit => hinit ▸ inv_init) (fun s a s' h hok hstep => ?_) hs
  have ha : s.Callable a := by
    by_contra hnot
    rw [show system.step s a = none from if_neg hnot] at hstep
    cases hstep
  obtain ⟨s'', hs'', hinv, -⟩ := h.step ha
  cases hstep.symm.trans hs''
  exact hinv hok

/-- In every run in which no removed process is the server registered last, the servers are found and
only live processes are listed. Every further call completes, and leaves this so exactly if it does not
remove the server registered last. -/
theorem servers_correct_iff (hs : system.Reachable RemovesOlder s) :
    Correct s ∧ ∀ a, s.Callable a →
      ∃ s', system.step s a = some s' ∧ (Correct s' ↔ s.RemovesOlder a) := by
  have h := inv_of_reachable hs
  refine ⟨h.correct, fun a ha => ?_⟩
  obtain ⟨s', hs', hinv, hwrong⟩ := h.step ha
  exact ⟨s', hs', fun hcorrect => by_contra fun hnot => hwrong hnot hcorrect,
    fun hok => (hinv hok).correct⟩

theorem servers_correct_iff_two : ∃ s, system.Reachable RemovesOlder s ∧ s.registered = [2] ∧
    s.servers.getServer "tty" = some none ∧ s.servers.getServer "spawner" = some (some 2) ∧
    Correct s := by
  obtain ⟨s, hs, hregistered, htty, hspawner⟩ :
      ∃ s ∈ system.runGuarded RemovesOlder {} [.createProcess "tty", .createProcess "spawner",
          .addServer 1 16, .addServer 2 32, .removeThreads 1],
        s.registered = [2] ∧ s.servers.getServer "tty" = some none ∧
          s.servers.getServer "spawner" = some (some 2) := by
    decide
  have hreach := (System.Reachable.init rfl).of_runGuarded hs
  exact ⟨s, hreach, hregistered, htty, hspawner, (servers_correct_iff hreach).1⟩

/-- The only server is removed: its process is deleted and stays in the list, and `getServer` uses it. -/
theorem servers_list_keeps_removed : ¬ ∀ s, system.Reachable (fun _ _ => True) s → Correct s := by
  intro hall
  obtain ⟨s, hs, htty⟩ : ∃ s ∈ system.run {} [.createProcess "tty", .addServer 1 16, .removeThreads 1],
      s.servers.getServer "tty" = none := by
    decide
  obtain ⟨answer, hanswer, -⟩ := (hall s (System.reachable_of_run rfl hs)).getServer "tty"
  rw [htty] at hanswer
  cases hanswer

end ServerRun

end MeetixOS.Kernel
