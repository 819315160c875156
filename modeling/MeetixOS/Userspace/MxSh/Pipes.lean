import MeetixOS.Kernel.Types
import MeetixOS.Userspace.MxSh.RunCommand

/-! # The descriptors of a pipeline

`run_command` creates a pipe between two calls of a pipeline, spawns each call with its ends and closes them
in the shell; here it is the list of its calls to the kernel. The variables for the ends of a pipe are not
initialized: `Round` holds what they happen to have. The shell is left as it was exactly where every call
was spawned and the last round closes nothing that was open before, or nothing was created at all. -/

namespace MeetixOS.MxSh

open Kernel (Pid)

abbrev FileHandle := Int

def stdinFileno : FileHandle := 0

def stdoutFileno : FileHandle := 1

def stderrFileno : FileHandle := 2

/-! ## The command -/

/-- The results in one round of `run_command`: the ends of a pipe and the process, if they could be
created; and what `outPipeW` and `outPipeR` have before something is stored in them. -/
structure Round where
  pipe : Option (FileHandle × FileHandle)
  spawned : Option Pid
  outPipeW : FileHandle
  outPipeR : FileHandle

/-- What `run_command` asks the kernel and the spawner for. -/
inductive ShellCall
  | pipe (write read : FileHandle)
  | pipeFailed
  | spawn (call : ProgramCall) (stdin stdout stderr : FileHandle)
  | close (fd : FileHandle)
  | join (process : Pid)
  deriving DecidableEq

/-- `handleBuiltin`, as far as it says whether the call is one of the shell itself: `cd`, `clear`,
`which` or `exit`. -/
def handleBuiltin (call : ProgramCall) : Bool :=
  call.program == [99, 100] || call.program == [99, 108, 101, 97, 114] ||
    call.program == [119, 104, 105, 99, 104] || call.program == [101, 120, 105, 116]

/-- The second part of a round, from the choice of the descriptors on. -/
def spawnCall (numCalls c : Nat) (previousOutPipeR : FileHandle) (call : ProgramCall)
    (spawned : Option Pid) (outPipeW : FileHandle) (next : Pid → List ShellCall) : List ShellCall :=
  let stdin := if c = 0 then stdinFileno else previousOutPipeR
  let stdout := if (numCalls = 1 ∧ c = 0) ∨ c = numCalls - 1 then stdoutFileno else outPipeW
  .spawn call stdin stdout stderrFileno ::
    match spawned with
    | none => []
    | some pid =>
      .close outPipeW ::
        ((if previousOutPipeR ≠ -1 then [.close previousOutPipeR] else []) ++ next pid)

/-- The loop of `run_command` from round `c` on, and what follows it. -/
def runCalls (numCalls : Nat) : Nat → FileHandle → Option Pid → List (ProgramCall × Round) →
    List ShellCall
  | _, _, none, [] => []
  | _, _, some lastProcessID, [] => [.join lastProcessID]
  | c, previousOutPipeR, _, (call, round) :: rest =>
    if 1 < numCalls ∧ c < numCalls - 1 then
      match round.pipe with
      | none => [.pipeFailed]
      | some (outPipeW, outPipeR) =>
        .pipe outPipeW outPipeR ::
          spawnCall numCalls c previousOutPipeR call round.spawned outPipeW fun pid =>
            runCalls numCalls (c + 1) outPipeR (some pid) rest
    else
      spawnCall numCalls c previousOutPipeR call round.spawned round.outPipeW fun pid =>
        runCalls numCalls (c + 1) round.outPipeR (some pid) rest

/-- `run_command`, for the calls of the line, each with the results of its round. -/
def runCommand : List (ProgramCall × Round) → List ShellCall
  | [(call, round)] =>
    if handleBuiltin call then [] else runCalls 1 0 (-1) none [(call, round)]
  | calls => runCalls calls.length 0 (-1) none calls

/-! ## The descriptors of the shell -/

/-- The descriptors that are open in the shell: those from before, and the ends of pipes. -/
structure Descriptors where
  shell : Finset FileHandle
  pipes : Finset FileHandle
  deriving DecidableEq

namespace Descriptors

def close (d : Descriptors) (fd : FileHandle) : Descriptors :=
  ⟨d.shell.erase fd, d.pipes.erase fd⟩

/-- The descriptors after a call. -/
def apply (d : Descriptors) : ShellCall → Descriptors
  | .pipe write read => { d with pipes := insert write (insert read d.pipes) }
  | .close fd => d.close fd
  | _ => d

/-- A descriptor is open. -/
def Open (d : Descriptors) (fd : FileHandle) : Prop := fd ∈ d.shell ∨ fd ∈ d.pipes

instance (d : Descriptors) (fd : FileHandle) : Decidable (d.Open fd) := inferInstanceAs (Decidable (_ ∨ _))

/-- The descriptors that were closed, in order: a call for one that is not open closes nothing. -/
def closings (d : Descriptors) : List ShellCall → List FileHandle
  | [] => []
  | .close fd :: rest => if d.Open fd then fd :: (d.close fd).closings rest else (d.close fd).closings rest
  | call :: rest => (d.apply call).closings rest

/-- The kernel gives numbers that are not in use. -/
def Legal (d : Descriptors) : List ShellCall → Prop
  | [] => True
  | .pipe write read :: rest =>
    (write ≠ read ∧ write ≠ -1 ∧ read ≠ -1 ∧ ¬d.Open write ∧ ¬d.Open read) ∧
      (d.apply (.pipe write read)).Legal rest
  | call :: rest => (d.apply call).Legal rest

end Descriptors

open Descriptors (apply closings)
/-- The pipes that were created, in order. -/
def pipesOf : List ShellCall → List (FileHandle × FileHandle)
  | [] => []
  | .pipe write read :: rest => (write, read) :: pipesOf rest
  | _ :: rest => pipesOf rest

/-- The ends of the pipes. -/
def endsOf (trace : List ShellCall) : List FileHandle := (pipesOf trace).flatMap fun p => [p.1, p.2]

/-- The processes that were asked for, in order, each with its standard input and output. -/
def spawnsOf : List ShellCall → List (ProgramCall × FileHandle × FileHandle)
  | [] => []
  | .spawn call stdin stdout _ :: rest => (call, stdin, stdout) :: spawnsOf rest
  | _ :: rest => spawnsOf rest

/-- The descriptors are as they were, and each end of a pipe was closed once, and nothing else. -/
def LeavesDescriptors (shell : Finset FileHandle) (trace : List ShellCall) : Prop :=
  trace.foldl apply ⟨shell, ∅⟩ = ⟨shell, ∅⟩ ∧
    (closings ⟨shell, ∅⟩ trace).Perm (endsOf trace)

/-- From call `c` of `numCalls` on: process `i` is that of call `i`, reading from the pipe before it and
writing into the one behind it; the first reads from `stdin` and the last has the shell's standard
output. -/
def ConnectedFrom (numCalls c : Nat) (stdin : FileHandle) (calls : List (ProgramCall × Round))
    (trace : List ShellCall) : Prop :=
  ∀ i call input output, (spawnsOf trace)[i]? = some (call, input, output) →
    calls[i]?.map Prod.fst = some call ∧
    (if i = 0 then input = stdin else (pipesOf trace)[i - 1]?.map Prod.snd = some input) ∧
    if c + i = numCalls - 1 then output = stdoutFileno
      else (pipesOf trace)[i]?.map Prod.fst = some output

/-- The processes of a line are connected in the order of its calls, from the standard input on. -/
def Connected (calls : List (ProgramCall × Round)) (trace : List ShellCall) : Prop :=
  ConnectedFrom calls.length 0 stdinFileno calls trace

/-- Every pipe that is wanted and every process is created. -/
def AllSpawned : List (ProgramCall × Round) → Prop
  | [] => True
  | [(_, round)] => round.spawned.isSome
  | (_, round) :: rest => round.pipe.isSome ∧ round.spawned.isSome ∧ AllSpawned rest

/-- The condition: every process is spawned and the variable that the last round closes does not hold a
descriptor of the shell, or nothing is created at all. -/
def Clean (shell : Finset FileHandle) (calls : List (ProgramCall × Round)) : Prop :=
  (AllSpawned calls ∧ ∀ last ∈ calls.getLast?, last.2.outPipeW ∉ shell) ∨
    match calls with
    | [(call, round)] => handleBuiltin call = true ∨ round.spawned = none
    | (_, round) :: _ => round.pipe = none
    | [] => True

theorem Descriptors.closings_append (d : Descriptors) (trace more : List ShellCall) :
    d.closings (trace ++ more) = d.closings trace ++ (trace.foldl apply d).closings more := by
  induction trace generalizing d with
  | nil => rfl
  | cons call trace ih =>
    cases call with
    | close fd =>
      simp only [List.cons_append, closings, List.foldl_cons, apply, ih]
      split <;> rfl
    | pipe write read | pipeFailed | spawn call stdin stdout stderr | join process => exact ih _

theorem Descriptors.legal_append {d : Descriptors} {trace more : List ShellCall}
    (h : d.Legal (trace ++ more)) : (trace.foldl apply d).Legal more := by
  induction trace generalizing d with
  | nil => exact h
  | cons call trace ih =>
    cases call with
    | pipe write read => exact ih h.2
    | close fd | pipeFailed | spawn call stdin stdout stderr | join process => exact ih h

theorem pipesOf_append (trace more : List ShellCall) :
    pipesOf (trace ++ more) = pipesOf trace ++ pipesOf more := by
  induction trace with
  | nil => rfl
  | cons call trace ih => cases call <;> simp [pipesOf, ih]

theorem endsOf_append (trace more : List ShellCall) :
    endsOf (trace ++ more) = endsOf trace ++ endsOf more := by
  rw [endsOf, pipesOf_append, List.flatMap_append, endsOf, endsOf]

/-! ## A round -/

/-- Nothing was created when the first round stops. -/
def NothingCreated : List (ProgramCall × Round) → Prop
  | [] => True
  | [(_, round)] => round.spawned = none
  | (_, round) :: _ => round.pipe = none

/-- The read end that is kept for the next round. -/
def heldEnds (previousOutPipeR : FileHandle) : List FileHandle :=
  if previousOutPipeR = -1 then [] else [previousOutPipeR]

/-- What is held is closed with the ends of the pipes, and the shell keeps its descriptors. -/
def ClosesAll (shell : Finset FileHandle) (held : List FileHandle) (trace : List ShellCall) : Prop :=
  trace.foldl apply ⟨shell, held.toFinset⟩ = ⟨shell, ∅⟩ ∧
    (closings ⟨shell, held.toFinset⟩ trace).Perm (held ++ endsOf trace)

/-- The calls at the end of a round that succeeds. -/
def closeEnds (outPipeW previousOutPipeR : FileHandle) : List ShellCall :=
  .close outPipeW :: if previousOutPipeR ≠ -1 then [.close previousOutPipeR] else []

section

variable {shell : Finset FileHandle} {numCalls c : Nat} {prev : FileHandle} {last : Option Pid}
  {call : ProgramCall} {round : Round}

theorem closesAll_spawn {held : List FileHandle} {stdin stdout stderr : FileHandle}
    {trace : List ShellCall} :
    ClosesAll shell held (.spawn call stdin stdout stderr :: trace) ↔ ClosesAll shell held trace := Iff.rfl

theorem closesAll_nil : ClosesAll shell (heldEnds prev) [] ↔ prev = -1 := by
  unfold ClosesAll heldEnds
  by_cases hnone : prev = -1
  · simp [hnone, endsOf, pipesOf, closings]
  · simp [hnone]

variable {w r : FileHandle} {pid : Pid} {rest : List (ProgramCall × Round)}

theorem closesAll_last (hprev : prev ≠ -1 → prev ∉ shell) :
    ClosesAll shell (heldEnds prev) (closeEnds w prev ++ [.join pid]) ↔ w ∉ shell := by
  by_cases hnone : prev = -1
  · subst hnone
    simp only [ClosesAll, closeEnds, heldEnds, if_true, ne_eq, not_true, if_false, List.toFinset_nil,
      List.singleton_append, List.foldl_cons, List.foldl_nil, apply, Descriptors.close,
      closings, endsOf, pipesOf, List.flatMap_nil, Descriptors.mk.injEq,
      Finset.erase_eq_self, Descriptors.Open, Finset.notMem_empty, or_false, Finset.erase_empty, and_true,
      List.append_nil]
    refine ⟨fun h => h.1, fun h => ⟨h, ?_⟩⟩
    rw [if_neg h]
  · have hshell := hprev hnone
    have hheld : heldEnds prev = [prev] := by rw [heldEnds, if_neg hnone]
    have hcloses : closeEnds w prev = [.close w, .close prev] := by rw [closeEnds, if_pos hnone]
    rw [ClosesAll, hheld, hcloses]
    constructor
    · rintro ⟨hfinal, -⟩ hw
      have herase : (shell.erase w).erase prev = shell := congrArg Descriptors.shell hfinal
      rw [← herase] at hw
      exact Finset.notMem_erase w shell (Finset.mem_of_mem_erase hw)
    · intro hw
      simp only [List.cons_append, List.nil_append, List.foldl_cons, List.foldl_nil, apply,
        Descriptors.close, closings, endsOf, pipesOf, List.flatMap_nil, List.append_nil]
      by_cases heq : w = prev
      · -- the variable has the read end that is held: it is closed already
        subst heq
        simp [Descriptors.Open, hw]
      · simp [Descriptors.Open, hw, heq, hshell]

/-- The calls of a round in which everything is created. -/
def roundCalls (call : ProgramCall) (stdin stdout w r prev : FileHandle) : List ShellCall :=
  .pipe w r :: .spawn call stdin stdout stderrFileno :: closeEnds w prev

theorem roundCalls_spec (call : ProgramCall) (stdin stdout : FileHandle)
    (hprev : prev ≠ -1 → prev ∉ shell) (hne : w ≠ r)
    (hr : r ≠ -1) (hw : ¬Descriptors.Open ⟨shell, (heldEnds prev).toFinset⟩ w)
    (hfresh : ¬Descriptors.Open ⟨shell, (heldEnds prev).toFinset⟩ r) :
    (roundCalls call stdin stdout w r prev).foldl apply ⟨shell, (heldEnds prev).toFinset⟩ =
        ⟨shell, (heldEnds r).toFinset⟩ ∧
      closings ⟨shell, (heldEnds prev).toFinset⟩ (roundCalls call stdin stdout w r prev) =
        w :: heldEnds prev := by
  have hheld : (heldEnds r).toFinset = {r} := by
    rw [heldEnds, if_neg hr]
    rfl
  rw [Descriptors.Open, not_or] at hw hfresh
  rw [hheld]
  by_cases hnone : prev = -1
  · subst hnone
    simp [roundCalls, closeEnds, heldEnds, apply, Descriptors.close, closings,
      Descriptors.Open, hne, hw.1]
  · have hshell := hprev hnone
    have hprevHeld : (heldEnds prev).toFinset = {prev} := by
      rw [heldEnds, if_neg hnone]
      rfl
    rw [hprevHeld, Finset.mem_singleton] at hw hfresh
    have hpipes : ((insert w (insert r {prev}) : Finset FileHandle).erase w).erase prev = {r} := by
      rw [Finset.erase_insert (by simp [hne, hw.2]), Finset.pair_comm, Finset.erase_insert]
      rw [Finset.mem_singleton]
      exact Ne.symm hfresh.2
    rw [hprevHeld, heldEnds, if_neg hnone]
    have hcloses : closeEnds w prev = [.close w, .close prev] := by rw [closeEnds, if_pos hnone]
    simp only [roundCalls, hcloses, List.foldl_cons, List.foldl_nil, apply, Descriptors.close,
      Finset.erase_eq_of_notMem hw.1, Finset.erase_eq_of_notMem hshell, hpipes, closings]
    simp only [Descriptors.Open, Finset.mem_insert, true_or, or_true, if_true, Finset.mem_erase]
    rw [if_pos (Or.inr ⟨Ne.symm hw.2, Or.inr (Or.inr (Finset.mem_singleton_self prev))⟩)]
    simp

theorem closesAll_round {stdin stdout w r : FileHandle} {more : List ShellCall}
    (hprev : prev ≠ -1 → prev ∉ shell) (hne : w ≠ r) (hr : r ≠ -1)
    (hw : ¬Descriptors.Open ⟨shell, (heldEnds prev).toFinset⟩ w)
    (hfresh : ¬Descriptors.Open ⟨shell, (heldEnds prev).toFinset⟩ r) :
    ClosesAll shell (heldEnds prev) (roundCalls call stdin stdout w r prev ++ more) ↔
      ClosesAll shell (heldEnds r) more := by
  obtain ⟨hstate, hclosed⟩ :=
    roundCalls_spec call stdin stdout hprev hne hr hw hfresh
  have hends : endsOf (roundCalls call stdin stdout w r prev) = [w, r] := by
    by_cases hnone : prev = -1
    · simp [roundCalls, closeEnds, endsOf, pipesOf, hnone]
    · simp [roundCalls, closeEnds, endsOf, pipesOf, hnone]
  have hr' : heldEnds r = [r] := by rw [heldEnds, if_neg hr]
  rw [ClosesAll, List.foldl_append, Descriptors.closings_append, hstate, hclosed, endsOf_append, hends,
    ClosesAll, hr']
  refine and_congr Iff.rfl ?_
  have hmiddle : (heldEnds prev ++ ([w, r] ++ endsOf more)).Perm
      (w :: (heldEnds prev ++ ([r] ++ endsOf more))) := List.perm_middle
  constructor
  · intro h
    exact (List.perm_append_left_iff _).1 ((List.perm_cons w).1 (h.trans hmiddle))
  · intro h
    exact ((h.append_left (heldEnds prev)).cons w).trans hmiddle.symm

/-! ## The run -/

theorem runCalls_round
    (hlast : c + 1 < numCalls) (hpipe : round.pipe = some (w, r)) (hspawn : round.spawned = some pid) :
    runCalls numCalls c prev last ((call, round) :: rest) =
      roundCalls call (if c = 0 then stdinFileno else prev) w w r prev ++
        runCalls numCalls (c + 1) r (some pid) rest := by
  have hwants : 1 < numCalls ∧ c < numCalls - 1 := ⟨by omega, by omega⟩
  have hout : ¬((numCalls = 1 ∧ c = 0) ∨ c = numCalls - 1) := by omega
  rw [runCalls, if_pos hwants, hpipe, hspawn]
  simp [spawnCall, if_neg hout, roundCalls, closeEnds]

theorem runCalls_last (hlast : c + 1 = numCalls) (hspawn : round.spawned = some pid) :
    runCalls numCalls c prev last [(call, round)] =
      .spawn call (if c = 0 then stdinFileno else prev) stdoutFileno stderrFileno ::
        (closeEnds round.outPipeW prev ++ [.join pid]) := by
  have hwants : ¬(1 < numCalls ∧ c < numCalls - 1) := by omega
  have hout : (numCalls = 1 ∧ c = 0) ∨ c = numCalls - 1 := by omega
  rw [runCalls, if_neg hwants, hspawn]
  simp [spawnCall, if_pos hout, closeEnds, runCalls]

theorem runCalls_last_none (hlast : c + 1 = numCalls) (hspawn : round.spawned = none) :
    runCalls numCalls c prev last [(call, round)] =
      [.spawn call (if c = 0 then stdinFileno else prev) stdoutFileno stderrFileno] := by
  have hwants : ¬(1 < numCalls ∧ c < numCalls - 1) := by omega
  have hout : (numCalls = 1 ∧ c = 0) ∨ c = numCalls - 1 := by omega
  rw [runCalls, if_neg hwants, hspawn]
  simp [spawnCall, if_pos hout]

theorem runCalls_pipeFailed (hlast : c + 1 < numCalls) (hpipe : round.pipe = none) :
    runCalls numCalls c prev last ((call, round) :: rest) = [.pipeFailed] := by
  have hwants : 1 < numCalls ∧ c < numCalls - 1 := ⟨by omega, by omega⟩
  rw [runCalls, if_pos hwants, hpipe]

theorem runCalls_spawnFailed
    (hlast : c + 1 < numCalls) (hpipe : round.pipe = some (w, r)) (hspawn : round.spawned = none) :
    runCalls numCalls c prev last ((call, round) :: rest) =
      [.pipe w r, .spawn call (if c = 0 then stdinFileno else prev) w stderrFileno] := by
  have hwants : 1 < numCalls ∧ c < numCalls - 1 := ⟨by omega, by omega⟩
  have hout : ¬((numCalls = 1 ∧ c = 0) ∨ c = numCalls - 1) := by omega
  rw [runCalls, if_pos hwants, hpipe, hspawn]
  simp [spawnCall, if_neg hout]

end

variable {shell : Finset FileHandle}

/-- From a round on that got the read end `prev`: everything is closed exactly where all is spawned
and the last round closes nothing of the shell, or nothing is held and created. -/
theorem runCalls_closesAll {numCalls : Nat}
    (calls : List (ProgramCall × Round)) : ∀ (c : Nat) (prev : FileHandle) (last : Option Pid),
    c + calls.length = numCalls → calls ≠ [] → (prev ≠ -1 → prev ∉ shell) →
    Descriptors.Legal ⟨shell, (heldEnds prev).toFinset⟩ (runCalls numCalls c prev last calls) →
    (ClosesAll shell (heldEnds prev) (runCalls numCalls c prev last calls) ↔
      (AllSpawned calls ∧ ∀ x ∈ calls.getLast?, x.2.outPipeW ∉ shell) ∨
        (prev = -1 ∧ NothingCreated calls)) := by
  induction calls with
  | nil => exact fun _ _ _ _ hne => absurd rfl hne
  | cons first rest ih =>
    intro c prev last hlength _ hprev hlegal
    obtain ⟨call, round⟩ := first
    cases rest with
    | nil =>
      have hlast : c + 1 = numCalls := hlength
      cases hspawn : round.spawned with
      | none =>
        rw [runCalls_last_none hlast hspawn, closesAll_spawn, closesAll_nil]
        simp [AllSpawned, NothingCreated, hspawn]
      | some pid =>
        rw [runCalls_last hlast hspawn, closesAll_spawn, closesAll_last hprev]
        simp [AllSpawned, NothingCreated, hspawn]
    | cons second rest =>
      have hlast : c + 1 < numCalls := by
        rw [← hlength]
        simp
      cases hpipe : round.pipe with
      | none =>
        rw [runCalls_pipeFailed hlast hpipe]
        have hstops : ClosesAll shell (heldEnds prev) [.pipeFailed] ↔ prev = -1 := closesAll_nil
        rw [hstops]
        simp [AllSpawned, NothingCreated, hpipe]
      | some ends =>
        obtain ⟨w, r⟩ := ends
        cases hspawn : round.spawned with
        | none =>
          rw [runCalls_spawnFailed hlast hpipe hspawn]
          simp [ClosesAll, apply, AllSpawned, NothingCreated, hpipe, hspawn]
        | some pid =>
          rw [runCalls_round hlast hpipe hspawn] at hlegal ⊢
          have hrest := Descriptors.legal_append hlegal
          obtain ⟨⟨hne, -, hr, hw, hfresh⟩, -⟩ := hlegal
          rw [closesAll_round hprev hne hr hw hfresh]
          rw [(roundCalls_spec _ _ _ hprev hne hr hw hfresh).1] at hrest
          have hshell : r ∉ shell := fun h => hfresh (Or.inl h)
          have hlength' : c + 1 + (second :: rest).length = numCalls := by
            rw [← hlength]
            simp only [List.length_cons]
            omega
          rw [ih (c + 1) r (some pid) hlength' (List.cons_ne_nil _ _) (fun _ => hshell) hrest]
          simp [AllSpawned, NothingCreated, hpipe, hspawn, hr]

/-! ## The connections -/

section

variable {numCalls c : Nat} {stdin : FileHandle} {call : ProgramCall} {round : Round}
  {trace : List ShellCall}

theorem connectedFrom_of_spawnsOf_nil {calls : List (ProgramCall × Round)} (h : spawnsOf trace = []) :
    ConnectedFrom numCalls c stdin calls trace := by
  intro i call input output hi
  rw [h] at hi
  simp at hi

theorem connectedFrom_of_spawnsOf_singleton (stdout : FileHandle) {rest : List (ProgramCall × Round)}
    (h : spawnsOf trace = [(call, stdin, stdout)])
    (hout : if c = numCalls - 1 then stdout = stdoutFileno
      else (pipesOf trace)[0]?.map Prod.fst = some stdout) :
    ConnectedFrom numCalls c stdin ((call, round) :: rest) trace := by
  intro i call' input output hi
  rw [h] at hi
  cases i with
  | zero =>
    obtain ⟨rfl, rfl, rfl⟩ : call = call' ∧ stdin = input ∧ stdout = output := by simpa using hi
    exact ⟨rfl, rfl, hout⟩
  | succ i => simp at hi

theorem connectedFrom_cons {rest : List (ProgramCall × Round)} {more : List ShellCall} {w r : FileHandle}
    (hspawns : spawnsOf trace = (call, stdin, w) :: spawnsOf more)
    (hpipes : pipesOf trace = (w, r) :: pipesOf more) (hlast : c + 1 < numCalls)
    (h : ConnectedFrom numCalls (c + 1) r rest more) :
    ConnectedFrom numCalls c stdin ((call, round) :: rest) trace := by
  intro i call' input output hi
  rw [hspawns] at hi
  cases i with
  | zero =>
    obtain ⟨rfl, rfl, rfl⟩ : call = call' ∧ stdin = input ∧ w = output := by simpa using hi
    have hout : ¬c + 0 = numCalls - 1 := by omega
    rw [if_neg hout, hpipes]
    exact ⟨rfl, rfl, rfl⟩
  | succ i =>
    obtain ⟨hcall, hin, hout⟩ := h i call' input output hi
    rw [show c + 1 + i = c + (i + 1) by omega] at hout
    rw [hpipes, List.getElem?_cons_succ, List.getElem?_cons_succ]
    refine ⟨hcall, ?_, hout⟩
    by_cases hi0 : i = 0
    · rw [if_pos hi0] at hin
      subst hi0
      exact congrArg some hin.symm
    · rw [if_neg hi0] at hin
      obtain ⟨k, rfl⟩ := Nat.exists_eq_succ_of_ne_zero hi0
      exact hin

end

theorem spawnsOf_closeEnds (w prev : FileHandle) (more : List ShellCall) :
    spawnsOf (closeEnds w prev ++ more) = spawnsOf more := by
  by_cases hnone : prev = -1
  · simp [closeEnds, hnone, spawnsOf]
  · simp [closeEnds, hnone, spawnsOf]

theorem pipesOf_closeEnds (w prev : FileHandle) (more : List ShellCall) :
    pipesOf (closeEnds w prev ++ more) = pipesOf more := by
  by_cases hnone : prev = -1
  · simp [closeEnds, hnone, pipesOf]
  · simp [closeEnds, hnone, pipesOf]

theorem runCalls_connected {numCalls : Nat} (calls : List (ProgramCall × Round)) :
    ∀ (c : Nat) (prev : FileHandle) (last : Option Pid), c + calls.length = numCalls →
      ConnectedFrom numCalls c (if c = 0 then stdinFileno else prev) calls
        (runCalls numCalls c prev last calls) := by
  induction calls with
  | nil =>
    intro c prev last _
    apply connectedFrom_of_spawnsOf_nil
    cases last <;> rfl
  | cons first rest ih =>
    intro c prev last hlength
    obtain ⟨call, round⟩ := first
    cases rest with
    | nil =>
      have hlast : c + 1 = numCalls := hlength
      have hc : c = numCalls - 1 := by omega
      cases hspawn : round.spawned with
      | none =>
        rw [runCalls_last_none hlast hspawn]
        refine connectedFrom_of_spawnsOf_singleton _ rfl ?_
        rw [if_pos hc]
      | some pid =>
        rw [runCalls_last hlast hspawn]
        apply connectedFrom_of_spawnsOf_singleton stdoutFileno
        · rw [spawnsOf, spawnsOf_closeEnds]
          rfl
        · rw [if_pos hc]
    | cons second rest =>
      have hlast : c + 1 < numCalls := by
        rw [← hlength]
        simp
      cases hpipe : round.pipe with
      | none =>
        rw [runCalls_pipeFailed hlast hpipe]
        exact connectedFrom_of_spawnsOf_nil rfl
      | some ends =>
        obtain ⟨w, r⟩ := ends
        cases hspawn : round.spawned with
        | none =>
          rw [runCalls_spawnFailed hlast hpipe hspawn]
          refine connectedFrom_of_spawnsOf_singleton _ rfl ?_
          have hc : ¬c = numCalls - 1 := by omega
          rw [if_neg hc]
          rfl
        | some pid =>
          rw [runCalls_round hlast hpipe hspawn]
          have hlength' : c + 1 + (second :: rest).length = numCalls := by
            rw [← hlength]
            simp only [List.length_cons]
            omega
          have hrest := ih (c + 1) r (some pid) hlength'
          refine connectedFrom_cons (w := w) ?_ ?_ hlast hrest
          · exact congrArg (List.cons _) (spawnsOf_closeEnds w prev _)
          · exact congrArg (List.cons _) (pipesOf_closeEnds w prev _)

/-! ## The line -/

theorem runCommand_builtin {call : ProgramCall} {round : Round} (h : handleBuiltin call = true) :
    runCommand [(call, round)] = [] := by
  rw [runCommand, if_pos h]

theorem runCommand_eq (calls : List (ProgramCall × Round))
    (h : ∀ call round, calls = [(call, round)] → handleBuiltin call = false) :
    runCommand calls = runCalls calls.length 0 (-1) none calls := by
  match calls with
  | [] | _ :: _ :: _ => rfl
  | [(call, round)] =>
    rw [runCommand, h call round rfl]
    rfl

theorem runCommand_connected (calls : List (ProgramCall × Round)) : Connected calls (runCommand calls) := by
  by_cases hbuiltin : ∃ call round, calls = [(call, round)] ∧ handleBuiltin call = true
  · obtain ⟨call, round, rfl, h⟩ := hbuiltin
    rw [runCommand_builtin h]
    exact connectedFrom_of_spawnsOf_nil rfl
  · rw [runCommand_eq calls fun call round heq => by
      rw [Bool.eq_false_iff]
      exact fun h => hbuiltin ⟨call, round, heq, h⟩]
    exact runCalls_connected calls 0 (-1) none (Nat.zero_add _)

theorem closesAll_iff_leaves {trace : List ShellCall} :
    ClosesAll shell (heldEnds (-1)) trace ↔ LeavesDescriptors shell trace := by
  unfold ClosesAll LeavesDescriptors heldEnds
  simp

theorem runCalls_leaves_iff {calls : List (ProgramCall × Round)}
    (hne : calls ≠ []) (hlegal : Descriptors.Legal ⟨shell, ∅⟩ (runCalls calls.length 0 (-1) none calls)) :
    LeavesDescriptors shell (runCalls calls.length 0 (-1) none calls) ↔
      (AllSpawned calls ∧ ∀ x ∈ calls.getLast?, x.2.outPipeW ∉ shell) ∨ NothingCreated calls := by
  rw [← closesAll_iff_leaves, runCalls_closesAll calls 0 (-1) none (Nat.zero_add _) hne
    (fun h => absurd rfl h) hlegal, eq_self, true_and]

/-- The descriptors of the shell stay as they were, with the processes connected, exactly where the
line is clean. -/
theorem runCommand_leaves_iff (shell : Finset FileHandle) (calls : List (ProgramCall × Round))
    (hlegal : Descriptors.Legal ⟨shell, ∅⟩ (runCommand calls)) :
    (LeavesDescriptors shell (runCommand calls) ∧ Connected calls (runCommand calls)) ↔
      Clean shell calls := by
  rw [and_iff_left (runCommand_connected calls)]
  match calls with
  | [] => exact ⟨fun _ => Or.inr trivial, fun _ => ⟨rfl, List.Perm.refl _⟩⟩
  | [(call, round)] =>
    cases hbuiltin : handleBuiltin call with
    | true =>
      rw [runCommand_builtin hbuiltin]
      exact ⟨fun _ => Or.inr (Or.inl hbuiltin), fun _ => ⟨rfl, List.Perm.refl _⟩⟩
    | false =>
      have heq := runCommand_eq [(call, round)] fun call' round' h => by
        obtain ⟨⟨rfl, rfl⟩, -⟩ := List.cons.inj h
        exact hbuiltin
      rw [heq] at hlegal ⊢
      rw [runCalls_leaves_iff (List.cons_ne_nil _ _) hlegal, Clean, hbuiltin]
      simp [NothingCreated]
  | first :: second :: rest =>
    exact runCalls_leaves_iff (List.cons_ne_nil _ _) hlegal

theorem runCommand_leaves_two :
    let shell : Finset FileHandle := {0, 1, 2}
    let calls : List (ProgramCall × Round) :=
      [(⟨[97], []⟩, ⟨some (4, 3), some 7, 9, 9⟩), (⟨[98], []⟩, ⟨none, some 8, 4, 3⟩)]
    Clean shell calls ∧ LeavesDescriptors shell (runCommand calls) ∧
      Connected calls (runCommand calls) := by
  intro shell calls
  have hclean : Clean shell calls := by
    refine Or.inl ⟨⟨rfl, rfl, rfl⟩, ?_⟩
    rintro last ⟨⟩
    decide
  have hlegal : Descriptors.Legal ⟨shell, ∅⟩ (runCommand calls) := by
    refine ⟨⟨by decide, by decide, by decide, by decide, by decide⟩, trivial⟩
  exact ⟨hclean, (runCommand_leaves_iff shell calls hlegal).2 hclean⟩

/-- A single call closes what the variable for a pipe holds; one that cannot be spawned leaves its
pipe open. -/
theorem runCommand_closes_foreign :
    ∃ (shell : Finset FileHandle) (calls broken : List (ProgramCall × Round)),
      (Descriptors.Legal ⟨shell, ∅⟩ (runCommand calls) ∧ ¬LeavesDescriptors shell (runCommand calls)) ∧
        Descriptors.Legal ⟨shell, ∅⟩ (runCommand broken) ∧
          ¬LeavesDescriptors shell (runCommand broken) := by
  refine ⟨{0, 1, 2}, [(⟨[97], []⟩, ⟨none, some 7, 1, 9⟩)],
    [(⟨[97], []⟩, ⟨some (4, 3), none, 9, 9⟩), (⟨[98], []⟩, ⟨none, some 8, 4, 3⟩)], ⟨trivial, ?_⟩,
    ⟨⟨by decide, by decide, by decide, by decide, by decide⟩, trivial⟩, ?_⟩
  · rintro ⟨hstate, -⟩
    exact absurd hstate (by decide)
  · rintro ⟨hstate, -⟩
    exact absurd hstate (by decide)

end MeetixOS.MxSh
