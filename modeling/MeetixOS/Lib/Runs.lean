import Mathlib.Data.List.Basic
import Mathlib.Order.WellFounded

/-! # Runs of partial transition systems

A `System` is a set of initial states and a partial, labelled step function; `none` is a step that cannot be
completed (a panic, a fault, a read of freed memory). `Reachable ok` are the states reached by runs all of
whose steps meet the guard `ok`. -/

namespace MeetixOS.Lib

/-- A transition system with partial, deterministic, labelled steps. -/
structure System (σ α : Type) where
  init : σ → Prop
  step : σ → α → Option σ

namespace System

variable {σ α : Type} (M : System σ α)

/-- The states reached by the runs whose every step meets `ok` in the state it is taken from. -/
inductive Reachable (ok : σ → α → Prop) : σ → Prop
  | init {s : σ} (h : M.init s) : Reachable ok s
  | step {s s' : σ} {a : α} (hs : Reachable ok s) (hok : ok s a)
      (hstep : M.step s a = some s') : Reachable ok s'

variable {M} {ok : σ → α → Prop}

/-- The invariant rule: what holds initially and is kept by every guarded step holds in every state
reached. -/
theorem Reachable.invariant {I : σ → Prop} (hinit : ∀ s, M.init s → I s)
    (hstep : ∀ s a s', I s → ok s a → M.step s a = some s' → I s') {s : σ} (hs : M.Reachable ok s) :
    I s := by
  induction hs with
  | init h => exact hinit _ h
  | step _ hok h ih => exact hstep _ _ _ ih hok h

variable (M)

/-- Execute a list of labels, stopping at the first step that cannot be completed. -/
def run (s : σ) : List α → Option σ
  | [] => some s
  | a :: as => (M.step s a).bind fun s' => run s' as

variable {M}

/-- The total form: where the invariant lets every step complete, every run completes, in a state that
has it. -/
theorem run_total {I : σ → Prop} (hstep : ∀ s a, I s → ∃ s', M.step s a = some s' ∧ I s')
    {s : σ} (hs : I s) (as : List α) : ∃ s', M.run s as = some s' ∧ I s' := by
  induction as generalizing s with
  | nil => exact ⟨s, rfl, hs⟩
  | cons a as ih =>
    obtain ⟨s1, h1, hs1⟩ := hstep s a hs
    obtain ⟨s2, h2, hs2⟩ := ih hs1
    exact ⟨s2, by rw [run, h1, Option.bind_some, h2], hs2⟩

theorem Reachable.of_run {s s' : σ} {as : List α} (hs : M.Reachable ok s)
    (hok : ∀ a ∈ as, ∀ s, ok s a) (h : M.run s as = some s') : M.Reachable ok s' := by
  induction as generalizing s with
  | nil =>
    cases h
    exact hs
  | cons a as ih =>
    rw [run, Option.bind_eq_some_iff] at h
    obtain ⟨s1, hstep, hrun⟩ := h
    exact ih (.step hs (hok a List.mem_cons_self s) hstep)
      (fun b hb => hok b (List.mem_cons_of_mem _ hb)) hrun

theorem reachable_of_run {s s' : σ} {as : List α} (hinit : M.init s) (h : M.run s as = some s') :
    M.Reachable (fun _ _ => True) s' :=
  Reachable.of_run (.init hinit) (fun _ _ _ => trivial) h

variable (M)

/-- Execute a list of labels, stopping at the first step that does not meet the guard or cannot be
completed. -/
def runGuarded (ok : σ → α → Prop) [∀ s a, Decidable (ok s a)] (s : σ) : List α → Option σ
  | [] => some s
  | a :: as => if ok s a then (M.step s a).bind fun s' => runGuarded ok s' as else none

variable {M}

/-- A state that an executed run with guarded steps ends in is reachable by such runs. -/
theorem Reachable.of_runGuarded [∀ s a, Decidable (ok s a)] {s s' : σ}
    {as : List α} (hs : M.Reachable ok s) (h : M.runGuarded ok s as = some s') :
    M.Reachable ok s' := by
  induction as generalizing s with
  | nil =>
    cases h
    exact hs
  | cons a as ih =>
    rw [runGuarded] at h
    split at h
    next hok =>
      obtain ⟨s1, hstep, hrun⟩ := Option.bind_eq_some_iff.1 h
      exact ih (.step hs hok hstep) hrun
    next => cases h

variable (M)

/-- The runs that start in this state. -/
def startingAt (s : σ) : System σ α := { M with init := fun s' => s' = s }

variable {M}

theorem Reachable.append {s s' : σ} (hs : M.Reachable ok s)
    (h : (M.startingAt s).Reachable ok s') : M.Reachable ok s' := by
  induction h with
  | init heq =>
    obtain rfl := heq
    exact hs
  | step _ hok hstep ih => exact .step ih hok hstep

variable (M)

/-- No run of `internal` labels goes on for ever from this state. -/
def Settles (internal : α → Prop) (s : σ) : Prop :=
  ¬ ∃ states : Nat → σ, states 0 = s ∧
    ∀ i, ∃ a, internal a ∧ M.step (states i) a = some (states (i + 1))

variable {M}

/-- Where every internal step keeps the invariant and lowers the rank, every run of internal steps
ends. -/
theorem settles_of_rank {internal : α → Prop} {I : σ → Prop} {β : Type} [Preorder β] [WellFoundedLT β]
    (rank : σ → β)
    (hstep : ∀ s a s', I s → internal a → M.step s a = some s' → I s' ∧ rank s' < rank s)
    {s : σ} (hs : I s) : M.Settles internal s := by
  rintro ⟨states, rfl, hstates⟩
  have hI : ∀ i, I (states i) := by
    intro i
    induction i with
    | zero => exact hs
    | succ i ih =>
      obtain ⟨a, ha, hstep'⟩ := hstates i
      exact (hstep _ a _ ih ha hstep').1
  obtain ⟨-, ⟨i, rfl⟩, hmin⟩ :=
    wellFounded_lt.has_min (Set.range fun i => rank (states i)) ⟨_, 0, rfl⟩
  obtain ⟨a, ha, hstep'⟩ := hstates i
  exact hmin _ ⟨i + 1, rfl⟩ (hstep _ a _ (hI i) ha hstep').2

end System

/-! ## Runs with results

A machine whose steps return a result, and a total machine that says what the results should be. -/

section

variable {σ τ α β : Type}

/-- Execute a list of labels and collect the results. -/
def runResults (step : σ → α → Option (σ × β)) : σ → List α → Option (σ × List β)
  | s, [] => some (s, [])
  | s, a :: as =>
    (step s a).bind fun r => (runResults step r.1 as).map fun rs => (rs.1, r.2 :: rs.2)

/-- The same for the machine that serves as the specification. -/
def runSpec (spec : τ → α → τ × β) : τ → List α → τ × List β
  | t, [] => (t, [])
  | t, a :: as =>
    let rs := runSpec spec (spec t a).1 as
    (rs.1, (spec t a).2 :: rs.2)

variable {step : σ → α → Option (σ × β)} {spec : τ → α → τ × β} {R : σ → τ → Prop}

/-- Where every step that completes keeps the relation and returns what the specification returns, so
does every run. -/
theorem runResults_refines
    (hstep : ∀ s t a s' b, R s t → step s a = some (s', b) → b = (spec t a).2 ∧ R s' (spec t a).1)
    {s s' : σ} {t : τ} {as : List α} {bs : List β} (hR : R s t)
    (h : runResults step s as = some (s', bs)) :
    bs = (runSpec spec t as).2 ∧ R s' (runSpec spec t as).1 := by
  induction as generalizing s t bs with
  | nil =>
    cases h
    exact ⟨rfl, hR⟩
  | cons a as ih =>
    obtain ⟨⟨s1, b⟩, hfirst, h⟩ := Option.bind_eq_some_iff.1 h
    obtain ⟨⟨s2, rest⟩, hrest, heq⟩ := Option.map_eq_some_iff.1 h
    obtain ⟨rfl, rfl⟩ := Prod.mk.inj heq
    obtain ⟨hb, hR1⟩ := hstep s t a s1 b hR hfirst
    obtain ⟨hrest', hR2⟩ := ih hR1 hrest
    exact ⟨by rw [runSpec, hb, hrest'], hR2⟩

/-- Where every step completes and keeps the relation, every run completes. -/
theorem runResults_isSome
    (hstep : ∀ s t a, R s t → ∃ s' b, step s a = some (s', b) ∧ R s' (spec t a).1)
    {s : σ} {t : τ} (hR : R s t) (as : List α) : (runResults step s as).isSome := by
  induction as generalizing s t with
  | nil => rfl
  | cons a as ih =>
    obtain ⟨s1, b, hfirst, hR1⟩ := hstep s t a hR
    rw [runResults, hfirst, Option.bind_some, Option.isSome_map]
    exact ih hR1

/-- Every step of the run meets the guard in the state it is taken from. -/
def GuardedRun (step : σ → α → Option (σ × β)) (ok : σ → α → Prop) : σ → List α → Prop
  | _, [] => True
  | s, a :: as => ok s a ∧ ∀ r, step s a = some r → GuardedRun step ok r.1 as

/-- The guard checked along the run, for concrete runs. -/
def checkRun (step : σ → α → Option (σ × β)) (check : σ → α → Bool) : σ → List α → Bool
  | _, [] => true
  | s, a :: as =>
    check s a &&
      match step s a with
      | none => true
      | some r => checkRun step check r.1 as

theorem GuardedRun.of_checkRun {ok : σ → α → Prop} (check : σ → α → Bool)
    (hcheck : ∀ s a, check s a = true → ok s a) {s : σ} {as : List α}
    (h : checkRun step check s as = true) : GuardedRun step ok s as := by
  induction as generalizing s with
  | nil => trivial
  | cons a as ih =>
    rw [checkRun, Bool.and_eq_true] at h
    refine ⟨hcheck s a h.1, fun r hr => ih ?_⟩
    simpa [hr] using h.2

/-- Where every guarded step completes, returns what the other machine's step returns and keeps the
relation, so does every run. -/
theorem runResults_simulates {spec : τ → α → Option (τ × β)} {ok : σ → α → Prop}
    (hstep : ∀ s t a, R s t → ok s a →
      ∃ b s' t', step s a = some (s', b) ∧ spec t a = some (t', b) ∧ R s' t')
    {s : σ} {t : τ} {as : List α} (hR : R s t) (hok : GuardedRun step ok s as) :
    ∃ bs s' t', runResults step s as = some (s', bs) ∧ runResults spec t as = some (t', bs) ∧
      R s' t' := by
  induction as generalizing s t with
  | nil => exact ⟨[], s, t, rfl, rfl, hR⟩
  | cons a as ih =>
    obtain ⟨b, s1, t1, hs, ht, hR1⟩ := hstep s t a hR hok.1
    obtain ⟨bs, s2, t2, hs2, ht2, hR2⟩ := ih hR1 (hok.2 _ hs)
    refine ⟨b :: bs, s2, t2, ?_, ?_, hR2⟩
    · rw [runResults, hs, Option.bind_some, hs2, Option.map_some]
    · rw [runResults, ht, Option.bind_some, ht2, Option.map_some]

/-- Where every allowed step of the states with the invariant gives what the other machine's step
gives, or fails as it does, so does every run. -/
theorem runResults_map {spec : τ → α → Option (τ × β)} {f : σ → τ} {I : σ → Prop} {P : α → Prop}
    (hstep : ∀ s a, I s → P a → (step s a).map (Prod.map f id) = spec (f s) a ∧
      ∀ r, step s a = some r → I r.1)
    {s : σ} {as : List α} (hI : I s) (hP : ∀ a ∈ as, P a) :
    (runResults step s as).map (Prod.map f id) = runResults spec (f s) as := by
  induction as generalizing s with
  | nil => rfl
  | cons a as ih =>
    obtain ⟨heq, hkeep⟩ := hstep s a hI (hP a List.mem_cons_self)
    rw [runResults, runResults, ← heq]
    cases hfirst : step s a with
    | none => rfl
    | some r =>
      have hrest := ih (hkeep r hfirst) fun b hb => hP b (List.mem_cons_of_mem a hb)
      simp only [Option.bind_some, Option.map_some, Prod.map_fst, Prod.map_snd, id_eq, ← hrest,
        Option.map_map]
      rfl

end

end MeetixOS.Lib
