import Mathlib.Data.Option.Basic

/-! # Loops, round by round

`rounds body n s` runs a loop from the state `s` for at most `n` rounds. A round goes on from a new state
or leaves the loop with a result; it does neither where something in it does not finish. `Agrees n k r
result` says of what some loops give in at most `n` rounds each that it is the result, or that `n` was not
above `k`; where the result is `none` they never end. `rounds_agrees` is the rule for both. -/

namespace MeetixOS.Lib

variable {σ ρ τ : Type}

/-- At most `n` rounds of a loop. -/
def rounds (body : σ → Option (σ ⊕ ρ)) : Nat → σ → Option ρ
  | 0, _ => none
  | n + 1, s =>
    match body s with
    | none => none
    | some (.inl s') => rounds body n s'
    | some (.inr r) => some r

variable {body : σ → Option (σ ⊕ ρ)} {n : Nat} {s s' : σ} {r : ρ}

theorem rounds_succ_inl (h : body s = some (.inl s')) : rounds body (n + 1) s = rounds body n s' := by
  simp [rounds, h]

theorem rounds_succ_inr (h : body s = some (.inr r)) : rounds body (n + 1) s = some r := by
  simp [rounds, h]

theorem rounds_succ_none (h : body s = none) : rounds body (n + 1) s = none := by
  simp [rounds, h]

/-- What at most `n` rounds give agrees with a result that takes no more than `k` rounds and one. -/
def Agrees (n k : Nat) (r result : Option ρ) : Prop := r = result ∨ (r = none ∧ n ≤ k)

section

variable {k : Nat} {r result : Option ρ} (h : Agrees n k r result)
include h

theorem Agrees.eq_some {x : ρ} (hresult : result = some x) (hn : k < n) : r = some x := by
  rcases h with rfl | ⟨-, hle⟩
  · exact hresult
  · exact absurd hle (Nat.not_le_of_lt hn)

theorem Agrees.eq_none (hresult : result = none) : r = none := by
  rcases h with rfl | ⟨hnone, -⟩
  · exact hresult
  · exact hnone

theorem Agrees.mono {k' : Nat} (hle : k ≤ k') : Agrees n k' r result :=
  h.imp_right fun ⟨hnone, hn⟩ => ⟨hnone, Nat.le_trans hn hle⟩

theorem Agrees.bind {f g : ρ → Option τ} (hbehind : ∀ x, result = some x → Agrees n k (f x) (g x)) :
    Agrees n k (r.bind f) (result.bind g) := by
  rcases h with rfl | ⟨rfl, hn⟩
  · cases r with
    | none => exact Or.inl rfl
    | some x => exact hbehind x rfl
  · exact Or.inr ⟨rfl, hn⟩

end

/-- The rule for loops: each round leaves with the result, or keeps it and lowers the rank, which is
not below `n` where it does not finish. -/
theorem rounds_agrees (rank : σ → Nat) (result : σ → Option ρ)
    (h : ∀ s, (body s = none ∧ (n ≤ rank s ∨ result s = none)) ∨
      (∃ r, body s = some (.inr r) ∧ result s = some r) ∨
      ∃ s', body s = some (.inl s') ∧ result s' = result s ∧ (rank s' < rank s ∨ result s = none))
    (s : σ) : Agrees n (rank s) (rounds body n s) (result s) := by
  have hnone : ∀ m s, result s = none → rounds body m s = none := by
    intro m
    induction m with
    | zero => exact fun _ _ => rfl
    | succ m ih =>
      intro s hs
      rcases h s with ⟨hstuck, -⟩ | ⟨r, -, hr⟩ | ⟨s', hgo, hsame, -⟩
      · exact rounds_succ_none hstuck
      · rw [hs] at hr
        cases hr
      · rw [rounds_succ_inl hgo]
        exact ih s' (hsame.trans hs)
  have hsome : ∀ m s r, result s = some r → m ≤ n → rank s < m → rounds body m s = some r := by
    intro m
    induction m with
    | zero => exact fun s r _ _ hlt => absurd hlt (Nat.not_lt_zero _)
    | succ m ih =>
      intro s r hs hm hlt
      have hno : result s ≠ none := by simp [hs]
      rcases h s with ⟨-, hle | hcontra⟩ | ⟨r', hleave, hr'⟩ | ⟨s', hgo, hsame, hrank | hcontra⟩
      · omega
      · exact absurd hcontra hno
      · rw [rounds_succ_inr hleave, ← hr', hs]
      · rw [rounds_succ_inl hgo]
        exact ih s' r (hsame.trans hs) (by omega) (by omega)
      · exact absurd hcontra hno
  have hpart : ∀ m s, rounds body m s = none ∨ rounds body m s = result s := by
    intro m
    induction m with
    | zero => exact fun _ => Or.inl rfl
    | succ m ih =>
      intro s
      rcases h s with ⟨hstuck, -⟩ | ⟨r, hleave, hr⟩ | ⟨s', hgo, hsame, -⟩
      · exact Or.inl (rounds_succ_none hstuck)
      · exact Or.inr ((rounds_succ_inr hleave).trans hr.symm)
      · rw [rounds_succ_inl hgo, ← hsame]
        exact ih s'
  rcases Nat.lt_or_ge (rank s) n with hlt | hle
  · cases hresult : result s with
    | none => exact Or.inl (hnone n s hresult)
    | some r => exact Or.inl (hsome n s r hresult (Nat.le_refl n) hlt)
  · exact (hpart n s).symm.imp_right fun hno => ⟨hno, hle⟩

theorem rounds_eq_some (rank : σ → Nat) (result : σ → ρ)
    (h : ∀ s, rank s < n → body s = some (.inr (result s)) ∨
      ∃ s', body s = some (.inl s') ∧ rank s' < rank s ∧ result s' = result s)
    (hs : rank s < n) : rounds body n s = some (result s) := by
  have hmore : ∀ m s, rank s < m → m ≤ n → rounds body m s = some (result s) := by
    intro m
    induction m with
    | zero => exact fun s hs => absurd hs (Nat.not_lt_zero _)
    | succ m ih =>
      intro s hs hm
      rcases h s (Nat.lt_of_lt_of_le hs hm) with hleave | ⟨s', hgo, hrank, hresult⟩
      · exact rounds_succ_inr hleave
      · rw [rounds_succ_inl hgo, ih s' (by omega) (by omega), hresult]
  exact hmore n s hs (Nat.le_refl n)

end MeetixOS.Lib
