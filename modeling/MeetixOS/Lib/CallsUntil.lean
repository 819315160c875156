import Mathlib.Logic.Basic

/-! # Calling until an answer comes

A function with a state is called again and again until it gives one answer, the last. A call may also
fail to return. The calls end in a state, or they run forever in a set of states that no call leaves. -/

namespace MeetixOS.Lib

section

variable {σ ρ : Type}

/-- Finitely many calls lead from a state to the one in which the last answer is given. -/
inductive EndsAt (call : σ → Option (ρ × σ)) (last : ρ) : σ → σ → Prop
  | last {s f : σ} (hcall : call s = some (last, f)) : EndsAt call last s f
  | more {s s' f : σ} {r : ρ} (hcall : call s = some (r, s')) (hmore : r ≠ last)
      (hends : EndsAt call last s' f) : EndsAt call last s f

variable {call : σ → Option (ρ × σ)} {last : ρ} {s s' f g : σ} {r : ρ}

theorem not_endsAt_of_none (hcall : call s = none) : ¬EndsAt call last s f := by
  intro hends
  cases hends with
  | last h | more h => simp [hcall] at h

theorem endsAt_of_last (hcall : call s = some (last, g)) : EndsAt call last s f ↔ f = g := by
  constructor
  · intro hends
    cases hends with
    | last h =>
      rw [hcall] at h
      simp only [Option.some.injEq, Prod.mk.injEq, true_and] at h
      exact h.symm
    | more h hmore =>
      rw [hcall] at h
      simp only [Option.some.injEq, Prod.mk.injEq] at h
      exact absurd h.1.symm hmore
  · rintro rfl
    exact .last hcall

theorem endsAt_of_more (hcall : call s = some (r, s')) (hmore : r ≠ last) :
    EndsAt call last s f ↔ EndsAt call last s' f := by
  constructor
  · intro hends
    cases hends with
    | last h =>
      rw [hcall] at h
      simp only [Option.some.injEq, Prod.mk.injEq] at h
      exact absurd h.1 hmore
    | more h _ hrest =>
      rw [hcall] at h
      simp only [Option.some.injEq, Prod.mk.injEq] at h
      rwa [h.2]
  · exact .more hcall hmore

theorem endsAt_congr (hcall : call s = call s') : EndsAt call last s f ↔ EndsAt call last s' f := by
  constructor
  · intro hends
    cases hends with
    | last h => exact .last (hcall ▸ h)
    | more h hmore hrest => exact .more (hcall ▸ h) hmore hrest
  · intro hends
    cases hends with
    | last h => exact .last (hcall ▸ h)
    | more h hmore hrest => exact .more (hcall ▸ h) hmore hrest

/-- The calls never end from a state of a set that no call leaves and in which none gives the last
answer. -/
theorem not_endsAt_of_trap (Trap : σ → Prop)
    (htrap : ∀ s, Trap s → ∀ r s', call s = some (r, s') → r ≠ last ∧ Trap s') (hs : Trap s) :
    ¬EndsAt call last s f := by
  intro hends
  induction hends with
  | last hcall => exact (htrap _ hs _ _ hcall).1 rfl
  | more hcall _ _ ih => exact ih (htrap _ hs _ _ hcall).2

end

end MeetixOS.Lib
