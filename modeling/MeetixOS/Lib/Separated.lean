import Mathlib.Data.List.Basic

/-! # Separated entries of a log

A log is a list to whose end entries are added. `Separated p q l` says that between any two entries
with `p` there is one with `q`, and `Ended p q l` that behind every entry with `p` there is one with
`q`: then a further entry with `p` may be added. -/

namespace MeetixOS.Lib

variable {α : Type} {p q : α → Prop} {l : List α} {x : α}

/-- Between two entries with `p` there is one with `q`. -/
def Separated (p q : α → Prop) (l : List α) : Prop :=
  ∀ before a between b behind, l = before ++ a :: (between ++ b :: behind) → p a → p b →
    ∃ c ∈ between, q c

/-- Behind every entry with `p` there is one with `q`. -/
def Ended (p q : α → Prop) (l : List α) : Prop :=
  ∀ before a behind, l = before ++ a :: behind → p a → ∃ c ∈ behind, q c

theorem separated_nil : Separated p q [] := by
  intro before a between b behind h
  exact absurd h.symm (List.append_ne_nil_of_right_ne_nil _ (List.cons_ne_nil _ _))

theorem ended_nil : Ended p q [] := by
  intro before a behind h
  exact absurd h.symm (List.append_ne_nil_of_right_ne_nil _ (List.cons_ne_nil _ _))

theorem Separated.append (h : Separated p q l) (hended : p x → Ended p q l) :
    Separated p q (l ++ [x]) := by
  intro before a between b behind heq ha hb
  rcases List.eq_nil_or_concat behind with rfl | ⟨behind, y, rfl⟩
  · have hsplit : before ++ a :: (between ++ [b]) = (before ++ a :: between) ++ [b] := by
      rw [List.append_assoc, List.cons_append]
    obtain ⟨hl, hx⟩ := List.append_inj' (heq.trans hsplit) rfl
    cases hx
    exact hended hb before a between hl ha
  · have hsplit : before ++ a :: (between ++ b :: behind.concat y) =
        (before ++ a :: (between ++ b :: behind)) ++ [y] := by
      simp
    obtain ⟨hl, -⟩ := List.append_inj' (heq.trans hsplit) rfl
    exact h before a between b behind hl ha hb

theorem ended_append (hx : ¬ p x) (h : q x ∨ Ended p q l) : Ended p q (l ++ [x]) := by
  intro before a behind heq ha
  rcases List.eq_nil_or_concat behind with rfl | ⟨behind, y, rfl⟩
  · obtain ⟨-, hax⟩ := List.append_inj' heq rfl
    cases hax
    exact absurd ha hx
  · have hsplit : before ++ a :: behind.concat y = (before ++ a :: behind) ++ [y] := by simp
    obtain ⟨hl, hxy⟩ := List.append_inj' (heq.trans hsplit) rfl
    cases hxy
    rcases h with hq | hended
    · exact ⟨x, by simp, hq⟩
    · obtain ⟨c, hc, hq⟩ := hended before a behind hl ha
      exact ⟨c, by simp [hc], hq⟩

end MeetixOS.Lib
