import Mathlib.Data.List.GetD

/-! # Padded lists

The start of a list between two runs of one value. Two such lists are told apart by their lengths and by
where the start of the list stands, unless it is itself nothing but that value. -/

namespace Padding

variable {α : Type*}

/-- The first `i` of a list, with `a` times `x` in front of them and `b` times behind. -/
def padded (x : α) (values : List α) (a i b : Nat) : List α :=
  List.replicate a x ++ values.take i ++ List.replicate b x

variable {x : α} {values : List α} {a i b a' i' b' : Nat}

@[simp] theorem padded_length :
    (padded x values a i b).length = a + min i values.length + b := by
  simp [padded, Nat.add_assoc]

theorem padded_getD (k : Nat) :
    (padded x values a i b).getD k x = if a ≤ k ∧ k - a < i then values.getD (k - a) x else x := by
  have hreplicate : ∀ n k, (List.replicate n x).getD k x = x := by
    intro n k
    by_cases hk : k < n
    · rw [List.getD_eq_getElem _ _ (by simpa using hk), List.getElem_replicate]
    · rw [List.getD_eq_default _ _ (by simpa using hk)]
  have htake : ∀ k, (values.take i).getD k x = if k < i then values.getD k x else x := by
    intro k
    rw [List.getD_eq_getElem?_getD, List.getElem?_take]
    split
    next => rw [List.getD_eq_getElem?_getD]
    next => rfl
  rw [padded, List.append_assoc]
  by_cases hfront : k < a
  · rw [List.getD_append _ _ _ _ (by simpa using hfront), hreplicate, if_neg (by omega)]
  · rw [List.getD_append_right _ _ _ _ (by simpa using hfront), List.length_replicate]
    by_cases htext : k - a < (values.take i).length
    · rw [List.getD_append _ _ _ _ htext, htake]
      exact if_congr (by omega) rfl rfl
    · rw [List.getD_append_right _ _ _ _ (by omega), hreplicate]
      rw [List.length_take] at htext
      split
      next h => rw [List.getD_eq_default _ _ (by omega)]
      next => rfl

/-- Lists of one length are the same where they have the same values at all indices. -/
theorem eq_of_getD (x : α) {xs ys : List α} (hlength : xs.length = ys.length)
    (h : ∀ k, xs.getD k x = ys.getD k x) : xs = ys := by
  refine List.ext_getElem hlength fun k hk hk' => ?_
  rw [← List.getD_eq_getElem xs x hk, h k, List.getD_eq_getElem ys x hk']

/-- Where the start of the list stands further behind in one of two lists, it is nothing but the value. -/
theorem eq_of_shifted (hshift : a < a')
    (h : ∀ k, (padded x values a i b).getD k x = (padded x values a' i' b').getD k x) (m : Nat)
    (hm : m < max i i') : values.getD m x = x := by
  have hfirst : ∀ m < i, values.getD m x = x := by
    intro m
    induction m using Nat.strongRecOn with
    | ind m ih =>
      intro hmi
      have hat := h (a + m)
      rw [padded_getD, padded_getD, if_pos (by omega), Nat.add_sub_cancel_left] at hat
      rw [hat]
      split
      next hin => exact ih (a + m - a') (by omega) (by omega)
      next => rfl
  by_cases hmi : m < i
  · exact hfirst m hmi
  · have hat := h (a' + m)
    rw [padded_getD, padded_getD, if_pos (by omega : a' ≤ a' + m ∧ a' + m - a' < i'),
      Nat.add_sub_cancel_left] at hat
    rw [← hat]
    split
    next hin => exact hfirst _ hin.2
    next => rfl

/-- Two lists are the same where they are equally long and the list stands at the same place in both,
with only the value where one of them has a part of it, or everywhere. -/
theorem padded_eq_iff : padded x values a i b = padded x values a' i' b' ↔
    a + min i values.length + b = a' + min i' values.length + b' ∧
      ((a = a' ∧ ∀ m, min i i' ≤ m → m < max i i' → values.getD m x = x) ∨
        ∀ m < max i i', values.getD m x = x) := by
  constructor
  · intro heq
    refine ⟨by simpa using congrArg List.length heq, ?_⟩
    have h : ∀ k, (padded x values a i b).getD k x = (padded x values a' i' b').getD k x := by
      intro k
      rw [heq]
    rcases Nat.lt_trichotomy a a' with hlt | rfl | hgt
    · exact .inr fun m hm => eq_of_shifted hlt h m hm
    · refine .inl ⟨rfl, fun m hmin hmax => ?_⟩
      have hat := h (a + m)
      rw [padded_getD, padded_getD, Nat.add_sub_cancel_left] at hat
      by_cases hmi : m < i
      · rw [if_pos (by omega), if_neg (by omega)] at hat
        exact hat
      · rw [if_neg (by omega), if_pos (by omega)] at hat
        exact hat.symm
    · refine .inr fun m hm => eq_of_shifted hgt (fun k => (h k).symm) m ?_
      rwa [Nat.max_comm]
  · rintro ⟨hlength, hplace⟩
    refine eq_of_getD x (by simpa using hlength) fun k => ?_
    rw [padded_getD, padded_getD]
    rcases hplace with ⟨rfl, hsame⟩ | hblank
    · by_cases hi : a ≤ k ∧ k - a < i
      · by_cases hi' : a ≤ k ∧ k - a < i'
        · rw [if_pos hi, if_pos hi']
        · rw [if_pos hi, if_neg hi', hsame (k - a) (by omega) (by omega)]
      · by_cases hi' : a ≤ k ∧ k - a < i'
        · rw [if_neg hi, if_pos hi', hsame (k - a) (by omega) (by omega)]
        · rw [if_neg hi, if_neg hi']
    · have hleft : (if a ≤ k ∧ k - a < i then values.getD (k - a) x else x) = x := by
        split
        next hin => exact hblank _ (by omega)
        next => rfl
      have hright : (if a' ≤ k ∧ k - a' < i' then values.getD (k - a') x else x) = x := by
        split
        next hin => exact hblank _ (by omega)
        next => rfl
      rw [hleft, hright]

end Padding
