import Mathlib.Data.List.TakeWhile

/-! # Orders given by comparators

Comparators that answer by the sign of an integer and comparators that answer whether one value comes
before another; lists that are sorted by them. -/

namespace Sorted

variable {α : Type*}

/-- A comparator of a total preorder; `cmp a b` is positive where `a` is greater than `b`. -/
structure TotalPreorder (cmp : α → α → Int) : Prop where
  total : ∀ a b, cmp a b ≤ 0 ∨ cmp b a ≤ 0
  trans : ∀ a b c, cmp a b ≤ 0 → cmp b c ≤ 0 → cmp a c ≤ 0

theorem TotalPreorder.of_pos {cmp : α → α → Int} (h : TotalPreorder cmp) {a b : α} (hgt : 0 < cmp a b) :
    cmp b a ≤ 0 :=
  (h.total b a).resolve_right (by omega)

theorem exchange_perm (front mid rest : List α) (x y : α) :
    (front ++ y :: (mid ++ x :: rest)).Perm (front ++ x :: (mid ++ y :: rest)) := by
  refine List.Perm.append_left front ?_
  exact (List.perm_middle.cons y).trans ((List.Perm.swap x y _).trans (List.perm_middle.symm.cons x))

/-- No value is greater than one behind it. -/
def Ascending (cmp : α → α → Int) (xs : List α) : Prop :=
  xs.Pairwise fun a b => cmp a b ≤ 0

/-- A comparator of a strict weak order. -/
structure StrictWeakOrder (before : α → α → Bool) : Prop where
  irrefl : ∀ a, before a a = false
  trans : ∀ a b c, before a b = true → before b c = true → before a c = true
  /-- Values that are not before one another are the same for the order. -/
  incomparable_trans : ∀ a b c, before a b = false → before b a = false → before b c = false →
    before c b = false → before a c = false ∧ before c a = false

section

variable {before : α → α → Bool} {a b c : α}

theorem StrictWeakOrder.asymm (h : StrictWeakOrder before) (hab : before a b = true) :
    before b a = false := by
  rw [← Bool.not_eq_true]
  intro hba
  have haa := h.trans a b a hab hba
  rw [h.irrefl] at haa
  exact Bool.false_ne_true haa

theorem StrictWeakOrder.not_before_trans (h : StrictWeakOrder before) (hab : before a b = false)
    (hbc : before b c = false) : before a c = false := by
  rw [← Bool.not_eq_true]
  intro hac
  have hba : before b a = false := by
    rw [← Bool.not_eq_true]
    intro hba
    rw [h.trans b a c hba hac] at hbc
    exact Bool.false_ne_true hbc.symm
  have hcb : before c b = false := by
    rw [← Bool.not_eq_true]
    intro hcb
    rw [h.trans a c b hac hcb] at hab
    exact Bool.false_ne_true hab.symm
  have hac' := (h.incomparable_trans a b c hab hba hbc hcb).1
  rw [hac] at hac'
  exact Bool.false_ne_true hac'.symm

/-- No value is before one that stands before it. -/
def InOrder (before : α → α → Bool) (xs : List α) : Prop :=
  xs.Pairwise fun a b => before b a = false

/-- In a list that is in order, a value has its place where the first value stands that is not before
it. -/
theorem InOrder.insert {xs : List α} (horder : StrictWeakOrder before) (h : InOrder before xs) (x : α) :
    InOrder before (xs.takeWhile (before · x) ++ x :: xs.dropWhile (before · x)) := by
  have hsplit := List.takeWhile_append_dropWhile (p := (before · x)) (l := xs)
  have hboth := h
  rw [InOrder, ← hsplit, List.pairwise_append] at hboth
  obtain ⟨hfront, hrest, hacross⟩ := hboth
  have hbefore : ∀ a ∈ xs.takeWhile (before · x), before a x = true := by
    intro a ha
    exact List.mem_takeWhile_imp (p := (before · x)) ha
  have hbehind : ∀ b ∈ xs.dropWhile (before · x), before b x = false := by
    cases hdrop : xs.dropWhile (before · x) with
    | nil => exact fun b hb => absurd hb List.not_mem_nil
    | cons d ds =>
      have hd : before d x = false := by
        have hhead := List.head_dropWhile_not (before · x) (by rw [hdrop]; simp)
        simpa [hdrop] using hhead
      rw [hdrop, List.pairwise_cons] at hrest
      rintro b (_ | ⟨_, hb⟩)
      · exact hd
      · exact horder.not_before_trans (hrest.1 b hb) hd
  refine List.pairwise_append.2 ⟨hfront, List.pairwise_cons.2 ⟨hbehind, hrest⟩, ?_⟩
  rintro a ha b (_ | ⟨_, hb⟩)
  · exact horder.asymm (hbefore a ha)
  · exact hacross a ha b hb

end

end Sorted
