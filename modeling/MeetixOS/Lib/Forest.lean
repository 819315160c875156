import Mathlib.Data.List.Count
import Mathlib.Data.List.Perm.Basic
import Mathlib.Order.WellFounded

/-! # Forests of linked objects

A `Linkage` is what the pointers of a set of objects say: the parent of each, if any, and its list of
children. It is a `Forest` where the two agree and every climb along the parents ends; `unlink` and `link`
are the changes that a program makes. `climbEnds` is a climb with a bound on its depth. -/

open Function (update update_apply)

namespace MeetixOS.Lib

/-- The parent and the children that each object points to. -/
structure Linkage (α : Type) where
  parent : α → Option α
  children : α → List α

namespace Linkage

variable {α : Type} {g : Linkage α} {a b c p q : α}

/-- `p` is the parent of `c`. -/
def IsParent (g : Linkage α) (p c : α) : Prop := g.parent c = some p

/-- `a` is `b` or one of its ancestors. -/
def AtOrAbove (g : Linkage α) : α → α → Prop := Relation.ReflTransGen g.IsParent

/-- `a` is an ancestor of `b`. -/
def Above (g : Linkage α) : α → α → Prop := Relation.TransGen g.IsParent

/-- The parents and the lists of children agree, and no climb goes on for ever. -/
structure Forest [DecidableEq α] (g : Linkage α) : Prop where
  listed : ∀ p c, (g.children p).count c = if g.parent c = some p then 1 else 0
  climbs : WellFounded g.IsParent

theorem Forest.not_above_self [DecidableEq α] (h : g.Forest) (a : α) : ¬ g.Above a a :=
  fun hself => h.climbs.transGen.irrefl.irrefl a hself

theorem atOrAbove_iff : g.AtOrAbove a b ↔ b = a ∨ ∃ p, g.parent b = some p ∧ g.AtOrAbove a p := by
  constructor
  · intro h
    rcases Relation.ReflTransGen.cases_tail h with rfl | ⟨p, hp, hstep⟩
    · exact Or.inl rfl
    · exact Or.inr ⟨p, hstep, hp⟩
  · rintro (rfl | ⟨p, hp, h⟩)
    · exact .refl
    · exact h.tail hp

theorem not_atOrAbove_of_root (hb : g.parent b = none) (hne : b ≠ a) : ¬ g.AtOrAbove a b := by
  rw [atOrAbove_iff]
  rintro (rfl | ⟨p, hp, -⟩)
  · exact hne rfl
  · rw [hb] at hp
    cases hp

/-! ## The climb -/

/-- The climb from an object along the parents, with a bound on its depth: it gets to the end. -/
def climbEnds (g : Linkage α) : Nat → α → Bool
  | 0, _ => false
  | depth + 1, a =>
    match g.parent a with
    | none => true
    | some p => climbEnds g depth p

theorem exists_climbEnds (h : WellFounded g.IsParent) (a : α) : ∃ depth, g.climbEnds depth a := by
  induction a using h.induction with
  | _ a ih =>
    cases hp : g.parent a with
    | none => exact ⟨1, by rw [climbEnds, hp]⟩
    | some p =>
      obtain ⟨depth, hdepth⟩ := ih p hp
      exact ⟨depth + 1, by rw [climbEnds, hp]; exact hdepth⟩

/-! ## Taking out and putting in -/

variable [DecidableEq α]

/-- The object is taken out of a list, however often it is in it, and has no parent. -/
def unlink (g : Linkage α) (p c : α) : Linkage α where
  parent := update g.parent c none
  children := update g.children p ((g.children p).filter fun d => d ≠ c)

/-- The object gets a parent; `list` is the parent's new list. -/
def link (g : Linkage α) (p c : α) (list : List α) : Linkage α where
  parent := update g.parent c (some p)
  children := update g.children p list

theorem Forest.unlink (h : g.Forest) (hp : g.parent c = some p) : (g.unlink p c).Forest := by
  refine ⟨?_, Subrelation.wf (fun {q d} hd => ?_) h.climbs⟩
  · intro q d
    have hlist : ((g.unlink p c).children q).count d = if d = c then 0 else (g.children q).count d := by
      simp only [Linkage.unlink, update_apply]
      by_cases hq : q = p
      · subst hq
        rw [if_pos rfl]
        by_cases hd : d = c
        · subst hd
          rw [if_pos rfl, List.count_eq_zero]
          simp
        · rw [if_neg hd, List.count_filter (by simpa using hd)]
      · rw [if_neg hq]
        by_cases hd : d = c
        · subst hd
          rw [if_pos rfl, h.listed, hp, if_neg fun heq => hq (Option.some.inj heq).symm]
        · rw [if_neg hd]
    rw [hlist, h.listed]
    simp only [Linkage.unlink, update_apply]
    by_cases hd : d = c <;> simp [hd]
  · by_cases hdc : d = c
    · subst hdc
      simp [IsParent, Linkage.unlink] at hd
    · simpa [IsParent, Linkage.unlink, update_apply, hdc] using hd

/-- Nothing changes above an object that is not below the one that is taken out. -/
theorem AtOrAbove.of_unlink (h : (g.unlink p c).AtOrAbove a b) : g.AtOrAbove a b := by
  refine Relation.ReflTransGen.mono (fun q d hd => ?_) _ _ h
  by_cases hdc : d = c
  · subst hdc
    simp [IsParent, Linkage.unlink] at hd
  · simpa [IsParent, Linkage.unlink, update_apply, hdc] using hd

theorem Forest.link {list : List α} (h : g.Forest) (hc : g.parent c = none)
    (hapart : ¬ g.AtOrAbove c p) (hlist : list.Perm (c :: g.children p)) :
    (g.link p c list).Forest := by
  have hparent : ∀ d, (g.link p c list).parent d = if d = c then some p else g.parent d :=
    fun d => update_apply ..
  refine ⟨?_, ⟨?_⟩⟩
  · intro q d
    rw [hparent]
    have hcount : ((g.link p c list).children q).count d =
        (g.children q).count d + if q = p ∧ d = c then 1 else 0 := by
      simp only [Linkage.link, update_apply]
      by_cases hq : q = p
      · subst hq
        rw [if_pos rfl, hlist.count_eq, List.count_cons]
        by_cases hd : d = c
        · rw [if_pos (by simpa using hd.symm), if_pos ⟨rfl, hd⟩]
        · rw [if_neg (by simpa using fun heq : c = d => hd heq.symm), if_neg fun h => hd h.2]
      · rw [if_neg hq, if_neg fun h => hq h.1, Nat.add_zero]
    rw [hcount, h.listed]
    by_cases hd : d = c
    · subst hd
      rw [hc, if_neg (by simp), if_pos rfl, Nat.zero_add]
      by_cases hq : q = p
      · rw [if_pos ⟨hq, rfl⟩, if_pos (congrArg some hq.symm)]
      · rw [if_neg fun h => hq h.1, if_neg fun heq => hq (Option.some.inj heq).symm]
    · simp [hd]
  · -- first what is not below `c`, then `c` itself, then the rest
    have hoff : ∀ d, ¬ g.AtOrAbove c d → Acc (g.link p c list).IsParent d := by
      intro d
      induction d using h.climbs.induction with
      | _ d ih =>
        intro hd
        refine ⟨d, fun q hq => ?_⟩
        have hdc : d ≠ c := fun heq => hd (heq ▸ .refl)
        rw [IsParent, hparent, if_neg hdc] at hq
        exact ih q hq fun hcq => hd (hcq.tail hq)
    have hself : Acc (g.link p c list).IsParent c := by
      refine ⟨c, fun q hq => ?_⟩
      rw [IsParent, hparent, if_pos rfl, Option.some.injEq] at hq
      exact hq ▸ hoff p hapart
    intro d
    induction d using h.climbs.induction with
    | _ d ih =>
      by_cases hdc : d = c
      · exact hdc ▸ hself
      · refine ⟨d, fun q hq => ?_⟩
        rw [IsParent, hparent, if_neg hdc] at hq
        exact ih q hq

end Linkage

end MeetixOS.Lib
