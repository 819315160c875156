import Mathlib.Data.List.Nodup

/-! # Doubly linked lists

A doubly linked list in memory, seen through two functions: `prev` and `next` give the pointers that an
object holds. `Segment prev next p l q` says that the objects in `l` are linked in that order, the first
pointing back to `p` and the last on to `q`; a whole list is a segment between nulls (`Linked`). -/

open Function (update update_of_ne update_self)

namespace MeetixOS.Lib

variable {α : Type}

/-- The objects in `l` are linked in this order, between `p` and `q`. -/
def Segment (prev next : α → Option α) : Option α → List α → Option α → Prop
  | _, [], _ => True
  | p, a :: as, q => prev a = p ∧ next a = as.head?.or q ∧ Segment prev next (some a) as q

/-- The objects in `l` are a whole list. -/
def Linked (prev next : α → Option α) (l : List α) : Prop := Segment prev next none l none

variable {prev next prev' next' : α → Option α} {p q p' q' : Option α} {l m : List α} {a : α}

theorem Segment.congr (h : Segment prev next p l q)
    (hsame : ∀ a ∈ l, prev' a = prev a ∧ next' a = next a) : Segment prev' next' p l q := by
  induction l generalizing p with
  | nil => trivial
  | cons a as ih =>
    obtain ⟨hprev, hnext, hrest⟩ := h
    obtain ⟨hprev', hnext'⟩ := hsame a List.mem_cons_self
    exact ⟨hprev'.trans hprev, hnext'.trans hnext,
      ih hrest fun b hb => hsame b (List.mem_cons_of_mem _ hb)⟩

theorem segment_append : Segment prev next p (l ++ m) q ↔
    Segment prev next p l (m.head?.or q) ∧ Segment prev next (l.getLast?.or p) m q := by
  induction l generalizing p with
  | nil => simp [Segment]
  | cons a as ih =>
    have hlast : (a :: as).getLast?.or p = as.getLast?.or (some a) := by
      cases as <;> simp [List.getLast?_cons]
    rw [List.cons_append, Segment, ih, Segment, hlast, List.head?_append, Option.or_assoc]
    simp [and_assoc]

theorem Linked.pointers (h : Linked prev next (l ++ a :: m)) :
    prev a = l.getLast? ∧ next a = m.head? := by
  obtain ⟨-, hprev, hnext, -⟩ := segment_append.1 h
  rw [Option.or_none] at hprev hnext
  exact ⟨hprev, hnext⟩

theorem Linked.congr (h : Linked prev next l)
    (hsame : ∀ a ∈ l, prev' a = prev a ∧ next' a = next a) : Linked prev' next' l :=
  Segment.congr h hsame

variable [DecidableEq α]

/-- Write a pointer of the object at `p`, if that is not null. -/
def setAt (f : α → Option α) (p v : Option α) : α → Option α :=
  match p with
  | none => f
  | some a => update f a v

variable {f : α → Option α}

theorem setAt_some_self {v : Option α} : setAt f (some a) v a = v :=
  update_self ..

theorem setAt_of_ne {v : Option α} (h : p ≠ some a) : setAt f p v a = f a := by
  cases p with
  | none => rfl
  | some b => exact update_of_ne (fun heq : a = b => h (congrArg some heq.symm)) ..

theorem setAt_setAt {v w : Option α} : setAt (setAt f p v) p w = setAt f p w := by
  cases p with
  | none => rfl
  | some a => exact Function.update_idem ..

theorem Segment.setEnd (h : Segment prev next p l q) (hnodup : l.Nodup) :
    Segment prev (setAt next l.getLast? q') p l q' := by
  rcases List.eq_nil_or_concat l with rfl | ⟨init, z, rfl⟩
  · trivial
  · rw [List.concat_eq_append] at *
    obtain ⟨hinit, hprev, -, -⟩ := segment_append.1 h
    rw [List.getLast?_concat]
    refine segment_append.2 ⟨hinit.congr fun b hb => ⟨rfl, setAt_of_ne ?_⟩, hprev, ?_, trivial⟩
    · rintro ⟨⟩
      exact (List.nodup_append.1 hnodup).2.2 z hb z List.mem_cons_self rfl
    · rw [setAt_some_self]
      rfl

theorem Segment.setStart (h : Segment prev next p l q) (hnodup : l.Nodup) :
    Segment (setAt prev l.head? p') next p' l q := by
  cases l with
  | nil => trivial
  | cons a as =>
    obtain ⟨-, hnext, hrest⟩ := h
    refine ⟨setAt_some_self, hnext, hrest.congr fun b hb => ⟨setAt_of_ne ?_, rfl⟩⟩
    rintro ⟨⟩
    exact (List.nodup_cons.1 hnodup).1 hb

theorem Segment.append (h : Segment prev next p l none) (hnodup : (l ++ [a]).Nodup) :
    Segment (update prev a (l.getLast?.or p))
      (update (setAt next l.getLast? (some a)) a none) p (l ++ [a]) none := by
  have hl : l.Nodup := (List.nodup_append.1 hnodup).1
  have hne : ∀ b ∈ l, b ≠ a := fun b hb heq =>
    (List.nodup_append.1 hnodup).2.2 b hb a List.mem_cons_self heq
  refine segment_append.2 ⟨?_, ?_, ?_, trivial⟩
  · refine (h.setEnd hl).congr fun b hb => ?_
    rw [update_of_ne (hne b hb), update_of_ne (hne b hb)]
    exact ⟨rfl, rfl⟩
  · rw [update_self]
  · rw [update_self]
    rfl

theorem Linked.append (h : Linked prev next l) (hnodup : (l ++ [a]).Nodup) :
    Linked (update prev a l.getLast?)
      (update (setAt next l.getLast? (some a)) a none) (l ++ [a]) := by
  have h := Segment.append h hnodup
  rwa [Option.or_none] at h

theorem Segment.prepend (h : Segment prev next none l q) (hnodup : (a :: l).Nodup) :
    Segment (update (setAt prev l.head? (some a)) a none)
      (update next a (l.head?.or q)) none (a :: l) q := by
  obtain ⟨ha, hl⟩ := List.nodup_cons.1 hnodup
  refine ⟨update_self .., update_self .., ?_⟩
  refine (h.setStart hl).congr fun b hb => ?_
  have hne : b ≠ a := fun heq => ha (heq ▸ hb)
  rw [update_of_ne hne, update_of_ne hne]
  exact ⟨rfl, rfl⟩

theorem Linked.prepend (h : Linked prev next l) (hnodup : (a :: l).Nodup) :
    Linked (update (setAt prev l.head? (some a)) a none) (update next a l.head?)
      (a :: l) := by
  have h := Segment.prepend h hnodup
  rwa [Option.or_none] at h

/-- An object is taken out: its neighbours are made to point to each other. -/
theorem Segment.unlink (h : Segment prev next p (l ++ a :: m) q) (hnodup : (l ++ a :: m).Nodup) :
    Segment (setAt prev m.head? (l.getLast?.or p)) (setAt next l.getLast? (m.head?.or q)) p
      (l ++ m) q := by
  obtain ⟨hl, ham, hdisj⟩ := List.nodup_append.1 hnodup
  obtain ⟨hbefore, -, -, hbehind⟩ := segment_append.1 h
  refine segment_append.2 ⟨?_, ?_⟩
  · refine (hbefore.setEnd hl).congr fun b hb => ⟨setAt_of_ne fun heq => ?_, rfl⟩
    exact hdisj b hb b (List.mem_cons_of_mem _ (List.mem_of_mem_head? heq)) rfl
  · refine (hbehind.setStart (List.nodup_cons.1 ham).2).congr fun b hb =>
      ⟨rfl, setAt_of_ne fun heq => ?_⟩
    exact hdisj b (List.mem_of_mem_getLast? heq) b (List.mem_cons_of_mem _ hb) rfl

theorem Linked.unlink (h : Linked prev next (l ++ a :: m)) (hnodup : (l ++ a :: m).Nodup) :
    Linked (setAt prev m.head? l.getLast?) (setAt next l.getLast? m.head?) (l ++ m) := by
  have h := Segment.unlink h hnodup
  rwa [Option.or_none, Option.or_none] at h

end MeetixOS.Lib
