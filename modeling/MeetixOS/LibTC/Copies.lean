import MeetixOS.LibTC.MapInvariant

/-! # Built vectors and copied maps

Which ways of building a vector from a list of values lead to a vector that holds them, and what this
means for the copy of a map. -/

open Slots

namespace LibTC

/-- The ways to build a vector. -/
inductive Way
  | initializerList
  | copyConstructor
  | moveConstructor
  | assignInitializerList
  | assignCopy
  | assignSelf
  | assignMove
  | adopt (capacity : Nat)

namespace Vector

variable {α : Type}

/-- The vector that is built holds the values: one that is copied or moved held them before, an assigned
one held others, and an adopted storage starts with them. Memory is there. A copied vector is only read;
a moved one is empty afterwards. -/
def Builds (trivial : Bool) (xs : List α) : Way → Prop
  | .initializerList => ∃ v, ofInitializerList trivial true xs = .ok v ∧ v.Holds xs
  | .copyConstructor =>
    ∀ rhs : Vector α, rhs.Holds xs → ∃ v, rhs.copy .ok trivial true = .ok v ∧ v.Holds xs
  | .moveConstructor => ∀ rhs : Vector α, rhs.Holds xs → rhs.moved.1.Holds xs ∧ rhs.moved.2.Holds []
  | .assignInitializerList =>
    ∀ (this : Vector α) (values : List α), this.Holds values →
      ∃ v, assignInitializerList trivial true xs this = .ok v ∧ v.Holds xs
  | .assignCopy =>
    ∀ (rhs this : Vector α) (values : List α), rhs.Holds xs → this.Holds values →
      ∃ v, assignCopy .ok trivial true false rhs this = .ok v ∧ v.Holds xs
  | .assignSelf =>
    ∀ this : Vector α, this.Holds xs → ∃ v, assignCopy .ok trivial true true this this = .ok v ∧ v.Holds xs
  | .assignMove =>
    ∀ (rhs this : Vector α) (values : List α), rhs.Holds xs → this.Holds values →
      ∃ v left, assignMove trivial rhs this = .ok (v, left) ∧ v.Holds xs ∧ left.Holds []
  | .adopt capacity =>
    ∀ rest : Storage α, (xs.map some ++ rest).length = capacity →
      (adoptWithCapacity (some (xs.map some ++ rest)) xs.length capacity).Holds xs

/-- The values that each way is right for. -/
def RightFor (xs : List α) : Way → Prop
  | .initializerList => xs ≠ []
  | .copyConstructor => xs = []
  | .moveConstructor => True
  | .assignInitializerList => xs ≠ []
  | .assignCopy => xs = []
  | .assignSelf => True
  | .assignMove => True
  | .adopt capacity => capacity ≤ xs.length

theorem holds_full {xs : List α} (hlt : xs.length < 2 ^ 32) :
    (⟨some (xs.map some), xs.length, xs.length⟩ : Vector α).Holds xs :=
  ⟨⟨[], (List.append_nil _).symm⟩, List.length_map _, rfl, hlt⟩

theorem Holds.copy_iff {xs : List α} {rhs : Vector α} (h : rhs.Holds xs) (trivial : Bool) :
    (∃ v, rhs.copy .ok trivial true = .ok v ∧ v.Holds xs) ↔ xs = [] := by
  constructor
  · rintro ⟨v, hcopy, -⟩
    by_contra hne
    rw [copy_of_pos _ _ (by rw [h.count]; exact List.length_pos_iff.2 hne)] at hcopy
    cases hcopy
  · rintro rfl
    exact ⟨{}, copy_of_zero _ _ _ h.count, holds_empty⟩

theorem ofInitializerList_iff (trivial : Bool) {xs : List α} (hlt : xs.length < 2 ^ 32) :
    (∃ v, ofInitializerList trivial true xs = .ok v ∧ v.Holds xs) ↔ xs ≠ [] := by
  constructor
  · rintro ⟨v, hbuild, -⟩ rfl
    cases hbuild
  · intro hne
    exact ofInitializerList_cons trivial hne hlt

theorem builds_iff_rightFor (trivial : Bool) (xs : List α) (hlt : xs.length < 2 ^ 32) (way : Way) :
    Builds trivial xs way ↔ RightFor xs way := by
  cases way with
  | initializerList => exact ofInitializerList_iff trivial hlt
  | copyConstructor =>
    constructor
    · intro h
      exact ((holds_full hlt).copy_iff trivial).1 (h _ (holds_full hlt))
    · intro hxs rhs hrhs
      exact (hrhs.copy_iff trivial).2 hxs
  | moveConstructor => exact iff_of_true (fun rhs hrhs => ⟨hrhs, holds_empty⟩) True.intro
  | assignInitializerList =>
    rw [RightFor, ← ofInitializerList_iff trivial hlt]
    constructor
    · intro h
      obtain ⟨v, hassign, hv⟩ := h {} [] holds_empty
      rw [assignInitializerList] at hassign
      cases hbuild : ofInitializerList trivial true xs with
      | error fault =>
        rw [hbuild] at hassign
        cases hassign
      | ok vector =>
        rw [hbuild, ok_bind, holds_empty.swapIn] at hassign
        cases hassign
        exact ⟨v, rfl, hv⟩
    · rintro ⟨v, hbuild, hv⟩ this values hthis
      refine ⟨v, ?_, hv⟩
      rw [assignInitializerList, hbuild, ok_bind, hthis.swapIn]
  | assignCopy =>
    constructor
    · intro h
      refine ((holds_full hlt).copy_iff trivial).1 ?_
      obtain ⟨v, hassign, hv⟩ := h _ {} [] (holds_full hlt) holds_empty
      rw [assignCopy, if_neg Bool.false_ne_true] at hassign
      cases hbuild : copy .ok trivial true (⟨some (xs.map some), xs.length, xs.length⟩ : Vector α) with
      | error fault =>
        rw [hbuild] at hassign
        cases hassign
      | ok vector =>
        rw [hbuild, ok_bind, holds_empty.swapIn] at hassign
        cases hassign
        exact ⟨v, rfl, hv⟩
    · intro hxs rhs this values hrhs hthis
      obtain ⟨v, hcopy, hv⟩ := (hrhs.copy_iff trivial).2 hxs
      refine ⟨v, ?_, hv⟩
      rw [assignCopy, if_neg Bool.false_ne_true, hcopy, ok_bind, hthis.swapIn]
  | assignSelf => exact iff_of_true (fun this hthis => ⟨this, rfl, hthis⟩) True.intro
  | assignMove =>
    refine iff_of_true ?_ True.intro
    intro rhs this values hrhs hthis
    refine ⟨rhs, {}, ?_, hrhs, holds_empty⟩
    rw [assignMove]
    simp [moved, hthis.swapIn, pure_eq_ok]
  | adopt capacity =>
    constructor
    · intro h
      by_contra hroom
      have hlength : (xs.map some ++ List.replicate (capacity - xs.length) (none : Option α)).length =
          capacity := by
        rw [List.length_append, List.length_map, List.length_replicate]
        exact Nat.add_sub_cancel' (Nat.le_of_not_le hroom)
      have hcount : capacity = xs.length := (h _ hlength).count
      exact hroom hcount.le
    · intro (hle : capacity ≤ xs.length) rest hlength
      have hnil : rest = [] := by
        rw [List.length_append, List.length_map] at hlength
        exact List.length_eq_zero_iff.1 (by omega)
      subst hnil
      rw [List.append_nil, List.length_map] at hlength
      subst hlength
      rw [List.append_nil]
      exact holds_full hlt

end Vector

/-- A vector is built right from non-empty initializer lists, as a copy of empty vectors, by moving, and
from a full adopted storage; and a map is copied right if it has no buckets. -/
theorem builds_iff {α K T : Type} (trivial : Bool) (xs : List α) (hlt : xs.length < 2 ^ 32) (way : Way)
    (traits : Traits K) (m : Map K T) (buckets : List (List (K × T))) (s : K → Option T)
    (hm : m.Holds traits buckets s) :
    (Vector.Builds trivial xs way ↔ Vector.RightFor xs way) ∧
      ((∃ copied copies, Map.copy true m = .ok copied ∧ copied.Holds traits copies s) ↔ buckets = []) := by
  refine ⟨Vector.builds_iff_rightFor trivial xs hlt way, ?_⟩
  constructor
  · rintro ⟨copied, copies, hcopy, -⟩
    by_contra hne
    have hpos : 0 < m.bucketsStorage.valuesCount := by
      rw [hm.shelves.count]
      exact List.length_pos_iff.2 hne
    rw [Map.copy, Vector.copy_of_pos _ _ hpos] at hcopy
    cases hcopy
  · rintro rfl
    refine ⟨{ bucketsStorage := {}, valuesCount := m.valuesCount }, [], ?_,
      ⟨⟨[], Vector.holds_empty, .nil⟩, hm.filed, hm.lists, hm.count⟩⟩
    rw [Map.copy, Vector.copy_of_zero _ _ _ hm.shelves.count]
    rfl

theorem builds_sample : Vector.Builds true [(7 : Nat), 8, 9] .assignInitializerList ∧
    ¬ ∃ copied copies, Map.copy true (⟨⟨some [some {}, some {}], 2, 2⟩, 0⟩ : Map Nat Nat) = .ok copied ∧
      copied.Holds (⟨id, fun a b => b < a, true⟩ : Traits Nat) copies fun _ => none := by
  obtain ⟨hbuilds, hcopies⟩ := builds_iff true [(7 : Nat), 8, 9] (by decide) .assignInitializerList
    ⟨id, fun a b => b < a, true⟩ _ _ _ (Map.holds_replicate _ (n := 2)
      (show (⟨some [some {}, some {}], 2, 2⟩ : Vector (Vector (Nat × Nat))).Holds [{}, {}] from
        ⟨⟨[], rfl⟩, rfl, rfl, by decide⟩))
  exact ⟨hbuilds.2 (List.cons_ne_nil _ _), fun hcopy => List.cons_ne_nil _ _ (hcopies.1 hcopy)⟩

/-- The copy of a vector of one value reads a storage that is not there. -/
theorem copied_value_lost :
    ¬ ∀ (xs : List Nat) (rhs : Vector Nat) (trivial : Bool), rhs.Holds xs →
      ∃ v, rhs.copy .ok trivial true = .ok v ∧ v.Holds xs := by
  intro h
  obtain ⟨v, hcopy, -⟩ := h [7] ⟨some [some 7], 1, 1⟩ true ⟨⟨[], rfl⟩, rfl, rfl, by decide⟩
  cases hcopy

end LibTC
