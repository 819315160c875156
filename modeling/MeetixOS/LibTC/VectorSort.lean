import MeetixOS.LibTC.Vector
import MeetixOS.Kernel.Memory.Paging
import MeetixOS.Lib.Sorted

/-! # Sorted vectors

`sort` exchanges values at a distance: each round brings the least of the values that are left to their
front. `try_insert_sorted` keeps a vector in order. -/

open List (append_assoc length_append length_cons)
open Slots Sorted
open MeetixOS.Kernel (constKernelAreaStart)

namespace LibTC

namespace Vector

variable {α : Type}

/-- `Cxx::swap(m_data_storage[i], m_data_storage[j])`. -/
def exchange (i j : Nat) (v : Vector α) : Checked (Vector α) := do
  let a ← read v.slots i
  let b ← read v.slots j
  let slots ← construct v.slots i b
  return v.withSlots (← construct slots j a)

/-- The inner loop of `sort`, with `n` rounds left. -/
def sortInner (comparator : α → α → Int) (i : Nat) : (n j : Nat) → Vector α → Checked (Vector α)
  | 0, _, v => return v
  | n + 1, j, v => do
      if 0 < comparator (← read v.slots i) (← read v.slots j) then
        let v ← v.exchange i j
        sortInner comparator i n (j + 1) v
      else
        sortInner comparator i n (j + 1) v

/-- The outer loop of `sort`, with `n` rounds left. -/
def sortOuter (comparator : α → α → Int) : (n i : Nat) → Vector α → Checked (Vector α)
  | 0, _, v => return v
  | n + 1, i, v => do
      let v ← v.sortInner comparator i (v.valuesCount - (i + 1)) (i + 1)
      sortOuter comparator n (i + 1) v

def sort (comparator : α → α → Int) (v : Vector α) : Checked (Vector α) :=
  v.sortOuter comparator (v.valuesCount - 1) 0

variable {v : Vector α} {xs front mid block : List α} {x y : α}

theorem Holds.exchange (h : v.Holds (front ++ x :: (mid ++ y :: block))) :
    ∃ v', v.exchange front.length (front.length + 1 + mid.length) = .ok v' ∧
      v'.Holds (front ++ y :: (mid ++ x :: block)) := by
  obtain ⟨rest, hslots⟩ := h.starts
  have hassoc : ∀ a b : α, (front ++ a :: (mid ++ b :: block)).map some ++ rest =
      (front ++ a :: mid).map some ++ some b :: (block.map some ++ rest) := by
    intro a b
    simp
  have hassoc' : ∀ a b : α, (front ++ a :: (mid ++ b :: block)).map some ++ rest =
      front.map some ++ some a :: ((mid ++ b :: block).map some ++ rest) := by
    intro a b
    simp
  have hat : ∀ a, front.length + 1 + mid.length = ((front ++ a :: mid).map (some : α → Option α)).length := by
    intro a
    simp
    omega
  have hx : Slots.read v.slots front.length = .ok x := by
    rw [hslots, hassoc', read_append _ _ (List.length_map _).symm]
  have hy : Slots.read v.slots (front.length + 1 + mid.length) = .ok y := by
    rw [hslots, hassoc, read_append _ _ (hat x)]
  have hfirst : Slots.construct v.slots front.length y =
      .ok ((front ++ y :: (mid ++ y :: block)).map some ++ rest) := by
    rw [hslots, hassoc', construct_append _ _ (List.length_map _).symm, hassoc']
  have hsecond : Slots.construct ((front ++ y :: (mid ++ y :: block)).map some ++ rest)
      (front.length + 1 + mid.length) x = .ok ((front ++ y :: (mid ++ x :: block)).map some ++ rest) := by
    rw [hassoc, construct_append _ _ (hat y), hassoc]
  rw [Vector.exchange, hx, ok_bind, hy, ok_bind, hfirst, ok_bind, hsecond]
  refine ⟨_, rfl, h.update ?_ ?_⟩
  · rw [hslots]
    simp
  · rw [h.count]
    simp

section

variable {comparator : α → α → Int}

section

variable (hcmp : TotalPreorder comparator)
include hcmp

theorem Holds.sortInner (h : v.Holds (front ++ x :: (mid ++ block)))
    (hmid : ∀ y ∈ mid, comparator x y ≤ 0) :
    ∃ v' least rest, v.sortInner comparator front.length block.length (front.length + 1 + mid.length) =
        .ok v' ∧ v'.Holds (front ++ least :: rest) ∧ (least :: rest).Perm (x :: (mid ++ block)) ∧
      ∀ y ∈ rest, comparator least y ≤ 0 := by
  induction block generalizing v x mid with
  | nil =>
    rw [List.append_nil] at h ⊢
    exact ⟨v, x, mid, rfl, h, .refl _, hmid⟩
  | cons y block ih =>
    have hx := h.read
    have hy : Slots.read v.slots (front.length + 1 + mid.length) = .ok y := by
      have hread := Holds.read (show v.Holds ((front ++ x :: mid) ++ y :: block) by
        rwa [append_assoc, List.cons_append])
      rw [length_append, length_cons] at hread
      rwa [show front.length + 1 + mid.length = front.length + (mid.length + 1) by omega]
    rw [length_cons, Vector.sortInner, hx, ok_bind, hy, ok_bind]
    by_cases hgt : 0 < comparator x y
    · obtain ⟨v', hexchange, h'⟩ := h.exchange
      have hyx := hcmp.of_pos hgt
      obtain ⟨v'', least, rest, hloop, h'', hperm, hleast⟩ := ih
        (show v'.Holds (front ++ y :: ((mid ++ [x]) ++ block)) by rwa [append_assoc])
        (by
          intro z hz
          rcases List.mem_append.1 hz with hz | hz
          · exact hcmp.trans y x z hyx (hmid z hz)
          · rw [List.mem_singleton.1 hz]
            exact hyx)
      rw [if_pos hgt, hexchange, ok_bind]
      rw [length_append, List.length_singleton, ← Nat.add_assoc] at hloop
      refine ⟨v'', least, rest, hloop, h'', hperm.trans ?_, hleast⟩
      rw [append_assoc, List.singleton_append]
      exact exchange_perm [] mid block x y
    · obtain ⟨v'', least, rest, hloop, h'', hperm, hleast⟩ := ih
        (show v.Holds (front ++ x :: ((mid ++ [y]) ++ block)) by rwa [append_assoc])
        (by
          intro z hz
          rcases List.mem_append.1 hz with hz | hz
          · exact hmid z hz
          · rw [List.mem_singleton.1 hz]
            omega)
      rw [if_neg hgt]
      rw [length_append, List.length_singleton, ← Nat.add_assoc] at hloop
      rw [append_assoc] at hperm
      exact ⟨v'', least, rest, hloop, h'', hperm, hleast⟩

theorem Holds.sortOuter {n : Nat} (h : v.Holds (front ++ block)) (hn : block.length = n + 1)
    (hfront : Ascending comparator front) (hacross : ∀ a ∈ front, ∀ b ∈ block, comparator a b ≤ 0) :
    ∃ v' rest, v.sortOuter comparator n front.length = .ok v' ∧ v'.Holds (front ++ rest) ∧
      rest.Perm block ∧ Ascending comparator (front ++ rest) := by
  induction n generalizing v front block with
  | zero =>
    obtain ⟨x, rfl⟩ := List.length_eq_one_iff.1 hn
    exact ⟨v, [x], rfl, h, .refl _,
      List.pairwise_append.2 ⟨hfront, List.pairwise_singleton _ _, hacross⟩⟩
  | succ n ih =>
    obtain ⟨x, block, rfl⟩ := List.exists_cons_of_length_eq_add_one hn
    have hcount : v.valuesCount - (front.length + 1) = block.length := by
      rw [h.count, length_append, length_cons]
      omega
    obtain ⟨v', least, rest, hloop, h', hperm, hleast⟩ :=
      Holds.sortInner hcmp (show v.Holds (front ++ x :: ([] ++ block)) from h)
        (fun _ hy => absurd hy List.not_mem_nil)
    rw [List.nil_append] at hperm
    rw [List.length_nil, Nat.add_zero] at hloop
    have hmem : ∀ y ∈ least :: rest, y ∈ x :: block := fun y hy => hperm.mem_iff.1 hy
    have hfront' := List.pairwise_append.2 ⟨hfront, List.pairwise_singleton _ _, by
        intro a ha b hb
        rw [List.mem_singleton.1 hb]
        exact hacross a ha least (hmem least List.mem_cons_self)⟩
    have hacross' : ∀ a ∈ front ++ [least], ∀ b ∈ rest, comparator a b ≤ 0 := by
      intro a ha b hb
      rcases List.mem_append.1 ha with ha | ha
      · exact hacross a ha b (hmem b (List.mem_cons_of_mem _ hb))
      · rw [List.mem_singleton.1 ha]
        exact hleast b hb
    have hlen : rest.length = n + 1 := by
      have hlen := hperm.length_eq
      rw [length_cons, length_cons] at hlen
      rw [length_cons] at hn
      omega
    obtain ⟨v'', rest', hloop', h'', hperm', hsorted⟩ := ih
      (show v'.Holds ((front ++ [least]) ++ rest) by rwa [append_assoc]) hlen hfront' hacross'
    rw [length_append, List.length_singleton] at hloop'
    rw [append_assoc] at h'' hsorted
    rw [Vector.sortOuter, hcount, hloop, ok_bind]
    exact ⟨v'', least :: rest', hloop', h'', (hperm'.cons least).trans hperm, hsorted⟩

theorem Holds.sort (h : v.Holds xs) :
    ∃ v' ys, v.sort comparator = .ok v' ∧ v'.Holds ys ∧ ys.Perm xs ∧ Ascending comparator ys := by
  rw [Vector.sort, h.count]
  cases xs with
  | nil => exact ⟨v, [], rfl, h, .refl _, .nil⟩
  | cons x xs =>
    exact Holds.sortOuter hcmp (show v.Holds ([] ++ x :: xs) from h) rfl .nil
      (fun _ ha => absurd ha List.not_mem_nil)

end

end

section

variable {before : α → α → Bool}

/-- The storage is in the memory of a process: it ends where the kernel's area starts, and a value takes
one byte at least. -/
def InProcess (v : Vector α) : Prop :=
  v.dataCapacity ≤ constKernelAreaStart

theorem InProcess.growable (hplace : v.InProcess) (h : v.Holds xs) : v.Growable (xs.length + 1) := by
  have hcount := h.count_le
  rw [h.count] at hcount
  unfold InProcess constKernelAreaStart at hplace
  intro _ _
  omega

end

/-- `sort` sorts, and `try_insert_sorted` adds a value to a vector in order, where the allocator does
not refuse. -/
theorem keeps_order (h : v.Holds xs) :
    (∀ comparator, TotalPreorder comparator →
      ∃ v' ys, v.sort comparator = .ok v' ∧ v'.Holds ys ∧ ys.Perm xs ∧ Ascending comparator ys) ∧
    (∀ before, StrictWeakOrder before → InOrder before xs → v.InProcess →
      ∀ (trivial granted : Bool) (x : α),
        (∃ v' front rest, v.tryInsertSorted trivial granted before x = .ok (.ok (), v') ∧
            xs = front ++ rest ∧ v'.Holds (front ++ x :: rest) ∧ InOrder before (front ++ x :: rest)) ∨
          granted = false ∧ v.tryInsertSorted trivial granted before x = .ok (.error .enomem, v)) := by
  refine ⟨fun _ hcmp => h.sort hcmp, fun before horder hsorted hplace trivial granted x => ?_⟩
  rcases h.tryInsertSorted trivial granted before x (hplace.growable h) with ⟨v', hinsert, h'⟩ | hrefused
  · exact .inl ⟨v', _, _, hinsert, List.takeWhile_append_dropWhile.symm, h', hsorted.insert horder x⟩
  · exact .inr hrefused

/-- A vector of two values. -/
def pair : Vector Nat :=
  { dataStorage := some [some 3, some 5, none], dataCapacity := 3, valuesCount := 2 }

theorem pair_holds : pair.Holds [3, 5] :=
  ⟨⟨[none], rfl⟩, rfl, rfl, by decide⟩

theorem pair_keeps_order :
    (∃ v' ys, pair.sort (fun a b : Nat => (b : Int) - a) = .ok v' ∧ v'.Holds ys ∧ ys.Perm [3, 5] ∧
      Ascending (fun a b : Nat => (b : Int) - a) ys) ∧
    ∃ v' front rest, pair.tryInsertSorted true true (fun a b => decide (a < b)) 4 = .ok (.ok (), v') ∧
      [3, 5] = front ++ rest ∧ v'.Holds (front ++ 4 :: rest) ∧
      InOrder (fun a b => decide (a < b)) (front ++ 4 :: rest) := by
  have hcmp : TotalPreorder fun a b : Nat => (b : Int) - a := by
    refine ⟨?_, ?_⟩ <;> intros <;> omega
  have horder : StrictWeakOrder fun a b : Nat => decide (a < b) := by
    refine ⟨?_, ?_, ?_⟩ <;> intros <;> simp at * <;> omega
  obtain ⟨hsort, hinsert⟩ := keeps_order pair_holds
  exact ⟨hsort _ hcmp, (hinsert _ horder (by unfold InOrder; decide) (show 3 ≤ _ by decide)
    true true 4).resolve_right (by simp)⟩

end Vector

end LibTC
