import Mathlib.Data.List.Sort

/-! # Lists ordered by a key, with ties

A list that is kept in the order of a key, where several elements may have the same one: a stack of layers.
A new element has its place above those with its key. A sort that promises only some ordered permutation
gives it that place, and leaves the others as they were, exactly where no two keys are the same. -/

namespace MeetixOS.Lib

section

variable {α κ : Type} [LinearOrder κ] {z : α → κ} {x : α} {before after : List α}

/-- No element has a greater key than one behind it. -/
def Layered (z : α → κ) (l : List α) : Prop := l.Pairwise fun a b => z a ≤ z b

/-- `x` has been put into the list, above the elements that have its key; the others keep their order. -/
def PlacedAbove (z : α → κ) (x : α) (before after : List α) : Prop :=
  ∃ below above, before = below ++ above ∧ after = below ++ x :: above ∧ ∀ s ∈ above, z s ≠ z x

/-- An order by insertion, in which an element comes before those with its key. -/
def insertionOrder (z : α → κ) (l : List α) : List α := l.insertionSort fun a b => z a ≤ z b

theorem Layered.filter (h : Layered z before) (p : α → Bool) : Layered z (before.filter p) :=
  List.Pairwise.filter p h

/-- With keys that differ, every ordered permutation puts the element into its place. -/
theorem placedAbove_of_nodup (hbefore : Layered z before) (hkeys : ((before ++ [x]).map z).Nodup)
    (hperm : after.Perm (before ++ [x])) (hafter : Layered z after) : PlacedAbove z x before after := by
  have htrans : IsTrans α fun a b => z a ≤ z b := ⟨fun a b c => le_trans⟩
  have hinserted := List.orderedInsert_eq_take_drop (fun a b => z a ≤ z b) x before
  have hordered := List.Pairwise.orderedInsert x before hbefore
  have hpermInserted := List.perm_orderedInsert (fun a b => z a ≤ z b) x before
  -- two ordered permutations are the same list, as an element is known by its key
  have heq : after = before.orderedInsert (fun a b => z a ≤ z b) x := by
    have hperm' := hperm.trans ((List.perm_append_singleton x before).trans hpermInserted.symm)
    refine List.Perm.eq_of_pairwise ?_ hafter hordered hperm'
    intro a b ha hb hab hba
    have ha' := hperm.mem_iff.1 ha
    have hb' := hperm.mem_iff.1 (hperm'.mem_iff.2 hb)
    exact List.inj_on_of_nodup_map hkeys ha' hb' (le_antisymm hab hba)
  refine ⟨_, _, (List.takeWhile_append_dropWhile).symm, heq.trans hinserted, ?_⟩
  intro s hs hkey
  have hs' : s ∈ before := (List.dropWhile_sublist _).subset hs
  rw [List.map_append, List.nodup_append] at hkeys
  exact hkeys.2.2 (z s) (List.mem_map_of_mem hs') (z x) (by simp) hkey

/-- An element that is moved to the end keeps the order exactly where no key is greater. -/
theorem layered_moved_iff {below above : List α} (h : Layered z (below ++ x :: above)) :
    Layered z (below ++ above ++ [x]) ↔ ∀ s ∈ below ++ x :: above, z s ≤ z x := by
  obtain ⟨hbelow, hrest, hcross⟩ := List.pairwise_append.1 h
  obtain ⟨-, habove⟩ := List.pairwise_cons.1 hrest
  constructor
  · intro hmoved s hs
    have hlast := (List.pairwise_append.1 hmoved).2.2
    rcases List.mem_append.1 hs with hs | hs
    · exact hcross s hs x List.mem_cons_self
    · rcases List.mem_cons.1 hs with rfl | hs
      · exact le_refl _
      · exact hlast s (List.mem_append_right _ hs) x (List.mem_singleton_self x)
  · intro hgreatest
    refine List.pairwise_append.2 ⟨List.pairwise_append.2 ⟨hbelow, habove, ?_⟩, by simp, ?_⟩
    · intro a ha b hb
      exact hcross a ha b (List.mem_cons_of_mem x hb)
    · intro a ha b hb
      rw [List.mem_singleton.1 hb]
      refine hgreatest a ?_
      rcases List.mem_append.1 ha with ha | ha
      · exact List.mem_append_left _ ha
      · exact List.mem_append_right _ (List.mem_cons_of_mem x ha)

end

end MeetixOS.Lib
