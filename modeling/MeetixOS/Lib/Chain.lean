import Mathlib.Data.List.Nodup

/-! # Chains of key-value nodes

A chain is a singly linked list of nodes with a key and a value: the bucket of a hash table, or a small map
kept as a list. `chainGet` finds the first node of a key, `chainAdd` overwrites its value or appends a new
one, `chainUpdate` only overwrites, and `chainErase` unlinks the node, for which no key may occur twice. -/

namespace MeetixOS.Lib

variable {K V : Type}

/-- The keys of a chain, in order. -/
def chainKeys (es : List (K × V)) : List K := es.map Prod.fst

variable {es : List (K × V)} {k : K}

variable [DecidableEq K]

/-! ## Operations -/

/-- The value of the first node with key `k`. -/
def chainGet (k : K) : List (K × V) → Option V
  | [] => none
  | e :: es => if e.1 = k then some e.2 else chainGet k es

/-- Overwrite the value of the node with key `k`, or append a new node. -/
def chainAdd (k : K) (v : V) : List (K × V) → List (K × V)
  | [] => [(k, v)]
  | e :: es => if e.1 = k then (e.1, v) :: es else e :: chainAdd k v es

/-- Overwrite the value of the node with key `k`, if there is one. -/
def chainUpdate (k : K) (v : V) : List (K × V) → List (K × V)
  | [] => []
  | e :: es => if e.1 = k then (e.1, v) :: es else e :: chainUpdate k v es

/-- Unlink the first node with key `k`. -/
def chainErase (k : K) : List (K × V) → List (K × V)
  | [] => []
  | e :: es => if e.1 = k then es else e :: chainErase k es

/-! ## What they do to the keys -/

theorem chainGet_eq_none_iff :
    chainGet k es = none ↔ k ∉ chainKeys es := by
  induction es with
  | nil => simp [chainGet, chainKeys]
  | cons e es ih =>
    by_cases he : e.1 = k
    · simp [chainGet, chainKeys, he]
    · have hne : k ≠ e.1 := fun h => he h.symm
      rw [chainGet, if_neg he, ih]
      simp [chainKeys, hne]

theorem chainKeys_update (k : K) (v : V) (es : List (K × V)) :
    chainKeys (chainUpdate k v es) = chainKeys es := by
  induction es with
  | nil => rfl
  | cons e es ih =>
    rw [chainUpdate]
    split
    · rfl
    · simp only [chainKeys, List.map_cons] at ih ⊢
      rw [ih]

theorem chainKeys_add (k : K) (v : V) (es : List (K × V)) :
    chainKeys (chainAdd k v es) =
      if k ∈ chainKeys es then chainKeys es else chainKeys es ++ [k] := by
  induction es with
  | nil => rfl
  | cons e es ih =>
    by_cases he : e.1 = k
    · simp [chainAdd, chainKeys, he]
    · have hne : k ≠ e.1 := fun h => he h.symm
      have hmem : k ∈ chainKeys (e :: es) ↔ k ∈ chainKeys es := by simp [chainKeys, hne]
      have hcons : chainKeys (e :: chainAdd k v es) = e.1 :: chainKeys (chainAdd k v es) := rfl
      rw [chainAdd, if_neg he, hcons, ih]
      by_cases hk : k ∈ chainKeys es
      · rw [if_pos hk, if_pos (hmem.2 hk)]
        rfl
      · rw [if_neg hk, if_neg (fun h => hk (hmem.1 h))]
        rfl

theorem chainKeys_erase_sublist (k : K) (es : List (K × V)) :
    (chainKeys (chainErase k es)).Sublist (chainKeys es) := by
  induction es with
  | nil => exact List.Sublist.refl _
  | cons e es ih =>
    rw [chainErase]
    split
    · exact List.sublist_cons_self _ _
    · exact ih.cons_cons _

theorem chainKeys_add_nodup {v : V} (h : (chainKeys es).Nodup) :
    (chainKeys (chainAdd k v es)).Nodup := by
  rw [chainKeys_add]
  split
  next => exact h
  next hk =>
    rw [List.nodup_append]
    refine ⟨h, List.nodup_singleton _, ?_⟩
    intro a ha b hb hab
    rw [List.mem_singleton] at hb
    exact hk (hb ▸ hab ▸ ha)

theorem chainKeys_erase_nodup (h : (chainKeys es).Nodup) : (chainKeys (chainErase k es)).Nodup :=
  h.sublist (chainKeys_erase_sublist k es)

/-! ## What they do to the values -/

theorem chainGet_add (k j : K) (v : V) (es : List (K × V)) :
    chainGet j (chainAdd k v es) = if j = k then some v else chainGet j es := by
  induction es with
  | nil => simp [chainAdd, chainGet, eq_comm]
  | cons e es ih =>
    rw [chainAdd]
    by_cases he : e.1 = k
    · rw [if_pos he, chainGet, chainGet]
      by_cases hj : j = k
      · rw [if_pos (he.trans hj.symm), if_pos hj]
      · rw [if_neg hj, if_neg (fun h => hj (h.symm.trans he)),
          if_neg (fun h => hj (h.symm.trans he))]
    · rw [if_neg he, chainGet, chainGet, ih]
      by_cases hj : e.1 = j
      · rw [if_pos hj, if_neg (fun h => he (hj.trans h)), if_pos hj]
      · rw [if_neg hj, if_neg hj]

theorem chainGet_update (k j : K) (v : V) (es : List (K × V)) :
    chainGet j (chainUpdate k v es) =
      if j = k then (chainGet k es).map fun _ => v else chainGet j es := by
  induction es with
  | nil => simp [chainUpdate, chainGet]
  | cons e es ih =>
    rw [chainUpdate]
    by_cases he : e.1 = k
    · rw [if_pos he, chainGet, chainGet, chainGet, if_pos he]
      by_cases hj : j = k
      · rw [if_pos (he.trans hj.symm), if_pos hj, Option.map_some]
      · rw [if_neg hj, if_neg (fun h => hj (h.symm.trans he)),
          if_neg (fun h => hj (h.symm.trans he))]
    · rw [if_neg he, chainGet, chainGet, chainGet, ih, if_neg he]
      by_cases hj : e.1 = j
      · rw [if_pos hj, if_neg (fun h => he (hj.trans h)), if_pos hj]
      · rw [if_neg hj, if_neg hj]

theorem chainGet_erase {k j : K} (h : (chainKeys es).Nodup) :
    chainGet j (chainErase k es) = if j = k then none else chainGet j es := by
  induction es with
  | nil => simp [chainErase, chainGet]
  | cons e es ih =>
    have htail : (chainKeys es).Nodup := (List.nodup_cons.1 h).2
    rw [chainErase]
    by_cases he : e.1 = k
    · rw [if_pos he]
      by_cases hj : j = k
      · have hnot : e.1 ∉ chainKeys es := (List.nodup_cons.1 h).1
        rw [if_pos hj, chainGet_eq_none_iff, hj, ← he]
        exact hnot
      · rw [if_neg hj, chainGet, if_neg (fun h => hj (h.symm.trans he))]
    · rw [if_neg he, chainGet, chainGet, ih htail]
      by_cases hj : e.1 = j
      · rw [if_pos hj, if_neg (fun h => he (hj.trans h)), if_pos hj]
      · rw [if_neg hj, if_neg hj]

theorem chainGet_eq_some_iff {v : V} (h : (chainKeys es).Nodup) :
    chainGet k es = some v ↔ (k, v) ∈ es := by
  induction es with
  | nil => simp [chainGet]
  | cons e es ih =>
    obtain ⟨hnot, htail⟩ := List.nodup_cons.1 h
    rw [chainGet]
    by_cases he : e.1 = k
    · have hout : (k, v) ∉ es := fun hmem => hnot (he ▸ List.mem_map_of_mem hmem)
      obtain ⟨ek, ev⟩ := e
      cases he
      simp [hout, eq_comm]
    · have hne : (k, v) ≠ e := fun h => he (h ▸ rfl)
      rw [if_neg he, ih htail, List.mem_cons]
      simp [hne]

end MeetixOS.Lib
