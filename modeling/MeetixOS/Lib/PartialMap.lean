import Mathlib.Data.Set.Card

/-! # Finite partial maps and lists of pairs

A partial map is a function to `Option`. A list of pairs with different keys lists the map that has
just these pairs; inserting, overwriting and filtering pairs are then operations on the map. -/

namespace PartialMap

variable {K T : Type}

/-- The keys of a partial map. -/
def dom (s : K → Option T) : Set K :=
  {key | (s key).isSome}

/-- The pairs of a partial map, each once. -/
structure Lists (s : K → Option T) (pairs : List (K × T)) : Prop where
  nodup : (pairs.map Prod.fst).Nodup
  mem : ∀ key x, s key = some x ↔ (key, x) ∈ pairs

/-- The pairs of a partial map that pass a test. -/
def filter (p : K × T → Bool) (s : K → Option T) : K → Option T :=
  fun key => (s key).filter fun x => p (key, x)

variable {s : K → Option T} {pairs pairs' before after : List (K × T)} {key : K} {x : T}

theorem lists_empty : Lists (fun _ : K => (none : Option T)) [] :=
  ⟨List.nodup_nil, fun _ _ => iff_of_false (by simp) List.not_mem_nil⟩

section

variable (h : Lists s pairs)
include h

theorem Lists.perm (hperm : pairs.Perm pairs') : Lists s pairs' :=
  ⟨(hperm.map Prod.fst).nodup_iff.1 h.nodup, fun key x => (h.mem key x).trans hperm.mem_iff⟩

theorem Lists.isSome_iff : (s key).isSome ↔ key ∈ pairs.map Prod.fst := by
  rw [Option.isSome_iff_exists, List.mem_map]
  constructor
  · rintro ⟨x, hx⟩
    exact ⟨(key, x), (h.mem key x).1 hx, rfl⟩
  · rintro ⟨⟨key, x⟩, hmem, rfl⟩
    exact ⟨x, (h.mem key x).2 hmem⟩

theorem Lists.eq_none_iff : s key = none ↔ key ∉ pairs.map Prod.fst := by
  rw [← h.isSome_iff, Option.not_isSome_iff_eq_none]

theorem Lists.ncard_dom [DecidableEq K] : (dom s).ncard = pairs.length := by
  have hdom : dom s = ((pairs.map Prod.fst).toFinset : Set K) := by
    ext key
    rw [List.coe_toFinset]
    exact h.isSome_iff
  rw [hdom, Set.ncard_coe_finset, List.toFinset_card_of_nodup h.nodup, List.length_map]

theorem Lists.insert [DecidableEq K] (hnew : s key = none) (x : T) :
    Lists (Function.update s key (some x)) ((key, x) :: pairs) := by
  constructor
  · rw [List.map_cons, List.nodup_cons]
    exact ⟨h.eq_none_iff.1 hnew, h.nodup⟩
  · intro j y
    rw [Function.update_apply, List.mem_cons, Prod.mk.injEq]
    split
    next heq =>
      subst heq
      have hnone : (j, y) ∉ pairs := fun hmem => by
        rw [(h.mem j y).2 hmem] at hnew
        cases hnew
      simp [hnone, eq_comm]
    next hne => simp [hne, h.mem]

end

theorem Lists.overwrite [DecidableEq K] (h : Lists s (before ++ (key, x) :: after)) (y : T) :
    Lists (Function.update s key (some y)) (before ++ (key, y) :: after) := by
  have hfront := h.perm List.perm_middle
  have hnodup := hfront.nodup
  rw [List.map_cons, List.nodup_cons] at hnodup
  refine (Lists.mk ?_ ?_ : Lists _ ((key, y) :: (before ++ after))).perm List.perm_middle.symm
  · rw [List.map_cons, List.nodup_cons]
    exact hnodup
  · intro j z
    rw [Function.update_apply, List.mem_cons, Prod.mk.injEq]
    split
    next heq =>
      subst heq
      have hnone : (j, z) ∉ before ++ after := fun hmem =>
        hnodup.1 (List.mem_map.2 ⟨(j, z), hmem, rfl⟩)
      simp [hnone, eq_comm]
    next hne => simp [hne, hfront.mem]

theorem Lists.filter (h : Lists s pairs) (p : K × T → Bool) :
    Lists (filter p s) (pairs.filter p) := by
  constructor
  · exact h.nodup.sublist (List.filter_sublist.map Prod.fst)
  · intro key x
    rw [PartialMap.filter, Option.filter_eq_some_iff, List.mem_filter, h.mem]

theorem filter_key [DecidableEq K] (s : K → Option T) (key : K) :
    filter (fun pair => !(key == pair.1)) s = Function.update s key none := by
  funext j
  rw [filter, Function.update_apply]
  split
  next heq => simp [heq]
  next hne =>
    cases s j with
    | none => rfl
    | some x => simp [Ne.symm hne]

theorem length_filter_not {α : Type} (p : α → Bool) (l : List α) :
    (l.filter fun x => !p x).length = l.length - l.countP p := by
  have hlength := List.length_eq_countP_add_countP p (l := l)
  have hnot : (fun x => decide (¬ p x = true)) = fun x => !p x := by
    funext x
    simp
  rw [hnot, List.countP_eq_length_filter (p := fun x => !p x)] at hlength
  omega

theorem Lists.countP_key [DecidableEq K] (h : Lists s pairs) (hany : ∃ pair ∈ pairs, key == pair.1) :
    pairs.countP (fun pair => key == pair.1) = 1 := by
  have hcount : pairs.countP (fun pair => key == pair.1) = (pairs.map Prod.fst).count key := by
    rw [List.count, List.countP_map]
    congr 1
    funext pair
    exact BEq.comm
  obtain ⟨pair, hmem, hkey⟩ := hany
  rw [hcount, List.count_eq_one_of_mem h.nodup]
  exact List.mem_map.2 ⟨pair, hmem, (beq_iff_eq.1 hkey).symm⟩

end PartialMap
