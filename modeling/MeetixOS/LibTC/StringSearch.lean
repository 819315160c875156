import MeetixOS.LibTC.StringView
import MeetixOS.LibTC.Vector
import MeetixOS.LibC.Memmem

/-! # Searches in string views

`contains`, `find_last` and `try_find_all`. `memmem` is an argument, as the distance of its answer from the
start of the haystack. -/

open List (append_assoc append_nil length_append length_cons length_map map_cons)
open Slots Occurrence
open LibC (charInt)
open MeetixOS.Kernel (u32 u32_sub constKernelAreaStart)

namespace LibTC

namespace StringView

/-- What characters are compared by where the case does not matter. -/
def fold (c : UInt8) : Int :=
  LibC.tolower (charInt c)

/-- The inner loop of `contains`, with `n` rounds left: `none` where it returns, otherwise the index of
the outer loop behind it. -/
def matchFrom (v rhs : StringView) (i : Nat) : (n ni : Nat) → Checked (Option Nat)
  | 0, _ => return some i
  | n + 1, ni => do
      if fold (← v.charAt (i + ni)) ≠ fold (← rhs.charAt ni) then
        return some (i + ni)
      else if ni + 1 = rhs.len then
        return none
      else
        matchFrom v rhs i n (ni + 1)

/-- The outer loop of `contains`, with at most `n` rounds left. -/
def containsFrom (v rhs : StringView) (needleFirst : Int) : (n i : Nat) → Checked Bool
  | 0, _ => return false
  | n + 1, i => do
      if i < v.len then
        if fold (← v.charAt i) ≠ needleFirst then
          containsFrom v rhs needleFirst n (i + 1)
        else
          match ← v.matchFrom rhs i (v.len - i) 0 with
          | none => return true
          | some i => containsFrom v rhs needleFirst n (i + 1)
      else
        return false

def contains (memmem : List UInt8 → List UInt8 → Option Nat) (v rhs : StringView)
    (caseSensitivity : CaseSensitivity) : Checked Bool := do
  if v.isNullOrEmpty || rhs.isNullOrEmpty || rhs.len > v.len then
    return false
  else
    match caseSensitivity with
    | .sensitive => return (memmem v.chars rhs.chars).isSome
    | .insensitive =>
      let needleFirst ← rhs.charAt 0
      v.containsFrom rhs (fold needleFirst) v.len 0

/-- The loop of `find_last`: `for ( ; i > 0; --i )`. -/
def findLastFrom (v : StringView) (needle : UInt8) : (i : Nat) → Checked (Option Nat)
  | 0 => return none
  | i + 1 => do
      if (← v.charAt (i + 1)) = needle then
        return some (i + 1)
      else
        findLastFrom v needle i

def findLast (v : StringView) (needle : UInt8) : Checked (Option Nat) :=
  v.findLastFrom needle (u32 (v.len + 2 ^ 32 - 1))

/-- The loop of `try_find_all`, with at most `n` rounds left. `granted` says whether an allocation
succeeds. -/
def tryFindAllFrom (memmem : List UInt8 → List UInt8 → Option Nat) (granted : Nat → Bool)
    (v needle : StringView) :
    (n currentPosition : Nat) → Vector Nat → Checked (Except Error (Vector Nat))
  | 0, _, positions => return .ok positions
  | n + 1, currentPosition, positions => do
      if currentPosition < v.len then
        match memmem (v.chars.drop currentPosition) needle.chars with
        | none => return .ok positions
        | some relativeIndex =>
          match ← positions.tryAppend true (granted positions.valuesCount)
              (currentPosition + relativeIndex) with
          | (.error e, _) => return .error e
          | (.ok (), positions) =>
            tryFindAllFrom memmem granted v needle n (currentPosition + relativeIndex + 1) positions
      else
        return .ok positions

def tryFindAll (memmem : List UInt8 → List UInt8 → Option Nat) (granted : Nat → Bool)
    (v needle : StringView) : Checked (Except Error (Vector Nat)) :=
  tryFindAllFrom memmem granted v needle v.len 0 {}

/-! ## What the insensitive search comes to -/

section

variable {α : Type} {needle text before part rest : List α} {c x : α}

/-- What the search has passed: parts of the needle, each with a character behind it that differs
from the needle's. -/
inductive Reached (needle : List α) : List α → Prop
  | nil : Reached needle []
  | skip {part before : List α} {c x : α} (hpart : part ++ [c] <+: needle) (hne : x ≠ c)
      (hrest : Reached needle before) : Reached needle (part ++ x :: before)

/-- The needle stands where the search comes to. -/
def Found (needle text : List α) : Prop :=
  ∃ before after, Reached needle before ∧ text = before ++ needle ++ after

theorem Found.isInfix (h : Found needle text) : needle <:+: text := by
  obtain ⟨before, after, -, rfl⟩ := h
  exact List.infix_append before needle after

theorem found_of_start (h : needle <+: text) : Found needle text := by
  obtain ⟨after, rfl⟩ := h
  exact ⟨[], after, .nil, rfl⟩

theorem not_found_of_short (h : text.length < needle.length) : ¬ Found needle text := by
  intro hfound
  have hle := hfound.isInfix.length_le
  omega

theorem same_inside {part' r r' : List α} {c' : α} (h : part ++ x :: rest = part' ++ r)
    (h' : part ++ c' :: before = part' ++ r') (hlt : part.length < part'.length) : x = c' := by
  have hx := congrArg (fun l => l[part.length]?) h
  have hc := congrArg (fun l => l[part.length]?) h'
  simp only [List.getElem?_append_left hlt, List.getElem?_append_right (Nat.le_refl part.length),
    Nat.sub_self, List.getElem?_cons_zero] at hx hc
  exact Option.some.inj (hx.trans hc.symm)

theorem first_difference {part' rest' : List α} {c' x' : α} (hpart : part ++ [c] <+: needle)
    (hpart' : part' ++ [c'] <+: needle) (hne : x ≠ c) (hne' : x' ≠ c')
    (h : part ++ x :: rest = part' ++ x' :: rest') : rest = rest' := by
  obtain ⟨t, ht⟩ := hpart
  obtain ⟨t', ht'⟩ := hpart'
  rw [append_assoc, List.singleton_append] at ht ht'
  have hneedle := ht.trans ht'.symm
  rcases Nat.lt_trichotomy part.length part'.length with hlt | heq | hgt
  · exact absurd (same_inside h hneedle hlt) hne
  · exact (List.cons.inj (List.append_inj h heq).2).2
  · exact absurd (same_inside h.symm hneedle.symm hgt) hne'

theorem found_skip_iff (hpart : part ++ [c] <+: needle) (hne : x ≠ c) :
    Found needle (part ++ x :: rest) ↔ Found needle rest := by
  constructor
  · rintro ⟨before, after, hreached, htext⟩
    cases hreached with
    | nil =>
      obtain ⟨t, rfl⟩ := hpart
      rw [List.nil_append, append_assoc, append_assoc, List.append_cancel_left_eq] at htext
      exact absurd (List.cons.inj htext).1 hne
    | skip hpart' hne' hrest =>
      rw [append_assoc, append_assoc, List.cons_append, ← append_assoc _ needle] at htext
      exact ⟨_, after, hrest, first_difference hpart hpart' hne hne' htext⟩
  · rintro ⟨before, after, hreached, rfl⟩
    exact ⟨part ++ x :: before, after, .skip hpart hne hreached, by simp⟩

end

/-! ## `contains` -/

section

variable {v rhs : StringView} {before block part part' nblock : List UInt8}

/-- A view with the case of its letters taken away. -/
def folded (v : StringView) : List Int :=
  v.chars.map fold

theorem folded_length (v : StringView) : v.folded.length = v.len :=
  length_map _

theorem matchFrom_cases (hv : v.chars = before ++ (part' ++ block)) (hn : rhs.chars = part ++ nblock)
    (hblock : nblock ≠ []) (hpart : part'.map fold = part.map fold) :
    v.matchFrom rhs before.length block.length part'.length = .ok none ∧
        rhs.folded <+: (part' ++ block).map fold ∨
      v.matchFrom rhs before.length block.length part'.length = .ok (some before.length) ∧
        (part' ++ block).length < rhs.len ∨
      ∃ p c x r, v.matchFrom rhs before.length block.length part'.length =
          .ok (some (before.length + p.length)) ∧ part' ++ block = p ++ x :: r ∧
        p.map fold ++ [fold c] <+: rhs.folded ∧ fold x ≠ fold c := by
  have hlen : part'.length = part.length := by
    have hmap := congrArg List.length hpart
    rwa [length_map, length_map] at hmap
  induction block generalizing part part' nblock with
  | nil =>
    refine .inr (.inl ⟨rfl, ?_⟩)
    have hpos := List.length_pos_of_ne_nil hblock
    rw [append_nil, len, hn, length_append]
    omega
  | cons x block ih =>
    obtain ⟨c, nblock, rfl⟩ := List.exists_cons_of_ne_nil hblock
    have hx : v.charAt (before.length + part'.length) = .ok x :=
      charAt_append (show _ = (before ++ part') ++ x :: block by rw [hv, append_assoc]) (by simp)
    have hc : rhs.charAt part'.length = .ok c := charAt_append hn hlen
    have hprefix : part'.map fold ++ [fold c] <+: rhs.folded := by
      rw [hpart, folded, hn]
      exact ⟨nblock.map fold, by simp⟩
    rw [length_cons, matchFrom, hx, ok_bind, hc, ok_bind]
    by_cases hne : fold x ≠ fold c
    · rw [if_pos hne]
      exact .inr (.inr ⟨part', c, x, block, rfl, rfl, hprefix, hne⟩)
    · rw [if_neg hne]
      by_cases hlast : part'.length + 1 = rhs.len
      · obtain rfl : nblock = [] := by
          rw [len, hn, length_append, length_cons] at hlast
          exact List.length_eq_zero_iff.1 (by omega)
        rw [if_pos hlast]
        refine .inl ⟨rfl, ?_⟩
        rw [folded, hn, List.map_append, List.map_append, hpart, map_cons, map_cons,
          not_not.1 hne]
        exact ⟨block.map fold, by simp⟩
      · rw [if_neg hlast]
        have hnext := ih (show _ = before ++ ((part' ++ [x]) ++ block) by rw [hv]; simp)
          (show _ = (part ++ [c]) ++ nblock by rw [hn]; simp)
          (by
            rintro rfl
            exact hlast (by rw [len, hn, length_append, hlen]; rfl))
          (by simp [hpart, not_not.1 hne]) (by simp [hlen])
        rw [append_assoc, length_append] at hnext
        exact hnext

theorem containsFrom_spec {n : Nat} {needleFirst : UInt8} {needle : List UInt8}
    (hn : rhs.chars = needleFirst :: needle) (hv : v.chars = before ++ block) (hle : block.length ≤ n) :
    ∃ b, v.containsFrom rhs (fold needleFirst) n before.length = .ok b ∧
      (b = true ↔ Found rhs.folded (block.map fold)) := by
  have hneedle : rhs.folded = fold needleFirst :: needle.map fold := by rw [folded, hn, map_cons]
  induction n generalizing before block with
  | zero =>
    obtain rfl := List.length_eq_zero_iff.1 (Nat.le_zero.1 hle)
    refine ⟨false, rfl, iff_of_false Bool.false_ne_true (not_found_of_short ?_)⟩
    rw [hneedle]
    exact Nat.succ_pos _
  | succ n ih =>
    rw [containsFrom]
    cases block with
    | nil =>
      refine ⟨false, ?_, iff_of_false Bool.false_ne_true (not_found_of_short ?_)⟩
      · rw [if_neg (by rw [len, hv, append_nil]; omega)]
        rfl
      · rw [hneedle]
        exact Nat.succ_pos _
    | cons x block =>
      have hlt : before.length < v.len := by
        rw [len, hv, length_append, length_cons]
        omega
      have hnext := fun {p : List UInt8} {y : UInt8} {r : List UInt8} (h : x :: block = p ++ y :: r) =>
        ih (show _ = (before ++ (p ++ [y])) ++ r by rw [hv, h]; simp)
          (by
            have hlen := congrArg List.length h
            rw [length_append, length_cons, length_cons] at hlen
            rw [length_cons] at hle
            omega)
      rw [if_pos hlt, charAt_append hv rfl, ok_bind]
      by_cases hfirst : fold x ≠ fold needleFirst
      · obtain ⟨b, hb, hiff⟩ := hnext (show _ = [] ++ x :: block from rfl)
        rw [if_pos hfirst]
        refine ⟨b, by simpa using hb, hiff.trans ?_⟩
        exact (found_skip_iff
          (show [] ++ [fold needleFirst] <+: _ by rw [hneedle]; exact ⟨_, rfl⟩) hfirst).symm
      · rw [if_neg hfirst]
        have hrounds : v.len - before.length = (x :: block).length := by
          rw [len, hv, length_append]
          omega
        rw [hrounds]
        rcases matchFrom_cases (show _ = before ++ ([] ++ x :: block) from hv)
          (show _ = [] ++ needleFirst :: needle from hn) (List.cons_ne_nil _ _) rfl with
          ⟨hmatch, hpre⟩ | ⟨hmatch, hshort⟩ | ⟨p, c, y, r, hmatch, hsplit, hpre, hne⟩
        · rw [List.length_nil] at hmatch
          rw [hmatch]
          exact ⟨true, rfl, iff_of_true rfl (found_of_start hpre)⟩
        · obtain ⟨b, hb, hiff⟩ := hnext (show _ = [] ++ x :: block from rfl)
          rw [List.length_nil] at hmatch
          rw [hmatch]
          refine ⟨b, by simpa using hb, hiff.trans ?_⟩
          refine iff_of_false (not_found_of_short ?_) (not_found_of_short ?_)
          · rw [length_map, folded_length]
            exact Nat.lt_of_succ_lt hshort
          · rw [length_map, folded_length]
            exact hshort
        · obtain ⟨b, hb, hiff⟩ := hnext hsplit
          rw [List.length_nil] at hmatch
          rw [hmatch]
          refine ⟨b, by simpa [Nat.add_assoc] using hb, hiff.trans ?_⟩
          rw [List.nil_append] at hsplit
          rw [hsplit, List.map_append, map_cons, found_skip_iff hpre hne]

theorem contains_insensitive (memmem : List UInt8 → List UInt8 → Option Nat) (hn : rhs.chars ≠ []) :
    ∃ b, v.contains memmem rhs .insensitive = .ok b ∧ (b = true ↔ Found rhs.folded v.folded) := by
  obtain ⟨needleFirst, needle, hneedle⟩ := List.exists_cons_of_ne_nil hn
  have hrhs : rhs.isNullOrEmpty = false := Bool.eq_false_iff.2 (mt (isNullOrEmpty_iff rhs).1 hn)
  rw [contains, hrhs, Bool.or_false]
  by_cases hshort : (v.isNullOrEmpty || decide (rhs.len > v.len)) = true
  · refine ⟨false, by rw [if_pos hshort]; rfl, iff_of_false Bool.false_ne_true (not_found_of_short ?_)⟩
    rw [folded_length, folded_length]
    rcases Bool.or_eq_true _ _ ▸ hshort with hempty | hlt
    · rw [len, (isNullOrEmpty_iff v).1 hempty]
      exact List.length_pos_of_ne_nil hn
    · exact of_decide_eq_true hlt
  · have hfirst : rhs.charAt 0 = .ok needleFirst := charAt_append
      (show _ = [] ++ needleFirst :: needle from hneedle) rfl
    rw [if_neg hshort, hfirst, ok_bind]
    exact containsFrom_spec hneedle (show v.chars = [] ++ v.chars from rfl) (Nat.le_refl _)

theorem contains_insensitive_iff {memmem : List UInt8 → List UInt8 → Option Nat} (hn : rhs.chars ≠ []) :
    (∃ b, v.contains memmem rhs .insensitive = .ok b ∧ (b = true ↔ rhs.folded <:+: v.folded)) ↔
      (rhs.folded <:+: v.folded → Found rhs.folded v.folded) := by
  obtain ⟨b, hb, hfound⟩ := contains_insensitive (v := v) memmem hn
  simp only [hb, Except.ok.injEq]
  constructor
  · rintro ⟨b', rfl, hoccurs⟩ hinfix
    exact hfound.1 (hoccurs.2 hinfix)
  · intro hcomes
    exact ⟨b, rfl, fun htrue => (hfound.1 htrue).isInfix, fun hinfix => hfound.2 (hcomes hinfix)⟩

end

/-! ## `find_last` -/

section

variable {v : StringView} {c : UInt8}

/-- The greatest index that holds the character, or none where it does not occur. -/
def IsLast (c : UInt8) (chars : List UInt8) : Option Nat → Prop
  | some i => chars[i]? = some c ∧ ∀ j, i < j → chars[j]? ≠ some c
  | none => c ∉ chars

theorem isLast_append {front rest : List UInt8} (h : c ∉ rest) :
    IsLast c (front ++ c :: rest) (some front.length) := by
  refine ⟨by simp, ?_⟩
  intro j hj hat
  rw [List.getElem?_append_right (Nat.le_of_lt hj)] at hat
  obtain ⟨k, hk⟩ := Nat.exists_eq_succ_of_ne_zero (show j - front.length ≠ 0 by omega)
  rw [hk, List.getElem?_cons_succ] at hat
  exact h (List.mem_of_getElem? hat)

theorem findLastFrom_cases {d : UInt8} {chars rest : List UInt8} (h : v.chars = d :: (chars ++ rest)) :
    c ∉ chars ∧ v.findLastFrom c chars.length = .ok none ∨
      ∃ front after, chars = front ++ c :: after ∧ c ∉ after ∧
        v.findLastFrom c chars.length = .ok (some (d :: front).length) := by
  induction chars using List.reverseRecOn generalizing rest with
  | nil => exact .inl ⟨List.not_mem_nil, rfl⟩
  | append_singleton chars x ih =>
    have hat : v.charAt (chars.length + 1) = .ok x :=
      charAt_append (show _ = (d :: chars) ++ x :: rest by rw [h]; simp) rfl
    rw [length_append, List.length_singleton, findLastFrom, hat, ok_bind]
    by_cases hx : x = c
    · subst hx
      rw [if_pos rfl]
      exact .inr ⟨chars, [], rfl, List.not_mem_nil, rfl⟩
    · rw [if_neg hx]
      rcases ih (show _ = d :: (chars ++ x :: rest) by rw [h]; simp) with
        ⟨hnone, hr⟩ | ⟨front, after, rfl, hafter, hr⟩
      · exact .inl ⟨by simp [hnone, Ne.symm hx], hr⟩
      · exact .inr ⟨front, after ++ [x], by simp, by simp [hafter, Ne.symm hx], hr⟩

theorem findLast_iff (v : StringView) (c : UInt8) :
    (∃ r, v.findLast c = .ok r ∧ IsLast c v.chars r) ↔
      v.chars ≠ [] ∧ (v.chars.head? = some c → c ∈ v.chars.tail) := by
  have hlt := v.len_lt
  rw [findLast]
  cases hcs : v.chars with
  | nil =>
    refine iff_of_false ?_ (fun h => h.1 rfl)
    have hlen : v.len = 0 := by rw [len, hcs]; rfl
    obtain ⟨k, hk⟩ : ∃ k, u32 (v.len + 2 ^ 32 - 1) = k + 1 := by
      rw [hlen, MeetixOS.Kernel.u32_of_lt (by decide)]
      exact ⟨2 ^ 32 - 2, by decide⟩
    have hat : v.charAt (k + 1) = .error .verify := by
      rw [charAt, verify, if_neg (by omega)]
      rfl
    rintro ⟨r, hr, -⟩
    rw [hk, findLastFrom, hat] at hr
    cases hr
  | cons d cs =>
    have hlen : v.len = cs.length + 1 := by rw [len, hcs, length_cons]
    have hlast : u32 (v.len + 2 ^ 32 - 1) = cs.length := by
      rw [u32_sub (by omega) hlt, hlen, Nat.add_sub_cancel]
    rw [hlast, List.head?_cons, List.tail_cons, and_iff_right (List.cons_ne_nil d cs)]
    rcases findLastFrom_cases (c := c)
      (show v.chars = d :: (cs ++ []) by rw [hcs, append_nil]) with
      ⟨hnone, hr⟩ | ⟨front, after, rfl, hafter, hr⟩
    · rw [hr]
      simp [IsLast, hnone, eq_comm]
    · rw [hr]
      refine iff_of_true ⟨_, rfl, (isLast_append hafter : IsLast c ((d :: front) ++ c :: after) _)⟩ ?_
      intro _
      simp

end

/-! ## `try_find_all` -/

/-- `memmem` gives the first place where the needle stands. -/
def CorrectMemmem (memmem : List UInt8 → List UInt8 → Option Nat) : Prop :=
  ∀ haystack needle,
    match memmem haystack needle with
    | some i => FirstAt needle haystack i
    | none => ∀ i, ¬ OccursAt needle haystack i

/-- The places where the needle stands. -/
def places (needle chars : List UInt8) : List Nat :=
  (List.range chars.length).filter fun i => OccursAt needle chars i

section

variable {memmem : List UInt8 → List UInt8 → Option Nat} {granted : Nat → Bool} {v needle : StringView}
  {positions : Vector Nat}

theorem occursAt_drop {needle chars : List UInt8} {i j : Nat} :
    OccursAt needle (chars.drop i) j ↔ OccursAt needle chars (i + j) := by
  unfold OccursAt MatchesAt
  simp only [List.getElem?_drop, Nat.add_assoc]

/-- The places below a bound. -/
def placesBelow (needle chars : List UInt8) (bound : Nat) : List Nat :=
  (List.range bound).filter fun i => OccursAt needle chars i

theorem placesBelow_of_none (needle chars : List UInt8) {i k : Nat}
    (h : ∀ j < k, ¬ OccursAt needle chars (i + j)) :
    placesBelow needle chars (i + k) = placesBelow needle chars i := by
  induction k with
  | zero => rfl
  | succ k ih =>
    have hlast := h k (Nat.lt_succ_self k)
    rw [← Nat.add_assoc, placesBelow, List.range_succ, List.filter_append,
      List.filter_cons_of_neg (by simpa using hlast), List.filter_nil, append_nil]
    exact ih fun j hj => h j (Nat.lt_succ_of_lt hj)

/-- What the loop returns: the places, or the refusal of an allocation. -/
def FindsAll (granted : Nat → Bool) (v needle : StringView) : Except Error (Vector Nat) → Prop
  | .ok positions => positions.Holds (places needle.chars v.chars)
  | .error e => e = .enomem ∧ ∃ n, granted n = false

theorem tryFindAllFrom_spec (hmemmem : CorrectMemmem memmem) (hneedle : needle.chars ≠ []) {n i : Nat}
    (hn : v.len ≤ i + n) (hi : i ≤ v.len)
    (hpositions : positions.Holds (placesBelow needle.chars v.chars i)) :
    ∃ r, tryFindAllFrom memmem granted v needle n i positions = .ok r ∧ FindsAll granted v needle r := by
  have hpos := List.length_pos_of_ne_nil hneedle
  induction n generalizing i positions with
  | zero =>
    obtain rfl : i = v.len := by omega
    exact ⟨_, rfl, hpositions⟩
  | succ n ih =>
    rw [tryFindAllFrom]
    by_cases hlt : i < v.len
    · have hmem := hmemmem (v.chars.drop i) needle.chars
      rw [if_pos hlt]
      cases hfound : memmem (v.chars.drop i) needle.chars with
      | none =>
        rw [hfound] at hmem
        refine ⟨_, rfl, ?_⟩
        have hnone := placesBelow_of_none needle.chars v.chars
          (k := v.len - i) (fun j _ => mt occursAt_drop.2 (hmem j))
        rw [Nat.add_sub_cancel' hi] at hnone
        change positions.Holds (placesBelow needle.chars v.chars v.len)
        rwa [hnone]
      | some k =>
        rw [hfound] at hmem
        have hocc := occursAt_drop.1 hmem.1
        have hend := hocc.le_length hpos
        have hnone := placesBelow_of_none needle.chars v.chars
          (fun j hj => mt occursAt_drop.2 (hmem.2 j hj))
        have hnext : placesBelow needle.chars v.chars (i + k + 1) =
            placesBelow needle.chars v.chars i ++ [i + k] := by
          rw [← hnone, placesBelow, List.range_succ, List.filter_append,
            List.filter_cons_of_pos (by simpa using hocc), List.filter_nil]
          rfl
        have hcount : (placesBelow needle.chars v.chars i).length ≤ i := by
          have hle := List.length_filter_le (fun i => decide (OccursAt needle.chars v.chars i))
            (List.range i)
          rwa [List.length_range] at hle
        have hgrow : positions.Growable ((placesBelow needle.chars v.chars i).length + 1) := by
          have hle := v.len_le
          intro _ _
          unfold constKernelAreaStart at hle
          omega
        dsimp only
        rcases hpositions.tryAppend true (granted positions.valuesCount) (i + k) hgrow with
          ⟨positions', hadd, hpositions'⟩ | ⟨hrefused, hadd⟩
        · rw [hadd, ok_bind]
          dsimp only
          exact ih (by omega) (by unfold len; omega) (hnext ▸ hpositions')
        · rw [hadd, ok_bind]
          exact ⟨_, rfl, rfl, _, hrefused⟩
    · obtain rfl : i = v.len := by omega
      rw [if_neg hlt]
      exact ⟨_, rfl, hpositions⟩

theorem tryFindAll_spec (hmemmem : CorrectMemmem memmem) (hneedle : needle.chars ≠ []) :
    ∃ r, tryFindAll memmem granted v needle = .ok r ∧ FindsAll granted v needle r :=
  tryFindAllFrom_spec hmemmem hneedle (by omega) (Nat.zero_le _) Vector.holds_empty

end

/-! ## The three searches -/

/-- `contains` without the case, `find_last` and `try_find_all` find what there is. -/
structure Searches (memmem : List UInt8 → List UInt8 → Option Nat) (granted : Nat → Bool)
    (v needle : StringView) (c : UInt8) : Prop where
  contains : ∃ b, v.contains memmem needle .insensitive = .ok b ∧
    (b = true ↔ needle.folded <:+: v.folded)
  findLast : ∃ r, v.findLast c = .ok r ∧ IsLast c v.chars r
  findAll : ∃ r, tryFindAll memmem granted v needle = .ok r ∧ FindsAll granted v needle r

/-- The searches are right where the needle, if it occurs, stands where the insensitive search comes to,
the view is not empty and its first character is not the only one that `find_last` looks for. -/
theorem searches_iff {memmem : List UInt8 → List UInt8 → Option Nat} (hmemmem : CorrectMemmem memmem)
    (granted : Nat → Bool) (v needle : StringView) (hneedle : needle.chars ≠ []) (c : UInt8) :
    Searches memmem granted v needle c ↔
      (needle.folded <:+: v.folded → Found needle.folded v.folded) ∧
        v.chars ≠ [] ∧ (v.chars.head? = some c → c ∈ v.chars.tail) := by
  constructor
  · intro h
    exact ⟨(contains_insensitive_iff hneedle).1 h.contains, (findLast_iff v c).1 h.findLast⟩
  · rintro ⟨hfound, hlast⟩
    exact ⟨(contains_insensitive_iff hneedle).2 hfound, (findLast_iff v c).2 hlast,
      tryFindAll_spec hmemmem hneedle⟩

/-- A search that tries one place after the other. -/
def firstPlace (haystack needle : List UInt8) : Option Nat :=
  (List.range (haystack.length + 1)).find? fun i => OccursAt needle haystack i

theorem correctMemmem_firstPlace : CorrectMemmem firstPlace := by
  intro haystack needle
  cases hfound : firstPlace haystack needle with
  | some i =>
    obtain ⟨hocc, hbefore⟩ := List.find?_range_eq_some.1 hfound
    refine ⟨of_decide_eq_true hocc, ?_⟩
    intro j hj
    simpa using hbefore.2 j hj
  | none =>
    have hnone := List.find?_eq_none.1 hfound
    intro i hocc
    by_cases hneedle : needle.length = 0
    · have hzero : OccursAt needle haystack 0 := fun l hl => absurd hl (by omega)
      exact hnone 0 (List.mem_range.2 (Nat.succ_pos _)) (decide_eq_true hzero)
    · have hend := hocc.le_length (Nat.pos_of_ne_zero hneedle)
      exact hnone i (List.mem_range.2 (by omega)) (decide_eq_true hocc)

theorem searches_abb : Searches firstPlace (fun _ => true) (literal [97, 98, 98] (by decide))
    (literal [66] (by decide)) 98 := by
  refine (searches_iff correctMemmem_firstPlace _ _ _ (by decide) _).2 ⟨?_, by decide, by decide⟩
  intro _
  refine ⟨[97], [98], ?_, by decide⟩
  exact .skip (show [] ++ [(98 : Int)] <+: [98] by decide) (show (97 : Int) ≠ 98 by decide) .nil

/-- In `"aab"`, `"ab"` is missed: the search goes on behind the second `'a'`. -/
theorem overlapping_needle_missed : ¬ Searches firstPlace (fun _ => true)
    (literal [97, 97, 98] (by decide)) (literal [97, 98] (by decide)) 98 := by
  intro h
  obtain ⟨b, hb, hiff⟩ := h.contains
  obtain rfl : false = b := Except.ok.inj hb
  exact Bool.false_ne_true (hiff.2 ⟨[97], [], by decide⟩)

end StringView

end LibTC
