import Mathlib.Data.List.Infix
import Mathlib.Data.Int.Order.Basic

/-! # Occurrences of one list in another

Where a needle stands in a haystack, which of these places is the first one, and what a search can
conclude from the part of the needle it has matched so far: the borders of that part are the only
places where the needle can still start. -/

namespace Occurrence

variable {α : Type*} {needle haystack : List α} {h i j k n q : Nat} {t : Int}

/-! ## Matches -/

/-- The first `k` elements of the needle stand at `i`. -/
def MatchesAt (needle haystack : List α) (i k : Nat) : Prop :=
  ∀ l < k, haystack[i + l]? = needle[l]?

instance [DecidableEq α] (needle haystack : List α) (i k : Nat) :
    Decidable (MatchesAt needle haystack i k) :=
  inferInstanceAs (Decidable (∀ l < k, haystack[i + l]? = needle[l]?))

theorem matchesAt_zero (needle haystack : List α) (i : Nat) : MatchesAt needle haystack i 0 :=
  fun _ hl => absurd hl (Nat.not_lt_zero _)

theorem matchesAt_succ : MatchesAt needle haystack i (k + 1) ↔
    MatchesAt needle haystack i k ∧ haystack[i + k]? = needle[k]? := by
  constructor
  · intro hmatch
    exact ⟨fun l hl => hmatch l (by omega), hmatch k (by omega)⟩
  · intro ⟨hmatch, hlast⟩ l hl
    by_cases heq : l = k
    · rw [heq]
      exact hlast
    · exact hmatch l (by omega)

/-- The needle stands at `i`. -/
def OccursAt (needle haystack : List α) (i : Nat) : Prop :=
  MatchesAt needle haystack i needle.length

instance [DecidableEq α] (needle haystack : List α) (i : Nat) : Decidable (OccursAt needle haystack i) :=
  inferInstanceAs (Decidable (MatchesAt needle haystack i needle.length))

theorem occursAt_iff : OccursAt needle haystack i ↔ needle <+: haystack.drop i := by
  rw [List.prefix_iff_getElem?]
  constructor
  · intro hocc l hl
    rw [List.getElem?_drop, hocc l hl, List.getElem?_eq_getElem hl]
  · intro hpre l hl
    rw [← List.getElem?_drop, hpre l hl, List.getElem?_eq_getElem hl]

theorem exists_occursAt_iff : (∃ i, OccursAt needle haystack i) ↔ needle <:+: haystack := by
  constructor
  · rintro ⟨i, hocc⟩
    exact (occursAt_iff.1 hocc).isInfix.trans (List.drop_suffix i haystack).isInfix
  · rintro ⟨before, after, rfl⟩
    refine ⟨before.length, occursAt_iff.2 ⟨after, ?_⟩⟩
    rw [List.append_assoc, List.drop_left]

theorem OccursAt.le_length (hocc : OccursAt needle haystack i) (hpos : 0 < needle.length) :
    i + needle.length ≤ haystack.length := by
  have hlast := hocc (needle.length - 1) (by omega)
  rw [List.getElem?_eq_getElem (show needle.length - 1 < needle.length by omega)] at hlast
  have hlt := (List.getElem?_eq_some_iff.1 hlast).1
  omega

/-- The first place where the needle stands. -/
def FirstAt (needle haystack : List α) (i : Nat) : Prop :=
  OccursAt needle haystack i ∧ ∀ j < i, ¬ OccursAt needle haystack j

theorem FirstAt.eq (hi : FirstAt needle haystack i) (hj : FirstAt needle haystack j) : i = j := by
  rcases Nat.lt_trichotomy i j with hlt | heq | hlt
  · exact absurd hi.1 (hj.2 i hlt)
  · exact heq
  · exact absurd hj.1 (hi.2 j hlt)

/-- What a search may answer: the first place, or nothing when there is none. -/
def Finds (needle haystack : List α) : Option Int → Prop
  | some place => ∃ i : Nat, place = i ∧ FirstAt needle haystack i
  | none => ∀ i, ¬ OccursAt needle haystack i

theorem finds_none_iff : Finds needle haystack none ↔ ¬ needle <:+: haystack := by
  rw [← exists_occursAt_iff, not_exists]
  rfl

/-! ## Borders -/

/-- A proper part of length `j` that starts and ends the first `q` elements of the needle. -/
def Border (needle : List α) (q j : Nat) : Prop :=
  j < q ∧ MatchesAt needle needle (q - j) j

theorem MatchesAt.border (hmatch : MatchesAt needle haystack (h - n) n) (hle : n ≤ h)
    (hborder : Border needle n j) : MatchesAt needle haystack (h - j) j := by
  obtain ⟨hlt, hborder⟩ := hborder
  intro l hl
  rw [← hborder l hl, ← hmatch (n - j + l) (by omega)]
  congr 1
  omega

/-- Two matches with one end: the shorter one is a border of the longer one. -/
theorem MatchesAt.border_of_lt (hmatch : MatchesAt needle haystack (h - n) n) (hle : n ≤ h)
    (hshort : MatchesAt needle haystack (h - j) j) (hlt : j < n) : Border needle n j := by
  refine ⟨hlt, ?_⟩
  intro l hl
  rw [← hshort l hl, ← hmatch (n - j + l) (by omega)]
  congr 1
  omega

theorem Border.trans (hq : Border needle q j) (hj : Border needle j k) : Border needle q k :=
  ⟨hj.1.trans hq.1, hq.2.border hq.1.le hj⟩

theorem Border.of_lt (hj : Border needle q j) (hk : Border needle q k) (hlt : k < j) :
    Border needle j k :=
  hj.2.border_of_lt hj.1.le hk.2 hlt

theorem border_succ : Border needle (q + 1) (j + 1) ↔
    Border needle q j ∧ needle[j]? = needle[q]? := by
  rw [Border, Border, Nat.add_sub_add_right, matchesAt_succ]
  constructor
  · rintro ⟨hlt, hmatch, hlast⟩
    rw [Nat.sub_add_cancel (by omega)] at hlast
    exact ⟨⟨by omega, hmatch⟩, hlast.symm⟩
  · rintro ⟨⟨hlt, hmatch⟩, hlast⟩
    refine ⟨by omega, hmatch, ?_⟩
    rw [Nat.sub_add_cancel hlt.le]
    exact hlast.symm

/-- No border of the first `q` elements is longer than `j`. -/
def LongestBorder (needle : List α) (q j : Nat) : Prop :=
  Border needle q j ∧ ∀ k, Border needle q k → k ≤ j

theorem longestBorder_one (needle : List α) : LongestBorder needle 1 0 :=
  ⟨⟨Nat.one_pos, matchesAt_zero _ _ _⟩, fun _ hk => Nat.le_of_lt_succ hk.1⟩

/-- The borders of one element more are the borders which that element continues. -/
theorem longestBorder_succ (hborder : Border needle q j) (heq : needle[j]? = needle[q]?)
    (hmax : ∀ k, Border needle q k → needle[k]? = needle[q]? → k ≤ j) :
    LongestBorder needle (q + 1) (j + 1) := by
  refine ⟨border_succ.2 ⟨hborder, heq⟩, ?_⟩
  intro k hk
  cases k with
  | zero => exact Nat.zero_le _
  | succ k =>
    obtain ⟨hk, hlast⟩ := border_succ.1 hk
    exact Nat.succ_le_succ (hmax k hk hlast)

theorem longestBorder_succ_zero (hnone : ∀ k, Border needle q k → needle[k]? ≠ needle[q]?) :
    LongestBorder needle (q + 1) 0 := by
  refine ⟨⟨Nat.succ_pos q, matchesAt_zero _ _ _⟩, ?_⟩
  intro k hk
  cases k with
  | zero => exact Nat.le_refl 0
  | succ k =>
    obtain ⟨hk, hlast⟩ := border_succ.1 hk
    exact absurd hlast (hnone k hk)

/-! ## The failure function -/

/-- Where a search goes on after a mismatch at `q`: the longest border continued by another element than
the mismatched one, or, by the sentinel `-1`, the next element of the haystack. -/
def Falls (needle : List α) (q : Nat) (t : Int) : Prop :=
  (t = -1 ∨ ∃ j : Nat, t = j ∧ Border needle q j ∧ needle[j]? ≠ needle[q]?) ∧
    ∀ k, Border needle q k → needle[k]? ≠ needle[q]? → (k : Int) ≤ t

theorem falls_zero (needle : List α) : Falls needle 0 (-1) :=
  ⟨.inl rfl, fun _ hk => absurd hk.1 (Nat.not_lt_zero _)⟩

section

variable (hj : LongestBorder needle q j)
include hj

theorem LongestBorder.falls_of_ne (hne : needle[j]? ≠ needle[q]?) : Falls needle q j :=
  ⟨.inr ⟨j, rfl, hj.1, hne⟩, fun k hk _ => Int.ofNat_le.2 (hj.2 k hk)⟩

theorem LongestBorder.falls_of_eq (heq : needle[j]? = needle[q]?) (ht : Falls needle j t) :
    Falls needle q t := by
  obtain ⟨hvalue, hmax⟩ := ht
  constructor
  · rcases hvalue with hvalue | ⟨k, hk, hborder, hne⟩
    · exact .inl hvalue
    · exact .inr ⟨k, hk, hj.1.trans hborder, heq ▸ hne⟩
  · intro k hk hne
    have hlt : k < j := by
      refine Nat.lt_of_le_of_ne (hj.2 k hk) ?_
      rintro rfl
      exact hne heq
    exact hmax k (hj.1.of_lt hk hlt) (heq ▸ hne)

/-- The search for the longest border of `q + 1`: only borders shorter than `j` are left. -/
structure Chases (needle : List α) (q j : Nat) : Prop where
  border : Border needle q j
  differs : needle[j]? ≠ needle[q]?
  shorter : ∀ k, Border needle q k → needle[k]? = needle[q]? → k < j

theorem LongestBorder.chases (hne : needle[j]? ≠ needle[q]?) : Chases needle q j := by
  refine ⟨hj.1, hne, ?_⟩
  intro k hk heq
  refine Nat.lt_of_le_of_ne (hj.2 k hk) ?_
  rintro rfl
  exact hne heq

end

/-- What the failure function leaves out continues with the mismatched element. -/
theorem Chases.le_of_falls (hj : Chases needle q j) (ht : Falls needle j t)
    (hk : Border needle q k) (heq : needle[k]? = needle[q]?) : (k : Int) ≤ t :=
  ht.2 k (hj.border.of_lt hk (hj.shorter k hk heq)) (by rw [heq]; exact hj.differs.symm)

theorem Chases.end (hj : Chases needle q j) (ht : Falls needle j (-1)) :
    LongestBorder needle (q + 1) 0 := by
  refine longestBorder_succ_zero ?_
  intro k hk heq
  have hle := hj.le_of_falls ht hk heq
  omega

theorem Chases.falls (hj : Chases needle q j) (ht : Falls needle j n) :
    n < j ∧ (needle[n]? = needle[q]? → LongestBorder needle (q + 1) (n + 1)) ∧
      (needle[n]? ≠ needle[q]? → Chases needle q n) := by
  obtain hvalue | ⟨k, hvalue, hborder, -⟩ := ht.1
  · omega
  · obtain rfl : n = k := by omega
    have hmax : ∀ k, Border needle q k → needle[k]? = needle[q]? → k ≤ n := fun k hk heq =>
      Int.ofNat_le.1 (hj.le_of_falls ht hk heq)
    refine ⟨hborder.1, fun heq => longestBorder_succ (hj.border.trans hborder) heq hmax, ?_⟩
    intro hne
    refine ⟨hj.border.trans hborder, hne, ?_⟩
    intro k hk heq
    refine Nat.lt_of_le_of_ne (hmax k hk heq) ?_
    rintro rfl
    exact hne heq

/-! ## The search -/

/-- In front of `h`, the first `n` elements of the needle have matched, and the needle does not start at
an earlier place. -/
structure Searches (needle haystack : List α) (h n : Nat) : Prop where
  le : n ≤ h
  matched : MatchesAt needle haystack (h - n) n
  missed : ∀ i < h - n, ¬ OccursAt needle haystack i

theorem searches_start (needle haystack : List α) : Searches needle haystack 0 0 :=
  ⟨Nat.le_refl 0, matchesAt_zero _ _ _, fun _ hi => absurd hi (Nat.not_lt_zero _)⟩

theorem Searches.next (hs : Searches needle haystack h n) (heq : haystack[h]? = needle[n]?) :
    Searches needle haystack (h + 1) (n + 1) := by
  have hle := hs.le
  refine ⟨Nat.succ_le_succ hle, ?_, ?_⟩
  · rw [Nat.add_sub_add_right, matchesAt_succ, Nat.sub_add_cancel hle]
    exact ⟨hs.matched, heq⟩
  · rw [Nat.add_sub_add_right]
    exact hs.missed

theorem Searches.first (hs : Searches needle haystack h needle.length) :
    FirstAt needle haystack (h - needle.length) :=
  ⟨hs.matched, hs.missed⟩

section

variable (hs : Searches needle haystack h n) (hne : haystack[h]? ≠ needle[n]?)
  (hn : n < needle.length)
include hs hne hn

/-- After a mismatch the needle starts neither where the match did nor at a border that the failure
function leaves out. -/
theorem Searches.missed_of_falls (ht : Falls needle n t) (hj : j ≤ h) (hlt : t < j) :
    ¬ OccursAt needle haystack (h - j) := by
  intro hocc
  by_cases hlong : n < j
  · exact hs.missed (h - j) (by have := hs.le; omega) hocc
  · have hnext := hocc j (by omega)
    rw [Nat.sub_add_cancel hj] at hnext
    rcases Nat.lt_or_eq_of_le (Nat.not_lt.1 hlong) with hshort | rfl
    · have hborder := hs.matched.border_of_lt hs.le (fun l hl => hocc l (by omega)) hshort
      have hle := ht.2 j hborder (by rw [← hnext]; exact hne)
      omega
    · exact hne hnext

theorem Searches.falls (ht : Falls needle n j) : j < n ∧ Searches needle haystack h j := by
  obtain hvalue | ⟨k, hvalue, hborder, -⟩ := ht.1
  · omega
  · obtain rfl : j = k := by omega
    have hlt := hborder.1
    have hle := hs.le
    refine ⟨hlt, by omega, hs.matched.border hle hborder, ?_⟩
    intro i hi
    have hmissed := hs.missed_of_falls hne hn ht (show h - i ≤ h by omega) (by omega)
    rwa [show h - (h - i) = i by omega] at hmissed

theorem Searches.skip (ht : Falls needle n (-1)) : Searches needle haystack (h + 1) 0 := by
  refine ⟨Nat.zero_le _, matchesAt_zero _ _ _, ?_⟩
  intro i hi
  have hmissed := hs.missed_of_falls hne hn ht (show h - i ≤ h by omega) (by omega)
  rwa [show h - (h - i) = i by omega] at hmissed

end

theorem Searches.finds_none (hs : Searches needle haystack h n) (hh : h = haystack.length)
    (hn : n < needle.length) : Finds needle haystack none := by
  intro i hocc
  have hend := hocc.le_length (by omega)
  exact hs.missed i (by omega) hocc

end Occurrence
