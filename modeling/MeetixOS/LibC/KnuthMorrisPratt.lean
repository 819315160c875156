import MeetixOS.Lib.Occurrence

/-! # The Knuth-Morris-Pratt path of `memmem`

`kmp_memmem` fills a table with one entry for each byte of the needle and then goes through the
haystack once. The needle and the table are indexed with an `int`, which the table's sentinel makes
negative; an index out of range ends a call of the model with `none`, and so does a loop that has not
ended after its rounds. -/

open Option (bind_eq_bind bind_some)
open List (getElem?_eq_getElem)
open Occurrence

namespace LibC

/-- Reads with an `int` as the index. -/
def readAt {α : Type} (values : List α) (index : Int) : Option α :=
  if 0 ≤ index then values[index.toNat]? else none

/-- Writes an entry of `partial_table`. -/
def writeAt {α : Type} (values : List α) (index : Nat) (value : α) : Option (List α) :=
  if index < values.length then some (values.set index value) else none

/-- The inner loop: `do candidate = partial_table[candidate]` while there is a candidate whose next byte
is another one. -/
def fallBack (needle : List UInt8) (partialTable : List Int) (position : Nat) :
    Nat → Int → Option Int
  | 0, _ => none
  | rounds + 1, candidate => do
      let candidate ← readAt partialTable candidate
      if 0 ≤ candidate then
        let byte ← readAt needle candidate
        let next ← needle[position]?
        if byte ≠ next then
          fallBack needle partialTable position rounds candidate
        else
          some candidate
      else
        some candidate

/-- The outer loop, with the rounds it may take. -/
def fillPartialTable (needle : List UInt8) : Nat → Nat → Int → List Int → Option (List Int)
  | 0, position, _, partialTable => if position < needle.length then none else some partialTable
  | rounds + 1, position, candidate, partialTable =>
    if position < needle.length then do
      let byte ← needle[position]?
      let other ← readAt needle candidate
      if byte = other then
        let entry ← readAt partialTable candidate
        let partialTable ← writeAt partialTable position entry
        fillPartialTable needle rounds (position + 1) (candidate + 1) partialTable
      else
        let partialTable ← writeAt partialTable position candidate
        let candidate ← fallBack needle partialTable position needle.length candidate
        fillPartialTable needle rounds (position + 1) (candidate + 1) partialTable
    else
      some partialTable

/-- `prepare_kmp_partial_table`. The resized vector is filled with zeros. -/
def prepareKmpPartialTable (needle : List UInt8) : Option (List Int) := do
  let partialTable ← writeAt (List.replicate needle.length 0) 0 (-1)
  fillPartialTable needle needle.length 1 0 partialTable

/-- The loop over the haystack. What is found is answered with the needle's index, which is the length
of the needle. -/
def searchHaystack (haystack needle : List UInt8) (partialTable : List Int) :
    Nat → Nat → Int → Option (Option Int)
  | 0, _, _ => none
  | rounds + 1, currentHaystackIndex, needleIndex =>
    if currentHaystackIndex < haystack.length then do
      let byte ← readAt needle needleIndex
      let other ← haystack[currentHaystackIndex]?
      if byte = other then
        let needleIndex := needleIndex + 1
        let currentHaystackIndex := currentHaystackIndex + 1
        if needleIndex = needle.length then
          some (some needleIndex)
        else
          searchHaystack haystack needle partialTable rounds currentHaystackIndex needleIndex
      else
        let needleIndex ← readAt partialTable needleIndex
        if needleIndex < 0 then
          searchHaystack haystack needle partialTable rounds (currentHaystackIndex + 1)
            (needleIndex + 1)
        else
          searchHaystack haystack needle partialTable rounds currentHaystackIndex needleIndex
    else
      some none

/-- `kmp_memmem`: where the answer lies in the haystack, or null. -/
def kmpMemmem (haystack needle : List UInt8) : Option (Option Int) := do
  let partialTable ← prepareKmpPartialTable needle
  searchHaystack haystack needle partialTable (2 * haystack.length + 1) 0 0

/-! ## The table -/

section

variable {needle : List UInt8} {partialTable : List Int} {position : Nat}

theorem readAt_natCast {α : Type} (values : List α) (i : Nat) : readAt values i = values[i]? := by
  rw [readAt, if_pos (Int.natCast_nonneg i), Int.toNat_natCast]

/-- The entries in front of `position` are those of the failure function. -/
structure Prepared (needle : List UInt8) (position : Nat) (partialTable : List Int) : Prop where
  length : partialTable.length = needle.length
  entry : ∀ q < position, ∃ t, partialTable[q]? = some t ∧ Falls needle q t

theorem Prepared.set {t : Int} (h : Prepared needle position partialTable)
    (ht : Falls needle position t) (hlt : position < needle.length) :
    writeAt partialTable position t = some (partialTable.set position t) ∧
      Prepared needle (position + 1) (partialTable.set position t) := by
  have hpos : position < partialTable.length := by rw [h.length]; exact hlt
  refine ⟨if_pos hpos, by rw [List.length_set, h.length], ?_⟩
  intro q hq
  by_cases heq : q = position
  · subst heq
    exact ⟨t, List.getElem?_set_self hpos, ht⟩
  · obtain ⟨s, hs, hfalls⟩ := h.entry q (by omega)
    exact ⟨s, by rw [List.getElem?_set_ne (Ne.symm heq), hs], hfalls⟩

theorem Prepared.read (h : Prepared needle position partialTable) {q : Nat} (hq : q < position) :
    (readAt partialTable q = some (-1) ∧ Falls needle q (-1)) ∨
      ∃ j : Nat, readAt partialTable q = some (j : Int) ∧ Falls needle q j := by
  obtain ⟨t, hread, hfalls⟩ := h.entry q hq
  rw [readAt_natCast, hread]
  obtain rfl | ⟨j, rfl, -⟩ := hfalls.1
  · exact .inl ⟨rfl, hfalls⟩
  · exact .inr ⟨j, rfl, hfalls⟩

theorem fallBack_spec (h : Prepared needle (position + 1) partialTable)
    (hlt : position < needle.length) {rounds candidate : Nat}
    (hchases : Chases needle position candidate) (hrounds : candidate < rounds) :
    ∃ t : Int, fallBack needle partialTable position rounds candidate = some t ∧
      ∃ j : Nat, t + 1 = j ∧ LongestBorder needle (position + 1) j := by
  induction rounds generalizing candidate with
  | zero => omega
  | succ rounds ih =>
    rw [fallBack]
    rcases h.read (hchases.border.1.trans (Nat.lt_succ_self position)) with
      ⟨hread, hfalls⟩ | ⟨j, hread, hfalls⟩
    · rw [hread]
      exact ⟨-1, rfl, 0, rfl, hchases.end hfalls⟩
    · obtain ⟨hshort, hends, hgoes⟩ := hchases.falls hfalls
      have hj : j < needle.length := by
        have := hchases.border.1
        omega
      simp only [hread, bind_eq_bind, bind_some, readAt_natCast,
        getElem?_eq_getElem hj, getElem?_eq_getElem hlt, if_pos (Int.natCast_nonneg j)]
      rw [getElem?_eq_getElem hj, getElem?_eq_getElem hlt] at hends hgoes
      by_cases heq : needle[j] = needle[position]
      · rw [if_neg (not_not.2 heq)]
        exact ⟨j, rfl, j + 1, rfl, hends (congrArg some heq)⟩
      · rw [if_pos heq]
        exact ih (hgoes fun h => heq (Option.some.inj h)) (by omega)

theorem fillPartialTable_spec {rounds candidate : Nat} (h : Prepared needle position partialTable)
    (hborder : LongestBorder needle position candidate) (hle : position ≤ needle.length)
    (hrounds : needle.length - position ≤ rounds) :
    ∃ filled, fillPartialTable needle rounds position candidate partialTable = some filled ∧
      Prepared needle needle.length filled := by
  induction rounds generalizing position candidate partialTable with
  | zero =>
    obtain rfl : position = needle.length := by omega
    exact ⟨partialTable, if_neg (Nat.lt_irrefl _), h⟩
  | succ rounds ih =>
    rw [fillPartialTable]
    by_cases hlt : position < needle.length
    · have hcandidate : candidate < needle.length := hborder.1.1.trans hlt
      simp only [if_pos hlt, bind_eq_bind, readAt_natCast needle,
        getElem?_eq_getElem hcandidate, getElem?_eq_getElem hlt, bind_some]
      by_cases heq : needle[position] = needle[candidate]
      · rw [if_pos heq]
        have hsame : needle[candidate]? = needle[position]? := by
          rw [getElem?_eq_getElem hcandidate, getElem?_eq_getElem hlt, heq]
        obtain ⟨t, hread, hfalls⟩ := h.entry candidate hborder.1.1
        obtain ⟨hwrite, hset⟩ := h.set (hborder.falls_of_eq hsame hfalls) hlt
        rw [readAt_natCast, hread, bind_some, hwrite, bind_some]
        exact ih hset (longestBorder_succ hborder.1 hsame fun k hk _ => hborder.2 k hk) hlt (by omega)
      · rw [if_neg heq]
        have hother : needle[candidate]? ≠ needle[position]? := by
          rw [getElem?_eq_getElem hcandidate, getElem?_eq_getElem hlt]
          exact fun h => heq (Option.some.inj h).symm
        obtain ⟨hwrite, hset⟩ := h.set (hborder.falls_of_ne hother) hlt
        obtain ⟨t, hfall, j, hj, hlongest⟩ := fallBack_spec hset hlt (hborder.chases hother) hcandidate
        rw [hwrite, bind_some, hfall, bind_some, hj]
        exact ih hset hlongest hlt (by omega)
    · rw [if_neg hlt]
      obtain rfl : position = needle.length := by omega
      exact ⟨partialTable, rfl, h⟩

theorem prepareKmpPartialTable_spec (hpos : 0 < needle.length) :
    ∃ filled, prepareKmpPartialTable needle = some filled ∧
      Prepared needle needle.length filled := by
  have hempty : Prepared needle 0 (List.replicate needle.length 0) :=
    ⟨List.length_replicate, fun q hq => absurd hq (Nat.not_lt_zero q)⟩
  obtain ⟨hwrite, hset⟩ := hempty.set (falls_zero needle) hpos
  rw [prepareKmpPartialTable, hwrite]
  exact fillPartialTable_spec hset (longestBorder_one needle) hpos (by omega)

end

/-! ## The search -/

section

variable {haystack needle : List UInt8} {partialTable : List Int}

theorem searchHaystack_spec (h : Prepared needle needle.length partialTable) {rounds i n : Nat}
    (hsearches : Searches needle haystack i n) (hi : i ≤ haystack.length) (hn : n < needle.length)
    (hrounds : 2 * (haystack.length - i) + n < rounds) :
    (searchHaystack haystack needle partialTable rounds i n = some (some (needle.length : Int)) ∧
        ∃ first, FirstAt needle haystack first) ∨
      (searchHaystack haystack needle partialTable rounds i n = some none ∧
        Finds needle haystack none) := by
  induction rounds generalizing i n with
  | zero => omega
  | succ rounds ih =>
    rw [searchHaystack]
    by_cases hlt : i < haystack.length
    · simp only [if_pos hlt, bind_eq_bind, readAt_natCast needle,
        getElem?_eq_getElem hn, getElem?_eq_getElem hlt, bind_some]
      by_cases heq : needle[n] = haystack[i]
      · rw [if_pos heq]
        have hnext := hsearches.next (by
          rw [getElem?_eq_getElem hlt, getElem?_eq_getElem hn, heq])
        by_cases hfull : n + 1 = needle.length
        · have hend : (n : Int) + 1 = needle.length := by omega
          rw [if_pos hend, hend]
          rw [hfull] at hnext
          exact .inl ⟨rfl, _, hnext.first⟩
        · rw [if_neg (by omega)]
          exact ih (n := n + 1) hnext hlt (by omega) (by omega)
      · rw [if_neg heq]
        have hother : haystack[i]? ≠ needle[n]? := by
          rw [getElem?_eq_getElem hlt, getElem?_eq_getElem hn]
          exact fun h => heq (Option.some.inj h).symm
        rcases h.read hn with ⟨hread, hfalls⟩ | ⟨j, hread, hfalls⟩
        · rw [hread, bind_some, if_pos (by decide)]
          exact ih (n := 0) (hsearches.skip hother hn hfalls) hlt (by omega) (by omega)
        · obtain ⟨hshort, hfell⟩ := hsearches.falls hother hn hfalls
          rw [hread, bind_some, if_neg (Int.not_lt.2 (Int.natCast_nonneg j))]
          exact ih hfell hi (by omega) (by omega)
    · rw [if_neg hlt]
      exact .inr ⟨rfl, hsearches.finds_none (by omega) hn⟩

theorem kmpMemmem_spec (haystack needle : List UInt8) (hpos : 0 < needle.length) :
    (kmpMemmem haystack needle = some (some (needle.length : Int)) ∧
        ∃ first, FirstAt needle haystack first) ∨
      (kmpMemmem haystack needle = some none ∧ Finds needle haystack none) := by
  obtain ⟨partialTable, hprepare, hprepared⟩ := prepareKmpPartialTable_spec hpos
  rw [kmpMemmem, hprepare]
  exact searchHaystack_spec hprepared (n := 0) (searches_start needle haystack) (Nat.zero_le _) hpos
    (by omega)

end

end LibC
