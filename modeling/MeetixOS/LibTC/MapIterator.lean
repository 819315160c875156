import MeetixOS.LibTC.MapInvariant

/-! # `MapIterator`

The iterator of a map: the index of a bucket and an iterator of the bucket, which is compared by the bucket
it belongs to and by its own index. A bucket is identified by its place in the vector of buckets. -/

open List (length_append length_cons)
open Slots
open MeetixOS.Kernel (u32 u32_of_lt u32_sub)

namespace LibTC

/-- `m_collection`, as the place of the bucket, and `m_index`. -/
structure VectorIterator where
  collection : Nat
  index : Nat
  deriving DecidableEq, Repr

/-- `m_first_level_index` and `m_nested_iterator`. -/
structure MapIterator where
  firstLevelIndex : Nat
  nestedIterator : VectorIterator
  deriving DecidableEq, Repr

section

variable {K T : Type} (data : Vector (Vector (K × T)))

namespace VectorIterator

def isEnd (it : VectorIterator) : Checked Bool := do
  let collection ← read data.slots it.collection
  return it.index = collection.valuesCount

/-- `operator*`. -/
def deref (it : VectorIterator) : Checked (K × T) := do
  verify (¬ (← it.isEnd data))
  let collection ← read data.slots it.collection
  collection.valueAt it.index

end VectorIterator

namespace MapIterator

/-- The loop of `begin`, with `n` rounds left. -/
def firstLevelFrom : (n firstLevelIndex : Nat) → Checked Nat
  | 0, firstLevelIndex => return firstLevelIndex
  | n + 1, firstLevelIndex => do
      let inner ← data.valueAt firstLevelIndex
      if inner.valuesCount ≠ 0 then
        return firstLevelIndex
      else
        firstLevelFrom n (firstLevelIndex + 1)

/-- `begin`. -/
def atBegin : Checked MapIterator := do
  let firstLevelIndex ← firstLevelFrom data data.valuesCount 0
  let _ ← data.valueAt firstLevelIndex
  return ⟨firstLevelIndex, ⟨firstLevelIndex, 0⟩⟩

/-- `end`. -/
def atEnd : Checked MapIterator := do
  let lastIndex := u32 (data.valuesCount + 2 ^ 32 - 1)
  let last ← data.valueAt lastIndex
  return ⟨lastIndex, ⟨lastIndex, last.valuesCount⟩⟩

/-- The loop of `operator++`, with at most `n` rounds left. -/
def nextInner : (n : Nat) → MapIterator → Checked MapIterator
  | 0, it => return it
  | n + 1, it => do
      let it := { it with firstLevelIndex := it.firstLevelIndex + 1 }
      if it.firstLevelIndex < data.valuesCount then
        let inner ← data.valueAt it.firstLevelIndex
        let it := { it with nestedIterator := ⟨it.firstLevelIndex, 0⟩ }
        if inner.valuesCount ≠ 0 then
          return it
        else
          nextInner n it
      else
        return it

/-- `operator++`. -/
def next (it : MapIterator) : Checked MapIterator := do
  let nested := { it.nestedIterator with index := u32 (it.nestedIterator.index + 1) }
  let it := { it with nestedIterator := nested }
  if ← nested.isEnd data then
    nextInner data (data.valuesCount - it.firstLevelIndex) it
  else
    return it

/-- `for ( ; it != end; ++it )` with at most `n` rounds, and the pairs that `*it` gave; `none` where the
rounds were not enough. -/
def visitFrom (endIt : MapIterator) : (n : Nat) → MapIterator → Checked (Option (List (K × T)))
  | 0, it => return if it.nestedIterator = endIt.nestedIterator then some [] else none
  | n + 1, it => do
      if it.nestedIterator = endIt.nestedIterator then
        return some []
      else
        let pair ← it.nestedIterator.deref data
        let it ← it.next data
        return (← visitFrom endIt n it).map (pair :: ·)

/-- A loop over the map from `begin()` to `end()`. -/
def visit (n : Nat) : Checked (Option (List (K × T))) := do
  let it ← atBegin data
  let endIt ← atEnd data
  visitFrom data endIt n it

end MapIterator

end

/-! ## Where an iterator stands -/

namespace MapIterator

variable {K T : Type} {data : Vector (Vector (K × T))} {bucket front rest : List (K × T)}
  {buckets before after : List (List (K × T))} {it endIt : MapIterator} {pairs : List (K × T)}
  {pair : K × T}

theorem shelves_read (h : Map.Shelves data (before ++ bucket :: after)) :
    ∃ vector, read data.slots before.length = .ok vector ∧ data.valueAt before.length = .ok vector ∧
      vector.Holds bucket := by
  obtain ⟨vector, hread, hvector, -⟩ := h.focus
  refine ⟨vector, ?_, hread, hvector⟩
  rw [Vector.valueAt] at hread
  have hlt : before.length < data.valuesCount := by
    rw [h.count, length_append, length_cons]
    omega
  rwa [verify_of hlt, ok_bind] at hread

/-- The pairs from the iterator on. Behind the last pair, its first index does not matter. -/
def Remaining (buckets : List (List (K × T))) (it : MapIterator) (pairs : List (K × T)) : Prop :=
  ∃ before front rest after, buckets = before ++ (front ++ rest) :: after ∧
    it.nestedIterator = ⟨before.length, front.length⟩ ∧ pairs = rest ++ after.flatten ∧
    (rest ≠ [] → it.firstLevelIndex = before.length) ∧ (rest = [] → after = [])

theorem nextInner_spec (h : Map.Shelves data buckets) (hbuckets : buckets = before ++ bucket :: after)
    (hfirst : it.firstLevelIndex = before.length)
    (hnested : it.nestedIterator = ⟨before.length, bucket.length⟩) {n : Nat} (hn : after.length < n) :
    ∃ it', nextInner data n it = .ok it' ∧ Remaining buckets it' after.flatten := by
  induction after generalizing before bucket it n with
  | nil =>
    obtain ⟨n, rfl⟩ := Nat.exists_eq_succ_of_ne_zero (Nat.ne_of_gt (Nat.zero_lt_of_lt hn))
    have hcount := h.count
    rw [hbuckets, length_append, List.length_singleton] at hcount
    rw [nextInner, if_neg (by dsimp only; omega)]
    refine ⟨_, rfl, before, bucket, [], [], by rw [hbuckets, List.append_nil], hnested, rfl, ?_, ?_⟩
    · exact fun h => absurd rfl h
    · exact fun _ => rfl
  | cons next after ih =>
    obtain ⟨n, rfl⟩ := Nat.exists_eq_succ_of_ne_zero (Nat.ne_of_gt (Nat.zero_lt_of_lt hn))
    have hcount := h.count
    rw [hbuckets, length_append, length_cons, length_cons] at hcount
    have hbuckets' : buckets = (before ++ [bucket]) ++ next :: after := by simp [hbuckets]
    obtain ⟨vector, -, hvalue, hvector⟩ := shelves_read (hbuckets' ▸ h)
    have hlength : (before ++ [bucket]).length = before.length + 1 := by simp
    rw [hlength] at hvalue
    rw [nextInner, hfirst, if_pos (by dsimp only; omega)]
    rw [hvalue, ok_bind, hvector.count]
    by_cases hempty : next.length ≠ 0
    · rw [if_pos hempty]
      refine ⟨_, rfl, before ++ [bucket], [], next, after, hbuckets', ?_, rfl, ?_, ?_⟩
      · rw [hlength]
        rfl
      · exact fun _ => hlength.symm
      · rintro rfl
        exact absurd rfl hempty
    · obtain rfl : next = [] := List.length_eq_zero_iff.1 (not_not.1 hempty)
      rw [length_cons] at hn
      exact ih hbuckets' hlength.symm (by rw [hlength]; rfl) (by omega)

theorem isEnd_eq (h : Map.Shelves data (before ++ bucket :: after)) (i : Nat) :
    VectorIterator.isEnd data ⟨before.length, i⟩ = .ok (decide (i = bucket.length)) := by
  obtain ⟨vector, hread, -, hvector⟩ := shelves_read h
  rw [VectorIterator.isEnd, hread, ok_bind, hvector.count]
  rfl

theorem deref_eq (h : Map.Shelves data (before ++ (front ++ pair :: rest) :: after)) :
    VectorIterator.deref data ⟨before.length, front.length⟩ = .ok pair := by
  obtain ⟨vector, hread, -, hvector⟩ := shelves_read h
  rw [VectorIterator.deref, isEnd_eq h, ok_bind, verify_of (by simp), ok_bind, hread, ok_bind]
  exact hvector.valueAt

theorem Remaining.step (h : Map.Shelves data buckets) (hit : Remaining buckets it (pair :: pairs)) :
    it.nestedIterator.deref data = .ok pair ∧
      ∃ it', it.next data = .ok it' ∧ Remaining buckets it' pairs := by
  obtain ⟨before, front, rest, after, hbuckets, hnested, hpairs, hfirst, hlast⟩ := hit
  cases rest with
  | nil =>
    rw [hlast rfl] at hpairs
    cases hpairs
  | cons p rest =>
    obtain ⟨rfl, rfl⟩ := List.cons.inj hpairs
    obtain ⟨vector, -, -, hvector⟩ := shelves_read (hbuckets ▸ h)
    have hhere := hfirst (List.cons_ne_nil _ _)
    have hlt : front.length + 1 < 2 ^ 32 := by
      have hcount := hvector.count
      have hle := hvector.count_le
      have hrange := hvector.range
      rw [length_append, length_cons] at hcount
      omega
    refine ⟨hnested ▸ deref_eq (hbuckets ▸ h), ?_⟩
    rw [next, hnested]
    rw [u32_of_lt hlt, isEnd_eq (hbuckets ▸ h), ok_bind]
    by_cases hend : rest = []
    · subst hend
      have hrounds : after.length < data.valuesCount - it.firstLevelIndex := by
        rw [h.count, hbuckets, hhere, length_append, length_cons]
        omega
      rw [if_pos (by simp)]
      have hend' : (⟨before.length, front.length + 1⟩ : VectorIterator) =
          ⟨before.length, (front ++ [pair]).length⟩ := by rw [length_append]; rfl
      rw [hend', hhere] at *
      exact nextInner_spec h hbuckets rfl rfl hrounds
    · rw [if_neg (by simpa using hend)]
      refine ⟨_, rfl, before, front ++ [pair], rest, after, ?_, ?_, rfl, ?_, ?_⟩
      · rw [hbuckets, List.append_assoc, List.singleton_append]
      · rw [length_append]
        rfl
      · exact fun _ => hhere
      · exact fun hnil => absurd hnil hend

theorem atEnd_eq (h : Map.Shelves data (before ++ [bucket])) :
    atEnd data = .ok ⟨before.length, ⟨before.length, bucket.length⟩⟩ := by
  obtain ⟨vector, -, hvalue, hvector⟩ := shelves_read h
  have hcount := h.count
  have hlt : data.valuesCount < 2 ^ 32 := by
    obtain ⟨vectors, hdata, -⟩ := h
    exact Nat.lt_of_le_of_lt hdata.count_le hdata.range
  rw [length_append, List.length_singleton] at hcount
  have hlast : u32 (data.valuesCount + 2 ^ 32 - 1) = before.length := by
    rw [u32_sub (by omega) hlt, hcount, Nat.add_sub_cancel]
  rw [atEnd, hlast, hvalue, ok_bind, hvector.count]
  rfl

section

variable (h : Map.Shelves data buckets) (hit : Remaining buckets it pairs)
  (hend : atEnd data = .ok endIt)
include h hit hend

theorem Remaining.eq_end_iff : it.nestedIterator = endIt.nestedIterator ↔ pairs = [] := by
  obtain ⟨before, front, rest, after, hbuckets, hnested, rfl, -, hlast⟩ := hit
  rw [hnested]
  rcases List.eq_nil_or_concat after with rfl | ⟨after, last, rfl⟩
  · rw [atEnd_eq (hbuckets ▸ h)] at hend
    cases hend
    simp
  · have hsplit : buckets = (before ++ (front ++ rest) :: after) ++ [last] := by simp [hbuckets]
    rw [atEnd_eq (hsplit ▸ h)] at hend
    cases hend
    refine iff_of_false ?_ ?_
    · simp
    · intro hnil
      have hrest := (List.append_eq_nil_iff.1 hnil).1
      simpa using hlast hrest

theorem visitFrom_spec : visitFrom data endIt pairs.length it = .ok (some pairs) := by
  induction pairs generalizing it with
  | nil =>
    rw [List.length_nil, visitFrom, if_pos ((hit.eq_end_iff h hend).2 rfl)]
    rfl
  | cons pair pairs ih =>
    obtain ⟨hderef, it', hnext, hit'⟩ := hit.step h
    rw [length_cons, visitFrom, if_neg (mt (hit.eq_end_iff h hend).1 (List.cons_ne_nil _ _)),
      hderef, ok_bind, hnext, ok_bind, ih hit']
    rfl

end

theorem firstLevelFrom_spec (h : Map.Shelves data buckets) (hbuckets : buckets = before ++ after) :
    (∃ empty b rest, after = empty ++ b :: rest ∧ b ≠ [] ∧ (∀ c ∈ empty, c = []) ∧
        firstLevelFrom data after.length before.length = .ok (before ++ empty).length) ∨
      (∀ b ∈ after, b = []) ∧
        firstLevelFrom data after.length before.length = .ok buckets.length := by
  induction after generalizing before with
  | nil =>
    refine .inr ⟨fun _ hb => absurd hb List.not_mem_nil, ?_⟩
    rw [hbuckets, List.append_nil]
    rfl
  | cons b after ih =>
    obtain ⟨vector, -, hvalue, hvector⟩ := shelves_read (hbuckets ▸ h)
    rw [length_cons, firstLevelFrom, hvalue, ok_bind, hvector.count]
    by_cases hb : b = []
    · subst hb
      have hnext := ih (show buckets = (before ++ [[]]) ++ after by rw [hbuckets]; simp)
      rw [if_neg (by simp)]
      rw [length_append, List.length_singleton] at hnext
      rcases hnext with ⟨empty, c, rest, rfl, hc, hempty, hloop⟩ | ⟨hnone, hloop⟩
      · refine .inl ⟨[] :: empty, c, rest, rfl, hc, by simpa using hempty, ?_⟩
        rw [hloop, List.append_assoc, List.singleton_append]
      · exact .inr ⟨by simpa using hnone, hloop⟩
    · rw [if_pos (by simpa using hb)]
      exact .inl ⟨[], b, after, rfl, hb, by simp, by rw [List.append_nil]; rfl⟩

theorem atBegin_spec (h : Map.Shelves data buckets) :
    (∃ b ∈ buckets, b ≠ []) ∧ (∃ it, atBegin data = .ok it ∧ Remaining buckets it buckets.flatten) ∨
      (∀ b ∈ buckets, b = []) ∧ atBegin data = .error .verify := by
  rw [atBegin, h.count]
  rcases firstLevelFrom_spec h (show buckets = [] ++ buckets from rfl) with
    ⟨empty, b, rest, hbuckets, hb, hempty, hloop⟩ | ⟨hnone, hloop⟩
  · obtain ⟨vector, -, hvalue, -⟩ := shelves_read (hbuckets ▸ h)
    rw [List.length_nil, List.nil_append] at hloop
    rw [hloop, ok_bind, hvalue]
    refine .inl ⟨⟨b, by simp [hbuckets], hb⟩, _, rfl, empty, [], b, rest, hbuckets, rfl, ?_,
      fun _ => rfl, fun hnil => absurd hnil hb⟩
    rw [hbuckets, List.flatten_append, List.flatten_eq_nil_iff.2 hempty]
    rfl
  · rw [List.length_nil] at hloop
    refine .inr ⟨hnone, ?_⟩
    rw [hloop, ok_bind, Vector.valueAt, verify, if_neg (by rw [h.count]; omega)]
    rfl

/-! ## Loops over a map -/

/-- A loop over the map ends and visits each pair once; no `VERIFY` fails and no access is outside of
the buckets. -/
def VisitsAll (data : Vector (Vector (K × T))) (buckets : List (List (K × T))) : Prop :=
  ∃ n pairs, visit data n = .ok (some pairs) ∧ pairs.Perm buckets.flatten

theorem visit_spec (h : Map.Shelves data buckets) (hsome : ∃ b ∈ buckets, b ≠ []) :
    visit data buckets.flatten.length = .ok (some buckets.flatten) := by
  obtain ⟨b, hb, hne⟩ := hsome
  rcases atBegin_spec h with ⟨-, it, hbegin, hit⟩ | ⟨hnone, -⟩
  · obtain ⟨init, last, rfl⟩ := (List.eq_nil_or_concat buckets).resolve_left (List.ne_nil_of_mem hb)
    have hend := atEnd_eq (show Map.Shelves data (init ++ [last]) by simpa using h)
    rw [visit, hbegin, ok_bind, hend, ok_bind]
    exact visitFrom_spec h hit hend
  · exact absurd (hnone b hb) hne

/-- A loop over a map works where some bucket is not empty; `begin()` stops a map without pairs. -/
theorem visitsAll_iff (h : Map.Shelves data buckets) :
    VisitsAll data buckets ↔ ∃ b ∈ buckets, b ≠ [] := by
  constructor
  · rintro ⟨n, pairs, hvisit, -⟩
    rcases atBegin_spec h with ⟨hsome, -⟩ | ⟨-, hbegin⟩
    · exact hsome
    · rw [visit, hbegin] at hvisit
      cases hvisit
  · intro hsome
    exact ⟨_, _, visit_spec h hsome, .refl _⟩

/-- `begin()` of a map with one bucket, which is empty. -/
theorem empty_map_stops :
    ¬ VisitsAll (K := Nat) (T := Nat) ⟨some [some {}], 1, 1⟩ [[]] := by
  rintro ⟨n, pairs, hvisit, -⟩
  cases hvisit

theorem second_bucket_visited : VisitsAll (K := Nat) (T := Nat)
    ⟨some [some {}, some ⟨some [some (5, 7)], 1, 1⟩, some {}], 3, 3⟩ [[], [(5, 7)], []] := by
  have hbucket : (⟨some [some (5, 7)], 1, 1⟩ : Vector (Nat × Nat)).Holds [(5, 7)] :=
    ⟨⟨[], rfl⟩, rfl, rfl, by decide⟩
  have hshelves : Map.Shelves
      ⟨some [some {}, some ⟨some [some (5, 7)], 1, 1⟩, some {}], 3, 3⟩ [[], [(5, 7)], []] :=
    ⟨[{}, ⟨some [some (5, 7)], 1, 1⟩, {}], ⟨⟨[], rfl⟩, rfl, rfl, by decide⟩,
      .cons Vector.holds_empty (.cons hbucket (.cons Vector.holds_empty .nil))⟩
  exact (visitsAll_iff hshelves).2 ⟨[(5, 7)], by simp, by simp⟩

end MapIterator

end LibTC
