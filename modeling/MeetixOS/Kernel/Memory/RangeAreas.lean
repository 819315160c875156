import MeetixOS.Kernel.Memory.AddressRangePool
import MeetixOS.Lib.Runs
import Mathlib.Data.List.Chain

/-! # Pools over several areas

`memory/collections/AddressRangePool.cpp` once more, with `initialize` for areas in any order and the
32-bit arithmetic of the source. The areas lie in the address space, so no sum wraps and the
operations are those on numbers (`Below`); the ranges then always partition the areas
(`ranges_partition_areas`), and no two unused ranges touch, so that a request fails only where there
is no room for it (`allocate_finds_room`). -/

open List (isChain_cons_cons mem_cons mem_cons_self)

namespace MeetixOS.Kernel.AddressRangePool

open Lib

/-! ## The operations -/

/-- `AddressRangePool::merge`, with the walk at `current`. -/
def mergeFrom32 (current : AddressRange) : AddressRangePool → AddressRangePool
  | [] => [current]
  | next :: rest =>
    if !current.used && !next.used &&
        u32 (current.base + u32 (current.pages * pageSize)) = next.base then
      mergeFrom32 { current with pages := u32 (current.pages + next.pages) } rest
    else current :: mergeFrom32 next rest

/-- `AddressRangePool::merge`. -/
def merge32 : AddressRangePool → AddressRangePool
  | [] => []
  | first :: rest => mergeFrom32 first rest

/-- Place a range behind the last one that has a lower base; `none` if there is none. -/
def insertBehind (newRange : AddressRange) : AddressRangePool → Option AddressRangePool
  | [] => none
  | range :: rest =>
    match insertBehind newRange rest with
    | some rest' => some (range :: rest')
    | none => if range.base < newRange.base then some (range :: newRange :: rest) else none

/-- `AddressRangePool::initialize`, of a pool that may have ranges already. -/
def initializeArea (pool : AddressRangePool) (start stop : Nat) : AddressRangePool :=
  let newRange : AddressRange := { base := start, pages := u32 (stop + 2 ^ 32 - start) / pageSize }
  merge32 ((insertBehind newRange pool).getD (newRange :: pool))

/-- The walk of `allocate` to the first unused range with enough pages. -/
def allocateFirst32 (requestedPages flags : Nat) :
    AddressRangePool → Option (AddressRangePool × Nat)
  | [] => none
  | range :: rest =>
    if !range.used && range.pages ≥ requestedPages then
      let remainingPages := s32 (range.pages - requestedPages)
      let taken := { range with used := true, flags }
      if remainingPages > 0 then
        let splinter : AddressRange :=
          { base := u32 (range.base + u32 (requestedPages * pageSize))
            pages := remainingPages.toNat }
        some ({ taken with pages := requestedPages } :: splinter :: rest, range.base)
      else some (taken :: rest, range.base)
    else (allocateFirst32 requestedPages flags rest).map fun (rest, base) => (range :: rest, base)

/-- `AddressRangePool::allocate`, with the base of the range; `none` where the source returns 0 and
leaves the list as it is. -/
def allocate32 (pool : AddressRangePool) (requestedPages flags : Nat) :
    Option (AddressRangePool × Nat) :=
  allocateFirst32 (if requestedPages = 0 then 1 else requestedPages) flags pool

/-- `AddressRangePool::free`, with the number of pages freed; `none` for a pool without ranges, whose
null pointer `first` the source follows. -/
def free32 (pool : AddressRangePool) (base : Nat) : Option (AddressRangePool × Int) :=
  if pool = [] then none
  else
    match pool.find? fun range => range.base = base with
    | some range => some (if range.used then (merge32 (release base pool), range.pages) else (pool, -1))
    | none => some (pool, -1)

/-! ## No sum wraps -/

/-- Ranges on page boundaries, with gaps between them. -/
def gapped (a b : Nat) : Prop := a ≤ b ∧ b % pageSize = 0

/-- The last page boundary of the address space. -/
def lastBoundary : Nat := 2 ^ 32 - pageSize

/-- The ranges lie one behind another in the address space. -/
def Below (pool : AddressRangePool) : Prop := Laid gapped lastBoundary 0 pool

theorem follows_gapped : Follows gapped :=
  ⟨fun ha => ⟨Nat.le_refl _, ha⟩, fun h => h.1, fun h _ => h.2⟩

variable {pool pool' : AddressRangePool} {start : Nat}

theorem u32_stop {base pages : Nat} (h : base + pages * pageSize ≤ lastBoundary) :
    u32 (base + u32 (pages * pageSize)) = base + pages * pageSize := by
  simp only [lastBoundary, pageSize] at *
  rw [u32_of_lt (n := pages * 4096) (by omega), u32_of_lt (by omega)]

theorem mergeFrom32_eq {current : AddressRange} {rest : AddressRangePool}
    (h : Laid gapped lastBoundary start (current :: rest)) :
    mergeFrom32 current rest = mergeFrom current rest := by
  induction rest generalizing current start with
  | nil => rfl
  | cons next rest ih =>
    obtain ⟨hbase, hpages, hnext⟩ := h
    have hstop := hnext.start_le follows_gapped
    have hstop' := hnext.2.2.start_le follows_gapped
    rw [mergeFrom32, mergeFrom, u32_stop hstop]
    split
    next hmerge =>
      simp only [Bool.and_eq_true, Bool.not_eq_true', decide_eq_true_eq] at hmerge
      have hsum : u32 (current.pages + next.pages) = current.pages + next.pages := by
        simp only [lastBoundary, pageSize] at *
        exact u32_of_lt (by omega)
      rw [hsum]
      have hlaid : Laid gapped lastBoundary start
          ({ current with pages := current.pages + next.pages } :: rest) := by
        refine ⟨hbase, Nat.add_pos_left hpages _, ?_⟩
        rw [Nat.add_mul, ← Nat.add_assoc, hmerge.2]
        exact hnext.2.2
      exact ih hlaid
    next => rw [ih hnext]

theorem merge32_eq (h : Laid gapped lastBoundary start pool) : merge32 pool = merge pool := by
  cases pool with
  | nil => rfl
  | cons first rest => exact mergeFrom32_eq h

theorem allocateFirst32_eq (h : Laid gapped lastBoundary start pool) (requestedPages flags : Nat) :
    allocateFirst32 requestedPages flags pool = allocateFirst requestedPages flags pool := by
  induction pool generalizing start with
  | nil => rfl
  | cons range rest ih =>
    have hstop := h.2.2.start_le follows_gapped
    rw [allocateFirst32, allocateFirst, ih h.2.2]
    split
    next hfound =>
      simp only [Bool.and_eq_true, Bool.not_eq_true', ge_iff_le, decide_eq_true_eq] at hfound
      have hremaining : s32 (range.pages - requestedPages) =
          ((range.pages - requestedPages : Nat) : Int) := by
        simp only [lastBoundary, pageSize] at hstop
        rw [Int.ofNat_sub hfound.2]
        exact s32_of_range (by omega) (by omega)
      have hsplinter : u32 (range.base + u32 (requestedPages * pageSize)) =
          range.base + requestedPages * pageSize := by
        refine u32_stop (Nat.le_trans ?_ hstop)
        exact Nat.add_le_add_left (Nat.mul_le_mul_right _ hfound.2) _
      simp only [hremaining, hsplinter, Int.toNat_natCast]
      by_cases hmore : 0 < range.pages - requestedPages
      · simp [hmore]
      · simp [hmore]
    next => rfl

theorem Below.allocate32_eq (h : Below pool) (requestedPages flags : Nat) :
    allocate32 pool requestedPages flags = allocate pool requestedPages flags :=
  allocateFirst32_eq h _ _

theorem Below.free32_eq (h : Below pool) (hne : pool ≠ []) (base : Nat) :
    free32 pool base = some (free pool base) := by
  rw [free32, free, if_neg hne]
  cases hfind : pool.find? fun range => range.base = base with
  | none => rfl
  | some range =>
    simp only
    split
    next hused =>
      have hbase : range.base = base := by simpa using List.find?_some hfind
      have hreleased := (h.release follows_gapped (by rfl) (List.mem_of_find?_eq_some hfind)
        hused).1
      rw [hbase] at hreleased
      rw [merge32_eq hreleased]
    next => rfl

/-! ## Inserting an area -/

/-- The page lies in a range. -/
def Covered (pool : AddressRangePool) (v : Nat) : Prop := ∃ r ∈ pool, r.Covers v

theorem covered_iff {v : Nat} :
    Covered pool v ↔ IsFree pool v ∨ ∃ r ∈ pool, r.used = true ∧ r.Covers v := by
  constructor
  · rintro ⟨r, hr, hv⟩
    cases hused : r.used with
    | false => exact Or.inl ⟨r, hr, hused, hv⟩
    | true => exact Or.inr ⟨r, hr, hused, hv⟩
  · rintro (⟨r, hr, -, hv⟩ | ⟨r, hr, -, hv⟩)
    · exact ⟨r, hr, hv⟩
    · exact ⟨r, hr, hv⟩

theorem insertBehind_eq_none {newRange : AddressRange} (h : ∀ r ∈ pool, newRange.base ≤ r.base) :
    insertBehind newRange pool = none := by
  induction pool with
  | nil => rfl
  | cons range rest ih =>
    have hrest := ih fun r hr => h r (List.mem_cons_of_mem _ hr)
    have hrange := h range mem_cons_self
    simp [insertBehind, hrest, Nat.not_lt.mpr hrange]

theorem stop_le_of_apart {r r' : AddressRange} (hr : r.base % pageSize = 0)
    (hr' : r'.base % pageSize = 0) (hpages' : 0 < r'.pages)
    (hapart : ∀ v, ¬ (r.Covers v ∧ r'.Covers v)) (hlt : r.base < r'.base) :
    r.base + r.pages * pageSize ≤ r'.base := by
  by_contra hlate
  refine hapart (pageOf r'.base) ⟨⟨?_, ?_⟩, ⟨Nat.le_refl _, by omega⟩⟩
  · simp only [pageOf, pageSize] at *
    omega
  · simp only [pageOf, pageSize] at *
    omega

theorem Laid.insertBehind {newRange : AddressRange} (h : Laid gapped lastBoundary start pool)
    (haligned : start % pageSize = 0) (hstart : start ≤ newRange.base)
    (hbase : newRange.base % pageSize = 0) (hpages : 0 < newRange.pages)
    (hstop : newRange.base + newRange.pages * pageSize ≤ lastBoundary)
    (hapart : ∀ r ∈ pool, ∀ v, ¬ (r.Covers v ∧ newRange.Covers v)) :
    Laid gapped lastBoundary start ((insertBehind newRange pool).getD (newRange :: pool)) ∧
      ∀ r, r ∈ (AddressRangePool.insertBehind newRange pool).getD (newRange :: pool) ↔
        r = newRange ∨ r ∈ pool := by
  induction pool generalizing start with
  | nil => exact ⟨⟨⟨hstart, hbase⟩, hpages, ⟨hstop, by decide⟩⟩, fun r => by simp [insertBehind]⟩
  | cons range rest ih =>
    have hrange := h.bounds follows_gapped haligned mem_cons_self
    have haligned' := aligned_add_mul hrange.1 range.pages
    by_cases hlt : range.base < newRange.base
    · have hle := stop_le_of_apart hrange.1 hbase hpages (hapart range mem_cons_self) hlt
      obtain ⟨hlaid, hmem⟩ := ih h.2.2 haligned' hle
        fun r hr => hapart r (List.mem_cons_of_mem _ hr)
      have heq : (AddressRangePool.insertBehind newRange (range :: rest)).getD
          (newRange :: range :: rest) =
          range :: (AddressRangePool.insertBehind newRange rest).getD (newRange :: rest) := by
        rw [AddressRangePool.insertBehind]
        cases AddressRangePool.insertBehind newRange rest with
        | none => simp [hlt]
        | some rest' => simp
      rw [heq]
      refine ⟨⟨h.1, h.2.1, hlaid⟩, fun r => ?_⟩
      rw [mem_cons, hmem r, mem_cons]
      exact or_left_comm
    · -- every range lies behind the new one
      have hbehind : ∀ r ∈ range :: rest, newRange.base ≤ r.base := by
        intro r hr
        have hfirst : range.base ≤ r.base := by
          rcases mem_cons.mp hr with rfl | hr
          · exact Nat.le_refl _
          · have := (h.2.2.bounds follows_gapped haligned' hr).2.1
            omega
        omega
      rw [insertBehind_eq_none hbehind, Option.getD_none]
      refine ⟨⟨⟨hstart, hbase⟩, hpages, ⟨?_, hrange.1⟩, h.2⟩, fun r => mem_cons⟩
      have hne : newRange.base ≠ range.base := by
        intro heq
        refine hapart range mem_cons_self (pageOf range.base) ⟨⟨Nat.le_refl _, by omega⟩, ?_⟩
        rw [← heq]
        exact ⟨Nat.le_refl _, by omega⟩
      refine stop_le_of_apart hbase hrange.1 hrange.2.2.2 ?_ (by omega)
      exact fun v hv => hapart range mem_cons_self v hv.symm

/-! ## Merged ranges -/

/-- Not two unused ranges that touch. -/
def Unmerged (r r' : AddressRange) : Prop :=
  r.used = false ∧ r'.used = false ∧ r.base + r.pages * pageSize = r'.base

/-- No two neighbouring ranges are both unused and touch. -/
def Merged (pool : AddressRangePool) : Prop := pool.IsChain fun r r' => ¬ Unmerged r r'

theorem mergeFrom_head (current : AddressRange) (rest : AddressRangePool) :
    ∃ head tail, mergeFrom current rest = head :: tail ∧ head.base = current.base ∧
      head.used = current.used := by
  induction rest generalizing current with
  | nil => exact ⟨current, [], rfl, rfl, rfl⟩
  | cons next rest ih =>
    rw [mergeFrom]
    split
    next => exact ih _
    next => exact ⟨current, _, rfl, rfl, rfl⟩

theorem merged_mergeFrom (current : AddressRange) (rest : AddressRangePool) :
    Merged (mergeFrom current rest) := by
  induction rest generalizing current with
  | nil => exact List.IsChain.singleton current
  | cons next rest ih =>
    rw [mergeFrom]
    split
    next => exact ih _
    next hapart =>
      obtain ⟨head, tail, heq, hbase, hused⟩ := mergeFrom_head next rest
      have hrest := ih next
      rw [Merged, heq] at hrest ⊢
      refine isChain_cons_cons.mpr ⟨?_, hrest⟩
      rintro ⟨hcurrent, hhead, htouch⟩
      rw [hused] at hhead
      rw [hbase] at htouch
      simp [hcurrent, hhead, htouch] at hapart

theorem merged_merge (pool : AddressRangePool) : Merged (merge pool) := by
  cases pool with
  | nil => exact List.IsChain.nil
  | cons first rest => exact merged_mergeFrom first rest

variable {base flags requestedPages : Nat} {r : AddressRange}

theorem allocateFirst_head (halloc : allocateFirst requestedPages flags pool = some (pool', base)) :
    ∃ head head' tail tail', pool = head :: tail ∧ pool' = head' :: tail' ∧
      head'.base = head.base ∧ (head'.used = false → head.used = false) := by
  cases pool with
  | nil => cases halloc
  | cons range rest =>
    rw [allocateFirst] at halloc
    split at halloc
    next =>
      simp only at halloc
      split at halloc
      · cases halloc
        exact ⟨range, _, rest, _, rfl, rfl, rfl, by simp⟩
      · cases halloc
        exact ⟨range, _, rest, _, rfl, rfl, rfl, by simp⟩
    next =>
      obtain ⟨⟨rest', base'⟩, -, heq⟩ := Option.map_eq_some_iff.mp halloc
      cases heq
      exact ⟨range, range, rest, rest', rfl, rfl, rfl, fun h => h⟩

theorem Merged.allocateFirst (h : Merged pool)
    (halloc : allocateFirst requestedPages flags pool = some (pool', base)) : Merged pool' := by
  induction pool generalizing pool' with
  | nil => cases halloc
  | cons range rest ih =>
    rw [AddressRangePool.allocateFirst] at halloc
    have hrest : Merged rest := h.tail
    split at halloc
    next hfound =>
      simp only [Bool.and_eq_true, Bool.not_eq_true', ge_iff_le, decide_eq_true_eq] at hfound
      simp only at halloc
      split at halloc
      next =>
        cases halloc
        refine isChain_cons_cons.mpr ⟨by simp [Unmerged], ?_⟩
        cases rest with
        | nil => exact List.IsChain.singleton _
        | cons next rest =>
          -- the splinter ends where the range did
          refine isChain_cons_cons.mpr ⟨?_, hrest⟩
          rintro ⟨-, hnext, htouch⟩
          refine (isChain_cons_cons.mp h).1 ⟨hfound.1, hnext, ?_⟩
          rw [← htouch]
          rw [Nat.add_assoc, ← Nat.add_mul, Nat.add_sub_cancel' hfound.2]
      next =>
        cases halloc
        cases rest with
        | nil => exact List.IsChain.singleton _
        | cons next rest => exact isChain_cons_cons.mpr ⟨by simp [Unmerged], hrest⟩
    next =>
      obtain ⟨⟨rest', base'⟩, hrec, heq⟩ := Option.map_eq_some_iff.mp halloc
      cases heq
      have hmerged := ih hrest hrec
      obtain ⟨head, head', tail, tail', rfl, rfl, hbase, hused⟩ := allocateFirst_head hrec
      refine isChain_cons_cons.mpr ⟨?_, hmerged⟩
      rintro ⟨hrange, hhead, htouch⟩
      exact (isChain_cons_cons.mp h).1 ⟨hrange, hused hhead, by rw [htouch, hbase]⟩

theorem Merged.apart (h : Merged pool) (hlaid : Laid gapped lastBoundary start pool)
    (haligned : start % pageSize = 0) {r r' : AddressRange} (hr : r ∈ pool) (hr' : r' ∈ pool) :
    ¬ Unmerged r r' := by
  rintro ⟨hused, hused', htouch⟩
  induction pool generalizing start with
  | nil => cases hr
  | cons first rest ih =>
    have hfirst := hlaid.bounds follows_gapped haligned mem_cons_self
    have haligned' := aligned_add_mul hfirst.1 first.pages
    have hpos := (hlaid.bounds follows_gapped haligned hr).2.2.2
    have hlow : ∀ q ∈ rest, first.base + first.pages * pageSize ≤ q.base :=
      fun q hq => (hlaid.2.2.bounds follows_gapped haligned' hq).2.1
    have hsize : 0 < r.pages * pageSize := Nat.mul_pos hpos (by decide)
    rcases mem_cons.mp hr with rfl | hrest
    · rcases mem_cons.mp hr' with rfl | hr'
      · omega
      · cases rest with
        | nil => cases hr'
        | cons next rest =>
          rcases mem_cons.mp hr' with rfl | hr'
          · exact (isChain_cons_cons.mp h).1 ⟨hused, hused', htouch⟩
          · -- the next range lies between the two
            have hnext := hlaid.2.2.bounds follows_gapped haligned' mem_cons_self
            have hbehind := (hlaid.2.2.2.2.bounds follows_gapped
              (aligned_add_mul hnext.1 next.pages) hr').2.1
            have : 0 < next.pages * pageSize := Nat.mul_pos hnext.2.2.2 (by decide)
            omega
    · rcases mem_cons.mp hr' with rfl | hrest'
      · have := hlow r hrest
        omega
      · exact ih h.tail hlaid.2.2 haligned' hrest hrest'

theorem Merged.run_in_range (h : Merged pool) (hbelow : Below pool) {v n : Nat}
    (hfree : ∀ i ≤ n, IsFree pool (v + i)) :
    ∃ r ∈ pool, r.used = false ∧ r.Covers v ∧ r.Covers (v + n) := by
  induction n with
  | zero =>
    obtain ⟨r, hr, hused, hv⟩ := hfree 0 (Nat.le_refl _)
    exact ⟨r, hr, hused, hv, hv⟩
  | succ n ih =>
    obtain ⟨r, hr, hused, hv, hlast⟩ := ih fun i hi => hfree i (by omega)
    obtain ⟨r', hr', hused', hnext⟩ := hfree (n + 1) (Nat.le_refl _)
    by_cases hin : r.Covers (v + (n + 1))
    · exact ⟨r, hr, hused, hv, hin⟩
    · exfalso
      have hbase := (hbelow.bounds follows_gapped (by rfl) hr).1
      have hbase' := (hbelow.bounds follows_gapped (by rfl) hr').1
      have hne : ¬ r'.Covers (v + n) := by
        intro hboth
        rw [hbelow.unique follows_gapped (by rfl) hr' hr hboth hlast] at hnext
        exact hin hnext
      refine h.apart hbelow (by rfl) hr hr' ⟨hused, hused', ?_⟩
      simp only [AddressRange.Covers, pageOf, pageSize] at *
      omega

theorem allocateFirst_eq_none (halloc : allocateFirst requestedPages flags pool = none)
    (hr : r ∈ pool) (hused : r.used = false) : r.pages < requestedPages := by
  induction pool with
  | nil => cases hr
  | cons range rest ih =>
    rw [allocateFirst] at halloc
    split at halloc
    next =>
      simp only at halloc
      split at halloc <;> cases halloc
    next hsmall =>
      rcases mem_cons.mp hr with rfl | hr
      · simpa [hused] using hsmall
      · exact ih (Option.map_eq_none_iff.mp halloc) hr

/-! ## The areas -/

/-- An area that a pool is built over: whole pages, at least one. -/
structure Area where
  start : Nat
  stop : Nat
  start_aligned : start % pageSize = 0
  stop_aligned : stop % pageSize = 0
  nonempty : start < stop
  stop_lt : stop < 2 ^ 32

/-- The page lies in the area. -/
def Area.Covers (a : Area) (v : Nat) : Prop := pageOf a.start ≤ v ∧ v < pageOf a.stop

theorem Area.covers_start (a : Area) : a.Covers (pageOf a.start) := by
  obtain ⟨start, stop, hstart, hstop, hlt, -⟩ := a
  simp only [Area.Covers, pageOf]
  simp only [pageSize] at *
  omega

/-- The areas have no page in common. -/
def Area.Apart (a b : Area) : Prop := ∀ v, ¬ (a.Covers v ∧ b.Covers v)

theorem Area.apart_iff {a b : Area} : a.Apart b ↔ a.stop ≤ b.start ∨ b.stop ≤ a.start := by
  obtain ⟨start, stop, hstart, hstop, hlt, -⟩ := a
  obtain ⟨start', stop', hstart', hstop', hlt', -⟩ := b
  simp only [Area.Apart, Area.Covers, pageOf]
  simp only [pageSize] at *
  constructor
  · intro h
    have hmax := h (max (start / 4096) (start' / 4096))
    omega
  · intro h v hv
    omega

instance (a b : Area) : Decidable (a.Apart b) := decidable_of_iff _ Area.apart_iff.symm

/-- The pool over the areas, initialized one by one. -/
def initializeAreas (areas : List Area) : AddressRangePool :=
  areas.foldl (fun pool a => initializeArea pool a.start a.stop) []

/-- The range that `initialize` makes of an area. -/
def Area.range (a : Area) : AddressRange := { base := a.start, pages := (a.stop - a.start) / pageSize }

theorem Area.range_spec (a : Area) :
    0 < a.range.pages ∧ a.range.base + a.range.pages * pageSize ≤ lastBoundary ∧
      ∀ v, a.range.Covers v ↔ a.Covers v := by
  obtain ⟨start, stop, hstart, hstop, hlt, hmax⟩ := a
  simp only [Area.range, Area.Covers, AddressRange.Covers, lastBoundary, pageOf]
  simp only [pageSize] at hstart hstop ⊢
  refine ⟨by omega, by omega, fun v => ?_⟩
  omega

theorem initializeArea_eq (pool : AddressRangePool) (a : Area) :
    initializeArea pool a.start a.stop =
      merge32 ((insertBehind a.range pool).getD (a.range :: pool)) := by
  have hpages := u32_sub (Nat.le_of_lt a.nonempty) a.stop_lt
  simp only [initializeArea, hpages, Area.range]

/-! ## Runs -/

/-- A pool in use. `live` records the ranges that were handed out and not yet freed. -/
structure PoolState where
  ranges : AddressRangePool
  live : List AddressRange

inductive PoolCall where
  | allocate (requestedPages flags : Nat)
  | free (base : Nat)

/-- The range that an allocation hands out. -/
def handedOut (requestedPages flags base : Nat) : AddressRange :=
  { used := true, base, pages := max requestedPages 1, flags }

def PoolState.step (s : PoolState) : PoolCall → Option PoolState
  | .allocate requestedPages flags =>
    match allocate32 s.ranges requestedPages flags with
    | none => s
    | some (ranges, base) =>
      some ⟨ranges, handedOut requestedPages flags base :: s.live⟩
  | .free base =>
    (free32 s.ranges base).map fun (ranges, _) => ⟨ranges, s.live.filter fun r => r.base ≠ base⟩

/-- The runs of a pool over the areas. -/
def poolSystem (areas : List Area) : System PoolState PoolCall where
  init s := s = ⟨initializeAreas areas, []⟩
  step s call := s.step call

/-- The invariant: the ranges lie in order, cover the pages of the areas, are merged, and the used ones
are those handed out. -/
structure PoolInv (covers : Nat → Prop) (s : PoolState) : Prop where
  below : Below s.ranges
  covered : ∀ v, Covered s.ranges v ↔ covers v
  merged : Merged s.ranges
  used : ∀ r ∈ s.live, r.used = true
  live : ∀ r : AddressRange, r.used = true → (r ∈ s.ranges ↔ r ∈ s.live)

variable {areas : List Area} {s s' : PoolState} {covers : Nat → Prop}

theorem PoolInv.initializeArea (h : PoolInv covers s) (a : Area)
    (hapart : ∀ v, ¬ (covers v ∧ a.Covers v)) :
    PoolInv (fun v => covers v ∨ a.Covers v)
      { s with ranges := initializeArea s.ranges a.start a.stop } := by
  obtain ⟨hpages, hstop, hcovers⟩ := a.range_spec
  have hdisjoint : ∀ r ∈ s.ranges, ∀ v, ¬ (r.Covers v ∧ a.range.Covers v) := by
    rintro r hr v ⟨hv, hnew⟩
    exact hapart v ⟨(h.covered v).mp ⟨r, hr, hv⟩, (hcovers v).mp hnew⟩
  obtain ⟨hlaid, hmem⟩ := h.below.insertBehind (by rfl) (Nat.zero_le _) a.start_aligned hpages hstop
    hdisjoint
  rw [initializeArea_eq, merge32_eq hlaid]
  generalize (insertBehind a.range s.ranges).getD (a.range :: s.ranges) = inserted at hlaid hmem
  have hcovered : ∀ v, Covered inserted v ↔ covers v ∨ a.Covers v := by
    intro v
    rw [← h.covered v, ← hcovers v]
    simp only [Covered, hmem, or_and_right, exists_or, exists_eq_left]
    exact or_comm
  -- the new range is unused
  have hlive : ∀ r : AddressRange, r.used = true → (r ∈ inserted ↔ r ∈ s.live) := by
    intro r hr
    rw [hmem r, h.live r hr, or_iff_right]
    rintro rfl
    cases hr
  cases inserted with
  | nil => exact ⟨hlaid, hcovered, List.IsChain.nil, h.used, hlive⟩
  | cons first rest =>
    obtain ⟨hmerged, hused, hfree⟩ := hlaid.mergeFrom follows_gapped (by rfl)
    refine ⟨hmerged, fun v => ?_, merged_mergeFrom first rest, h.used,
      fun r hr => (hused r hr).trans (hlive r hr)⟩
    rw [← hcovered v, covered_iff, covered_iff]
    refine or_congr (hfree v) (exists_congr fun r => ?_)
    constructor
    · rintro ⟨hr, htrue, hv⟩
      exact ⟨(hused r htrue).mp hr, htrue, hv⟩
    · rintro ⟨hr, htrue, hv⟩
      exact ⟨(hused r htrue).mpr hr, htrue, hv⟩

theorem poolInv_empty : PoolInv (fun _ => False) ⟨[], []⟩ :=
  ⟨⟨Nat.zero_le _, by decide⟩, by simp [Covered], List.IsChain.nil, by simp, by simp⟩

theorem PoolInv.initializeAreas (h : PoolInv covers ⟨pool, []⟩) (hareas : areas.Pairwise Area.Apart)
    (hapart : ∀ a ∈ areas, ∀ v, ¬ (covers v ∧ a.Covers v)) :
    PoolInv (fun v => covers v ∨ ∃ a ∈ areas, a.Covers v)
      ⟨areas.foldl (fun pool a => AddressRangePool.initializeArea pool a.start a.stop) pool, []⟩ := by
  induction areas generalizing pool covers with
  | nil => simpa using h
  | cons a areas ih =>
    obtain ⟨hfirst, hrest⟩ := List.pairwise_cons.mp hareas
    have hbuilt := h.initializeArea a (hapart a mem_cons_self)
    have hall := ih hbuilt hrest ?_
    · simpa only [List.foldl_cons, mem_cons, or_assoc, or_and_right, exists_or,
        exists_eq_left] using hall
    · rintro b hb v ⟨hv | hv, hbv⟩
      · exact hapart b (List.mem_cons_of_mem _ hb) v ⟨hv, hbv⟩
      · exact hfirst b hb v ⟨hv, hbv⟩

theorem PoolInv.allocate_spec (h : PoolInv covers s)
    (halloc : allocate32 s.ranges requestedPages flags = some (pool', base)) :
    Below pool' ∧ Merged pool' ∧
      Allocated s.ranges pool' (handedOut requestedPages flags base) := by
  rw [h.below.allocate32_eq] at halloc
  obtain ⟨hbelow, hallocated⟩ := h.below.allocate_spec follows_gapped (by rfl) halloc
  have hpages : (if requestedPages = 0 then 1 else requestedPages) = max requestedPages 1 := by
    split <;> omega
  rw [hpages] at hallocated
  exact ⟨hbelow, h.merged.allocateFirst halloc, hallocated⟩

theorem PoolInv.free_cases (h : PoolInv covers s) (hne : s.ranges ≠ []) (base : Nat) :
    ∃ ranges pages, free32 s.ranges base = some (ranges, pages) ∧
      ((∃ r ∈ s.live, r.base = base ∧ pages = r.pages ∧ Below ranges ∧ Merged ranges ∧
          Freed s.ranges ranges r) ∨
        ((∀ r ∈ s.live, r.base ≠ base) ∧ ranges = s.ranges ∧ pages = -1)) := by
  by_cases hlive : ∃ r ∈ s.live, r.base = base
  · obtain ⟨r, hr, rfl⟩ := hlive
    have hused := h.used r hr
    have hmem := (h.live r hused).mpr hr
    obtain ⟨hbelow, hfreed⟩ := h.below.free_spec follows_gapped (by rfl) hmem hused
    refine ⟨(free s.ranges r.base).1, (free s.ranges r.base).2, h.below.free32_eq hne r.base,
      Or.inl ⟨r, hr, rfl, ?_, hbelow, ?_, hfreed⟩⟩
    · rw [AddressRangePool.free, h.below.find_eq_some follows_gapped (by rfl) hmem]
      simp [hused]
    · rw [AddressRangePool.free, h.below.find_eq_some follows_gapped (by rfl) hmem]
      simp only [hused, if_true]
      exact merged_merge _
  · push Not at hlive
    refine ⟨s.ranges, -1, ?_, Or.inr ⟨hlive, rfl, rfl⟩⟩
    rw [free32, if_neg hne]
    cases hfind : s.ranges.find? fun range => range.base = base with
    | none => rfl
    | some range =>
      have hbase : range.base = base := by simpa using List.find?_some hfind
      have hunused : range.used = false := by
        by_contra hused
        have htrue : range.used = true := by simpa using hused
        exact hlive range ((h.live range htrue).mp (List.mem_of_find?_eq_some hfind)) hbase
      simp [hunused]

theorem PoolInv.step (h : PoolInv covers s) {call : PoolCall} (hstep : s.step call = some s') :
    PoolInv covers s' := by
  cases call with
  | allocate requestedPages flags =>
    rw [PoolState.step] at hstep
    cases halloc : allocate32 s.ranges requestedPages flags with
    | none =>
      rw [halloc] at hstep
      exact Option.some.inj hstep ▸ h
    | some result =>
      obtain ⟨ranges, base⟩ := result
      rw [halloc] at hstep
      obtain rfl := Option.some.inj hstep
      obtain ⟨hbelow, hmerged, hallocated⟩ := h.allocate_spec halloc
      refine ⟨hbelow, fun v => ?_, hmerged, ?_, fun r hr => ?_⟩
      · rw [← h.covered v, covered_iff, covered_iff, hallocated.free v]
        constructor
        · rintro (hv | ⟨r, hr, hused, hv⟩)
          · exact Or.inl hv.1
          · rcases (hallocated.used r hused).mp hr with hr | rfl
            · exact Or.inr ⟨r, hr, hused, hv⟩
            · exact Or.inl (hallocated.fresh v hv)
        · intro hv
          by_cases htaken : (handedOut requestedPages flags base).Covers v
          · exact Or.inr ⟨_, hallocated.mem, rfl, htaken⟩
          · rcases hv with hv | ⟨r, hr, hused, hv⟩
            · exact Or.inl ⟨hv, htaken⟩
            · exact Or.inr ⟨r, (hallocated.used r hused).mpr (Or.inl hr), hused, hv⟩
      · intro r hr
        rcases mem_cons.mp hr with rfl | hr
        · rfl
        · exact h.used r hr
      · rw [hallocated.used r hr, h.live r hr, mem_cons]
        exact or_comm
  | free base =>
    obtain ⟨⟨ranges, pages⟩, hfree, rfl⟩ := Option.map_eq_some_iff.mp hstep
    have hne : s.ranges ≠ [] := by
      intro hempty
      rw [free32, if_pos hempty] at hfree
      cases hfree
    obtain ⟨ranges', pages', hfree', hcases⟩ := h.free_cases hne base
    rw [hfree', Option.some.injEq, Prod.mk.injEq] at hfree
    obtain ⟨rfl, rfl⟩ := hfree
    rcases hcases with ⟨freed, hfreed, rfl, -, hbelow, hmerged, hfreedSpec⟩ | ⟨hnone, rfl, -⟩
    · refine ⟨hbelow, fun v => ?_, hmerged, ?_, fun r hr => ?_⟩
      · have hmem := (h.live freed (h.used freed hfreed)).mpr hfreed
        rw [← h.covered v, covered_iff, covered_iff, hfreedSpec.free v]
        constructor
        · rintro ((hv | hv) | ⟨r, hr, hused, hv⟩)
          · exact Or.inl hv
          · exact Or.inr ⟨freed, hmem, h.used freed hfreed, hv⟩
          · exact Or.inr ⟨r, ((hfreedSpec.used r hused).mp hr).1, hused, hv⟩
        · rintro (hv | ⟨r, hr, hused, hv⟩)
          · exact Or.inl (Or.inl hv)
          · by_cases heq : r = freed
            · exact Or.inl (Or.inr (heq ▸ hv))
            · exact Or.inr ⟨r, (hfreedSpec.used r hused).mpr ⟨hr, heq⟩, hused, hv⟩
      · exact fun r hr => h.used r (List.mem_of_mem_filter hr)
      · rw [hfreedSpec.used r hr, h.live r hr, List.mem_filter]
        refine and_congr_right fun hlive => ?_
        have hunique := h.below.eq_of_base follows_gapped (by rfl) ((h.live r hr).mpr hlive)
            ((h.live freed (h.used freed hfreed)).mpr hfreed)
        constructor
        · exact fun hne => by simpa using fun hbase => hne (hunique hbase)
        · rintro hne rfl
          simp at hne
    · have hlive : (s.live.filter fun r => r.base ≠ base) = s.live := by
        rw [List.filter_eq_self]
        exact fun r hr => by simpa using hnone r hr
      simpa only [hlive] using h

theorem poolInv_of_reachable (hareas : areas.Pairwise Area.Apart)
    (hs : (poolSystem areas).Reachable (fun _ _ => True) s) :
    PoolInv (fun v => ∃ a ∈ areas, a.Covers v) s := by
  refine hs.invariant ?_ fun s call s' h _ hstep => h.step hstep
  rintro s rfl
  simpa [initializeAreas] using poolInv_empty.initializeAreas hareas (by simp)

/-! ## What a pool does -/

/-- The ranges are sorted, have no page in common, and make up the areas. -/
structure PoolState.Partitions (areas : List Area) (s : PoolState) : Prop where
  sorted : s.ranges.Pairwise fun r r' => r.base < r'.base
  disjoint : s.ranges.Pairwise fun r r' => ∀ v, ¬ (r.Covers v ∧ r'.Covers v)
  union : ∀ v, Covered s.ranges v ↔ ∃ a ∈ areas, a.Covers v

/-- An allocation hands out pages that were free, and takes no others. -/
def PoolState.Allocates (s : PoolState) (requestedPages flags : Nat) : Prop :=
  ∀ ranges base, allocate32 s.ranges requestedPages flags = some (ranges, base) →
    Allocated s.ranges ranges (handedOut requestedPages flags base)

/-- `free` gives back the range that was handed out with this base; otherwise it changes nothing. -/
def PoolState.Frees (s : PoolState) (base : Nat) : Prop :=
  ∃ ranges pages, free32 s.ranges base = some (ranges, pages) ∧
    ((∃ r ∈ s.live, r.base = base ∧ pages = r.pages ∧ Freed s.ranges ranges r) ∨
      ((∀ r ∈ s.live, r.base ≠ base) ∧ ranges = s.ranges ∧ pages = -1))

theorem Below.pairwise (h : Laid gapped lastBoundary start pool) (haligned : start % pageSize = 0) :
    pool.Pairwise (fun r r' => r.base < r'.base) ∧
      pool.Pairwise fun r r' => ∀ v, ¬ (r.Covers v ∧ r'.Covers v) := by
  induction pool generalizing start with
  | nil => exact ⟨List.Pairwise.nil, List.Pairwise.nil⟩
  | cons first rest ih =>
    have hfirst := h.bounds follows_gapped haligned mem_cons_self
    have haligned' := aligned_add_mul hfirst.1 first.pages
    obtain ⟨hsorted, hdisjoint⟩ := ih h.2.2 haligned'
    refine ⟨List.pairwise_cons.mpr ⟨fun r hr => ?_, hsorted⟩,
      List.pairwise_cons.mpr ⟨fun r hr v hv => ?_, hdisjoint⟩⟩
    · have hlow := (h.2.2.bounds follows_gapped haligned' hr).2.1
      have hsize : 0 < first.pages * pageSize := Nat.mul_pos hfirst.2.2.2 (by decide)
      omega
    · have hbehind := h.not_covers_tail follows_gapped haligned hr hv.2
      exact absurd hv.1.2 (Nat.not_lt.mpr hbehind)

/-- Over every run, the ranges partition the areas, and the calls hand out and take back whole ranges. -/
theorem ranges_partition_areas (areas : List Area) (hne : areas ≠ [])
    (hareas : areas.Pairwise Area.Apart) {s : PoolState}
    (hs : (poolSystem areas).Reachable (fun _ _ => True) s) :
    s.Partitions areas ∧ (∀ requestedPages flags, s.Allocates requestedPages flags) ∧
      ∀ base, s.Frees base := by
  have hinv := poolInv_of_reachable hareas hs
  obtain ⟨hsorted, hdisjoint⟩ := Below.pairwise hinv.below (by rfl)
  refine ⟨⟨hsorted, hdisjoint, hinv.covered⟩, fun n flags ranges base halloc => ?_, fun base => ?_⟩
  · exact (hinv.allocate_spec halloc).2.2
  · obtain ⟨a, ha⟩ := List.exists_mem_of_ne_nil areas hne
    obtain ⟨r, hr, -⟩ := (hinv.covered _).mpr ⟨a, ha, a.covers_start⟩
    obtain ⟨ranges, pages, hfree, hcases⟩ := hinv.free_cases (List.ne_nil_of_mem hr) base
    refine ⟨ranges, pages, hfree, hcases.imp_left ?_⟩
    rintro ⟨r, hr, hbase, hpages, -, -, hfreed⟩
    exact ⟨r, hr, hbase, hpages, hfreed⟩

/-- Two areas, the higher one first. -/
def twoAreas : List Area :=
  [⟨0x8000, 0xA000, by decide, by decide, by decide, by decide⟩,
    ⟨0x1000, 0x4000, by decide, by decide, by decide, by decide⟩]

theorem twoAreas_apart : twoAreas.Pairwise Area.Apart := by decide

theorem ranges_partition_two_areas :
    ∃ s, (poolSystem twoAreas).run ⟨initializeAreas twoAreas, []⟩
        [.allocate 2 0, .allocate 2 7, .free 0x1000, .free 0x2000] = some s ∧
      s.ranges = [{ base := 0x1000, pages := 3 }, { used := true, base := 0x8000, pages := 2, flags := 7 }] ∧
      s.Partitions twoAreas := by
  obtain ⟨s, hs, hranges⟩ : ∃ s ∈ (poolSystem twoAreas).run ⟨initializeAreas twoAreas, []⟩
      [.allocate 2 0, .allocate 2 7, .free 0x1000, .free 0x2000], s.ranges =
        [{ base := 0x1000, pages := 3 }, { used := true, base := 0x8000, pages := 2, flags := 7 }] := by
    decide +kernel
  have hreach := System.reachable_of_run rfl hs
  exact ⟨s, hs, hranges, (ranges_partition_areas twoAreas (by decide) twoAreas_apart hreach).1⟩

/-! ## Pools that are given more areas -/

/-- What `AddressRangePool::allocate` returns. -/
def returned (pool : AddressRangePool) (requestedPages flags : Nat) : Nat :=
  ((allocate32 pool requestedPages flags).map Prod.snd).getD 0

/-- A call, or another area. -/
inductive PoolEvent where
  | initializeArea (area : Area)
  | call (call : PoolCall)

/-- A pool, with the areas it was given so far. -/
structure GrowingPool where
  areas : List Area
  pool : PoolState

/-- The runs of a pool that is empty at first. -/
def growingPool : System GrowingPool PoolEvent where
  init s := s = ⟨[], [], []⟩
  step s
    | .initializeArea area => some
        ⟨area :: s.areas, { s.pool with ranges := initializeArea s.pool.ranges area.start area.stop }⟩
    | .call call => (s.pool.step call).map (GrowingPool.mk s.areas)

/-- An area does not start at the address 0, and is apart from those before. -/
def GrowingPool.Takes (s : GrowingPool) : PoolEvent → Prop
  | .initializeArea area => 0 < area.start ∧ ∀ a ∈ s.areas, a.Apart area
  | .call _ => True

theorem growingPool_inv {s : GrowingPool} (hs : growingPool.Reachable GrowingPool.Takes s) :
    PoolInv (fun v => ∃ a ∈ s.areas, a.Covers v) s.pool ∧ ∀ a ∈ s.areas, 0 < a.start := by
  refine hs.invariant
    (I := fun s => PoolInv (fun v => ∃ a ∈ s.areas, a.Covers v) s.pool ∧ ∀ a ∈ s.areas, 0 < a.start)
    ?_ ?_
  · rintro s rfl
    exact ⟨by simpa using poolInv_empty, by simp⟩
  · rintro s event s' ⟨h, hstart⟩ htakes hstep
    cases event with
    | initializeArea area =>
      cases hstep
      refine ⟨?_, List.forall_mem_cons.mpr ⟨htakes.1, hstart⟩⟩
      have hgrown := h.initializeArea area fun v ⟨⟨a, ha, hv⟩, hv'⟩ => htakes.2 a ha v ⟨hv, hv'⟩
      simpa [or_comm] using hgrown
    | call call =>
      obtain ⟨pool, hcall, rfl⟩ := Option.map_eq_some_iff.mp hstep
      exact ⟨h.step hcall, hstart⟩

/-- Over every run, no two neighbouring ranges are both free and touch, and a request is refused only
where the pool has no such run of free pages. -/
theorem allocate_finds_room {s : GrowingPool} (hs : growingPool.Reachable GrowingPool.Takes s) :
    Merged s.pool.ranges ∧
      ∀ requestedPages flags, returned s.pool.ranges requestedPages flags = 0 →
        ¬ ∃ v, ∀ i < max requestedPages 1, IsFree s.pool.ranges (v + i) := by
  obtain ⟨hinv, hstart⟩ := growingPool_inv hs
  refine ⟨hinv.merged, ?_⟩
  rintro requestedPages flags hreturned ⟨v, hfree⟩
  cases halloc : allocate32 s.pool.ranges requestedPages flags with
  | none =>
    obtain ⟨r, hr, hused, hfirst, hlast⟩ := hinv.merged.run_in_range hinv.below
      (n := max requestedPages 1 - 1) fun i hi => hfree i (by omega)
    rw [hinv.below.allocate32_eq] at halloc
    have hsmall := allocateFirst_eq_none halloc hr hused
    simp only [AddressRange.Covers] at hfirst hlast
    split at hsmall <;> omega
  | some result =>
    -- a range that is handed out lies in an area, so its base is not 0
    obtain ⟨ranges, base⟩ := result
    have hbase : base = 0 := by simpa [returned, halloc] using hreturned
    have htaken : (handedOut requestedPages flags base).Covers (pageOf base) :=
      ⟨Nat.le_refl _, by simp only [handedOut]; omega⟩
    have hcovered := covered_iff.mpr (Or.inl ((hinv.allocate_spec halloc).2.2.fresh _ htaken))
    obtain ⟨a, ha, hlow, -⟩ := (hinv.covered _).mp hcovered
    have hpos := hstart a ha
    have haligned := a.start_aligned
    simp only [hbase, pageOf, pageSize] at hlow haligned
    omega

instance (s : GrowingPool) (event : PoolEvent) : Decidable (s.Takes event) :=
  match event with
  | .initializeArea area => inferInstanceAs (Decidable (0 < area.start ∧ ∀ a ∈ s.areas, a.Apart area))
  | .call _ => isTrue trivial

theorem allocate_finds_room_two_areas :
    ∃ s, growingPool.Reachable GrowingPool.Takes s ∧ returned s.pool.ranges 3 0 = 0 ∧
      ¬ ∃ v, ∀ i < 3, IsFree s.pool.ranges (v + i) := by
  obtain ⟨s, hs, hreturned⟩ : ∃ s ∈ growingPool.runGuarded GrowingPool.Takes ⟨[], [], []⟩
      [.initializeArea twoAreas[0], .call (.allocate 1 7), .initializeArea twoAreas[1],
        .call (.allocate 1 0), .call (.free 0x8000)], returned s.pool.ranges 3 0 = 0 := by
    decide +kernel
  have hreach := System.Reachable.of_runGuarded (.init rfl) hs
  exact ⟨s, hreach, hreturned, (allocate_finds_room hreach).2 3 0 hreturned⟩

end MeetixOS.Kernel.AddressRangePool
