import MeetixOS.Kernel.Types
import MeetixOS.Lib.Runs
import Mathlib.Algebra.Order.BigOperators.Group.List
import Mathlib.Algebra.Order.Ring.Nat
import Mathlib.Data.List.Perm.Subperm

/-! # The chunk allocator

`memory/allocators/ChunkAllocator.cpp`: a heap as a list of chunks, each with its header in front.
`memory` gives the header that is read at an address; a pointer is an address with 0 for null, and all
sums wrap at 32 bits. A walk has `walkLimit` steps, more than there can be chunks; `none` is a walk that
does not end. `Chunks` relates the headers to a list of chunks that fill the area one behind another. -/

open Function (update update_of_ne update_self)
open Option (map_some)
open List (cons_append length_cons mem_cons mem_cons_self)

namespace MeetixOS.Kernel

open Lib

/-! ## The source -/

structure ChunkHeader where
  next : Nat
  used : Bool
  size : Nat
  deriving DecidableEq

def sizeofChunkHeader : Nat := 12

def chunkAllocatorMinimumAllocationSize : Nat := 8

/-- The headers in memory. -/
abbrev ChunkMemory := Nat → ChunkHeader

/-- As many steps as there are addresses. -/
def walkLimit : Nat := 2 ^ 32

/-- `ChunkAllocator`, with the memory it is in. -/
structure ChunkAllocator where
  first : Nat
  memory : ChunkMemory

namespace ChunkAllocator

/-- The loop of `merge`, at `current`. -/
def mergeLoop : Nat → ChunkMemory → Nat → Option ChunkMemory
  | 0, _, _ => none
  | fuel + 1, memory, current =>
    let header := memory current
    if header.next ≠ 0 then
      let next := memory header.next
      if !header.used && !next.used then
        let merged :=
          { header with size := u32 (header.size + u32 (sizeofChunkHeader + next.size))
                        next := next.next }
        mergeLoop fuel (update memory current merged) current
      else mergeLoop fuel memory header.next
    else some memory

def merge (a : ChunkAllocator) : Option ChunkAllocator :=
  (mergeLoop walkLimit a.memory a.first).map fun memory => { a with memory }

/-- `initialize`. -/
def initializeChunks (memory : ChunkMemory) (start stop : Nat) : ChunkAllocator where
  first := start
  memory := update memory start
    { next := 0, used := false, size := u32 (stop + 2 ^ 32 - start + 2 ^ 32 - sizeofChunkHeader) }

/-- The walk of `expand` to the last chunk. -/
def lastChunk : Nat → ChunkMemory → Nat → Option Nat
  | 0, _, _ => none
  | fuel + 1, memory, last =>
    if (memory last).next ≠ 0 then lastChunk fuel memory (memory last).next else some last

def expand (a : ChunkAllocator) (size : Nat) : Option ChunkAllocator :=
  (lastChunk walkLimit a.memory a.first).bind fun last =>
    let appendix := u32 (last + sizeofChunkHeader + (a.memory last).size)
    let memory := update a.memory appendix
      { next := 0, used := false, size := u32 (size + 2 ^ 32 - sizeofChunkHeader) }
    merge { a with memory := update memory last { memory last with next := appendix } }

/-- The walk of `allocate` to a chunk that is large enough, and its split. The pointer is 0 where there
is none. -/
def allocateLoop (size : Nat) : Nat → ChunkMemory → Nat → Option (ChunkMemory × Nat)
  | 0, _, _ => none
  | fuel + 1, memory, current =>
    let header := memory current
    if !header.used && header.size ≥ u32 (size + sizeofChunkHeader) then
      let splinter := u32 (current + sizeofChunkHeader + size)
      let memory := update memory splinter
        { next := header.next
          used := false
          size := u32 (header.size + 2 ^ 32 - size + 2 ^ 32 - sizeofChunkHeader) }
      let memory := update memory current { next := splinter, used := true, size }
      some (memory, u32 (current + sizeofChunkHeader))
    else if header.next ≠ 0 then allocateLoop size fuel memory header.next
    else some (memory, 0)

def allocate (a : ChunkAllocator) (size : Nat) : Option (ChunkAllocator × Nat) :=
  if a.first = 0 then some (a, 0)
  else
    (allocateLoop (max size chunkAllocatorMinimumAllocationSize) walkLimit a.memory a.first).map
      fun r => ({ a with memory := r.1 }, r.2)

/-- `free`, with the size freed. -/
def free (a : ChunkAllocator) (mem : Nat) : Option (ChunkAllocator × Nat) :=
  if a.first = 0 then some (a, 0)
  else
    let blockHeader := u32 (mem + 2 ^ 32 - sizeofChunkHeader)
    let memory := update a.memory blockHeader { a.memory blockHeader with used := false }
    (merge { a with memory }).map fun a => (a, (memory blockHeader).size)

end ChunkAllocator

/-! ## Chunks one behind another -/

/-- A chunk: where its header is, whether it is in use, and its size. -/
structure Chunk where
  address : Nat
  used : Bool
  size : Nat
  deriving DecidableEq

/-- Where the next chunk starts. -/
def Chunk.stop (c : Chunk) : Nat := c.address + sizeofChunkHeader + c.size

/-- The headers from `start` on lead along the chunks, and the last one stops at `stop`. -/
def Chunks (memory : ChunkMemory) (stop : Nat) : Nat → List Chunk → Prop
  | start, [] => start = stop
  | start, c :: rest =>
    c.address = start ∧
      memory start = ⟨if rest = [] then 0 else c.stop, c.used, c.size⟩ ∧
      Chunks memory stop c.stop rest

variable {memory memory' : ChunkMemory} {start stop : Nat} {chunks : List Chunk}

variable {c : Chunk}

section

variable (h : Chunks memory stop start chunks)
include h

theorem Chunks.bounds (hc : c ∈ chunks) : start ≤ c.address ∧ c.stop ≤ stop := by
  have hle : ∀ (chunks : List Chunk) (start : Nat), Chunks memory stop start chunks →
      start ≤ stop := by
    intro chunks
    induction chunks with
    | nil => exact fun start h => Nat.le_of_eq h
    | cons c rest ih =>
      intro start h
      have := ih _ h.2.2
      have := h.1
      simp only [Chunk.stop] at *
      omega
  induction chunks generalizing start with
  | nil => cases hc
  | cons first rest ih =>
    rcases mem_cons.mp hc with rfl | hc
    · exact ⟨Nat.le_of_eq h.1.symm, hle _ _ h.2.2⟩
    · have := ih h.2.2 hc
      have := h.1
      simp only [Chunk.stop] at *
      omega

theorem Chunks.pairwise : chunks.Pairwise fun c c' => c.stop ≤ c'.address := by
  induction chunks generalizing start with
  | nil => exact List.Pairwise.nil
  | cons first rest ih =>
    exact List.pairwise_cons.mpr ⟨fun c hc => (h.2.2.bounds hc).1, ih h.2.2⟩

theorem Chunks.disjoint {c c' : Chunk} (hc : c ∈ chunks) (hc' : c' ∈ chunks) :
    c = c' ∨ c.stop ≤ c'.address ∨ c'.stop ≤ c.address := by
  induction chunks generalizing start with
  | nil => cases hc
  | cons first rest ih =>
    rcases mem_cons.mp hc with hfirst | hrest
    · rcases mem_cons.mp hc' with hfirst' | hrest'
      · exact Or.inl (hfirst.trans hfirst'.symm)
      · exact Or.inr (Or.inl (hfirst ▸ (h.2.2.bounds hrest').1))
    · rcases mem_cons.mp hc' with hfirst' | hrest'
      · exact Or.inr (Or.inr (hfirst' ▸ (h.2.2.bounds hrest).1))
      · exact ih h.2.2 hrest hrest'

theorem Chunks.header_size (hc : c ∈ chunks) : (memory c.address).size = c.size := by
  induction chunks generalizing start with
  | nil => cases hc
  | cons first rest ih =>
    rcases mem_cons.mp hc with rfl | hc
    · rw [h.1, h.2.1]
    · exact ih h.2.2 hc

theorem Chunks.frame (hsame : ∀ c ∈ chunks, memory' c.address = memory c.address) :
    Chunks memory' stop start chunks := by
  induction chunks generalizing start with
  | nil => exact h
  | cons first rest ih =>
    have hfirst := hsame first mem_cons_self
    rw [h.1] at hfirst
    exact ⟨h.1, hfirst.trans h.2.1, ih h.2.2 fun c hc => hsame c (List.mem_cons_of_mem _ hc)⟩

theorem Chunks.frame_below (hsame : ∀ a, start ≤ a → memory' a = memory a) :
    Chunks memory' stop start chunks :=
  h.frame fun _ hc => hsame _ (h.bounds hc).1

theorem Chunks.length_le : start + chunks.length ≤ stop := by
  induction chunks generalizing start with
  | nil => exact Nat.le_of_eq h
  | cons first rest ih =>
    have := ih h.2.2
    have := h.1
    simp only [Chunk.stop, sizeofChunkHeader, length_cons] at *
    omega

theorem Chunks.sum_le : start + (chunks.map Chunk.size).sum ≤ stop := by
  induction chunks generalizing start with
  | nil => exact Nat.le_of_eq h
  | cons first rest ih =>
    have := ih h.2.2
    have := h.1
    simp only [Chunk.stop, List.map_cons, List.sum_cons] at *
    omega

end

theorem Chunks.next_eq {c next : Chunk} {rest : List Chunk}
    (h : Chunks memory stop start (c :: next :: rest)) :
    (memory start).next = next.address ∧ next.address ≠ 0 := by
  obtain ⟨haddress, hheader, hnext, -⟩ := h
  rw [hheader, hnext]
  refine ⟨rfl, ?_⟩
  simp [Chunk.stop, sizeofChunkHeader]

theorem Chunks.cons_update (rest : List Chunk) {rest' : List Chunk} (hstart : c.address = start)
    (h : Chunks memory stop c.stop rest')
    (hheader : memory start = ⟨if rest = [] then 0 else c.stop, c.used, c.size⟩)
    (hempty : rest' = [] ↔ rest = []) : Chunks memory stop start (c :: rest') := by
  refine ⟨hstart, ?_, h⟩
  simp [hheader, hempty]

/-! ## Merging -/

namespace ChunkAllocator

/-- What `merge` makes of the chunks. -/
def mergeChunks (current : Chunk) : List Chunk → List Chunk
  | [] => [current]
  | next :: rest =>
    if !current.used && !next.used then
      mergeChunks { current with size := current.size + (sizeofChunkHeader + next.size) } rest
    else current :: mergeChunks next rest

theorem mergeChunks_ne_nil (current : Chunk) (rest : List Chunk) :
    mergeChunks current rest ≠ [] := by
  induction rest generalizing current with
  | nil => simp [mergeChunks]
  | cons next rest ih =>
    rw [mergeChunks]
    split
    · exact ih _
    · simp

variable {rest : List Chunk} {c : Chunk} {a : ChunkAllocator} {size : Nat}

theorem mem_mergeChunks {current c : Chunk} (hused : c.used = true) :
    c ∈ mergeChunks current rest ↔ c ∈ current :: rest := by
  induction rest generalizing current with
  | nil => rfl
  | cons next rest ih =>
    rw [mergeChunks]
    split
    next hmerge =>
      simp only [Bool.and_eq_true, Bool.not_eq_true'] at hmerge
      have hne : ∀ c' : Chunk, c'.used = false → c ≠ c' := by
        rintro c' hc' rfl
        rw [hused] at hc'
        cases hc'
      rw [ih]
      simp only [mem_cons, hne _ hmerge.1, hne _ hmerge.2, false_or, or_iff_right_iff_imp]
      exact fun heq => absurd heq (hne _ hmerge.1)
    next => simp [ih]

theorem mergeLoop_spec (fuel : Nat) {current : Chunk}
    (h : Chunks memory stop start (current :: rest)) (hstop : stop ≤ 2 ^ 32)
    (hfuel : rest.length < fuel) :
    ∃ memory', mergeLoop fuel memory start = some memory' ∧
      Chunks memory' stop start (mergeChunks current rest) ∧
      ∀ a, a < start → memory' a = memory a := by
  induction rest generalizing memory start current fuel with
  | nil =>
    cases fuel with
    | zero => omega
    | succ fuel =>
      refine ⟨memory, ?_, h, fun _ _ => rfl⟩
      simp [mergeLoop, h.2.1]
  | cons next rest ih =>
    cases fuel with
    | zero => omega
    | succ fuel =>
      obtain ⟨hpointer, hnull⟩ := h.next_eq
      obtain ⟨haddress, hheader, hnext⟩ := h
      have hlimit := (hnext.bounds mem_cons_self).2
      have hlength : rest.length < fuel := by simpa using hfuel
      obtain ⟨hnextAddress, hnextHeader, hrest⟩ := hnext
      rw [mergeLoop, mergeChunks]
      simp only [hpointer, hnull, ne_eq, not_false_eq_true, if_true]
      have hused : (memory start).used = current.used := by rw [hheader]
      have hused' : (memory next.address).used = next.used := by rw [hnextAddress, hnextHeader]
      rw [hused, hused']
      split
      next hmerge =>
        -- the header of the next chunk is given up
        have hstop' : ({ current with
            size := current.size + (sizeofChunkHeader + next.size) } : Chunk).stop =
            next.stop := by
          simp only [Chunk.stop] at hnextAddress ⊢
          omega
        have hsize : u32 ((memory start).size + u32 (sizeofChunkHeader +
            (memory next.address).size)) =
            current.size + (sizeofChunkHeader + next.size) := by
          rw [hheader, hnextAddress, hnextHeader]
          simp only [Chunk.stop, sizeofChunkHeader] at *
          rw [u32_of_lt (n := 12 + next.size) (by omega), u32_of_lt (by omega)]
        have hbefore : ∀ c ∈ rest, c.address ≠ start := by
          intro c hc
          have := (hrest.bounds hc).1
          simp only [Chunk.stop, sizeofChunkHeader] at *
          omega
        have hmerged : Chunks (update memory start
            { next := (memory next.address).next
              used := current.used
              size := u32 ((memory start).size + u32 (sizeofChunkHeader +
                (memory next.address).size)) }) stop start
            ({ current with size := current.size + (sizeofChunkHeader + next.size) } ::
              rest) := by
          refine ⟨haddress, ?_, ?_⟩
          · rw [update_self, hsize, hnextAddress, hnextHeader, hstop']
          · rw [hstop']
            refine hrest.frame fun c hc => ?_
            rw [update_of_ne (hbefore c hc)]
        obtain ⟨memory', hloop, hchunks, hsame⟩ := ih _ hmerged hlength
        refine ⟨memory', hloop, hchunks, fun a ha => ?_⟩
        rw [hsame a ha, update_of_ne (by omega)]
      next =>
        have hnext : Chunks memory stop current.stop (next :: rest) :=
          ⟨hnextAddress, hnextHeader, hrest⟩
        obtain ⟨memory', hloop, hchunks, hsame⟩ := ih _ hnext hlength
        have hbehind : start < current.stop := by
          simp only [Chunk.stop, sizeofChunkHeader]
          omega
        rw [hnextAddress]
        refine ⟨memory', hloop, ?_, fun a ha => hsame a (by omega)⟩
        refine Chunks.cons_update (next :: rest) haddress hchunks ?_ ?_
        · rw [hsame start hbehind, hheader]
        · simp [mergeChunks_ne_nil]

/-! ## The operations on the chunks -/

theorem merge_spec (h : Chunks a.memory stop a.first (c :: rest)) (hstop : stop ≤ 2 ^ 32) :
    ∃ memory', a.merge = some { a with memory := memory' } ∧
      Chunks memory' stop a.first (mergeChunks c rest) := by
  have hlength := h.length_le
  obtain ⟨memory', hloop, hchunks, -⟩ := mergeLoop_spec walkLimit h hstop
    (by simp only [walkLimit, length_cons] at *; omega)
  exact ⟨memory', by rw [merge, hloop, map_some], hchunks⟩

theorem initializeChunks_spec (memory : ChunkMemory) (hheader : start + sizeofChunkHeader ≤ stop)
    (hstop : stop < 2 ^ 32) :
    Chunks (initializeChunks memory start stop).memory stop start
      [⟨start, false, stop - start - sizeofChunkHeader⟩] := by
  have hsize : u32 (stop + 2 ^ 32 - start + 2 ^ 32 - sizeofChunkHeader) =
      stop - start - sizeofChunkHeader := by
    rw [u32]
    omega
  refine ⟨rfl, ?_, ?_⟩
  · simp only [initializeChunks, update_self, hsize, if_true]
  · simp only [Chunks, Chunk.stop, sizeofChunkHeader] at *
    omega

theorem lastChunk_spec (fuel : Nat)
    (h : Chunks memory stop start (c :: rest)) (hfuel : rest.length < fuel) :
    ∃ before last, c :: rest = before ++ [last] ∧
      lastChunk fuel memory start = some last.address := by
  induction rest generalizing start c fuel with
  | nil =>
    cases fuel with
    | zero => omega
    | succ fuel =>
      refine ⟨[], c, rfl, ?_⟩
      simp [lastChunk, h.2.1, h.1]
  | cons next rest ih =>
    cases fuel with
    | zero => omega
    | succ fuel =>
      obtain ⟨hpointer, hnull⟩ := h.next_eq
      have hnext := h.2.2
      obtain ⟨before, last, heq, hlast⟩ := ih _ hnext (by simpa using hfuel)
      refine ⟨c :: before, last, by rw [heq, cons_append], ?_⟩
      rw [lastChunk, if_pos (hpointer ▸ hnull), hpointer, hnext.1, hlast]

theorem Chunks.append_last {before : List Chunk} {last : Chunk} (new : Chunk)
    (h : Chunks memory stop start (before ++ [last])) (hnew : new.address = stop)
    (hheader : memory' stop = ⟨0, new.used, new.size⟩)
    (hlast : memory' last.address = { memory last.address with next := stop })
    (hsame : ∀ c ∈ before, memory' c.address = memory c.address) :
    Chunks memory' new.stop start (before ++ [last, new]) := by
  induction before generalizing start with
  | nil =>
    obtain ⟨haddress, hold, hstop⟩ := h
    have hstop : last.stop = stop := hstop
    rw [haddress] at hlast
    refine ⟨haddress, ?_, hnew.trans hstop.symm, ?_, rfl⟩
    · rw [hlast, hold]
      simp [hstop]
    · rw [hstop, hheader]
      simp
  | cons c before ih =>
    obtain ⟨haddress, hold, hrest⟩ := h
    have hfirst := hsame c mem_cons_self
    rw [haddress] at hfirst
    refine ⟨haddress, ?_, ih hrest fun c' hc' => hsame c' (List.mem_cons_of_mem _ hc')⟩
    rw [hfirst, hold]
    simp

theorem expand_spec (h : Chunks a.memory stop a.first (c :: rest))
    (hheader : sizeofChunkHeader ≤ size) (hstop : stop + size ≤ 2 ^ 32) :
    ∃ memory', a.expand size = some { a with memory := memory' } ∧
      Chunks memory' (stop + size) a.first
        (mergeChunks c (rest ++ [⟨stop, false, size - sizeofChunkHeader⟩])) := by
  have hlength := h.length_le
  obtain ⟨before, last, heq, hlast⟩ := lastChunk_spec walkLimit h
    (by simp only [walkLimit, length_cons, sizeofChunkHeader] at *; omega)
  have hchunks := h
  rw [heq] at hchunks
  have hend : ∀ (before : List Chunk) (start : Nat),
      Chunks a.memory stop start (before ++ [last]) → last.stop = stop ∧
        (a.memory last.address).size = last.size := by
    intro before
    induction before with
    | nil =>
      rintro start ⟨haddress, hheader, hstop⟩
      exact ⟨hstop, by rw [haddress, hheader]⟩
    | cons c before ih => exact fun start h => ih _ h.2.2
  obtain ⟨hlastStop, hlastSize⟩ := hend _ _ hchunks
  have happendix : u32 (last.address + sizeofChunkHeader + (a.memory last.address).size) = stop := by
    rw [hlastSize, ← hlastStop]
    simp only [Chunk.stop, sizeofChunkHeader] at *
    exact u32_of_lt (by omega)
  have hsize : u32 (size + 2 ^ 32 - sizeofChunkHeader) = size - sizeofChunkHeader := by
    simp only [sizeofChunkHeader] at *
    rw [u32]
    omega
  have hne : last.address ≠ stop := by
    simp only [Chunk.stop, sizeofChunkHeader] at hlastStop
    omega
  have hbefore : ∀ c ∈ before, c.address < last.address := by
    intro c hc
    have hpair := hchunks.pairwise
    rw [List.pairwise_append] at hpair
    have := hpair.2.2 c hc last (by simp)
    simp only [Chunk.stop, sizeofChunkHeader] at this
    omega
  have hall : Chunks (update (update a.memory stop
      { next := 0, used := false, size := size - sizeofChunkHeader }) last.address
      { update a.memory stop { next := 0, used := false, size := size - sizeofChunkHeader }
          last.address with next := stop }) (stop + size) a.first
      (c :: (rest ++ [⟨stop, false, size - sizeofChunkHeader⟩])) := by
    have hnewStop : (⟨stop, false, size - sizeofChunkHeader⟩ : Chunk).stop = stop + size := by
      simp only [Chunk.stop]
      omega
    rw [← cons_append, heq, List.append_assoc, ← hnewStop]
    refine Chunks.append_last ⟨stop, false, size - sizeofChunkHeader⟩ hchunks rfl ?_ ?_ ?_
    · rw [update_of_ne hne.symm, update_self]
    · rw [update_self, update_of_ne hne]
    · intro c hc
      have := hbefore c hc
      have hc' := (hchunks.bounds (List.mem_append_left _ hc)).2
      simp only [Chunk.stop, sizeofChunkHeader] at hc'
      rw [update_of_ne (by omega), update_of_ne (by omega)]
  obtain ⟨memory', hmerge, hmerged⟩ := merge_spec (a := { a with memory := _ }) hall hstop
  refine ⟨memory', ?_, hmerged⟩
  rw [expand, hlast, Option.bind_some]
  simp only [happendix, hsize]
  exact hmerge

/-- What a split leaves: the block, and the rest of its chunk. -/
def splitChunks (c : Chunk) (size : Nat) (rest : List Chunk) : List Chunk :=
  ⟨c.address, true, size⟩ ::
    ⟨c.address + sizeofChunkHeader + size, false, c.size - size - sizeofChunkHeader⟩ :: rest

/-- The chunks before and after an allocation: an unused chunk that has room for the block and one more
header is split. -/
structure Split (chunks chunks' : List Chunk) (size : Nat) (block : Chunk) : Prop where
  split : ∃ before c rest, chunks = before ++ c :: rest ∧ c.used = false ∧
    size + sizeofChunkHeader ≤ c.size ∧ block = ⟨c.address, true, size⟩ ∧
    chunks' = before ++ splitChunks c size rest

theorem allocateLoop_found (h : Chunks memory stop start (c :: rest)) (hstop : stop ≤ 2 ^ 32)
    (hunused : c.used = false) (hroom : size + sizeofChunkHeader ≤ c.size) (fuel : Nat) :
    ∃ memory', allocateLoop size (fuel + 1) memory start =
        some (memory', c.address + sizeofChunkHeader) ∧
      Chunks memory' stop start (splitChunks c size rest) ∧
      ∀ a, a < start → memory' a = memory a := by
  have hlimit : c.stop ≤ stop := (h.bounds mem_cons_self).2
  obtain ⟨haddress, hheader, hrest⟩ := h
  simp only [Chunk.stop] at hlimit
  have hneed : u32 (size + sizeofChunkHeader) = size + sizeofChunkHeader := by
    simp only [sizeofChunkHeader] at *
    exact u32_of_lt (by omega)
  have hsplinter : u32 (c.address + sizeofChunkHeader + size) =
      c.address + sizeofChunkHeader + size := by
    simp only [sizeofChunkHeader] at *
    exact u32_of_lt (by omega)
  have hblock : u32 (c.address + sizeofChunkHeader) = c.address + sizeofChunkHeader := by
    simp only [sizeofChunkHeader] at *
    exact u32_of_lt (by omega)
  have hleft : u32 (c.size + 2 ^ 32 - size + 2 ^ 32 - sizeofChunkHeader) =
      c.size - size - sizeofChunkHeader := by
    rw [u32]
    simp only [sizeofChunkHeader] at *
    omega
  subst haddress
  refine ⟨update (update memory (c.address + sizeofChunkHeader + size)
      { next := if rest = [] then 0 else c.stop
        used := false
        size := c.size - size - sizeofChunkHeader }) c.address
      { next := c.address + sizeofChunkHeader + size, used := true, size }, ?_, ?_, ?_⟩
  · rw [allocateLoop]
    simp only [hheader, hunused, hneed, hsplinter, hblock, hleft]
    rw [if_pos (by simpa using hroom)]
  · have hsplinterStop : (⟨c.address + sizeofChunkHeader + size, false,
        c.size - size - sizeofChunkHeader⟩ : Chunk).stop = c.stop := by
      simp only [Chunk.stop]
      omega
    have hne : c.address ≠ c.address + sizeofChunkHeader + size := by
      simp only [sizeofChunkHeader]
      omega
    refine ⟨rfl, ?_, rfl, ?_, ?_⟩
    · rw [update_self, if_neg (by simp)]
      rfl
    · rw [hsplinterStop]
      show update _ _ _ (c.address + sizeofChunkHeader + size) = _
      rw [update_of_ne hne.symm, update_self]
    · rw [hsplinterStop]
      refine hrest.frame_below fun a ha => ?_
      simp only [Chunk.stop, sizeofChunkHeader] at *
      rw [update_of_ne (by omega), update_of_ne (by omega)]
  · intro a ha
    rw [update_of_ne (by omega), update_of_ne (by omega)]

theorem allocateLoop_spec (size fuel : Nat) (h : Chunks memory stop start (c :: rest))
    (hstop : stop ≤ 2 ^ 32) (hsize : size + sizeofChunkHeader < 2 ^ 32) (hfuel : rest.length < fuel) :
    allocateLoop size fuel memory start = some (memory, 0) ∨
    ∃ memory' chunks' block, allocateLoop size fuel memory start =
        some (memory', block.address + sizeofChunkHeader) ∧
      Chunks memory' stop start chunks' ∧ chunks' ≠ [] ∧ Split (c :: rest) chunks' size block ∧
      ∀ a, a < start → memory' a = memory a := by
  have hneed := u32_of_lt hsize
  induction rest generalizing start c fuel with
  | nil =>
    obtain ⟨fuel, rfl⟩ : ∃ n, fuel = n + 1 := ⟨fuel - 1, by omega⟩
    by_cases hfound : c.used = false ∧ size + sizeofChunkHeader ≤ c.size
    · obtain ⟨memory', hloop, hchunks, hsame⟩ :=
        allocateLoop_found h hstop hfound.1 hfound.2 fuel
      exact Or.inr ⟨memory', _, ⟨c.address, true, size⟩, hloop, hchunks, by simp [splitChunks],
        ⟨[], c, [], rfl, hfound.1, hfound.2, rfl, rfl⟩, hsame⟩
    · refine Or.inl ?_
      rw [allocateLoop]
      simp only [h.2.1, hneed]
      rw [if_neg (by simpa using hfound), if_neg (by simp)]
  | cons next rest ih =>
    obtain ⟨fuel, rfl⟩ : ∃ n, fuel = n + 1 := ⟨fuel - 1, by omega⟩
    by_cases hfound : c.used = false ∧ size + sizeofChunkHeader ≤ c.size
    · obtain ⟨memory', hloop, hchunks, hsame⟩ :=
        allocateLoop_found h hstop hfound.1 hfound.2 fuel
      exact Or.inr ⟨memory', _, ⟨c.address, true, size⟩, hloop, hchunks, by simp [splitChunks],
        ⟨[], c, next :: rest, rfl, hfound.1, hfound.2, rfl, rfl⟩, hsame⟩
    · -- the walk goes on to the next chunk
      obtain ⟨hpointer, hnull⟩ := h.next_eq
      obtain ⟨haddress, hheader, hnext⟩ := h
      have hstep : allocateLoop size (fuel + 1) memory start =
          allocateLoop size fuel memory c.stop := by
        rw [allocateLoop]
        simp only [hpointer]
        rw [if_neg ?_, if_pos hnull, hnext.1]
        rw [hheader, hneed]
        simpa using hfound
      rw [hstep]
      rcases ih _ hnext (by simpa using hfuel) with hnone | hsome
      · exact Or.inl hnone
      · obtain ⟨memory', chunks', block, hloop, hchunks, hne, ⟨hsplit⟩, hsame⟩ := hsome
        obtain ⟨before, c', rest', heq, hunused, hroom, hblock, rfl⟩ := hsplit
        have hbehind : start < c.stop := by
          simp only [Chunk.stop, sizeofChunkHeader]
          omega
        refine Or.inr ⟨memory', c :: (before ++ splitChunks c' size rest'), block, hloop, ?_,
          by simp, ⟨c :: before, c', rest', by rw [heq, cons_append], hunused, hroom, hblock,
            rfl⟩, fun a ha => hsame a (by omega)⟩
        refine Chunks.cons_update (next :: rest) haddress hchunks ?_ ?_
        · rw [hsame start hbehind, hheader]
        · simp [hne]

theorem allocate_spec (h : Chunks a.memory stop a.first (c :: rest)) (hstop : stop ≤ 2 ^ 32)
    (hsize : size + sizeofChunkHeader < 2 ^ 32) :
    a.allocate size = some (a, 0) ∨
    ∃ memory' chunks' block, a.allocate size =
        some ({ a with memory := memory' }, block.address + sizeofChunkHeader) ∧
      Chunks memory' stop a.first chunks' ∧ chunks' ≠ [] ∧
      Split (c :: rest) chunks' (max size chunkAllocatorMinimumAllocationSize) block := by
  have hlength := h.length_le
  rw [allocate]
  by_cases hfirst : a.first = 0
  · exact Or.inl (if_pos hfirst)
  · rw [if_neg hfirst]
    rcases allocateLoop_spec (max size chunkAllocatorMinimumAllocationSize) walkLimit h hstop
      (by simp only [chunkAllocatorMinimumAllocationSize, sizeofChunkHeader] at *; omega)
      (by simp only [walkLimit, length_cons] at *; omega) with hnone | hsome
    · exact Or.inl (by rw [hnone, map_some])
    · obtain ⟨memory', chunks', block, hloop, hchunks, hne, hsplit, -⟩ := hsome
      exact Or.inr ⟨memory', chunks', block, by rw [hloop, map_some], hchunks, hne, hsplit⟩

/-- The chunk with its header at `address` is no longer in use. -/
def releaseChunk (address : Nat) (chunks : List Chunk) : List Chunk :=
  chunks.map fun c => if c.address = address then { c with used := false } else c

theorem Chunks.release (h : Chunks memory stop start chunks) (address : Nat) :
    Chunks (update memory address { memory address with used := false }) stop start
      (releaseChunk address chunks) := by
  induction chunks generalizing start with
  | nil => exact h
  | cons c rest ih =>
    obtain ⟨haddress, hheader, hrest⟩ := h
    have htail := ih hrest
    subst haddress
    by_cases heq : c.address = address
    · subst heq
      refine ⟨by simp, ?_, by simpa [releaseChunk, Chunk.stop] using htail⟩
      rw [update_self, hheader]
      simp [Chunk.stop]
    · refine ⟨by simp [heq], ?_, by simpa [releaseChunk, heq] using htail⟩
      rw [update_of_ne heq, hheader]
      simp [heq]

theorem free_spec (h : Chunks a.memory stop a.first chunks) (hstop : stop ≤ 2 ^ 32)
    (hfirst : a.first ≠ 0) (hc : c ∈ chunks) :
    ∃ memory' first rest, releaseChunk c.address chunks = first :: rest ∧
      a.free (c.address + sizeofChunkHeader) = some ({ a with memory := memory' }, c.size) ∧
      Chunks memory' stop a.first (mergeChunks first rest) := by
  have hheader : u32 (c.address + sizeofChunkHeader + 2 ^ 32 - sizeofChunkHeader) = c.address := by
    have := (h.bounds hc).2
    simp only [Chunk.stop, sizeofChunkHeader] at *
    rw [u32]
    omega
  have hsize := h.header_size hc
  have hreleased := Chunks.release h c.address
  cases hlist : releaseChunk c.address chunks with
  | nil =>
    cases chunks with
    | nil => cases hc
    | cons first rest => simp [releaseChunk] at hlist
  | cons first rest =>
    rw [hlist] at hreleased
    obtain ⟨memory', hmerge, hchunks⟩ := merge_spec (a := { a with
      memory := update a.memory c.address { a.memory c.address with used := false } })
      hreleased hstop
    refine ⟨memory', first, rest, rfl, ?_, hchunks⟩
    rw [free, if_neg hfirst]
    simp only [hheader]
    rw [hmerge, map_some, update_self]
    simp [hsize]

end ChunkAllocator

/-! ## Runs -/

/-- A heap in use: the allocator, the end of its area, and the blocks not yet freed, with the size
that was asked for. -/
structure AllocatorState where
  allocator : ChunkAllocator
  stop : Nat
  live : List (Nat × Nat)

inductive AllocatorCall
  | allocate (size : Nat)
  | free (mem : Nat)
  | expand (size : Nat)
  deriving DecidableEq

namespace AllocatorState

/-- After `initialize`. -/
def initial (memory : ChunkMemory) (start stop : Nat) : AllocatorState where
  allocator := ChunkAllocator.initializeChunks memory start stop
  stop := stop
  live := []

def step (s : AllocatorState) : AllocatorCall → Option AllocatorState
  | .allocate size =>
    (s.allocator.allocate size).map fun r =>
      { s with allocator := r.1
               live := if r.2 = 0 then s.live else s.live ++ [(r.2, size)] }
  | .free mem =>
    (s.allocator.free mem).map fun r =>
      { s with allocator := r.1, live := s.live.filter fun b => b.1 ≠ mem }
  | .expand size =>
    (s.allocator.expand size).map fun allocator => { s with allocator, stop := s.stop + size }

/-- Sizes have 32 bits, a freed pointer is a live one, and the area stays in the address space. -/
def Legal (s : AllocatorState) : AllocatorCall → Prop
  | .allocate size => size < 2 ^ 32
  | .free mem => mem ∈ s.live.map Prod.fst
  | .expand size => s.stop + size ≤ 2 ^ 32

instance (s : AllocatorState) : (call : AllocatorCall) → Decidable (s.Legal call)
  | .allocate size => inferInstanceAs (Decidable (size < 2 ^ 32))
  | .free mem => inferInstanceAs (Decidable (mem ∈ s.live.map Prod.fst))
  | .expand size => inferInstanceAs (Decidable (s.stop + size ≤ 2 ^ 32))

/-- The size of a block, from its header. -/
def blockSize (s : AllocatorState) (mem : Nat) : Nat :=
  (s.allocator.memory (mem - sizeofChunkHeader)).size

/-- The chunk list partitions the area, and every live block is large enough, inside the area and apart
from the others. -/
structure Partitioned (start : Nat) (s : AllocatorState) : Prop where
  chunks : s.allocator.first = start ∧
    ∃ chunks, chunks ≠ [] ∧ Chunks s.allocator.memory s.stop start chunks
  blocks : ∀ b ∈ s.live, b.2 ≤ s.blockSize b.1 ∧ start + sizeofChunkHeader ≤ b.1 ∧
    b.1 + s.blockSize b.1 ≤ s.stop
  disjoint : s.live.Pairwise fun b b' =>
    b.1 + s.blockSize b.1 + sizeofChunkHeader ≤ b'.1 ∨
      b'.1 + s.blockSize b'.1 + sizeofChunkHeader ≤ b.1

end AllocatorState

/-- The header of the request fits behind it. -/
def AllocatorCall.Fits : AllocatorCall → Prop
  | .allocate size => size + sizeofChunkHeader < 2 ^ 32
  | .free _ => True
  | .expand size => sizeofChunkHeader ≤ size

instance : (call : AllocatorCall) → Decidable call.Fits
  | .allocate size => inferInstanceAs (Decidable (size + sizeofChunkHeader < 2 ^ 32))
  | .free _ => inferInstanceAs (Decidable True)
  | .expand size => inferInstanceAs (Decidable (sizeofChunkHeader ≤ size))

/-- The heap over an area, in use. -/
def allocatorSystem (memory : ChunkMemory) (start stop : Nat) :
    System AllocatorState AllocatorCall where
  init s := s = AllocatorState.initial memory start stop
  step := AllocatorState.step

/-- Each live block has a chunk in use to itself. -/
structure AllocatorState.Held (start : Nat) (s : AllocatorState) : Prop where
  first : s.allocator.first = start
  limit : s.stop ≤ 2 ^ 32
  null : start = 0 → s.live = []
  chunks : ∃ c rest, Chunks s.allocator.memory s.stop start (c :: rest) ∧
    ∀ b ∈ s.live, ∃ k ∈ c :: rest, k.used = true ∧ b.1 = k.address + sizeofChunkHeader ∧
      k.size = max b.2 chunkAllocatorMinimumAllocationSize
  distinct : s.live.Pairwise fun b b' => b.1 ≠ b'.1

namespace AllocatorState

variable {s : AllocatorState}

theorem Held.partitioned (h : s.Held start) : s.Partitioned start := by
  obtain ⟨c, rest, hchunks, hlive⟩ := h.chunks
  have hsize : ∀ b ∈ s.live, ∃ k ∈ c :: rest, b.1 = k.address + sizeofChunkHeader ∧
      s.blockSize b.1 = k.size ∧ b.2 ≤ k.size := by
    intro b hb
    obtain ⟨k, hk, -, haddress, heq⟩ := hlive b hb
    refine ⟨k, hk, haddress, ?_, heq ▸ Nat.le_max_left _ _⟩
    rw [blockSize, haddress, Nat.add_sub_cancel, hchunks.header_size hk]
  refine ⟨⟨h.first, c :: rest, by simp, hchunks⟩, ?_, ?_⟩
  · intro b hb
    obtain ⟨k, hk, haddress, hblock, hle⟩ := hsize b hb
    have := hchunks.bounds hk
    simp only [Chunk.stop] at this
    omega
  · refine h.distinct.imp_of_mem fun {b b'} hb hb' hne => ?_
    obtain ⟨k, hk, haddress, hblock, -⟩ := hsize b hb
    obtain ⟨k', hk', haddress', hblock', -⟩ := hsize b' hb'
    rcases hchunks.disjoint hk hk' with heq | hapart
    · rw [heq] at haddress
      omega
    · simp only [Chunk.stop] at hapart
      omega

theorem held_initial (memory : ChunkMemory) (hheader : start + sizeofChunkHeader ≤ stop)
    (hstop : stop < 2 ^ 32) : (initial memory start stop).Held start where
  first := rfl
  limit := Nat.le_of_lt hstop
  null _ := rfl
  chunks := ⟨_, _, ChunkAllocator.initializeChunks_spec memory hheader hstop, by simp [initial]⟩
  distinct := List.Pairwise.nil

section

variable (h : s.Held start)
include h

theorem Held.allocate {size : Nat} (hsize : size + sizeofChunkHeader < 2 ^ 32) :
    s.allocator.allocate size = some (s.allocator, 0) ∨
    ∃ allocator mem, s.allocator.allocate size = some (allocator, mem) ∧ mem ≠ 0 ∧
      ({ s with allocator, live := s.live ++ [(mem, size)] } : AllocatorState).Held start := by
  obtain ⟨c, rest, hchunks, hlive⟩ := h.chunks
  have hfirst := h.first
  by_cases hnull : start = 0
  · refine Or.inl ?_
    rw [ChunkAllocator.allocate, if_pos (hfirst.trans hnull)]
  rcases ChunkAllocator.allocate_spec (hfirst ▸ hchunks) h.limit hsize with hnone | hsome
  · exact Or.inl hnone
  · obtain ⟨memory', chunks', block, hallocate, hchunks', hne, ⟨hsplit⟩⟩ := hsome
    obtain ⟨before, k, after, heq, hunused, hroom, rfl, rfl⟩ := hsplit
    have hpointer : k.address + sizeofChunkHeader ≠ 0 := by simp [sizeofChunkHeader]
    have hk : k ∈ c :: rest := by simp [heq]
    refine Or.inr ⟨{ s.allocator with memory := memory' }, k.address + sizeofChunkHeader,
      hallocate, hpointer, ?_⟩
    · have hlist := List.exists_cons_of_ne_nil hne
      obtain ⟨c', rest', hcons⟩ := hlist
      refine ⟨hfirst, h.limit, fun h0 => absurd h0 hnull, ⟨c', rest', ?_, ?_⟩, ?_⟩
      · rw [← hcons, ← hfirst]
        exact hchunks'
      · intro b hb
        rw [← hcons]
        rcases List.mem_append.mp hb with hb | hb
        · obtain ⟨k', hk', hused, haddress, hle⟩ := hlive b hb
          refine ⟨k', ?_, hused, haddress, hle⟩
          have hother : k' ≠ k := by
            rintro rfl
            rw [hunused] at hused
            cases hused
          rw [heq] at hk'
          simp only [List.mem_append, mem_cons, hother, false_or] at hk'
          simp only [ChunkAllocator.splitChunks, List.mem_append, mem_cons]
          tauto
        · rw [List.mem_singleton.mp hb]
          exact ⟨_, List.mem_append_right _ mem_cons_self, rfl, rfl, rfl⟩
      · refine List.pairwise_append.mpr ⟨h.distinct, List.pairwise_singleton _ _, ?_⟩
        intro b hb b' hb'
        rw [List.mem_singleton.mp hb']
        obtain ⟨k', hk', hused, haddress, -⟩ := hlive b hb
        rcases hchunks.disjoint hk' hk with heq | hapart
        · rw [heq, hunused] at hused
          cases hused
        · simp only [Chunk.stop, sizeofChunkHeader] at *
          omega

theorem Held.free {b : Nat × Nat} (hb : b ∈ s.live) :
    ∃ allocator, s.allocator.free b.1 =
        some (allocator, max b.2 chunkAllocatorMinimumAllocationSize) ∧
      ({ s with allocator, live := s.live.filter fun b' => b'.1 ≠ b.1 } :
        AllocatorState).Held start := by
  obtain ⟨c, rest, hchunks, hlive⟩ := h.chunks
  have hfirst := h.first
  have hnull : start ≠ 0 := by
    intro h0
    rw [h.null h0] at hb
    cases hb
  obtain ⟨k, hk, hused, haddress, hsize⟩ := hlive _ hb
  obtain ⟨memory', c', rest', hlist, hfree, hchunks'⟩ :=
    ChunkAllocator.free_spec (hfirst ▸ hchunks) h.limit (by rw [hfirst]; exact hnull) hk
  refine ⟨{ s.allocator with memory := memory' }, by rw [haddress, hfree, hsize], ?_⟩
  obtain ⟨c'', rest'', hcons⟩ :=
    List.exists_cons_of_ne_nil (ChunkAllocator.mergeChunks_ne_nil c' rest')
  refine ⟨hfirst, h.limit, fun h0 => absurd h0 hnull, ⟨c'', rest'', ?_, ?_⟩, h.distinct.filter _⟩
  · rw [← hcons, ← hfirst]
    exact hchunks'
  · intro b' hb'
    obtain ⟨hb', hother⟩ := List.mem_filter.mp hb'
    obtain ⟨k', hk', hused', haddress', hsize'⟩ := hlive b' hb'
    refine ⟨k', ?_, hused', haddress', hsize'⟩
    rw [← hcons, ChunkAllocator.mem_mergeChunks hused', ← hlist]
    refine List.mem_map.mpr ⟨k', hk', if_neg ?_⟩
    have : b'.1 ≠ b.1 := by simpa using hother
    omega

theorem Held.expand {size : Nat} (hheader : sizeofChunkHeader ≤ size)
    (hstop : s.stop + size ≤ 2 ^ 32) :
    ∃ allocator, s.allocator.expand size = some allocator ∧
      ({ s with allocator, stop := s.stop + size } : AllocatorState).Held start := by
  obtain ⟨c, rest, hchunks, hlive⟩ := h.chunks
  have hfirst := h.first
  obtain ⟨memory', hexpand, hchunks'⟩ :=
    ChunkAllocator.expand_spec (hfirst ▸ hchunks) hheader hstop
  obtain ⟨c', rest', hcons⟩ := List.exists_cons_of_ne_nil (ChunkAllocator.mergeChunks_ne_nil c
    (rest ++ [⟨s.stop, false, size - sizeofChunkHeader⟩]))
  refine ⟨{ s.allocator with memory := memory' }, hexpand, hfirst, hstop, h.null,
    ⟨c', rest', ?_, ?_⟩, h.distinct⟩
  · rw [← hcons, ← hfirst]
    exact hchunks'
  · intro b hb
    obtain ⟨k, hk, hused, haddress, hsize⟩ := hlive b hb
    refine ⟨k, ?_, hused, haddress, hsize⟩
    rw [← hcons, ChunkAllocator.mem_mergeChunks hused, ← cons_append]
    exact List.mem_append_left _ hk

/-- Where the chunk of a block is. -/
def blockChunk (b : Nat × Nat) : Chunk :=
  ⟨b.1 - sizeofChunkHeader, true, max b.2 chunkAllocatorMinimumAllocationSize⟩

theorem Held.sum_le : (s.live.map Prod.snd).sum ≤ s.stop := by
  obtain ⟨c, rest, hchunks, hlive⟩ := h.chunks
  have hmem : ∀ b ∈ s.live, blockChunk b ∈ c :: rest ∧ sizeofChunkHeader ≤ b.1 := by
    intro b hb
    obtain ⟨k, hk, hused, haddress, hsize⟩ := hlive b hb
    have : blockChunk b = k := by
      rw [blockChunk, haddress, Nat.add_sub_cancel, ← hsize, ← hused]
    exact ⟨this ▸ hk, by omega⟩
  have hnodup : (s.live.map blockChunk).Nodup := by
    refine List.pairwise_map.mpr (h.distinct.imp_of_mem fun {b b'} hb hb' hne heq => hne ?_)
    have := congrArg Chunk.address heq
    have := (hmem b hb).2
    have := (hmem b' hb').2
    simp only [blockChunk] at *
    omega
  have hsubset : s.live.map blockChunk ⊆ c :: rest := by
    intro k hk
    obtain ⟨b, hb, rfl⟩ := List.mem_map.mp hk
    exact (hmem b hb).1
  obtain ⟨chunks, hperm, hsub⟩ := List.subperm_of_subset hnodup hsubset
  have hsum := hchunks.sum_le
  calc (s.live.map Prod.snd).sum
      ≤ ((s.live.map blockChunk).map Chunk.size).sum := by
        rw [List.map_map]
        exact List.sum_le_sum fun b _ => Nat.le_max_left _ _
    _ = (chunks.map Chunk.size).sum := ((hperm.map Chunk.size).sum_eq).symm
    _ ≤ ((c :: rest).map Chunk.size).sum := (hsub.map Chunk.size).sum_le_sum fun _ _ => Nat.zero_le _
    _ ≤ s.stop := by omega

theorem Held.step {call : AllocatorCall} (hlegal : s.Legal call) (hfits : call.Fits) :
    ∃ s', s.step call = some s' ∧ s'.Held start := by
  cases call with
  | allocate size =>
    rcases h.allocate hfits with hnone | ⟨allocator, mem, hallocate, hmem, hheld⟩
    · exact ⟨s, by rw [AllocatorState.step, hnone, map_some, if_pos rfl], h⟩
    · exact ⟨_, by rw [AllocatorState.step, hallocate, map_some, if_neg hmem], hheld⟩
  | free mem =>
    obtain ⟨b, hb, rfl⟩ := List.mem_map.mp hlegal
    obtain ⟨allocator, hfree, hheld⟩ := h.free hb
    exact ⟨_, by rw [AllocatorState.step, hfree, map_some], hheld⟩
  | expand size =>
    obtain ⟨allocator, hexpand, hheld⟩ := h.expand hfits hlegal
    exact ⟨_, by rw [AllocatorState.step, hexpand, map_some], hheld⟩

end

end AllocatorState

/-- In every run of legal calls over an area with room for a header, every call completes and the
chunks partition it. -/
theorem chunks_partition_area (memory : ChunkMemory) (start stop : Nat)
    (hheader : start + sizeofChunkHeader ≤ stop) (hstop : stop < 2 ^ 32) (s : AllocatorState)
    (hs : (allocatorSystem memory start stop).Reachable
      (fun s call => s.Legal call ∧ call.Fits) s) :
    s.Partitioned start ∧
      ∀ call, s.Legal call → call.Fits → ∃ s', s.step call = some s' := by
  have hheld : s.Held start := by
    refine System.Reachable.invariant (I := fun s => s.Held start) ?_ ?_ hs
    · rintro s rfl
      exact AllocatorState.held_initial memory hheader hstop
    · intro s call s' h hok hstep
      obtain ⟨s'', hstep', hheld⟩ := h.step hok.1 hok.2
      cases hstep'.symm.trans hstep
      exact hheld
  refine ⟨hheld.partitioned, fun call hlegal hfits => ?_⟩
  obtain ⟨s', hstep, -⟩ := hheld.step hlegal hfits
  exact ⟨s', hstep⟩

theorem chunks_partition_area_grown :
    ∃ s, (allocatorSystem (fun _ => ⟨0, false, 0⟩) 0x1000 0x2000).Reachable
        (fun s call => s.Legal call ∧ call.Fits) s ∧
      s.live = [(0x107C, 4), (0x100C, 0)] ∧ s.stop = 0x3000 ∧ s.Partitioned 0x1000 := by
  obtain ⟨s, hs, hlive, hstop⟩ : ∃ s ∈ (allocatorSystem (fun _ => ⟨0, false, 0⟩) 0x1000 0x2000).runGuarded
      (fun s call => s.Legal call ∧ call.Fits)
      (AllocatorState.initial (fun _ => ⟨0, false, 0⟩) 0x1000 0x2000)
      [.allocate 100, .allocate 4, .free 0x100C, .expand 0x1000, .allocate 0],
      s.live = [(0x107C, 4), (0x100C, 0)] ∧ s.stop = 0x3000 := by
    decide +kernel
  have hreach := System.Reachable.of_runGuarded (.init rfl) hs
  exact ⟨s, hreach, hlive, hstop,
    (chunks_partition_area (fun _ => ⟨0, false, 0⟩) 0x1000 0x2000 (by decide) (by decide) s
      hreach).1⟩

/-- For a size from 2^32 − 12 on the test for room wraps: `allocate` splits a chunk of 4084 bytes, and
the block is far larger than the area. -/
theorem wrapped_size_leaves_area :
    ¬ ∀ memory start stop, start + sizeofChunkHeader ≤ stop → stop < 2 ^ 32 →
      ∀ s, (allocatorSystem memory start stop).Reachable AllocatorState.Legal s →
        s.Partitioned start := by
  intro hall
  obtain ⟨s, hs, hlive, hstop, hsize⟩ :
      ∃ s ∈ (allocatorSystem (fun _ => ⟨0, false, 0⟩) 0x1000 0x2000).runGuarded AllocatorState.Legal
          (AllocatorState.initial (fun _ => ⟨0, false, 0⟩) 0x1000 0x2000) [.allocate (2 ^ 32 - 12)],
        s.live = [(0x100C, 2 ^ 32 - 12)] ∧ s.stop = 0x2000 ∧ s.blockSize 0x100C = 2 ^ 32 - 12 := by
    decide +kernel
  have hblock := (hall (fun _ => ⟨0, false, 0⟩) 0x1000 0x2000 (by decide) (by decide) s
    (System.Reachable.of_runGuarded (.init rfl) hs)).blocks (0x100C, 2 ^ 32 - 12)
    (by rw [hlive]; exact List.mem_singleton.mpr rfl)
  omega

end MeetixOS.Kernel
