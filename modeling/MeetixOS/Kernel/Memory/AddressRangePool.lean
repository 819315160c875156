import MeetixOS.Kernel.Memory.Paging

/-! # Pools of virtual ranges

`memory/collections/AddressRangePool.cpp`: the ranges of a pool as the list that `first` leads to, one
behind another (`Contiguous`) or with gaps; `Laid` covers both. An allocation cuts a range off an unused
one, and a freed range is merged with its unused neighbours, keeping the flags of the first. -/

open List (mem_cons mem_cons_self)

namespace MeetixOS.Kernel

/-! ## The ranges -/

structure AddressRange where
  used : Bool := false
  base : Nat
  pages : Nat
  flags : Nat := 0
  deriving DecidableEq

abbrev AddressRangePool := List AddressRange

/-- The page `v` lies in the range. -/
def AddressRange.Covers (r : AddressRange) (v : Nat) : Prop :=
  pageOf r.base ≤ v ∧ v < pageOf r.base + r.pages

instance (r : AddressRange) (v : Nat) : Decidable (r.Covers v) := inferInstanceAs (Decidable (_ ∧ _))

namespace AddressRangePool

/-- `AddressRangePool::initialize` of an empty pool. -/
def initializePool (start stop : Nat) : AddressRangePool :=
  [{ base := start, pages := (stop - start) / pageSize }]

/-- The walk of `allocate` to the first unused range with enough pages. -/
def allocateFirst (requestedPages flags : Nat) : AddressRangePool → Option (AddressRangePool × Nat)
  | [] => none
  | range :: rest =>
    if !range.used && range.pages ≥ requestedPages then
      let remainingPages := range.pages - requestedPages
      let taken := { range with used := true, flags }
      if remainingPages > 0 then
        let splinter : AddressRange :=
          { base := range.base + requestedPages * pageSize, pages := remainingPages }
        some ({ taken with pages := requestedPages } :: splinter :: rest, range.base)
      else some (taken :: rest, range.base)
    else (allocateFirst requestedPages flags rest).map fun (rest, base) => (range :: rest, base)

/-- `AddressRangePool::allocate`, with the base of the range; `none` where the source returns 0. -/
def allocate (pool : AddressRangePool) (requestedPages flags : Nat) :
    Option (AddressRangePool × Nat) :=
  allocateFirst (if requestedPages = 0 then 1 else requestedPages) flags pool

/-- `AddressRangePool::merge`, with the walk at `current`. -/
def mergeFrom (current : AddressRange) : AddressRangePool → AddressRangePool
  | [] => [current]
  | next :: rest =>
    if !current.used && !next.used && current.base + current.pages * pageSize = next.base then
      mergeFrom { current with pages := current.pages + next.pages } rest
    else current :: mergeFrom next rest

def merge : AddressRangePool → AddressRangePool
  | [] => []
  | first :: rest => mergeFrom first rest

/-- The range with the given base is marked unused. -/
def release (base : Nat) : AddressRangePool → AddressRangePool
  | [] => []
  | range :: rest =>
    if range.base = base then { range with used := false } :: rest
    else range :: release base rest

/-- `AddressRangePool::free`, with the number of pages freed. -/
def free (pool : AddressRangePool) (base : Nat) : AddressRangePool × Int :=
  match pool.find? fun range => range.base = base with
  | some range => if range.used then (merge (release base pool), range.pages) else (pool, -1)
  | none => (pool, -1)

/-! ## Ranges one behind another -/

/-- The ranges fill the addresses from `start` to `stop`, and none is empty. -/
def Contiguous (stop : Nat) : Nat → AddressRangePool → Prop
  | start, [] => start = stop
  | start, range :: rest =>
    range.base = start ∧ 0 < range.pages ∧ Contiguous stop (start + range.pages * pageSize) rest

/-- How a range may lie behind the end of the one before it. -/
structure Follows (follows : Nat → Nat → Prop) : Prop where
  refl : ∀ {a : Nat}, a % pageSize = 0 → follows a a
  le : ∀ {a b : Nat}, follows a b → a ≤ b
  aligned : ∀ {a b : Nat}, follows a b → a % pageSize = 0 → b % pageSize = 0

/-- The ranges lie between `start` and `stop`, each as `follows` says behind the one before, and none is
empty. -/
def Laid (follows : Nat → Nat → Prop) (stop : Nat) : Nat → AddressRangePool → Prop
  | start, [] => follows start stop
  | start, range :: rest =>
    follows start range.base ∧ 0 < range.pages ∧
      Laid follows stop (range.base + range.pages * pageSize) rest

theorem follows_eq : Follows (· = ·) :=
  ⟨fun _ => rfl, fun h => h.le, fun h ha => h ▸ ha⟩

theorem contiguous_iff_laid {start stop : Nat} {pool : AddressRangePool} :
    Contiguous stop start pool ↔ Laid (· = ·) stop start pool := by
  induction pool generalizing start with
  | nil => rfl
  | cons range rest ih =>
    constructor
    · rintro ⟨rfl, hpages, hrest⟩
      exact ⟨rfl, hpages, ih.1 hrest⟩
    · rintro ⟨rfl, hpages, hrest⟩
      exact ⟨rfl, hpages, ih.2 hrest⟩

/-- The page lies in an unused range. -/
def IsFree (pool : AddressRangePool) (v : Nat) : Prop :=
  ∃ range ∈ pool, range.used = false ∧ range.Covers v

instance (pool : AddressRangePool) (v : Nat) : Decidable (IsFree pool v) :=
  inferInstanceAs (Decidable (∃ range ∈ pool, _))

theorem initializePool_contiguous :
    (initializePool constUserVirtualRangesStart constKernelAreaStart).Contiguous
      constKernelAreaStart constUserVirtualRangesStart := by
  refine ⟨rfl, by decide, ?_⟩
  show _ = constKernelAreaStart
  decide

variable {pool pool' : AddressRangePool} {start stop : Nat} {follows : Nat → Nat → Prop}

variable {range r r' freed : AddressRange} {v base flags requestedPages : Nat}

theorem isFree_cons :
    IsFree (range :: pool) v ↔ (range.used = false ∧ range.Covers v) ∨ IsFree pool v := by
  simp [IsFree, exists_eq_or_imp]

theorem Laid.start_le (hf : Follows follows) (h : Laid follows stop start pool) : start ≤ stop := by
  induction pool generalizing start with
  | nil => exact hf.le h
  | cons range rest ih =>
    have hrest := ih h.2.2
    have := hf.le h.1
    omega

theorem Laid.bounds (hf : Follows follows) (h : Laid follows stop start pool)
    (haligned : start % pageSize = 0) (hrange : range ∈ pool) :
    range.base % pageSize = 0 ∧ start ≤ range.base ∧
      range.base + range.pages * pageSize ≤ stop ∧ 0 < range.pages := by
  induction pool generalizing start with
  | nil => cases hrange
  | cons first rest ih =>
    obtain ⟨hbase, hpos, hrest⟩ := h
    have hfirst := hf.aligned hbase haligned
    have hle := hf.le hbase
    rcases mem_cons.1 hrange with rfl | hrange
    · exact ⟨hfirst, hle, hrest.start_le hf, hpos⟩
    · have := ih hrest (aligned_add_mul hfirst _) hrange
      exact ⟨this.1, by omega, this.2.2⟩

theorem Laid.not_covers_tail (hf : Follows follows) {first : AddressRange} {rest : AddressRangePool}
    (h : Laid follows stop start (first :: rest)) (haligned : start % pageSize = 0)
    (hrange : range ∈ rest) (hv : range.Covers v) : pageOf first.base + first.pages ≤ v := by
  have hfirst := hf.aligned h.1 haligned
  have hbounds := h.2.2.bounds hf (aligned_add_mul hfirst _) hrange
  simp only [AddressRange.Covers, pageOf, pageSize] at *
  omega

section

variable (hf : Follows follows) (h : Laid follows stop start pool) (haligned : start % pageSize = 0)
include hf h haligned

theorem Laid.unique (hr : r ∈ pool) (hr' : r' ∈ pool) (hv : r.Covers v) (hv' : r'.Covers v) :
    r = r' := by
  induction pool generalizing start with
  | nil => cases hr
  | cons first rest ih =>
    rcases mem_cons.1 hr with rfl | hmem
    · rcases mem_cons.1 hr' with rfl | hmem'
      · rfl
      · exact absurd hv.2 (Nat.not_lt.2 (h.not_covers_tail hf haligned hmem' hv'))
    · rcases mem_cons.1 hr' with rfl | hmem'
      · exact absurd hv'.2 (Nat.not_lt.2 (h.not_covers_tail hf haligned hmem hv))
      · exact ih h.2.2 (aligned_add_mul (hf.aligned h.1 haligned) _) hmem hmem'

theorem Laid.eq_of_base (hr : r ∈ pool) (hr' : r' ∈ pool) (hbase : r.base = r'.base) : r = r' := by
  have hpos := (h.bounds hf haligned hr).2.2.2
  have hpos' := (h.bounds hf haligned hr').2.2.2
  refine h.unique hf haligned hr hr' ⟨le_rfl, by omega⟩ ?_
  rw [hbase]
  exact ⟨le_rfl, by omega⟩

theorem Laid.find_eq_some (hrange : range ∈ pool) :
    (pool.find? fun r => r.base = range.base) = some range := by
  have hsome : (pool.find? fun r => r.base = range.base).isSome := by
    rw [List.find?_isSome]
    exact ⟨range, hrange, by simp⟩
  obtain ⟨found, hfound⟩ := Option.isSome_iff_exists.1 hsome
  have hbase : found.base = range.base := by simpa using List.find?_some hfound
  rw [hfound, h.eq_of_base hf haligned (List.mem_of_find?_eq_some hfound) hrange hbase]

end

section

variable (h : Contiguous stop start pool) (haligned : start % pageSize = 0)
include h haligned

theorem Contiguous.bounds (hrange : range ∈ pool) :
    range.base % pageSize = 0 ∧ start ≤ range.base ∧
      range.base + range.pages * pageSize ≤ stop ∧ 0 < range.pages :=
  (contiguous_iff_laid.1 h).bounds follows_eq haligned hrange

theorem Contiguous.unique (hr : r ∈ pool) (hr' : r' ∈ pool) (hv : r.Covers v) (hv' : r'.Covers v) :
    r = r' :=
  (contiguous_iff_laid.1 h).unique follows_eq haligned hr hr' hv hv'

theorem Contiguous.eq_of_base (hr : r ∈ pool) (hr' : r' ∈ pool) (hbase : r.base = r'.base) :
    r = r' :=
  (contiguous_iff_laid.1 h).eq_of_base follows_eq haligned hr hr' hbase

end

/-! ## Allocation -/

/-- What an allocation did: it cut `taken` off the front of an unused range. -/
structure Allocated (pool pool' : AddressRangePool) (taken : AddressRange) : Prop where
  used : ∀ r : AddressRange, r.used = true → (r ∈ pool' ↔ r ∈ pool ∨ r = taken)
  free : ∀ v, IsFree pool' v ↔ IsFree pool v ∧ ¬ taken.Covers v
  fresh : ∀ v, taken.Covers v → IsFree pool v
  mem : taken ∈ pool'

theorem Laid.allocateFirst (hf : Follows follows) (h : Laid follows stop start pool)
    (haligned : start % pageSize = 0) (hpos : 0 < requestedPages)
    (halloc : allocateFirst requestedPages flags pool = some (pool', base)) :
    Laid follows stop start pool' ∧
      Allocated pool pool' { used := true, base, pages := requestedPages, flags } := by
  induction pool generalizing start pool' with
  | nil => cases halloc
  | cons range rest ih =>
    have hbehind : ∀ v, IsFree rest v → pageOf range.base + range.pages ≤ v := by
      rintro v ⟨r, hr, -, hv⟩
      exact h.not_covers_tail hf haligned hr hv
    obtain ⟨hbase, hpages, hrest⟩ := h
    have halg := hf.aligned hbase haligned
    rw [AddressRangePool.allocateFirst] at halloc
    split at halloc
    next hfound =>
      simp only [Bool.and_eq_true, Bool.not_eq_true', ge_iff_le, decide_eq_true_eq] at hfound
      obtain ⟨hunused, hle⟩ := hfound
      simp only at halloc
      split at halloc
      next hmore =>
        -- the range is split, and its rest stays unused
        cases halloc
        have hsplit : range.base + requestedPages * pageSize +
            (range.pages - requestedPages) * pageSize = range.base + range.pages * pageSize := by
          rw [Nat.add_assoc, ← Nat.add_mul, Nat.add_sub_cancel' hle]
        rw [← hsplit] at hrest
        refine ⟨⟨hbase, hpos, hf.refl (aligned_add_mul halg _), hmore, hrest⟩, ?_, ?_, ?_, ?_⟩
        · intro r hr
          have hne : r ≠ range := fun heq => by rw [heq, hunused] at hr; cases hr
          have hne' : r ≠ { base := range.base + requestedPages * pageSize,
                            pages := range.pages - requestedPages } :=
            fun heq => by rw [heq] at hr; cases hr
          simp only [mem_cons, hne, hne', false_or]
          exact or_comm
        · intro v
          have hpage := pageOf_add_mul halg requestedPages
          have hb := hbehind v
          simp only [isFree_cons, AddressRange.Covers, hpage, hunused, true_and,
            reduceCtorEq, false_and, false_or]
          constructor
          · rintro (hv | hv)
            · exact ⟨Or.inl ⟨by omega, by omega⟩, by omega⟩
            · have := hb hv
              exact ⟨Or.inr hv, by omega⟩
          · rintro ⟨hv | hv, hnot⟩
            · exact Or.inl ⟨by omega, by omega⟩
            · exact Or.inr hv
        · intro v hv
          exact ⟨range, mem_cons_self, hunused, hv.1, hv.2.trans_le (by simp only; omega)⟩
        · exact mem_cons_self
      next hfit =>
        cases halloc
        obtain rfl : range.pages = requestedPages := by omega
        refine ⟨⟨hbase, hpos, hrest⟩, ?_, ?_, ?_, ?_⟩
        · intro r hr
          have hne : r ≠ range := fun heq => by rw [heq, hunused] at hr; cases hr
          simp only [mem_cons, hne, false_or]
          exact or_comm
        · intro v
          have hb := hbehind v
          simp only [isFree_cons, AddressRange.Covers, hunused, true_and, reduceCtorEq, false_and,
            false_or]
          constructor
          · intro hv
            have := hb hv
            exact ⟨Or.inr hv, by omega⟩
          · rintro ⟨hv | hv, hnot⟩
            · exact absurd hv hnot
            · exact hv
        · exact fun v hv => ⟨range, mem_cons_self, hunused, hv⟩
        · exact mem_cons_self
    · obtain ⟨⟨rest', base'⟩, hrec, heq⟩ := Option.map_eq_some_iff.1 halloc
      cases heq
      obtain ⟨hlaid, hallocated⟩ := ih hrest (aligned_add_mul halg _) hrec
      refine ⟨⟨hbase, hpages, hlaid⟩, ?_, ?_, ?_, ?_⟩
      · intro r hr
        rw [mem_cons, mem_cons, hallocated.used r hr, or_assoc]
      · intro v
        have hnot : range.Covers v → ¬ ({ used := true, base, pages := requestedPages, flags } :
            AddressRange).Covers v := by
          intro hv htaken
          exact absurd hv.2 (Nat.not_lt.2 (hbehind v (hallocated.fresh v htaken)))
        rw [isFree_cons, isFree_cons, hallocated.free v]
        tauto
      · exact fun v hv => isFree_cons.2 (Or.inr (hallocated.fresh v hv))
      · exact List.mem_cons_of_mem _ hallocated.mem

theorem Laid.allocate_spec (hf : Follows follows) (h : Laid follows stop start pool)
    (haligned : start % pageSize = 0)
    (halloc : allocate pool requestedPages flags = some (pool', base)) :
    Laid follows stop start pool' ∧ Allocated pool pool'
      { used := true, base, pages := if requestedPages = 0 then 1 else requestedPages, flags } := by
  refine h.allocateFirst hf haligned ?_ halloc
  split <;> omega

theorem Contiguous.allocate_spec (h : Contiguous stop start pool) (haligned : start % pageSize = 0)
    (halloc : allocate pool requestedPages flags = some (pool', base)) :
    Contiguous stop start pool' ∧ Allocated pool pool'
      { used := true, base, pages := if requestedPages = 0 then 1 else requestedPages, flags } := by
  rw [contiguous_iff_laid] at h ⊢
  exact h.allocate_spec follows_eq haligned halloc

/-! ## Freeing -/

theorem Laid.mergeFrom (hf : Follows follows) {current : AddressRange} {rest : AddressRangePool}
    (h : Laid follows stop start (current :: rest)) (haligned : start % pageSize = 0) :
    Laid follows stop start (mergeFrom current rest) ∧
      (∀ r : AddressRange, r.used = true → (r ∈ AddressRangePool.mergeFrom current rest ↔
        r ∈ current :: rest)) ∧
      ∀ v, IsFree (AddressRangePool.mergeFrom current rest) v ↔ IsFree (current :: rest) v := by
  induction rest generalizing current start with
  | nil => exact ⟨h, fun _ _ => Iff.rfl, fun _ => Iff.rfl⟩
  | cons next rest ih =>
    obtain ⟨hbase, hpages, hnext, hpages', hrest⟩ := h
    have halg := hf.aligned hbase haligned
    rw [AddressRangePool.mergeFrom]
    split
    next hmerge =>
      simp only [Bool.and_eq_true, Bool.not_eq_true', decide_eq_true_eq] at hmerge
      obtain ⟨⟨hunused, hunused'⟩, hadjacent⟩ := hmerge
      have hall : Laid follows stop start
          ({ current with pages := current.pages + next.pages } :: rest) := by
        refine ⟨hbase, Nat.add_pos_left hpages _, ?_⟩
        rw [Nat.add_mul, ← Nat.add_assoc, hadjacent]
        exact hrest
      obtain ⟨hlaid, hused, hfree⟩ := ih hall haligned
      refine ⟨hlaid, fun r hr => ?_, fun v => ?_⟩
      · have hne : r ≠ current := fun heq => by rw [heq, hunused] at hr; cases hr
        have hne' : r ≠ next := fun heq => by rw [heq, hunused'] at hr; cases hr
        have hne'' : r ≠ { current with pages := current.pages + next.pages } :=
          fun heq => by rw [heq] at hr; exact absurd (hr.symm.trans hunused) (by decide)
        simp [hused r hr, hne, hne', hne'']
      · have hpage := pageOf_add_mul halg current.pages
        rw [hadjacent] at hpage
        rw [hfree v]
        simp only [isFree_cons, AddressRange.Covers, hunused, hunused', true_and, hpage]
        constructor
        · rintro (hv | hv)
          · by_cases hfirst : v < pageOf current.base + current.pages
            · exact Or.inl ⟨by omega, by omega⟩
            · exact Or.inr (Or.inl ⟨by omega, by omega⟩)
          · exact Or.inr (Or.inr hv)
        · rintro (hv | hv | hv)
          · exact Or.inl ⟨by omega, by omega⟩
          · exact Or.inl ⟨by omega, by omega⟩
          · exact Or.inr hv
    · obtain ⟨hlaid, hused, hfree⟩ :=
        ih ⟨hnext, hpages', hrest⟩ (aligned_add_mul halg _)
      refine ⟨⟨hbase, hpages, hlaid⟩, fun r hr => ?_, fun v => ?_⟩
      · rw [mem_cons, hused r hr, ← mem_cons]
      · rw [isFree_cons, hfree v, ← isFree_cons]

/-- What freeing the used range `freed` does. -/
structure Freed (pool pool' : AddressRangePool) (freed : AddressRange) : Prop where
  used : ∀ r : AddressRange, r.used = true → (r ∈ pool' ↔ r ∈ pool ∧ r ≠ freed)
  free : ∀ v, IsFree pool' v ↔ IsFree pool v ∨ freed.Covers v

section

variable (hf : Follows follows) (h : Laid follows stop start pool) (haligned : start % pageSize = 0)
  (hmem : freed ∈ pool) (hused : freed.used = true)
include hf h haligned hmem hused

theorem Laid.release :
    Laid follows stop start (release freed.base pool) ∧
      Freed pool (AddressRangePool.release freed.base pool) freed := by
  induction pool generalizing start with
  | nil => cases hmem
  | cons range rest ih =>
    have hunique : range.base = freed.base → range = freed := fun hr =>
      h.eq_of_base hf haligned mem_cons_self hmem hr
    have hbehind : freed ∈ rest → range ≠ freed := by
      rintro hrest rfl
      have hpos := (h.bounds hf haligned hmem).2.2.2
      have := h.not_covers_tail hf haligned hrest ⟨le_rfl, by omega⟩
      omega
    have hnot : ∀ r ∈ rest, range = freed → r ≠ freed := by
      rintro r hr rfl rfl
      exact hbehind hr rfl
    obtain ⟨hbase, hpages, hrest⟩ := h
    have halg := hf.aligned hbase haligned
    rw [AddressRangePool.release]
    split
    next hfound =>
      obtain rfl := hunique hfound
      refine ⟨⟨hbase, hpages, hrest⟩, fun r hr => ?_, fun v => ?_⟩
      · have hne : r ≠ { range with used := false } := fun heq => by rw [heq] at hr; cases hr
        simp only [mem_cons, hne, false_or]
        constructor
        · exact fun hr' => ⟨Or.inr hr', hnot r hr' rfl⟩
        · rintro ⟨rfl | hr', hne⟩
          · exact absurd rfl hne
          · exact hr'
      · simp only [isFree_cons, hused, reduceCtorEq, false_and, false_or, true_and]
        exact or_comm
    next hother =>
      have hrange : range ≠ freed := fun heq => hother (by rw [heq])
      have hmem' : freed ∈ rest := (mem_cons.1 hmem).resolve_left (Ne.symm hrange)
      obtain ⟨hlaid, hfreed⟩ := ih hrest (aligned_add_mul halg _) hmem'
      refine ⟨⟨hbase, hpages, hlaid⟩, fun r hr => ?_, fun v => ?_⟩
      · rw [mem_cons, mem_cons, hfreed.used r hr]
        constructor
        · rintro (rfl | hr')
          · exact ⟨Or.inl rfl, hrange⟩
          · exact ⟨Or.inr hr'.1, hr'.2⟩
        · rintro ⟨rfl | hr', hne⟩
          · exact Or.inl rfl
          · exact Or.inr ⟨hr', hne⟩
      · rw [isFree_cons, isFree_cons, hfreed.free v, or_assoc]

theorem Laid.free_spec :
    Laid follows stop start (free pool freed.base).1 ∧ Freed pool (free pool freed.base).1 freed := by
  rw [free, h.find_eq_some hf haligned hmem]
  simp only [hused, if_true]
  obtain ⟨hlaid, hfreed⟩ := h.release hf haligned hmem hused
  cases hpool : AddressRangePool.release freed.base pool with
  | nil =>
    rw [hpool] at hlaid hfreed
    exact ⟨hlaid, hfreed⟩
  | cons first rest =>
    rw [hpool] at hlaid hfreed
    obtain ⟨hmerged, hsame, hfree⟩ := hlaid.mergeFrom hf haligned
    exact ⟨hmerged, fun r hr => (hsame r hr).trans (hfreed.used r hr),
      fun v => (hfree v).trans (hfreed.free v)⟩

end

theorem Contiguous.free_spec (h : Contiguous stop start pool) (haligned : start % pageSize = 0)
    (hmem : freed ∈ pool) (hused : freed.used = true) :
    Contiguous stop start (free pool freed.base).1 ∧ Freed pool (free pool freed.base).1 freed := by
  rw [contiguous_iff_laid] at h ⊢
  exact h.free_spec follows_eq haligned hmem hused

theorem Contiguous.free_unused (h : Contiguous stop start pool) (haligned : start % pageSize = 0)
    (hmem : range ∈ pool) (hunused : range.used = false) :
    (AddressRangePool.free pool range.base).1 = pool := by
  rw [AddressRangePool.free,
    (contiguous_iff_laid.1 h).find_eq_some follows_eq haligned hmem]
  simp [hunused]

end AddressRangePool

end MeetixOS.Kernel
