import MeetixOS.Kernel.Types

/-! # Physical pages and address spaces

`memory/physical/PPallocator.cpp` with its bitmap, `memory/physical/PPreferenceTracker.cpp`, and
`memory/AddressSpace.cpp`. A page is named by its number; `pageOf` is that of a virtual address. `none` is a
panic (no page left, an unaligned address, a user page in a table of the kernel), or `virtualToPhysical`
reading a page table that does not exist.

The lowest 4 MiB and the area from `CONST_KERNEL_AREA_START` on belong to the kernel in every address
space. -/

open Function (update update_of_ne update_self)

namespace MeetixOS.Kernel

/-! ## Addresses -/

def pageSize : Nat := 0x1000

def constUserMaximumHeapBreak : Nat := 0x80000000

def constUserVirtualRangesStart : Nat := 0xA0000000

def constKernelAreaStart : Nat := 0xC0000000

/-- The number of the page that an address lies in. -/
def pageOf (address : Nat) : Nat := address / pageSize

def pageAlignDown (value : Nat) : Nat := value / pageSize * pageSize

/-- `PAGE_ALIGN_UP`, in 32 bits. -/
def pageAlignUp (value : Nat) : Nat :=
  if value % pageSize ≠ 0 then u32 (pageAlignDown value + pageSize) else value

theorem start_aligned : constUserVirtualRangesStart % pageSize = 0 := by decide

theorem pageOf_add_pageSize (virt : Nat) : pageOf (virt + pageSize) = pageOf virt + 1 := by
  simp only [pageOf, pageSize]
  omega

theorem pageOf_add_mul {address : Nat} (haligned : address % pageSize = 0) (i : Nat) :
    pageOf (address + i * pageSize) = pageOf address + i := by
  simp only [pageOf, pageSize] at *
  omega

theorem aligned_add_mul {address : Nat} (haligned : address % pageSize = 0) (i : Nat) :
    (address + i * pageSize) % pageSize = 0 := by
  simp only [pageSize] at *
  omega

/-! ## The physical page allocator -/

/-- `PPallocator`: for each page its bit in the bitmap, set if the page is free. -/
structure PPallocator where
  bitmap : Nat → Bool

/-- The number of pages that an address of 32 bits can name. -/
def physicalPages : Nat := 0x100000

namespace PPallocator

/-- The first set bit among the next `n`, from `page` on. -/
def findFree (bitmap : Nat → Bool) (page : Nat) : Nat → Option Nat
  | 0 => none
  | n + 1 => if bitmap page then some page else findFree bitmap (page + 1) n

/-- `PPallocator::allocate`: the lowest free page is taken. The address 0 means that there is none, and
page 0 has that address. -/
def allocate (a : PPallocator) : Option (PPallocator × Nat) :=
  match findFree a.bitmap 0 physicalPages with
  | some page => if page = 0 then none else some (⟨update a.bitmap page false⟩, page)
  | none => none

def free (a : PPallocator) (page : Nat) : PPallocator := ⟨update a.bitmap page true⟩

theorem findFree_spec {bitmap : Nat → Bool} {page n found : Nat}
    (h : findFree bitmap page n = some found) : bitmap found = true := by
  induction n generalizing page with
  | zero => cases h
  | succ n ih =>
    rw [findFree] at h
    split at h
    next hset =>
      cases h
      exact hset
    · exact ih h

theorem allocate_spec {a a' : PPallocator} {page : Nat} (h : a.allocate = some (a', page)) :
    a.bitmap page = true ∧ page ≠ 0 ∧ a'.bitmap = update a.bitmap page false := by
  rw [allocate] at h
  split at h
  next found hfound =>
    split at h
    · cases h
    next hne =>
      cases h
      exact ⟨findFree_spec hfound, hne, rfl⟩
  · cases h

end PPallocator

/-! ## Reference counts -/

/-- `PPreferenceTracker`: which of its tables exist, and the counts of the pages. Each table has the
counts of 1024 pages. -/
structure PPreferenceTracker where
  tables : Nat → Bool
  referenceCount : Nat → Int

namespace PPreferenceTracker

/-- `PPreferenceTracker::increment`; a missing table is created with all counts 0. -/
def increment (t : PPreferenceTracker) (page : Nat) : PPreferenceTracker :=
  let count := if t.tables (page / 1024) then t.referenceCount
    else fun q => if q / 1024 = page / 1024 then 0 else t.referenceCount q
  { tables := update t.tables (page / 1024) true
    referenceCount := update count page (s16 (count page + 1)) }

/-- `PPreferenceTracker::decrement`, with the count that it returns. -/
def decrement (t : PPreferenceTracker) (page : Nat) : PPreferenceTracker × Int :=
  if t.tables (page / 1024) then
    let count := s16 (t.referenceCount page - 1)
    ({ t with referenceCount := update t.referenceCount page count }, count)
  else (t, 0)

/-- The count of a page; a missing table has no count above 0. -/
def count (t : PPreferenceTracker) (page : Nat) : Int :=
  if t.tables (page / 1024) then t.referenceCount page else 0

theorem count_increment (t : PPreferenceTracker) (page q : Nat) :
    (t.increment page).count q = if q = page then s16 (t.count q + 1) else t.count q := by
  by_cases hq : q = page
  · subst hq
    simp only [count, increment, update_self, if_true]
    split
    · rfl
    · simp
  · rw [if_neg hq]
    simp only [count, increment, update_of_ne hq]
    by_cases htable : q / 1024 = page / 1024
    · rw [htable, update_self, if_pos rfl]
      by_cases hthere : t.tables (page / 1024) = true
      · rw [if_pos hthere, if_pos hthere]
      · rw [if_neg hthere, if_neg hthere, if_pos htable]
    · rw [update_of_ne htable]
      by_cases hthere : t.tables (page / 1024) = true
      · rw [if_pos hthere]
      · rw [if_neg hthere, if_neg htable]

theorem count_decrement_of_ne (t : PPreferenceTracker) {page q : Nat} (hq : q ≠ page) :
    (t.decrement page).1.count q = t.count q := by
  rw [decrement]
  split
  · simp only [count, update_of_ne hq]
  · rfl

end PPreferenceTracker

/-! ## Address spaces -/

/-- An entry of a page table that is not 0: the page and the flags. -/
structure PageEntry where
  page : Nat
  flags : Nat
  deriving DecidableEq

def defaultUserPageFlags : Nat := 7

/-- `PAGE_READWRITE`, a bit of the flags. -/
def PageEntry.isWritable (e : PageEntry) : Bool := e.flags / 2 % 2 = 1

/-- The tables of an address space, and in each the entries that are not 0. -/
abbrev PageDirectory := Nat → Option (Nat → Option PageEntry)

namespace PageDirectory

def empty : PageDirectory := fun _ => none

/-- The entry for a virtual page. -/
def entry (directory : PageDirectory) (v : Nat) : Option PageEntry :=
  (directory (v / 1024)).bind fun table => table (v % 1024)

/-- The directory with one entry of an existing or new table written. -/
def setEntry (directory : PageDirectory) (v : Nat) (e : Option PageEntry) : PageDirectory :=
  let table := (directory (v / 1024)).getD fun _ => none
  update directory (v / 1024) (some (update table (v % 1024) e))

theorem entry_setEntry (directory : PageDirectory) (v w : Nat) (e : Option PageEntry) :
    (directory.setEntry v e).entry w = if w = v then e else directory.entry w := by
  rw [setEntry, entry, entry]
  by_cases htable : w / 1024 = v / 1024
  · rw [htable, update_self, Option.bind_some, Function.update_apply]
    have hiff : w % 1024 = v % 1024 ↔ w = v := by omega
    simp only [hiff]
    cases directory (v / 1024) <;> rfl
  · rw [update_of_ne htable, if_neg (fun h => htable (by rw [h]))]

theorem isSome_setEntry (directory : PageDirectory) (v t : Nat) (e : Option PageEntry)
    (h : (directory t).isSome) : (directory.setEntry v e t).isSome := by
  rw [setEntry, Function.update_apply]
  split
  · rfl
  · exact h

theorem isSome_of_entry {directory : PageDirectory} {v : Nat} {e : PageEntry}
    (h : directory.entry v = some e) : (directory (v / 1024)).isSome := by
  rw [entry, Option.bind_eq_some_iff] at h
  obtain ⟨table, htable, -⟩ := h
  rw [htable]
  rfl

end PageDirectory

/-- The page behind a virtual page; 0 if nothing is mapped. -/
def pageBehind (directory : PageDirectory) (v : Nat) : Nat :=
  match directory.entry v with
  | some e => e.page
  | none => 0

namespace AddressSpace

/-- `AddressSpace::map`, with a user's flags; the result says whether the entry was written. -/
def map (a : PPallocator) (directory : PageDirectory) (virtualAddr page : Nat)
    (allowOverride : Bool) : Option (PPallocator × PageDirectory × Bool) :=
  let v := pageOf virtualAddr
  let written := directory.setEntry v (some ⟨page, defaultUserPageFlags⟩)
  if virtualAddr % pageSize ≠ 0 then none
  else if v / 1024 = 0 ∨ virtualAddr ≥ constKernelAreaStart then none
  else match directory (v / 1024) with
    | none => a.allocate.map fun (a, _) => (a, written, true)
    | some table =>
      if (table (v % 1024)).isNone || allowOverride then some (a, written, true)
      else some (a, directory, false)

def unmap (directory : PageDirectory) (virtualAddr : Nat) : PageDirectory :=
  let v := pageOf virtualAddr
  match directory (v / 1024) with
  | none => directory
  | some _ => directory.setEntry v none

/-- `AddressSpace::virtualToPhysical`: 0 for a page that is not mapped. -/
def virtualToPhysical (directory : PageDirectory) (addr : Nat) : Option Nat :=
  (directory (pageOf addr / 1024)).map fun table =>
    match table (pageOf addr % 1024) with
    | some e => e.page
    | none => 0

theorem entry_unmap (directory : PageDirectory) (virtualAddr v : Nat) :
    (unmap directory virtualAddr).entry v =
      if v = pageOf virtualAddr then none else directory.entry v := by
  simp only [unmap]
  cases htable : directory (pageOf virtualAddr / 1024) with
  | some table => exact PageDirectory.entry_setEntry ..
  | none =>
    show directory.entry v = _
    split
    next hv => rw [PageDirectory.entry, hv, htable, Option.bind_none]
    · rfl

variable {directory directory' : PageDirectory} {addr page virtualAddr : Nat} {allowOverride : Bool}
  {a a' : PPallocator}

theorem isSome_unmap {t : Nat} (virtualAddr : Nat)
    (h : (directory t).isSome) : (unmap directory virtualAddr t).isSome := by
  simp only [unmap]
  cases directory (pageOf virtualAddr / 1024) with
  | none => exact h
  | some table => exact PageDirectory.isSome_setEntry _ _ _ _ h

theorem virtualToPhysical_of_table (h : (directory (pageOf addr / 1024)).isSome) :
    virtualToPhysical directory addr = some (pageBehind directory (pageOf addr)) := by
  obtain ⟨table, htable⟩ := Option.isSome_iff_exists.1 h
  rw [virtualToPhysical, htable, Option.map_some, pageBehind, PageDirectory.entry, htable,
    Option.bind_some]

theorem virtualToPhysical_of_entry {e : PageEntry}
    (h : directory.entry (pageOf addr) = some e) : virtualToPhysical directory addr = some e.page := by
  rw [PageDirectory.entry, Option.bind_eq_some_iff] at h
  obtain ⟨table, htable, hentry⟩ := h
  rw [virtualToPhysical, htable, Option.map_some, hentry]

theorem virtualToPhysical_cases (h : virtualToPhysical directory addr = some page) :
    (∃ e, directory.entry (pageOf addr) = some e ∧ e.page = page) ∨
      directory.entry (pageOf addr) = none ∧ page = 0 := by
  obtain ⟨table, htable, hpage⟩ := Option.map_eq_some_iff.1 h
  rw [PageDirectory.entry, htable, Option.bind_some]
  split at hpage
  next e hentry => exact Or.inl ⟨e, hentry, hpage⟩
  next hentry => exact Or.inr ⟨hentry, hpage.symm⟩

theorem map_bounds {r : PPallocator × PageDirectory × Bool}
    (h : map a directory virtualAddr page allowOverride = some r) :
    virtualAddr % pageSize = 0 ∧ pageOf virtualAddr / 1024 ≠ 0 ∧
      virtualAddr < constKernelAreaStart := by
  simp only [map] at h
  split at h
  · cases h
  next haligned =>
    split at h
    · cases h
    next huser =>
      simp only [not_or, Nat.not_le] at huser
      exact ⟨not_not.1 haligned, huser⟩

theorem map_isSome {allowOverride written : Bool}
    (h : map a directory virtualAddr page allowOverride = some (a', directory', written)) {t : Nat}
    (ht : (directory t).isSome) : (directory' t).isSome := by
  have hset := PageDirectory.isSome_setEntry directory (pageOf virtualAddr) t
    (some ⟨page, defaultUserPageFlags⟩) ht
  simp only [map] at h
  split at h
  · cases h
  · split at h
    · cases h
    · split at h
      · obtain ⟨⟨a1, table⟩, -, heq⟩ := Option.map_eq_some_iff.1 h
        cases heq
        exact hset
      · split at h
        · cases h
          exact hset
        · cases h
          exact ht

theorem map_entry_none (h : map a directory virtualAddr page false = some (a', directory', true)) :
    directory.entry (pageOf virtualAddr) = none := by
  simp only [map] at h
  split at h
  · cases h
  · split at h
    · cases h
    · split at h
      next hnone => rw [PageDirectory.entry, hnone, Option.bind_none]
      next table htable =>
        split at h
        next hentry =>
          rw [Bool.or_false, Option.isNone_iff_eq_none] at hentry
          rw [PageDirectory.entry, htable, Option.bind_some, hentry]
        · cases h

theorem map_spec {allowOverride written : Bool}
    (h : map a directory virtualAddr page allowOverride = some (a', directory', written)) :
    (a' = a ∨ ∃ table, a.allocate = some (a', table)) ∧
    ((written = true ∧ ∀ v, directory'.entry v =
        if v = pageOf virtualAddr then some ⟨page, defaultUserPageFlags⟩ else directory.entry v) ∨
      written = false ∧ directory' = directory ∧ allowOverride = false ∧
        (directory.entry (pageOf virtualAddr)).isSome) := by
  have hset : ∀ v, (directory.setEntry (pageOf virtualAddr)
      (some ⟨page, defaultUserPageFlags⟩)).entry v =
      if v = pageOf virtualAddr then some ⟨page, defaultUserPageFlags⟩ else directory.entry v :=
    fun v => PageDirectory.entry_setEntry ..
  simp only [map] at h
  split at h
  · cases h
  · split at h
    · cases h
    · split at h
      · obtain ⟨⟨a1, table⟩, hallocate, heq⟩ := Option.map_eq_some_iff.1 h
        cases heq
        exact ⟨Or.inr ⟨table, hallocate⟩, Or.inl ⟨rfl, hset⟩⟩
      next table htable =>
        split at h
        · cases h
          exact ⟨Or.inl rfl, Or.inl ⟨rfl, hset⟩⟩
        next hkept =>
          cases h
          simp only [Bool.or_eq_true, not_or, Bool.not_eq_true, Option.isNone_eq_false_iff] at hkept
          refine ⟨Or.inl rfl, Or.inr ⟨rfl, rfl, hkept.2, ?_⟩⟩
          rw [PageDirectory.entry, htable, Option.bind_some]
          exact hkept.1

end AddressSpace

end MeetixOS.Kernel
