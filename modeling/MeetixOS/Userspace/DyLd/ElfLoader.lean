import Mathlib.Data.List.Sort

/-! # The dynamic loader's ELF headers

`parse_header`, `parse_program_headers` and `parse_section_headers` of DyLd's `ElfLoader.cc` with the
templates of `ElfLoader.hhi`. A file is the list of its bytes. `map_to_with` has no `return` behind a
read that succeeds: what its result is then is the parameter `unbuilt`. The buffer of `parse_headers` is
not initialized, and what is in and behind it is the parameter `fresh`. -/

namespace MeetixOS.DyLd

/-! ## The file -/

/-- `ElfLoadError`, as far as the functions here give it. -/
inductive ElfLoadError
  | ioError
  | formatError
  | unsupportedElfError
  | sizeError
  deriving DecidableEq

structure Elf32Ehdr where
  e_ident : List UInt8
  e_type : Nat
  e_machine : Nat
  e_version : Nat
  e_phoff : Nat
  e_shoff : Nat
  e_phentsize : Nat
  e_phnum : Nat
  e_shentsize : Nat
  e_shnum : Nat

structure Elf32Phdr where
  p_type : Nat
  p_offset : Nat

structure Elf32Shdr where
  sh_type : Nat
  sh_offset : Nat

/-- A little-endian number of `n` bytes. -/
def number (bytes : List UInt8) (offset : Nat) : (n : Nat) → Nat
  | 0 => 0
  | n + 1 => (bytes.getD offset 0).toNat + 256 * number bytes (offset + 1) n

def Elf32Ehdr.ofBytes (bytes : List UInt8) : Elf32Ehdr where
  e_ident := bytes.take 16
  e_type := number bytes 16 2
  e_machine := number bytes 18 2
  e_version := number bytes 20 4
  e_phoff := number bytes 28 4
  e_shoff := number bytes 32 4
  e_phentsize := number bytes 42 2
  e_phnum := number bytes 44 2
  e_shentsize := number bytes 46 2
  e_shnum := number bytes 48 2

def Elf32Phdr.ofBytes (bytes : List UInt8) : Elf32Phdr := ⟨number bytes 0 4, number bytes 4 4⟩

def Elf32Shdr.ofBytes (bytes : List UInt8) : Elf32Shdr := ⟨number bytes 4 4, number bytes 16 4⟩

/-- The sizes of the three structures. -/
def sizeofElf32Ehdr : Nat := 52
def sizeofElf32Phdr : Nat := 32
def sizeofElf32Shdr : Nat := 40

/-! ## The code -/

/-- `map_to_with`: what is in the buffer behind it. -/
def map_to_with (unbuilt : Option ElfLoadError) (file : List UInt8) (offset size : Nat) :
    Except ElfLoadError (List UInt8) :=
  if offset + size ≤ file.length then
    match unbuilt with
    | none => .ok ((file.drop offset).take size)
    | some error => .error error
  else .error .sizeError

/-- The checks of `parse_header`. -/
def checkHeader (header : Elf32Ehdr) : Except ElfLoadError Elf32Ehdr :=
  if header.e_ident.getD 0 0 ≠ 0x7f ∨ header.e_ident.getD 1 0 ≠ 0x45 ∨ header.e_ident.getD 2 0 ≠ 0x4c ∨
      header.e_ident.getD 3 0 ≠ 0x46 then .error .formatError
  else if header.e_ident.getD 4 0 = 1 ∨ header.e_ident.getD 5 0 = 1 ∨ header.e_ident.getD 6 0 = 1 then
    .error .unsupportedElfError
  -- `ET_DYN` and `EM_386` are both 3, and both are compared with the machine
  else if header.e_version ≠ 1 ∨ header.e_machine ≠ 3 ∨ header.e_machine ≠ 3 then
    .error .unsupportedElfError
  else if header.e_phoff = 0 ∨ header.e_shoff = 0 ∨ header.e_phnum = 0 ∨ header.e_phentsize ≠ 4 ∨
      header.e_shnum = 0 ∨ header.e_shentsize ≠ 4 then .error .unsupportedElfError
  else .ok header

def parse_header (unbuilt : Option ElfLoadError) (file : List UInt8) : Except ElfLoadError Elf32Ehdr :=
  (map_to_with unbuilt file 0 sizeofElf32Ehdr).bind fun bytes => checkHeader (Elf32Ehdr.ofBytes bytes)

/-- The buffer of `parse_headers` with `valid_headers`; `written` records where headers are read to. -/
structure Headers (T : Type) where
  buffer : Nat → T
  valid : Nat
  written : List Nat

/-- One round of the loop of `parse_headers`: the header is read to `valid`, and the one behind it is
tested. -/
def parse_entry {T : Type} (unbuilt : Option ElfLoadError) (file : List UInt8) (size : Nat)
    (ofBytes : List UInt8 → T) (validator : T → Bool) (h : Headers T) (offset : Nat) :
    Except ElfLoadError (Headers T) :=
  if offset > file.length then .error .sizeError
  else
    (map_to_with unbuilt file offset size).map fun bytes =>
      let buffer := Function.update h.buffer h.valid (ofBytes bytes)
      { buffer, valid := if validator (buffer (h.valid + 1)) then h.valid + 1 else h.valid,
        written := h.valid :: h.written }

/-- `parse_headers`: where it has written, and the values of the vector. Its constructor takes
`entry_count` for a value. -/
def parse_headers {T : Type} (unbuilt : Option ElfLoadError) (fresh : Nat → T) (file : List UInt8)
    (tableOffset entrySize entryCount size : Nat) (ofBytes : List UInt8 → T) (validator : T → Bool)
    (sorter : T → T → Bool) : Except ElfLoadError (List Nat × List T) :=
  if entrySize ≠ 4 then .error .unsupportedElfError
  else do
    let table ← map_to_with unbuilt file tableOffset (entrySize * entryCount)
    let offsets := ((List.range entryCount).map fun i => number table (4 * i) 4).mergeSort
    let headers ← offsets.foldlM (parse_entry unbuilt file size ofBytes validator) ⟨fresh, 0, []⟩
    return (headers.written,
      ((List.range entryCount).map headers.buffer).mergeSort fun a b => !sorter b a)

/-- The filter of `parse_program_headers`. -/
def loadable (header : Elf32Phdr) : Bool :=
  header.p_type = 1 || header.p_type = 2 || header.p_type = 6 || header.p_type = 7

def parse_program_headers (unbuilt : Option ElfLoadError) (fresh : Nat → Elf32Phdr) (file : List UInt8)
    (header : Elf32Ehdr) : Except ElfLoadError (List Nat × List Elf32Phdr) :=
  parse_headers unbuilt fresh file header.e_phoff header.e_phentsize header.e_phnum sizeofElf32Phdr
    Elf32Phdr.ofBytes loadable fun a b => a.p_offset < b.p_offset

/-- The filter of `parse_section_headers`. -/
def loadableSection (header : Elf32Shdr) : Bool :=
  header.sh_type ≠ 0 && header.sh_type ≠ 7 && header.sh_type ≠ 10

def parse_section_headers (unbuilt : Option ElfLoadError) (fresh : Nat → Elf32Shdr) (file : List UInt8)
    (header : Elf32Ehdr) : Except ElfLoadError (List Nat × List Elf32Shdr) :=
  parse_headers unbuilt fresh file header.e_shoff header.e_shentsize header.e_shnum sizeofElf32Shdr
    Elf32Shdr.ofBytes loadableSection fun a b => a.sh_offset < b.sh_offset

/-! ## The format -/

/-- The header of a file. -/
def headerOf (file : List UInt8) : Elf32Ehdr := Elf32Ehdr.ofBytes (file.take sizeofElf32Ehdr)

/-- A 32-bit little-endian shared object of the current version for the 386 with both tables. -/
def IsLibrary (file : List UInt8) : Prop :=
  let header := headerOf file
  sizeofElf32Ehdr ≤ file.length ∧ header.e_ident.take 7 = [0x7f, 0x45, 0x4c, 0x46, 1, 1, 1] ∧
    header.e_version = 1 ∧ header.e_type = 3 ∧ header.e_machine = 3 ∧
    (header.e_phoff ≠ 0 ∧ header.e_phnum ≠ 0 ∧ header.e_phentsize = sizeofElf32Phdr) ∧
    header.e_shoff ≠ 0 ∧ header.e_shnum ≠ 0 ∧ header.e_shentsize = sizeofElf32Shdr

/-- The header is for the 386, but its class, data and version are all other ones, and the entries
are of pointer size. -/
def Elf32Ehdr.IsMisfit (header : Elf32Ehdr) : Prop :=
  (header.e_ident.getD 0 0 = 0x7f ∧ header.e_ident.getD 1 0 = 0x45 ∧ header.e_ident.getD 2 0 = 0x4c ∧
      header.e_ident.getD 3 0 = 0x46) ∧
    (header.e_ident.getD 4 0 ≠ 1 ∧ header.e_ident.getD 5 0 ≠ 1 ∧ header.e_ident.getD 6 0 ≠ 1) ∧
    (header.e_version = 1 ∧ header.e_machine = 3) ∧
    header.e_phoff ≠ 0 ∧ header.e_shoff ≠ 0 ∧ header.e_phnum ≠ 0 ∧ header.e_phentsize = 4 ∧
    header.e_shnum ≠ 0 ∧ header.e_shentsize = 4

/-- The vector has the headers that the validator wants, once each and in order, and no write leaves
the buffer. -/
def ParsesHeaders {T : Type} (file : List UInt8) (tableOffset entryCount size : Nat)
    (ofBytes : List UInt8 → T) (validator : T → Bool) (sorter : T → T → Bool)
    (result : Except ElfLoadError (List Nat × List T)) : Prop :=
  ∃ written values, result = .ok (written, values) ∧ (∀ i ∈ written, i < entryCount) ∧
    values.Perm (((List.range entryCount).map fun i =>
      ofBytes ((file.drop (number file (tableOffset + 4 * i) 4)).take size)).filter validator) ∧
    values.Pairwise fun a b => sorter b a = false

/-- What is accepted is a library, and the other way round, and its headers are read. -/
def LoadsHeaders (unbuilt : Option ElfLoadError) (freshProgram : Nat → Elf32Phdr)
    (freshSection : Nat → Elf32Shdr) (file : List UInt8) : Prop :=
  ((parse_header unbuilt file).isOk ↔ IsLibrary file) ∧
    ∀ header, parse_header unbuilt file = .ok header →
      ParsesHeaders file header.e_phoff header.e_phnum sizeofElf32Phdr Elf32Phdr.ofBytes loadable
          (fun a b => a.p_offset < b.p_offset) (parse_program_headers unbuilt freshProgram file header) ∧
        ParsesHeaders file header.e_shoff header.e_shnum sizeofElf32Shdr Elf32Shdr.ofBytes loadableSection
          (fun a b => a.sh_offset < b.sh_offset) (parse_section_headers unbuilt freshSection file header)

/-! ## Results -/

theorem checkHeader_isOk_iff (header : Elf32Ehdr) : (checkHeader header).isOk ↔ header.IsMisfit := by
  unfold checkHeader Elf32Ehdr.IsMisfit
  split_ifs <;> simp only [Except.isOk, Except.toBool] <;> grind

theorem parse_header_isOk_iff (unbuilt : Option ElfLoadError) (file : List UInt8) :
    (parse_header unbuilt file).isOk ↔
      unbuilt = none ∧ sizeofElf32Ehdr ≤ file.length ∧ (headerOf file).IsMisfit := by
  unfold parse_header map_to_with
  rw [Nat.zero_add, List.drop_zero, ← checkHeader_isOk_iff]
  by_cases hsize : sizeofElf32Ehdr ≤ file.length
  · rw [if_pos hsize]
    cases unbuilt with
    | none => exact ⟨fun h => ⟨rfl, hsize, h⟩, fun h => h.2.2⟩
    | some error => exact iff_of_false Bool.false_ne_true nofun
  · rw [if_neg hsize]
    exact iff_of_false Bool.false_ne_true fun h => hsize h.2.1

theorem IsLibrary.not_isMisfit {file : List UInt8} (h : IsLibrary file) : ¬(headerOf file).IsMisfit := by
  obtain ⟨-, hident, -⟩ := h
  rintro ⟨-, ⟨hclass, -⟩, -⟩
  apply hclass
  rw [← List.take_append_drop 7 (headerOf file).e_ident, hident]
  rfl

section

variable {T : Type} {unbuilt : Option ElfLoadError} {fresh : Nat → T} {file : List UInt8}
  {tableOffset entrySize entryCount size : Nat} {ofBytes : List UInt8 → T} {validator : T → Bool}
  {sorter : T → T → Bool} {written : List Nat} {values : List T}

theorem parse_entries_written {n : Nat} {offsets : List Nat} {h h' : Headers T}
    (hroom : h.valid + offsets.length ≤ n) (hwritten : ∀ i ∈ h.written, i < n)
    (hparse : offsets.foldlM (parse_entry unbuilt file size ofBytes validator) h = .ok h') :
    ∀ i ∈ h'.written, i < n := by
  induction offsets generalizing h with
  | nil =>
    cases hparse
    exact hwritten
  | cons offset offsets ih =>
    rw [List.length_cons] at hroom
    rw [List.foldlM_cons, parse_entry] at hparse
    split at hparse
    · cases hparse
    · cases hmap : map_to_with unbuilt file offset size with
      | error error =>
        rw [hmap] at hparse
        cases hparse
      | ok bytes =>
        rw [hmap] at hparse
        refine ih ?_ ?_ hparse
        · dsimp only
          split <;> omega
        · exact List.forall_mem_cons.2 ⟨by omega, hwritten⟩

/-- `parse_headers` writes inside of its buffer. -/
theorem parse_headers_written
    (hparse : parse_headers unbuilt fresh file tableOffset entrySize entryCount size ofBytes validator
      sorter = .ok (written, values)) : ∀ i ∈ written, i < entryCount := by
  unfold parse_headers at hparse
  split at hparse
  · cases hparse
  · cases htable : map_to_with unbuilt file tableOffset (entrySize * entryCount) with
    | error error =>
      rw [htable] at hparse
      cases hparse
    | ok table =>
      rw [htable] at hparse
      cases hheaders : (((List.range entryCount).map fun i => number table (4 * i) 4).mergeSort).foldlM
          (parse_entry unbuilt file size ofBytes validator) ⟨fresh, 0, []⟩ with
      | error error =>
        simp [bind, Except.bind, hheaders] at hparse
      | ok headers =>
        simp only [bind, Except.bind, hheaders] at hparse
        cases hparse
        exact parse_entries_written (by simp) (List.forall_mem_nil _) hheaders

end

/-- The headers that are accepted and read are right for exactly the files that are neither libraries
nor misfits. -/
theorem loadsHeaders_iff (unbuilt : Option ElfLoadError) (freshProgram : Nat → Elf32Phdr)
    (freshSection : Nat → Elf32Shdr) (file : List UInt8) :
    LoadsHeaders unbuilt freshProgram freshSection file ↔ ¬IsLibrary file ∧
      ¬(unbuilt = none ∧ sizeofElf32Ehdr ≤ file.length ∧ (headerOf file).IsMisfit) := by
  rw [LoadsHeaders, parse_header_isOk_iff]
  constructor
  · rintro ⟨haccepts, -⟩
    have hlibrary : ¬IsLibrary file := fun h => h.not_isMisfit (haccepts.2 h).2.2
    exact ⟨hlibrary, fun h => hlibrary (haccepts.1 h)⟩
  · rintro ⟨hlibrary, hmisfit⟩
    refine ⟨iff_of_false hmisfit hlibrary, fun header hheader => (hmisfit ?_).elim⟩
    rw [← parse_header_isOk_iff, hheader]
    rfl

/-- The header of a library, with one entry in each of its tables. -/
def libraryHeader : List UInt8 :=
  [0x7f, 0x45, 0x4c, 0x46, 1, 1, 1, 0, 0, 0, 0, 0, 0, 0, 0, 0, 3, 0, 3, 0, 1, 0, 0, 0, 0, 0, 0, 0,
    52, 0, 0, 0, 84, 0, 0, 0, 0, 0, 0, 0, 52, 0, 32, 0, 1, 0, 40, 0, 1, 0, 0, 0]

/-- A library is not accepted. -/
theorem libraryHeader_not_accepted :
    IsLibrary libraryHeader ∧ ¬(parse_header none libraryHeader).isOk := by
  refine ⟨⟨by decide, by decide, by decide, by decide, by decide, by decide, by decide⟩, ?_⟩
  decide

end MeetixOS.DyLd
