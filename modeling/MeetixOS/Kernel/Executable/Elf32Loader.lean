import MeetixOS.Lib.PagedMemory
import MeetixOS.Kernel.Tasking.ProcessMemory

/-! # Loading an executable

`executable/Elf32Loader.cpp`, with the bytes that it writes. `Holds img` says what lies below the virtual
ranges of a process under construction: nothing where `img` gives nothing, else a page with these bytes.
All pages of the image are mapped first, then the segments are written through the address space. -/

open Option (bind_eq_bind bind_eq_some_iff)

namespace MeetixOS.Kernel

open MeetixOS.Lib

/-! ## Data -/

/-- The bytes of the physical pages. -/
abbrev Contents := Nat → Nat → UInt8

/-- `Elf32Phdr`, with the place of the segment in the file. -/
structure ElfSegment extends Elf32Phdr where
  offset : Nat
  filesz : Nat
  align : Nat := 0

/-- A process under construction. -/
structure Loading where
  frames : Frames
  process : UserProcess
  contents : Contents

namespace ElfSegment

/-- The byte of the file at an address of the segment, and 0 elsewhere. -/
def byte (h : ElfSegment) (file : List UInt8) (x : Nat) : UInt8 :=
  if h.vaddr ≤ x ∧ x < h.vaddr + h.filesz then file.getD (h.offset + (x - h.vaddr)) 0 else 0

/-- The byte that belongs at a position of the segment: that of the file, and 0 behind them. -/
def segmentByte (h : ElfSegment) (file : List UInt8) (i : Nat) : UInt8 :=
  if i < h.filesz then file.getD (h.offset + i) 0 else 0

theorem byte_add (h : ElfSegment) (file : List UInt8) (i : Nat) :
    h.byte file (h.vaddr + i) = h.segmentByte file i := by
  rw [byte, segmentByte, Nat.add_sub_cancel_left]
  simp

/-- The address belongs to the segment in memory. -/
def Contains (h : ElfSegment) (x : Nat) : Prop := h.vaddr ≤ x ∧ x < h.vaddr + h.memsz

/-- Two segments have no page in common. -/
def PagesApart (h h' : ElfSegment) : Prop :=
  ∀ x y, h.Contains x → h'.Contains y → pageOf x ≠ pageOf y

end ElfSegment

/-- The page behind a virtual page. -/
def PageDirectory.view (directory : PageDirectory) (v : Nat) : Option Nat :=
  (directory.entry v).map PageEntry.page

/-- What the process reads at an address. -/
def Loading.readByte (s : Loading) (x : Nat) : Option UInt8 :=
  (s.process.pageDirectory.view (pageOf x)).map fun page => s.contents page (x % pageSize)

/-! ## What lies in the image -/

/-- The pages of the process are apart and taken, and below the virtual ranges there is what `img` says:
for a page nothing, or bytes by their address. -/
structure Loading.Holds (s : Loading) (img : Nat → Option (Nat → UInt8)) : Prop where
  ranges : s.process.RangesOk
  apart : Apart s.process.pageDirectory.view
  taken : ∀ v q, s.process.pageDirectory.view v = some q → s.frames.allocator.bitmap q = false
  unmapped : ∀ v, v < lowPages → img v = none → s.process.pageDirectory.view v = none
  mapped : ∀ v byte, v < lowPages → img v = some byte → ∃ q,
    s.process.pageDirectory.view v = some q ∧
      ∀ o, o < pageSize → s.contents q o = byte (v * pageSize + o)

/-- Nothing of the image is there yet. -/
def Loading.Fresh (s : Loading) : Prop := s.Holds fun _ => none

theorem Loading.Holds.readByte_eq {s : Loading} {img : Nat → Option (Nat → UInt8)} (hs : s.Holds img)
    {x : Nat} (hx : pageOf x < lowPages) : s.readByte x = (img (pageOf x)).map fun byte => byte x := by
  have hsplit : pageOf x * pageSize + x % pageSize = x := Nat.div_add_mod' x pageSize
  cases himg : img (pageOf x) with
  | none => rw [Loading.readByte, hs.unmapped _ hx himg, Option.map_none, Option.map_none]
  | some byte =>
    obtain ⟨q, hq, hbytes⟩ := hs.mapped _ _ hx himg
    rw [Loading.readByte, hq, Option.map_some, Option.map_some,
      hbytes (x % pageSize) (Nat.mod_lt _ (by decide)), hsplit]

theorem view_eq_some {directory : PageDirectory} {v q : Nat} :
    directory.view v = some q ↔ ∃ e, directory.entry v = some e ∧ e.page = q := by
  rw [PageDirectory.view, Option.map_eq_some_iff]

variable {v : Nat} {f f' : Frames}

theorem view_eq_none {directory : PageDirectory} :
    directory.view v = none ↔ directory.entry v = none := by
  rw [PageDirectory.view, Option.map_eq_none_iff]

theorem Filled.view {d d' : PageDirectory} (h : Filled f f' d d')
    (hapart : Apart d.view) (htaken : ∀ v q, d.view v = some q → f.allocator.bitmap q = false) :
    Apart d'.view ∧ ∀ v q, d'.view v = some q → f'.allocator.bitmap q = false := by
  have hold : ∀ v e, d'.entry v = some e → d.entry v = some e ∨ d.entry v = .none := by
    intro v e he
    cases hentry : d.entry v with
    | none => exact Or.inr rfl
    | some e' =>
      cases (h.kept v e' hentry).symm.trans he
      exact Or.inl rfl
  -- an old page and a new one
  have hmixed : ∀ v w e e', d.entry v = some e → d.entry w = .none → d'.entry w = some e' →
      e.page ≠ e'.page := by
    intro v w e e' hv hw hw' heq
    have hfree := (h.added w e' hw hw').2.2.1
    rw [← heq, htaken v e.page (view_eq_some.2 ⟨e, hv, rfl⟩)] at hfree
    cases hfree
  constructor
  · intro v w q hv hw
    obtain ⟨e, hve, rfl⟩ := view_eq_some.1 hv
    obtain ⟨e', hwe, heq⟩ := view_eq_some.1 hw
    rcases hold v e hve with hv0 | hv0 <;> rcases hold w e' hwe with hw0 | hw0
    · exact hapart v w e.page (view_eq_some.2 ⟨e, hv0, rfl⟩) (view_eq_some.2 ⟨e', hw0, heq⟩)
    · exact absurd heq.symm (hmixed v w e e' hv0 hw0 hwe)
    · exact absurd heq (hmixed w v e' e hw0 hv0 hve)
    · exact (h.apart v w e e' hv0 hw0 hve hwe heq.symm).symm
  · intro v q hv
    obtain ⟨e, hve, rfl⟩ := view_eq_some.1 hv
    rcases hold v e hve with hv0 | hv0
    · exact h.taken _ (htaken v e.page (view_eq_some.2 ⟨e, hv0, rfl⟩))
    · exact (h.added v e hv0 hve).2.2.2

namespace Elf32Loader

/-! ## The kernel's loader -/

/-- The write of a segment: its memory is cleared, and the part in the file is copied. -/
def writeSegment (directory : PageDirectory) (file : List UInt8) (h : ElfSegment) (c : Contents) :
    Option Contents := do
  let c ← writeThrough pageSize directory.view (fun _ => 0) h.memsz h.vaddr c
  writeThrough pageSize directory.view (h.byte file) h.filesz h.vaddr c

/-- The loop that writes the image. -/
def writeImage (directory : PageDirectory) (file : List UInt8) :
    List ElfSegment → Contents → Option Contents
  | [], c => some c
  | h :: hs, c =>
    if h.type = .load then do
      let c ← writeSegment directory file h c
      writeImage directory file hs c
    else writeImage directory file hs c

/-- `loadLoadSegment`. -/
def loadImage (file : List UInt8) (headers : List ElfSegment) (s : Loading) : Option Loading := do
  let (frames, process) ←
    loadLoadSegment s.frames s.process (headers.map ElfSegment.toElf32Phdr)
  let contents ← writeImage process.pageDirectory file headers s.contents
  some { frames, process, contents }

variable {directory : PageDirectory} {file : List UInt8} {h : ElfSegment} {c c' : Contents}
  {x q : Nat}

theorem writeSegment_spec (hwrite : writeSegment directory file h c = some c')
    (hapart : Apart directory.view) (hsize : h.filesz ≤ h.memsz)
    (hq : directory.view (pageOf x) = some q) :
    (h.Contains x → c' q (x % pageSize) = h.byte file x) ∧
      (¬ h.Contains x → c' q (x % pageSize) = c q (x % pageSize)) := by
  obtain ⟨c1, hclear, hcopy⟩ := bind_eq_some_iff.1 hwrite
  constructor
  · intro hx
    by_cases hfile : x < h.vaddr + h.filesz
    · exact writeThrough_value hcopy hapart hx.1 hfile hq
    · rw [writeThrough_outside hcopy hapart (Or.inr (Nat.le_of_not_lt hfile)) hq,
        writeThrough_value hclear hapart hx.1 hx.2 hq, ElfSegment.byte, if_neg fun hin => hfile hin.2]
  · intro hx
    have hout : x < h.vaddr ∨ h.vaddr + h.memsz ≤ x := by
      rw [ElfSegment.Contains] at hx
      omega
    rw [writeThrough_outside hcopy hapart (by omega) hq, writeThrough_outside hclear hapart hout hq]

variable {headers : List ElfSegment}

section

variable (hwrite : writeImage directory file headers c = some c') (hapart : Apart directory.view)
  (hsize : ∀ h ∈ headers, h.type = .load → h.filesz ≤ h.memsz)
include hwrite hapart hsize

theorem writeImage_outside (hq : directory.view (pageOf x) = some q)
    (hx : ∀ h ∈ headers, h.type = .load → ¬ h.Contains x) :
    c' q (x % pageSize) = c q (x % pageSize) := by
  induction headers generalizing c with
  | nil =>
    cases hwrite
    rfl
  | cons h hs ih =>
    have hsize' := fun k hk => hsize k (List.mem_cons_of_mem _ hk)
    have hx' := fun k hk => hx k (List.mem_cons_of_mem _ hk)
    rw [writeImage] at hwrite
    split at hwrite
    next hload =>
      obtain ⟨c1, hfirst, hrest⟩ := bind_eq_some_iff.1 hwrite
      rw [ih hrest hsize' hx']
      exact (writeSegment_spec hfirst hapart (hsize h List.mem_cons_self hload) hq).2
        (hx h List.mem_cons_self hload)
    next => exact ih hwrite hsize' hx'

theorem writeImage_correct
    (hpages : headers.Pairwise fun h h' => h.type = .load → h'.type = .load → h.PagesApart h')
    (hh : h ∈ headers) (hload : h.type = .load) (hx : h.Contains x) :
    ∃ q, directory.view (pageOf x) = some q ∧ c' q (x % pageSize) = h.byte file x := by
  induction headers generalizing c with
  | nil => exact absurd hh List.not_mem_nil
  | cons k ks ih =>
    have hsize' := fun h hh => hsize h (List.mem_cons_of_mem _ hh)
    obtain ⟨hfirst, hrest⟩ := List.pairwise_cons.1 hpages
    rw [writeImage] at hwrite
    rcases List.mem_cons.1 hh with rfl | hh
    · rw [if_pos hload] at hwrite
      obtain ⟨c1, hseg, hwrite⟩ := bind_eq_some_iff.1 hwrite
      obtain ⟨c2, hclear, -⟩ := bind_eq_some_iff.1 hseg
      obtain ⟨q, hq⟩ := writeThrough_mapped hclear hx.1 hx.2
      refine ⟨q, hq, ?_⟩
      -- the other segments lie in other pages
      rw [writeImage_outside hwrite hapart hsize' hq fun k hk hkload hkx =>
        hfirst k hk hload hkload x x hx hkx rfl]
      exact (writeSegment_spec hseg hapart (hsize h List.mem_cons_self hload) hq).1 hx
    · split at hwrite
      next =>
        obtain ⟨c1, -, hwrite⟩ := bind_eq_some_iff.1 hwrite
        exact ih hwrite hsize' hrest hh
      next => exact ih hwrite hsize' hrest hh

end

theorem loadImage_correct {s s' : Loading} (hs : s.Fresh)
    (hsize : ∀ h ∈ headers, h.type = .load → h.filesz ≤ h.memsz)
    (hpages : headers.Pairwise fun h h' => h.type = .load → h'.type = .load → h.PagesApart h')
    (hload : loadImage file headers s = some s') (hh : h ∈ headers) (htype : h.type = .load)
    {i : Nat} (hi : i < h.memsz) : s'.readByte (h.vaddr + i) = some (h.segmentByte file i) := by
  simp only [loadImage, bind_eq_bind, bind_eq_some_iff] at hload
  obtain ⟨⟨frames, process⟩, hmap, contents, hwrite, heq⟩ := hload
  cases heq
  obtain ⟨⟨f', d'⟩, hfresh, heq⟩ := Option.map_eq_some_iff.1 hmap
  cases heq
  have hfilled := (mapFresh_spec hfresh (Or.inl rfl)).1
  obtain ⟨hapart, -⟩ := hfilled.view hs.apart hs.taken
  have hx : h.Contains (h.vaddr + i) := ⟨Nat.le_add_right .., Nat.add_lt_add_left hi _⟩
  obtain ⟨q, hq, hbyte⟩ := writeImage_correct hwrite hapart hsize hpages hh htype hx
  rw [ElfSegment.byte_add] at hbyte
  exact Option.map_eq_some_iff.2 ⟨q, hq, hbyte⟩

end Elf32Loader

/-! ## New processes -/

theorem fresh_createProcess {p : UserProcess} {id : Tid} (contents : Contents)
    (h : ThreadManager.createProcess f id = some (f', p)) :
    Loading.Fresh { frames := f', process := p, contents } := by
  simp only [ThreadManager.createProcess, bind_eq_bind, bind_eq_some_iff] at h
  obtain ⟨⟨a, page⟩, -, h⟩ := h
  have hranges := UserProcess.unmapped_rangesOk
  have hempty : ∀ v, UserProcess.unmapped.pageDirectory.entry v = none := fun _ => rfl
  obtain ⟨a', stack, -, hgrown, -⟩ := ThreadManager.createThread_spec hranges h
  obtain ⟨hapart, htaken⟩ := hgrown.filled.view
    (fun v w q hv => by rw [view_eq_none.2 (hempty v)] at hv; cases hv)
    (fun v q hv => by rw [view_eq_none.2 (hempty v)] at hv; cases hv)
  exact ⟨hgrown.rangesOk hranges, hapart, htaken,
    fun v hv _ => view_eq_none.2 ((ThreadManager.createThread_low hranges h v hv).trans (hempty v)),
    fun _ _ _ himg => nomatch himg⟩

end MeetixOS.Kernel
