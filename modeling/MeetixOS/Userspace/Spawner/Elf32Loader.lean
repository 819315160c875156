import MeetixOS.Kernel.Executable.Elf32Loader

/-! # The spawner's loader

`Servers/Spawner/Elf32Loader.cpp` with the system call `createPagesInSpace`, which maps new pages into the
target where nothing is mapped yet, and into an area of the spawner, given here by its physical pages.

A segment is loaded in steps of at most 16 pages, up to the page of the address behind its end. If it ends
at the end of a page, that is a page of zeros, and a later segment that starts in this page is written into
pages that are not mapped (`spawner_loads_iff`). -/

open Option (bind_eq_bind bind_eq_some_iff map_eq_some_iff none_or or_none some_or)

namespace MeetixOS.Userspace.Spawner

open MeetixOS.Lib MeetixOS.Kernel

/-! ## Model -/

inductive LoaderStatus
  | successful
  | formatError
  | ioError
  | memoryError
  deriving DecidableEq, Repr

def maximumLoadPagesAtOnce : Nat := 0x10

def createPageInSpaceMaximumPages : Nat := 100

/-- `Utils::File::read_bytes`: what is read, by its position, or `none` if there is less. -/
def readBytes (file : List UInt8) (offset len : Nat) : Option (Nat → UInt8) :=
  if len = 0 ∨ offset + len ≤ file.length then some fun i => file.getD (offset + i) 0 else none

/-- The loop of `createPagesInSpace` with the pages it takes. -/
def mapPages : Nat → Frames → PageDirectory → Nat → Option (Frames × PageDirectory × List Nat)
  | 0, f, directory, _ => some (f, directory, [])
  | n + 1, f, directory, virt => do
      let (allocator, page) ← f.allocator.allocate
      let (allocator, directory, _) ← AddressSpace.map allocator directory virt page false
      let (f, directory, pages) ←
        mapPages n (({ f with allocator } : Frames).increment page) directory (virt + pageSize)
      some (f, directory, page :: pages)

/-- `createPagesInSpace`, with the pages behind the area of the spawner. There is no area, and the
pointer is null, if the number of pages is not allowed. -/
def createPagesInSpace (s : Loading) (virt pages : Nat) : Option (Loading × Option (List Nat)) :=
  if 0 < pages ∧ pages ≤ createPageInSpaceMaximumPages then
    let stop := u32 (virt + pages * pageSize)
    let p := s.process
    let imageStart := if p.imageStart = 0 ∨ p.imageStart > virt then virt else p.imageStart
    let imageEnd := if p.imageEnd = 0 ∨ p.imageEnd < stop then stop else p.imageEnd
    (mapPages pages s.frames p.pageDirectory virt).map fun (frames, pageDirectory, area) =>
      ({ s with frames, process := { p with pageDirectory, imageStart, imageEnd } }, some area)
  else some (s, none)

/-- What is written into the area: the bytes of the file, and zeros before and behind them. -/
def writeArea (area : List Nat) (bytes : Nat → UInt8) (copyOffset copyAmount : Nat) (c : Contents) :
    Option Contents := do
  let view := fun v => area[v]?
  let size := area.length * pageSize
  let c ← writeThrough pageSize view (fun x => bytes (x - copyOffset)) copyAmount copyOffset c
  let c ← if copyOffset > 0 then writeThrough pageSize view (fun _ => 0) copyOffset 0 c else some c
  if copyOffset + copyAmount < size then
    writeThrough pageSize view (fun _ => 0) (size - (copyOffset + copyAmount))
      (copyOffset + copyAmount) c
  else some c

/-- The number of bytes that a step copies. -/
def copyAmount (h : ElfSegment) (startVirt step copyOffset : Nat) : Nat :=
  let virtualFileEnd := u32 (h.vaddr + h.filesz)
  if startVirt < virtualFileEnd then
    if virtualFileEnd ≥ startVirt ∧ virtualFileEnd < u32 (startVirt + step * pageSize) then
      u32 (virtualFileEnd + 2 ^ 32 - (startVirt + copyOffset))
    else step * pageSize - copyOffset
  else 0

/-- The loop of `loadLoadSegment`. Each round loads a page or more. -/
def loadPages (file : List UInt8) (h : ElfSegment) (memStart totalPages : Nat) :
    Nat → Nat → Nat → Loading → Option (Loading × LoaderStatus)
  | 0, loadedPages, _, s => if loadedPages < totalPages then none else some (s, .successful)
  | fuel + 1, loadedPages, offsetInFile, s =>
    if loadedPages < totalPages then do
      let step := min (totalPages - loadedPages) maximumLoadPagesAtOnce
      let startVirt := u32 (memStart + loadedPages * pageSize)
      match ← createPagesInSpace s startVirt step with
      | (s, none) => some (s, .memoryError)
      | (s, some area) =>
        let copyOffset := if startVirt < h.vaddr then h.vaddr - startVirt else 0
        let amount := copyAmount h startVirt step copyOffset
        match readBytes file (u32 (h.offset + offsetInFile)) amount with
        | none => some (s, .ioError)
        | some bytes =>
          let contents ← writeArea area bytes copyOffset amount s.contents
          loadPages file h memStart totalPages fuel (loadedPages + step)
            (u32 (offsetInFile + amount)) { s with contents }
    else some (s, .successful)

def loadLoadSegment (file : List UInt8) (h : ElfSegment) (s : Loading) :
    Option (Loading × LoaderStatus) :=
  let memStart := pageAlignDown h.vaddr
  let memEnd := pageAlignDown (u32 (u32 (h.vaddr + h.memsz) + pageSize))
  let totalPages := u32 (memEnd + 2 ^ 32 - memStart) / pageSize
  loadPages file h memStart totalPages totalPages 0 0 s

/-- `loadTlsSegment`, with what `writeTlsMasterForProcess` copies into the target. The contents are read
into a buffer of the spawner first, below the kernel. -/
def loadTlsSegment (file : List UInt8) (h : ElfSegment) (s : Loading) :
    Option (Loading × LoaderStatus) :=
  if h.filesz ≥ constKernelAreaStart then none
  else match readBytes file h.offset h.filesz with
  | none => some (s, .ioError)
  | some bytes => do
      let (frames, process) ←
        s.process.writeTlsMasterForProcess s.frames h.filesz h.memsz h.align
      let base := process.tlsMasterInProcLocation
      let contents ← writeThrough pageSize process.pageDirectory.view (fun x => bytes (x - base))
        h.filesz base s.contents
      some ({ frames, process, contents }, .successful)

/-- One round of `loadImage`. -/
def loadSegment (file : List UInt8) (h : ElfSegment) (s : Loading) :
    Option (Loading × LoaderStatus) :=
  match h.type with
  | .load => loadLoadSegment file h s
  | .tls => loadTlsSegment file h s
  | .other => some (s, .successful)

def loadImage (file : List UInt8) : List ElfSegment → Loading → Option (Loading × LoaderStatus)
  | [], s => some (s, .successful)
  | h :: hs, s => do
      let (s, status) ← loadSegment file h s
      if status = .successful then loadImage file hs s else some (s, status)

/-! ## Pages -/

variable {d d' : PageDirectory} {step memsz : Nat} {after before : List ElfSegment}

theorem map_entry {a a' : PPallocator} {virt page : Nat} {written : Bool}
    (h : AddressSpace.map a d virt page false = some (a', d', written)) (v : Nat) :
    d'.entry v = (d.entry v).or
      (if v = pageOf virt then some ⟨page, defaultUserPageFlags⟩ else none) := by
  obtain ⟨-, ⟨rfl, hentry⟩ | ⟨-, rfl, -, hthere⟩⟩ := AddressSpace.map_spec h
  · rw [hentry v]
    split
    next hv => rw [hv, AddressSpace.map_entry_none h, none_or]
    next => rw [or_none]
  · split
    next hv =>
      obtain ⟨e, he⟩ := Option.isSome_iff_exists.1 hthere
      rw [hv, he, some_or]
    next => rw [or_none]

/-- What `createPagesInSpace` does: its pages were free, and are behind the pages that had none. -/
structure Mapped (f f' : Frames) (d d' : PageDirectory) (v n : Nat) (pages : List Nat) : Prop where
  filled : Filled f f' d d'
  length : pages.length = n
  nodup : pages.Nodup
  free : ∀ q ∈ pages, f.allocator.bitmap q = true
  entry : ∀ w, d'.entry w = (d.entry w).or
    (if v ≤ w then pages[w - v]?.map fun page => ⟨page, defaultUserPageFlags⟩ else none)

variable {n virt v : Nat} {area : List Nat} {s s' : Loading} {c : Contents}
  {img : Nat → Option (Nat → UInt8)} {bytes : Nat → UInt8}

theorem mapPages_spec {f f' : Frames} {pages : List Nat}
    (h : mapPages n f d virt = some (f', d', pages)) : Mapped f f' d d' (pageOf virt) n pages := by
  induction n generalizing f d virt pages with
  | zero =>
    cases h
    exact ⟨Filled.refl .., rfl, List.nodup_nil, fun _ hq => absurd hq List.not_mem_nil,
      fun w => by simp⟩
  | succ n ih =>
    simp only [mapPages, bind_eq_bind, bind_eq_some_iff] at h
    obtain ⟨⟨a, page⟩, halloc, ⟨a', d1, written⟩, hmap, ⟨f2, d2, rest⟩, hrest, heq⟩ := h
    cases heq
    have hrest := ih hrest
    rw [pageOf_add_pageSize] at hrest
    have hfirst : Filled f (({ f with allocator := a' } : Frames).increment page) d d1 :=
      filled_map true halloc hmap (Or.inl rfl)
    obtain ⟨hfree, -, hbitmap⟩ := PPallocator.allocate_spec halloc
    have hpage : a'.bitmap page = false := by
      have hpage : a.bitmap page = false := by rw [hbitmap, Function.update_self]
      rcases (AddressSpace.map_spec hmap).1 with rfl | ⟨table, halloc'⟩
      · exact hpage
      · exact (filled_allocate (f := { f with allocator := a }) d halloc').taken page hpage
    have hnot : page ∉ rest := fun hmem => by
      have hfree' : a'.bitmap page = true := hrest.free page hmem
      rw [hpage] at hfree'
      cases hfree'
    refine ⟨hfirst.trans hrest.filled, congrArg (· + 1) hrest.length,
      List.nodup_cons.2 ⟨hnot, hrest.nodup⟩, fun q hq => ?_, fun w => ?_⟩
    · rcases List.mem_cons.1 hq with rfl | hq
      · exact hfree
      · exact hfirst.free (hrest.free q hq)
    · rw [hrest.entry w, map_entry hmap w, Option.or_assoc]
      congr 1
      by_cases hw : w = pageOf virt
      · subst hw
        simp
      · rw [if_neg hw, none_or]
        by_cases hlt : pageOf virt ≤ w
        · obtain ⟨k, rfl⟩ : ∃ k, w = pageOf virt + 1 + k := ⟨w - (pageOf virt + 1), by omega⟩
          have hk : pageOf virt + 1 + k - pageOf virt = k + 1 := by omega
          rw [if_pos (by omega), if_pos (by omega), hk, List.getElem?_cons_succ,
            Nat.add_sub_cancel_left]
        · rw [if_neg hlt, if_neg (by omega)]

theorem createPagesInSpace_spec {virt pages : Nat}
    (h : createPagesInSpace s virt pages = some (s', some area)) :
    Mapped s.frames s'.frames s.process.pageDirectory s'.process.pageDirectory (pageOf virt) pages
        area ∧
      s'.contents = s.contents ∧ s'.process.virtualRanges = s.process.virtualRanges := by
  rw [createPagesInSpace] at h
  split at h
  · obtain ⟨⟨f, d, area'⟩, hmap, heq⟩ := map_eq_some_iff.1 h
    cases heq
    exact ⟨mapPages_spec hmap, rfl, rfl⟩
  · cases h

/-! ## Areas -/

/-- The image with the bytes of a segment in the pages that it did not have. -/
def extend (img : Nat → Option (Nat → UInt8)) (first behind : Nat) (byte : Nat → UInt8) :
    Nat → Option (Nat → UInt8) :=
  fun v => (img v).or (if first ≤ v ∧ v < behind then some byte else none)

theorem extend_extend (img : Nat → Option (Nat → UInt8)) (byte : Nat → UInt8) {a b c : Nat}
    (hab : a ≤ b) (hbc : b ≤ c) : extend (extend img a b byte) b c byte = extend img a c byte := by
  funext v
  simp only [extend, Option.or_assoc]
  congr 1
  by_cases hv : a ≤ v ∧ v < b
  · have hv' : a ≤ v ∧ v < c := ⟨hv.1, by omega⟩
    rw [if_pos hv, if_pos hv', some_or]
  · rw [if_neg hv, none_or]
    congr 1
    rw [eq_iff_iff]
    omega

theorem extend_self (img : Nat → Option (Nat → UInt8)) (byte : Nat → UInt8) (a : Nat) :
    extend img a a byte = img := by
  funext v
  rw [extend, if_neg (by omega), or_none]

theorem holds_extend {byte : Nat → UInt8} (hs : s.Holds img)
    (hmapped : Mapped s.frames s'.frames s.process.pageDirectory s'.process.pageDirectory v n area)
    (hranges : s'.process.virtualRanges = s.process.virtualRanges)
    (hbytes : ∀ k q, area[k]? = some q → ∀ o, o < pageSize →
      c q o = byte ((v + k) * pageSize + o))
    (hother : ∀ q o, q ∉ area → c q o = s.contents q o) :
    Loading.Holds { s' with contents := c } (extend img v (v + n) byte) := by
  obtain ⟨hapart, htaken⟩ := hmapped.filled.view hs.apart hs.taken
  refine ⟨?_, hapart, htaken, fun w hw himg => ?_, fun w b hw himg => ?_⟩
  · show s'.process.virtualRanges.Contiguous _ _
    rw [hranges]
    exact hs.ranges
  · obtain ⟨himg, hout⟩ := Option.or_eq_none_iff.1 himg
    refine view_eq_none.2 ?_
    rw [hmapped.entry w, view_eq_none.1 (hs.unmapped w hw himg), none_or]
    split
    next hle =>
      have hlen : area.length ≤ w - v := by
        rw [hmapped.length]
        by_contra hlt
        rw [if_pos ⟨hle, by omega⟩] at hout
        cases hout
      rw [List.getElem?_eq_none hlen, Option.map_none]
    next => rfl
  · rw [extend] at himg
    cases hold : img w with
    | some b' =>
      -- a page that was there is not one of the new ones
      rw [hold, some_or] at himg
      cases himg
      obtain ⟨q, hq, hcontents⟩ := hs.mapped w b hw hold
      obtain ⟨e, he, rfl⟩ := view_eq_some.1 hq
      refine ⟨e.page, view_eq_some.2 ⟨e, hmapped.filled.kept w e he, rfl⟩, fun o ho => ?_⟩
      rw [← hcontents o ho]
      refine hother _ _ fun hmem => ?_
      have hfree := hmapped.free _ hmem
      rw [hs.taken w e.page hq] at hfree
      cases hfree
    | none =>
      rw [hold, none_or] at himg
      split at himg
      next hin =>
        cases himg
        have hlt : w - v < area.length := by
          rw [hmapped.length]
          omega
        have harea := List.getElem?_eq_getElem hlt
        have hentry := hmapped.entry w
        rw [view_eq_none.1 (hs.unmapped w hw hold), none_or, if_pos hin.1, harea,
          Option.map_some] at hentry
        refine ⟨area[w - v], view_eq_some.2 ⟨_, hentry, rfl⟩, fun o ho => ?_⟩
        have hbyte := hbytes (w - v) _ harea o ho
        rwa [Nat.add_sub_cancel' hin.1] at hbyte
      next => cases himg

theorem apart_of_nodup (h : area.Nodup) : Apart fun v => area[v]? := by
  intro v w q hv hw
  obtain ⟨hv', hq⟩ := List.getElem?_eq_some_iff.1 hv
  obtain ⟨hw', hq'⟩ := List.getElem?_eq_some_iff.1 hw
  exact (List.Nodup.getElem_inj_iff h).1 (hq.trans hq'.symm)

section

variable {copyOffset amount : Nat} {c c' : Contents}
  (h : writeArea area bytes copyOffset amount c = some c')
include h

theorem writeArea_cases :
    ∃ c1 c2, writeThrough pageSize (fun v => area[v]?) (fun x => bytes (x - copyOffset)) amount
        copyOffset c = some c1 ∧
      writeThrough pageSize (fun v => area[v]?) (fun _ => 0) copyOffset 0 c1 = some c2 ∧
      writeThrough pageSize (fun v => area[v]?) (fun _ => 0)
        (area.length * pageSize - (copyOffset + amount)) (copyOffset + amount) c2 = some c' := by
  simp only [writeArea, bind_eq_bind, bind_eq_some_iff] at h
  obtain ⟨c1, hcopy, h⟩ := h
  have hend : ∀ c2, (if copyOffset + amount < area.length * pageSize then
      writeThrough pageSize (fun v => area[v]?) (fun _ => 0)
        (area.length * pageSize - (copyOffset + amount)) (copyOffset + amount) c2
      else some c2) = some c' → writeThrough pageSize (fun v => area[v]?) (fun _ => 0)
        (area.length * pageSize - (copyOffset + amount)) (copyOffset + amount) c2 = some c' := by
    intro c2 h
    split at h
    · exact h
    · rw [Nat.sub_eq_zero_of_le (by omega)]
      exact h
  split at h
  · obtain ⟨c2, hbefore, h⟩ := bind_eq_some_iff.1 h
    exact ⟨c1, c2, hcopy, hbefore, hend c2 h⟩
  next hzero =>
    obtain rfl : copyOffset = 0 := by omega
    exact ⟨c1, c1, hcopy, rfl, hend c1 h⟩

theorem writeArea_spec (hnodup : area.Nodup)
    (hamount : copyOffset + amount ≤ area.length * pageSize) :
    (∀ k q, area[k]? = some q → ∀ o, o < pageSize → c' q o =
      if copyOffset ≤ k * pageSize + o ∧ k * pageSize + o < copyOffset + amount then
        bytes (k * pageSize + o - copyOffset) else 0) ∧
    ∀ q o, q ∉ area → c' q o = c q o := by
  have hapart := apart_of_nodup hnodup
  obtain ⟨c1, c2, hcopy, hbefore, hbehind⟩ := writeArea_cases h
  constructor
  · intro k q hk o ho
    obtain ⟨x, hx⟩ : ∃ x, x = k * pageSize + o := ⟨_, rfl⟩
    have hdiv : x / pageSize = k := by
      rw [hx, Nat.add_comm, Nat.add_mul_div_right _ _ (by decide), Nat.div_eq_of_lt ho, Nat.zero_add]
    have hmod : x % pageSize = o := by
      rw [hx, Nat.add_comm, Nat.add_mul_mod_self_right, Nat.mod_eq_of_lt ho]
    have hq : area[x / pageSize]? = some q := hdiv ▸ hk
    have hsize : x < area.length * pageSize := by
      have hlt := (List.getElem?_eq_some_iff.1 hk).1
      calc x < (k + 1) * pageSize := by rw [Nat.succ_mul]; omega
        _ ≤ area.length * pageSize := Nat.mul_le_mul_right _ hlt
    rw [← hx, ← hmod]
    by_cases hin : copyOffset ≤ x ∧ x < copyOffset + amount
    · rw [if_pos hin, writeThrough_outside hbehind hapart (Or.inl hin.2) hq,
        writeThrough_outside hbefore hapart (Or.inr (by omega)) hq,
        writeThrough_value hcopy hapart hin.1 hin.2 hq]
    · rw [if_neg hin]
      by_cases hlow : x < copyOffset
      · rw [writeThrough_outside hbehind hapart (Or.inl (by omega)) hq,
          writeThrough_value hbefore hapart (Nat.zero_le x) (by omega) hq]
      · exact writeThrough_value hbehind hapart (by omega) (by omega) hq
  · intro q o hq
    have hnot : ∀ x : Nat, area[x / pageSize]? = some q → x % pageSize ≠ o := fun x hx _ =>
      hq (List.mem_of_getElem? hx)
    rw [writeThrough_frame hbehind fun x _ _ => hnot x,
      writeThrough_frame hbefore fun x _ _ => hnot x, writeThrough_frame hcopy fun x _ _ => hnot x]

end

/-! ## Segments -/

variable {h : ElfSegment}

theorem copyAmount_eq (startVirt : Nat) (hfile : h.vaddr + h.filesz < 2 ^ 32)
    (hend : startVirt + step * pageSize < 2 ^ 32) :
    copyAmount h startVirt step (h.vaddr - startVirt) =
      min (h.vaddr + h.filesz) (startVirt + step * pageSize) - max startVirt h.vaddr := by
  rw [copyAmount]
  simp only [u32_of_lt hfile, u32_of_lt hend]
  split
  · split
    · rw [u32_sub (by omega) (by omega)]
      omega
    · omega
  · omega

variable {file : List UInt8}

theorem readBytes_eq {offset len : Nat}
    (h : readBytes file offset len = some bytes) : bytes = fun i => file.getD (offset + i) 0 := by
  rw [readBytes] at h
  split at h
  · cases h
    rfl
  · cases h

theorem step_byte {start size offset amount y : Nat}
    (hamount : amount = min (h.vaddr + h.filesz) (start + size) - max start h.vaddr)
    (hoffset : offset = min h.filesz (start - h.vaddr)) (hy : y < size) :
    (if h.vaddr - start ≤ y ∧ y < h.vaddr - start + amount then
      file.getD (h.offset + offset + (y - (h.vaddr - start))) 0 else 0) =
      h.byte file (start + y) := by
  rw [ElfSegment.byte]
  by_cases hin : h.vaddr ≤ start + y ∧ start + y < h.vaddr + h.filesz
  · rw [if_pos hin, if_pos (by omega)]
    congr 1
    omega
  · rw [if_neg hin, if_neg (by omega)]

theorem step_offset {vaddr filesz start size offset amount : Nat}
    (hamount : amount = min (vaddr + filesz) (start + size) - max start vaddr)
    (hoffset : offset = min filesz (start - vaddr)) (hstart : vaddr ≤ start + size) :
    vaddr - start + amount ≤ size ∧ offset + amount = min filesz (start + size - vaddr) := by
  omega

theorem loadStep_holds {v step offset amount : Nat}
    (hs : s.Holds img)
    (hcreate : createPagesInSpace s (v * pageSize) step = some (s', some area))
    (hwrite : writeArea area (fun i => file.getD (h.offset + offset + i) 0)
      (h.vaddr - v * pageSize) amount s'.contents = some c)
    (hamount : amount =
      min (h.vaddr + h.filesz) (v * pageSize + step * pageSize) - max (v * pageSize) h.vaddr)
    (hoffset : offset = min h.filesz (v * pageSize - h.vaddr))
    (hstart : h.vaddr ≤ v * pageSize + step * pageSize) :
    Loading.Holds { s' with contents := c } (extend img v (v + step) (h.byte file)) := by
  obtain ⟨hmapped, hcontents, hranges⟩ := createPagesInSpace_spec hcreate
  rw [show pageOf (v * pageSize) = v from Nat.mul_div_cancel _ (by decide)] at hmapped
  have hfits : h.vaddr - v * pageSize + amount ≤ area.length * pageSize := by
    rw [hmapped.length]
    exact (step_offset hamount hoffset hstart).1
  obtain ⟨hbytes, hother⟩ := writeArea_spec hwrite hmapped.nodup hfits
  refine holds_extend hs hmapped hranges (fun k q hk o ho => ?_) (fun q o hq => ?_)
  · have hk' : k < step := hmapped.length ▸ (List.getElem?_eq_some_iff.1 hk).1
    have hy : k * pageSize + o < step * pageSize :=
      calc k * pageSize + o < (k + 1) * pageSize := by rw [Nat.succ_mul]; omega
        _ ≤ step * pageSize := Nat.mul_le_mul_right _ hk'
    have hx : (v + k) * pageSize + o = v * pageSize + (k * pageSize + o) := by
      rw [Nat.add_mul, Nat.add_assoc]
    rw [hbytes k q hk o ho, hx]
    exact step_byte hamount hoffset hy
  · rw [hother q o hq, hcontents]

theorem loadPages_holds {a total fuel loaded offset : Nat}
    (htotal : a + total ≤ lowPages) (hstart : a = pageOf h.vaddr)
    (hfile : h.vaddr + h.filesz < 2 ^ 32) (hoffset : h.offset + h.filesz < 2 ^ 32)
    (hloaded : loaded ≤ total) (hoff : offset = min h.filesz ((a + loaded) * pageSize - h.vaddr))
    (hs : s.Holds img)
    (hload : loadPages file h (a * pageSize) total fuel loaded offset s = some (s', .successful)) :
    s'.Holds (extend img (a + loaded) (a + total) (h.byte file)) := by
  induction fuel generalizing loaded offset s img with
  | zero =>
    rw [loadPages] at hload
    split at hload
    · cases hload
    · cases hload
      obtain rfl : loaded = total := by omega
      rw [extend_self]
      exact hs
  | succ fuel ih =>
    rw [loadPages] at hload
    split at hload
    next hlt =>
      have hbound : ∀ n, a + n ≤ a + total → (a + n) * pageSize < 2 ^ 32 := fun n hn =>
        calc (a + n) * pageSize ≤ lowPages * pageSize := Nat.mul_le_mul_right _ (hn.trans htotal)
          _ < 2 ^ 32 := by decide
      have hvirt : u32 (a * pageSize + loaded * pageSize) = (a + loaded) * pageSize := by
        rw [← Nat.add_mul, u32_of_lt (hbound loaded (by omega))]
      have hcopy : (if (a + loaded) * pageSize < h.vaddr then h.vaddr - (a + loaded) * pageSize
          else 0) = h.vaddr - (a + loaded) * pageSize := by
        split <;> omega
      simp only [bind_eq_bind, bind_eq_some_iff, hvirt, hcopy] at hload
      obtain ⟨⟨s1, area⟩, hcreate, hload⟩ := hload
      cases area with
      | none => cases hload
      | some area =>
        obtain ⟨step, hstep⟩ : ∃ step, step = min (total - loaded) maximumLoadPagesAtOnce :=
          ⟨_, rfl⟩
        have hpos : 0 < step := by
          simp only [maximumLoadPagesAtOnce] at hstep
          omega
        have hle : loaded + step ≤ total := by omega
        simp only [← hstep] at hload hcreate
        have hnext : (a + loaded) * pageSize + step * pageSize =
            (a + (loaded + step)) * pageSize := by
          rw [← Nat.add_mul, Nat.add_assoc]
        have hvaddr : h.vaddr < (a + loaded) * pageSize + pageSize := by
          rw [hstart]
          simp only [pageOf, pageSize]
          omega
        have hpages : pageSize ≤ step * pageSize := Nat.le_mul_of_pos_left _ hpos
        have hamount := copyAmount_eq ((a + loaded) * pageSize) hfile
          (by rw [hnext]; exact hbound _ (Nat.add_le_add_left hle a))
        have hend := hvaddr.le.trans (Nat.add_le_add_left hpages _)
        obtain ⟨-, hnextOffset⟩ := step_offset hamount hoff hend
        split at hload
        next => cases hload
        next bytes hread =>
          obtain ⟨c, hwrite, hload⟩ := bind_eq_some_iff.1 hload
          rw [readBytes_eq hread, u32_of_lt (by omega)] at hwrite
          have hs1 := loadStep_holds hs hcreate hwrite hamount hoff hend
          have hsmall : h.filesz < 2 ^ 32 := by omega
          have hoff' : u32 (offset + copyAmount h ((a + loaded) * pageSize) step
              (h.vaddr - (a + loaded) * pageSize)) =
              min h.filesz ((a + (loaded + step)) * pageSize - h.vaddr) := by
            rw [hnextOffset, hnext]
            exact u32_of_lt (lt_of_le_of_lt (Nat.min_le_left ..) hsmall)
          rw [hoff'] at hload
          have hrest := ih hle rfl hs1 hload
          have hle'' : a + loaded + step ≤ a + total := by omega
          rwa [← Nat.add_assoc, extend_extend _ _ (Nat.le_add_right ..) hle''] at hrest
    next =>
      cases hload
      obtain rfl : loaded = total := by omega
      rw [extend_self]
      exact hs

/-- The pages that the loader maps for a segment: up to that of the address behind its end. -/
def Covers (h : ElfSegment) (v : Nat) : Prop :=
  pageOf h.vaddr ≤ v ∧ v ≤ pageOf (h.vaddr + h.memsz)

instance (h : ElfSegment) (v : Nat) : Decidable (Covers h v) :=
  inferInstanceAs (Decidable (_ ∧ _))

/-- A segment of an image: it lies below the virtual ranges of the process, and what is in the file is
not more than what is in memory. -/
structure WellFormed (h : ElfSegment) : Prop where
  area : h.vaddr + h.memsz < constUserVirtualRangesStart
  size : h.filesz ≤ h.memsz
  file : h.offset + h.filesz < 2 ^ 32

theorem loadLoadSegment_holds (hwell : WellFormed h)
    (hs : s.Holds img) (hload : loadLoadSegment file h s = some (s', .successful)) :
    s'.Holds fun v => (img v).or (if Covers h v then some (h.byte file) else none) := by
  obtain ⟨harea, hsize, hfile⟩ := hwell
  simp only [constUserVirtualRangesStart] at harea
  have hend : pageAlignDown (u32 (u32 (h.vaddr + h.memsz) + pageSize)) =
      (pageOf (h.vaddr + h.memsz) + 1) * pageSize := by
    have hsum : u32 (h.vaddr + h.memsz) = h.vaddr + h.memsz := u32_of_lt (by omega)
    rw [hsum, u32_of_lt (by simp only [pageSize]; omega)]
    simp only [pageAlignDown, pageOf, pageSize]
    omega
  have hle : pageOf h.vaddr ≤ pageOf (h.vaddr + h.memsz) := Nat.div_le_div_right (Nat.le_add_right ..)
  have hlow : pageOf (h.vaddr + h.memsz) < lowPages := by
    simp only [pageOf, pageSize, lowPages, constUserVirtualRangesStart]
    omega
  have htotal : u32 ((pageOf (h.vaddr + h.memsz) + 1) * pageSize + 2 ^ 32 -
      pageAlignDown h.vaddr) / pageSize = pageOf (h.vaddr + h.memsz) + 1 - pageOf h.vaddr := by
    have hlow' : (pageOf (h.vaddr + h.memsz) + 1) * pageSize < 2 ^ 32 :=
      lt_of_le_of_lt (Nat.mul_le_mul_right _ hlow) (by decide)
    have hle' : pageOf h.vaddr * pageSize ≤ (pageOf (h.vaddr + h.memsz) + 1) * pageSize :=
      Nat.mul_le_mul_right _ (Nat.le_succ_of_le hle)
    rw [show pageAlignDown h.vaddr = pageOf h.vaddr * pageSize from rfl, u32_sub hle' hlow',
      ← Nat.sub_mul, Nat.mul_div_cancel _ (by decide)]
  rw [loadLoadSegment] at hload
  simp only [hend, htotal] at hload
  have hpages := loadPages_holds (a := pageOf h.vaddr) (by omega) rfl (by omega) hfile
    (Nat.zero_le _) ?_ hs hload
  · refine cast (congrArg s'.Holds (funext fun v => ?_)) hpages
    rw [extend]
    congr 2
    rw [eq_iff_iff, Covers]
    omega
  · rw [Nat.add_zero, pageOf, Nat.sub_eq_zero_of_le (Nat.div_mul_le_self ..), Nat.min_zero]

/-! ## Thread-local storage -/

theorem eq_zero_of_pages (hn : n < constKernelAreaStart)
    (h : pageAlignUp n / pageSize = 0) : n = 0 := by
  simp only [constKernelAreaStart] at hn
  by_cases hmod : n % pageSize = 0
  · rw [pageAlignUp, if_neg (not_not.2 hmod)] at h
    simp only [pageSize] at *
    omega
  · rw [pageAlignUp, if_pos hmod] at h
    simp only [pageAlignDown, pageSize] at *
    rw [u32_of_lt (by omega)] at h
    omega

theorem loadTlsSegment_holds (hs : s.Holds img)
    (hload : loadTlsSegment file h s = some (s', .successful)) : s'.Holds img := by
  rw [loadTlsSegment] at hload
  split at hload
  · cases hload
  next hfilesz =>
  split at hload
  · cases hload
  next bytes hread =>
    simp only [bind_eq_bind, bind_eq_some_iff] at hload
    obtain ⟨⟨f', p'⟩, hwrite, c, hcopy, heq⟩ := hload
    cases heq
    obtain ⟨hgrown, -⟩ := UserProcess.writeTlsMasterForProcess_spec hwrite
    obtain ⟨hapart, htaken⟩ := hgrown.filled.view hs.apart hs.taken
    simp only [UserProcess.writeTlsMasterForProcess, bind_eq_bind,
      bind_eq_some_iff] at hwrite
    obtain ⟨⟨f1, p1, base⟩, hrange, heq⟩ := hwrite
    cases heq
    obtain ⟨hbase, hlow⟩ := ThreadManager.mapRange_low hs.ranges hrange
    have hview : ∀ v < lowPages, p1.pageDirectory.view v = s.process.pageDirectory.view v :=
      fun v hv => congrArg (Option.map PageEntry.page) (hlow v hv)
    refine ⟨hgrown.rangesOk hs.ranges, hapart, htaken, fun v hv himg => ?_, fun v byte hv himg => ?_⟩
    · exact (hview v hv).trans (hs.unmapped v hv himg)
    · obtain ⟨q, hq, hbytes⟩ := hs.mapped v byte hv himg
      have hq' := (hview v hv).trans hq
      refine ⟨q, hq', fun o ho => (writeThrough_frame hcopy fun x hle hlt hx _ => ?_).trans (hbytes o ho)⟩
      -- the copy goes to pages above the image
      have hpage : x / pageSize = v := hapart _ _ _ hx hq'
      rcases hbase with hzero | hbase
      · have hempty := eq_zero_of_pages (Nat.lt_of_not_le hfilesz) hzero
        omega
      · have hle : pageOf base ≤ x / pageSize := Nat.div_le_div_right hle
        omega

/-! ## Images -/

/-- The segment whose page is at a virtual page: the first that covers it. -/
def owner (headers : List ElfSegment) (v : Nat) : Option ElfSegment :=
  headers.find? fun h => h.type = .load ∧ Covers h v

theorem loadImage_holds {headers : List ElfSegment}
    (hwell : ∀ h ∈ headers, h.type = .load → WellFormed h) (hs : s.Holds img)
    (hload : loadImage file headers s = some (s', .successful)) :
    s'.Holds fun v => (img v).or ((owner headers v).map fun h => h.byte file) := by
  induction headers generalizing s img with
  | nil =>
    cases hload
    simpa [owner] using hs
  | cons h hs' ih =>
    have hwell' := fun k hk => hwell k (List.mem_cons_of_mem _ hk)
    rw [loadImage] at hload
    simp only [bind_eq_bind, bind_eq_some_iff] at hload
    obtain ⟨⟨s1, status⟩, hfirst, hload⟩ := hload
    rw [loadSegment] at hfirst
    split at hload
    next hstatus =>
      obtain rfl : status = .successful := hstatus
      have howner : ∀ k, k.type ≠ .load → owner (k :: hs') = owner hs' := fun k hk => by
        funext v
        simp [owner, hk]
      cases htype : h.type with
      | load =>
        rw [htype] at hfirst
        have hs1 := loadLoadSegment_holds (hwell h List.mem_cons_self htype) hs hfirst
        refine cast (congrArg s'.Holds (funext fun v => ?_)) (ih hwell' hs1 hload)
        rw [Option.or_assoc]
        congr 1
        by_cases hv : Covers h v
        · simp [owner, htype, hv]
        · simp [owner, htype, hv]
      | tls =>
        rw [htype] at hfirst
        rw [howner h (by rw [htype]; decide)]
        exact ih hwell' (loadTlsSegment_holds hs hfirst) hload
      | other =>
        rw [htype] at hfirst
        cases hfirst
        rw [howner h (by rw [htype]; decide)]
        exact ih hwell' hs hload
    next hne =>
      cases hload
      exact absurd rfl hne

/-- The bytes of the later segment in the page of the address behind the earlier one are zero. -/
def ZeroBehind (file : List UInt8) (h h' : ElfSegment) : Prop :=
  ∀ x, h'.Contains x → pageOf x = pageOf (h.vaddr + h.memsz) → h'.byte file x = 0

variable {file : List UInt8} {h k : ElfSegment} {headers : List ElfSegment} {x : Nat}

theorem covers_of_contains (hx : h.Contains x) : Covers h (pageOf x) :=
  ⟨Nat.div_le_div_right hx.1, Nat.div_le_div_right hx.2.le⟩

theorem byte_eq_zero (hsize : h.filesz ≤ h.memsz) (hx : ¬ h.Contains x) : h.byte file x = 0 := by
  rw [ElfSegment.byte, if_neg]
  exact fun hin => hx ⟨hin.1, by omega⟩

theorem covers_end (hv : Covers h v) (hnone : ∀ y, h.Contains y → pageOf y ≠ v) :
    v = pageOf (h.vaddr + h.memsz) := by
  by_contra hne
  have hlt := lt_of_le_of_ne hv.2 hne
  have hfirst := hv.1
  refine hnone (max h.vaddr (v * pageSize)) ⟨le_max_left .., ?_⟩ ?_
  · simp only [pageOf, pageSize] at *
    omega
  · simp only [pageOf, pageSize] at *
    omega

theorem owner_append (hload : h.type = .load) (hx : h.Contains x) :
    owner (before ++ h :: after) (pageOf x) = (owner before (pageOf x)).or (some h) := by
  have hfound : (h.type = .load ∧ Covers h (pageOf x)) := ⟨hload, covers_of_contains hx⟩
  rw [owner, List.find?_append, List.find?_cons_of_pos (by simpa using hfound)]
  rfl

theorem owner_eq_some (howner : owner headers v = some k) :
    k ∈ headers ∧ k.type = .load ∧ Covers k v := by
  have hfound := List.find?_some howner
  simp only [decide_eq_true_eq] at hfound
  exact ⟨List.mem_of_find?_eq_some howner, hfound⟩

/-- What the process reads in a segment: its own byte, unless an earlier segment covers the page; then
it is a page of that segment without a byte of it. -/
theorem readByte_eq (hheaders : headers = before ++ h :: after)
    (hwell : ∀ h ∈ headers, h.type = .load → WellFormed h)
    (hpages : headers.Pairwise fun h h' => h.type = .load → h'.type = .load → h.PagesApart h')
    (hs : s.Fresh) (hload : loadImage file headers s = some (s', .successful))
    (htype : h.type = .load) (hx : h.Contains x) :
    owner before (pageOf x) = none ∧ s'.readByte x = some (h.byte file x) ∨
    ∃ k ∈ before, k.type = .load ∧ pageOf x = pageOf (k.vaddr + k.memsz) ∧
      s'.readByte x = some 0 := by
  have hmem : h ∈ headers := hheaders ▸ List.mem_append_right _ List.mem_cons_self
  have hlow : pageOf x < lowPages := by
    have harea := (hwell h hmem htype).area
    have hend := hx.2
    simp only [pageOf, pageSize, lowPages, constUserVirtualRangesStart] at *
    omega
  have hread := (loadImage_holds hwell hs hload).readByte_eq hlow
  rw [none_or, Option.map_map, hheaders, owner_append htype hx] at hread
  cases howner : owner before (pageOf x) with
  | none =>
    rw [howner] at hread
    exact Or.inl ⟨rfl, hread⟩
  | some k =>
    rw [howner] at hread
    obtain ⟨hk, hktype, hcovers⟩ := owner_eq_some howner
    rw [hheaders] at hpages hwell
    have hapart : k.PagesApart h :=
      (List.pairwise_append.1 hpages).2.2 k hk h List.mem_cons_self hktype htype
    have hnone : ¬ k.Contains x := fun hkx => hapart x x hkx hx rfl
    refine Or.inr ⟨k, hk, hktype, covers_end hcovers fun y hy => hapart y x hy hx, ?_⟩
    rw [hread]
    exact congrArg some
      (byte_eq_zero (hwell k (List.mem_append_left _ hk) hktype).size hnone)

/-- For an executable whose segments lie in different pages, the kernel's loader gives every segment its
bytes from the file and zeros behind them. The spawner's does so exactly if no segment has a byte other
than zero in the page of the address behind an earlier one. -/
theorem spawner_loads_iff {s s' t : Loading} (hwell : ∀ h ∈ headers, h.type = .load → WellFormed h)
    (hpages : headers.Pairwise fun h h' => h.type = .load → h'.type = .load → h.PagesApart h')
    (hs : s.Fresh) (hspawner : loadImage file headers s = some (s', .successful))
    (hkernel : Elf32Loader.loadImage file headers s = some t) :
    (∀ h ∈ headers, h.type = .load → ∀ i < h.memsz,
      t.readByte (h.vaddr + i) = some (h.segmentByte file i)) ∧
    ((∀ h ∈ headers, h.type = .load → ∀ i < h.memsz,
      s'.readByte (h.vaddr + i) = some (h.segmentByte file i)) ↔
      headers.Pairwise fun h h' => h.type = .load → h'.type = .load → ZeroBehind file h h') := by
  refine ⟨fun h hh htype i hi => Elf32Loader.loadImage_correct hs
    (fun h hh htype => (hwell h hh htype).size) hpages hkernel hh htype hi, ?_, ?_⟩
  · intro hread
    rw [List.pairwise_iff_getElem]
    intro m n hm hn hlt hmtype hntype x hx hpage
    have hsplit : headers = headers.take n ++ headers[n] :: headers.drop (n + 1) := by
      rw [List.getElem_cons_drop, List.take_append_drop]
    obtain ⟨i, rfl⟩ : ∃ i, x = headers[n].vaddr + i := ⟨x - headers[n].vaddr, by
      have := hx.1
      omega⟩
    have hi : i < headers[n].memsz := by
      have := hx.2
      omega
    have hexpected := hread headers[n] (List.getElem_mem hn) hntype i hi
    rw [← ElfSegment.byte_add] at hexpected
    rcases readByte_eq hsplit hwell hpages hs hspawner hntype hx with
      ⟨hnone, -⟩ | ⟨k, -, -, -, hread'⟩
    · -- the earlier segment covers the page
      have hmem : headers[m] ∈ headers.take n :=
        List.mem_take_iff_getElem.2 ⟨m, by omega, rfl⟩
      have hcovers : Covers headers[m] (pageOf (headers[n].vaddr + i)) := by
        rw [hpage]
        exact ⟨Nat.div_le_div_right (Nat.le_add_right ..), le_rfl⟩
      exact absurd (decide_eq_true ⟨hmtype, hcovers⟩) (List.find?_eq_none.1 hnone _ hmem)
    · exact Option.mem_unique hexpected hread'
  · intro hzero h hh htype i hi
    obtain ⟨before, after, hsplit⟩ := List.append_of_mem hh
    have hx : h.Contains (h.vaddr + i) := ⟨Nat.le_add_right .., Nat.add_lt_add_left hi _⟩
    rw [← h.byte_add]
    rcases readByte_eq hsplit hwell hpages hs hspawner htype hx with
      ⟨-, hread⟩ | ⟨k, hk, hktype, hpage, hread⟩
    · exact hread
    · rw [hsplit] at hzero
      have hbyte := (List.pairwise_append.1 hzero).2.2 k hk h List.mem_cons_self hktype htype _ hx hpage
      rw [hread, hbyte]

/-! ## Two segments -/

/-- A first segment at 4 MiB, with two bytes from the start of the file. -/
def codeSegment (memsz : Nat) : ElfSegment :=
  { type := .load, vaddr := 0x400000, memsz, offset := 0, filesz := 2 }

/-- A second segment in the page behind, with the third byte of the file. -/
def dataSegment : ElfSegment :=
  { type := .load, vaddr := 0x401000, memsz := 2, offset := 2, filesz := 1 }

/-- A new process, where the physical pages from 1 to 63 are free. -/
def newProcess : Option Loading :=
  (ThreadManager.createProcess ⟨⟨fun page => decide (0 < page ∧ page < 64)⟩,
    ⟨fun _ => false, fun _ => 0⟩⟩ 1).map fun (frames, process) =>
      { frames, process, contents := fun _ _ => 0xFF }

theorem fresh_newProcess (h : newProcess = some s) : s.Fresh := by
  obtain ⟨⟨f, p⟩, hcreate, rfl⟩ := map_eq_some_iff.1 h
  exact fresh_createProcess _ hcreate

theorem wellFormed_segments (hmemsz : 2 ≤ memsz ∧ memsz ≤ 0x1000)
    (hh : h ∈ [codeSegment memsz, dataSegment]) : WellFormed h := by
  rcases List.mem_pair.1 hh with rfl | rfl
  · refine ⟨?_, hmemsz.1, show 0 + 2 < 2 ^ 32 by decide⟩
    show 0x400000 + memsz < 0xA0000000
    omega
  · exact ⟨by decide, by decide, by decide⟩

theorem pagesApart_segments (hmemsz : memsz ≤ 0x1000) :
    [codeSegment memsz, dataSegment].Pairwise fun h h' =>
      h.type = .load → h'.type = .load → h.PagesApart h' := by
  refine List.pairwise_pair.2 fun _ _ x y hx hy => ?_
  have hx : 0x400000 ≤ x ∧ x < 0x400000 + memsz := hx
  have hy : 0x401000 ≤ y ∧ y < 0x401000 + 2 := hy
  simp only [pageOf, pageSize]
  omega

theorem spawner_loads_iff_short : ∃ s s' t : Loading, s.Fresh ∧
    loadImage [1, 2, 7] [codeSegment 0xFF0, dataSegment] s = some (s', .successful) ∧
    Elf32Loader.loadImage [1, 2, 7] [codeSegment 0xFF0, dataSegment] s = some t ∧
    s'.readByte 0x401000 = some 7 ∧ t.readByte 0x401000 = some 7 := by
  obtain ⟨s, hs, ⟨s', status⟩, hspawner, rfl, t, hkernel, -⟩ :
      ∃ s ∈ newProcess, ∃ r ∈ loadImage [1, 2, 7] [codeSegment 0xFF0, dataSegment] s, r.2 = .successful ∧
        ∃ t ∈ Elf32Loader.loadImage [1, 2, 7] [codeSegment 0xFF0, dataSegment] s, True := by
    decide +kernel
  have hfresh := fresh_newProcess hs
  obtain ⟨ht, hiff⟩ := spawner_loads_iff (fun h hh _ => wellFormed_segments (by decide) hh)
    (pagesApart_segments (by decide)) hfresh hspawner hkernel
  have hzero : [codeSegment 0xFF0, dataSegment].Pairwise fun h h' =>
      h.type = .load → h'.type = .load → ZeroBehind [1, 2, 7] h h' := by
    refine List.pairwise_pair.2 fun _ _ x hx hpage => ?_
    have hx : 0x401000 ≤ x ∧ x < 0x401000 + 2 := hx
    have hpage : x / 0x1000 = 0x400FF0 / 0x1000 := hpage
    omega
  have hdata : dataSegment ∈ [codeSegment 0xFF0, dataSegment] := by simp
  exact ⟨s, s', t, hfresh, hspawner, hkernel, hiff.2 hzero dataSegment hdata rfl 0 (by decide),
    ht dataSegment hdata rfl 0 (by decide)⟩

/-- The first segment fills its page: the page behind is mapped with it, and the second segment is
written into a page that the process does not see. -/
theorem spawner_loses_segment : ¬ ∀ (file : List UInt8) (headers : List ElfSegment) (s s' : Loading),
    (∀ h ∈ headers, h.type = .load → WellFormed h) →
    (headers.Pairwise fun h h' => h.type = .load → h'.type = .load → h.PagesApart h') → s.Fresh →
    loadImage file headers s = some (s', .successful) →
    ∀ h ∈ headers, h.type = .load → ∀ i < h.memsz,
      s'.readByte (h.vaddr + i) = some (h.segmentByte file i) := by
  intro hall
  obtain ⟨s, hs, ⟨s', status⟩, hspawner, rfl, hread⟩ :
      ∃ s ∈ newProcess, ∃ r ∈ loadImage [1, 2, 7] [codeSegment 0x1000, dataSegment] s,
        r.2 = .successful ∧ r.1.readByte 0x401000 = some 0 := by
    decide +kernel
  have hbyte := hall [1, 2, 7] _ s s' (fun h hh _ => wellFormed_segments (by decide) hh)
    (pagesApart_segments (by decide)) (fresh_newProcess hs) hspawner dataSegment (by simp) rfl 0
    (by decide)
  cases hread.symm.trans hbyte

end MeetixOS.Userspace.Spawner
