import MeetixOS.Kernel.Filesystem.RamdiskFile

/-! # Ramdisk files as byte arrays

What a file is for: an array of bytes that descriptors read and write at their offsets (`ByteFile`).
The code follows it as long as a write reaches the end of the file (`file_behaves_as_bytes`), and its
copies stay inside the buffer as long as no descriptor is behind the end (`accesses_in_bounds`). -/

open Option (getD_some map_eq_some_iff some_ne_none)

namespace MeetixOS.Kernel

open MeetixOS.Lib

namespace RamdiskFile

variable {m : Machine} {file file' : RamdiskFile}

/-- The bytes of the file. -/
def contents (file : RamdiskFile) : List UInt8 := (file.data.getD []).take file.datalength

/-- The size of the buffer that `requestWrite` starts with. -/
def capacity (file : RamdiskFile) (m : Machine) : Nat :=
  if file.dataOnRamdisk then m.enlarged file.datalength
  else if file.data = none then 32 else file.notOnRdBufferLength

/-- The file has a buffer on the heap that holds its data. -/
structure OnHeap (file : RamdiskFile) : Prop where
  notOnRamdisk : file.dataOnRamdisk = false
  buffer : ∃ data, file.data = some data ∧ data.length = file.notOnRdBufferLength
  fits : file.datalength ≤ file.notOnRdBufferLength
  small : file.notOnRdBufferLength < 2 ^ 30

/-- The data is on the ramdisk, or on the heap, or there is none. -/
def Stored (file : RamdiskFile) : Prop :=
  (file.dataOnRamdisk = true ∧ ∃ data, file.data = some data ∧ data.length = file.datalength) ∨
    file.OnHeap ∨ (file.dataOnRamdisk = false ∧ file.data = none ∧ file.datalength = 0)

/-- A file as `Ramdisk::load` leaves it, with a pointer into the ramdisk. -/
def loaded (data : List UInt8) : RamdiskFile :=
  { data := some data, datalength := data.length, dataOnRamdisk := true, notOnRdBufferLength := 0 }

theorem stored_loaded (data : List UInt8) : (loaded data).Stored := .inl ⟨rfl, data, rfl, rfl⟩

theorem OnHeap.length_data (h : file.OnHeap) :
    (file.data.getD []).length = file.notOnRdBufferLength := by
  obtain ⟨data, hdata, hlength⟩ := h.buffer
  rw [hdata, getD_some, hlength]

theorem Stored.datalength_le (h : file.Stored) : file.datalength ≤ (file.data.getD []).length := by
  rcases h with ⟨-, data, hdata, hlength⟩ | h | ⟨-, hdata, hlength⟩
  · rw [hdata, getD_some, hlength]
  · rw [h.length_data]
    exact h.fits
  · rw [hlength]
    exact Nat.zero_le _

theorem Stored.length_contents (h : file.Stored) : file.contents.length = file.datalength := by
  rw [contents, List.length_take, Nat.min_eq_left h.datalength_le]

theorem Stored.datalength_le_capacity (m : Machine) (h : file.Stored) :
    file.datalength ≤ file.capacity m := by
  unfold capacity
  rcases h with ⟨hon, -⟩ | h | ⟨-, -, hlength⟩
  · rw [if_pos hon]
    exact m.le_enlarged file.datalength
  · obtain ⟨data, hdata, -⟩ := h.buffer
    rw [h.notOnRamdisk, if_neg Bool.false_ne_true, hdata, if_neg (some_ne_none data)]
    exact h.fits
  · rw [hlength]
    exact Nat.zero_le _

/-! ## Buffers -/

theorem memoryCopy_eq {buffer bytes : List UInt8} {offset : Int} (h0 : 0 ≤ offset)
    (h : offset + bytes.length ≤ buffer.length) :
    memoryCopy buffer offset bytes = .ok (overwrite buffer offset.toNat bytes) :=
  if_pos ⟨h0, h⟩

section

variable {buflen : Nat} (m : Machine) (h : file.datalength ≤ (file.data.getD []).length)
  (hbuflen : file.datalength ≤ buflen)
include h hbuflen

theorem moveData_of_small (hsmall : buflen < 2 ^ 30) :
    ∃ moved, moveData m file buflen = .ok moved ∧ moved.OnHeap ∧
      moved.contents = file.contents ∧ moved.datalength = file.datalength ∧
      moved.notOnRdBufferLength = buflen := by
  have hnew : ((List.range buflen).map m.garbage).length = buflen := by
    rw [List.length_map, List.length_range]
  have hlength : ((file.data.getD []).take file.datalength).length = file.datalength := by
    rw [List.length_take, Nat.min_eq_left h]
  have hmoved : moveData m file buflen = .ok { file with
      data := some (overwrite ((List.range buflen).map m.garbage) 0
        ((file.data.getD []).take file.datalength))
      notOnRdBufferLength := buflen
      dataOnRamdisk := false } := by
    rw [moveData, newBuffer, if_pos hsmall]
    dsimp only [bind, Except.bind]
    rw [memoryCopy_eq (Int.le_refl 0) (by rw [hlength, hnew]; omega)]
    rfl
  refine ⟨_, hmoved, ⟨rfl, ⟨_, rfl, ?_⟩, hbuflen, hsmall⟩, ?_, rfl, rfl⟩
  · rw [overwrite_length (by rw [hlength, hnew, Nat.zero_add]; exact hbuflen), hnew]
  · rw [contents, contents, getD_some, overwrite, List.take_zero, List.nil_append,
      List.take_left' hlength]

theorem moveData_spec :
    moveData m file buflen = .error .panic ∨
      ∃ moved, moveData m file buflen = .ok moved ∧ moved.OnHeap ∧
        moved.contents = file.contents ∧ moved.datalength = file.datalength ∧
        moved.notOnRdBufferLength = buflen := by
  by_cases hsmall : buflen < 2 ^ 30
  · exact .inr (moveData_of_small m h hbuflen hsmall)
  · refine .inl ?_
    rw [moveData, newBuffer, if_neg hsmall]
    rfl

end

theorem prepareBuffer_spec (m : Machine) (h : file.Stored) :
    prepareBuffer m file = .error .panic ∨
      ∃ prepared, prepareBuffer m file = .ok prepared ∧ prepared.OnHeap ∧
        prepared.contents = file.contents ∧ prepared.datalength = file.datalength ∧
        prepared.notOnRdBufferLength = file.capacity m := by
  unfold prepareBuffer capacity
  rcases h with ⟨hon, data, hdata, hlength⟩ | h | ⟨hoff, hdata, hlength⟩
  · rw [if_pos hon, if_pos hon]
    refine moveData_spec m ?_ (m.le_enlarged file.datalength)
    rw [hdata, getD_some, hlength]
  · obtain ⟨data, hdata, -⟩ := h.buffer
    have hne : ¬ file.data = none := by rw [hdata]; exact some_ne_none data
    rw [h.notOnRamdisk, if_neg Bool.false_ne_true, if_neg Bool.false_ne_true, if_neg hne, if_neg hne]
    exact .inr ⟨file, rfl, h, rfl, rfl, rfl⟩
  · rw [hoff, if_neg Bool.false_ne_true, if_neg Bool.false_ne_true, if_pos hdata, if_pos hdata,
      newBuffer, if_pos (by decide)]
    have hsmall : 32 < 2 ^ 30 := by decide
    refine .inr ⟨_, rfl, ⟨rfl, ⟨_, rfl, ?_⟩, ?_, hsmall⟩, ?_, rfl, rfl⟩
    · rw [List.length_map, List.length_range]
    · rw [hlength]
      exact Nat.zero_le _
    · rw [contents, contents, hlength, List.take_zero, List.take_zero]

theorem prepareBuffer_panic (h : file.Stored)
    (hpanic : prepareBuffer m file = .error .panic) : 2 ^ 30 ≤ file.capacity m := by
  have hle := h.datalength_le
  unfold prepareBuffer at hpanic
  unfold capacity
  split at hpanic
  next hon =>
    rw [if_pos hon]
    by_contra hsmall
    obtain ⟨moved, hmoved, -⟩ := moveData_of_small m hle (m.le_enlarged file.datalength) (by omega)
    rw [hmoved] at hpanic
    cases hpanic
  next =>
    split at hpanic
    next =>
      cases hpanic
    next => cases hpanic

theorem OnHeap.space_eq (h : file.OnHeap) {offset : Int} (h0 : 0 ≤ offset)
    (hle : offset ≤ file.notOnRdBufferLength) :
    file.space offset = file.notOnRdBufferLength - offset := by
  have hsmall := h.small
  rw [space, Int.emod_eq_of_lt (by omega) (by omega)]

section

variable {offset : Int} (m : Machine) (h : file.OnHeap) (h0 : 0 ≤ offset)
  (hle : offset ≤ file.notOnRdBufferLength)
include h h0 hle

/-- The loop ends with enough space, unless the heap is full or the buffer does not grow. -/
theorem expandLoop_spec (length : Int) (fuel : Nat) :
    expandLoop m fuel file offset length = .error .panic ∨
      (expandLoop m fuel file offset length = .error .endless ∧
        ¬ (2 ^ 30 ≤ fuel + file.notOnRdBufferLength ∧ m.least ≤ file.notOnRdBufferLength) ∧
        (fuel = 0 ∨ file.notOnRdBufferLength < offset + length)) ∨
      ∃ expanded, expandLoop m fuel file offset length = .ok expanded ∧ expanded.OnHeap ∧
        expanded.contents = file.contents ∧ expanded.datalength = file.datalength ∧
        offset + length ≤ expanded.notOnRdBufferLength := by
  induction fuel generalizing file with
  | zero =>
    have hsmall := h.small
    exact .inr (.inl ⟨rfl, by omega, .inl rfl⟩)
  | succ fuel ih =>
    rw [expandLoop, h.space_eq h0 hle]
    split
    next hspace =>
      have hfits := h.fits
      have hlarger := m.le_enlarged file.notOnRdBufferLength
      rcases moveData_spec m (by rw [h.length_data]; exact hfits) (hfits.trans hlarger) with
        hpanic | ⟨moved, hmoved, hheap, hcontents, hlen, hcap⟩
      · exact .inl (by rw [hpanic]; rfl)
      · have hstep : (moveData m file (m.enlarged file.notOnRdBufferLength) >>= fun moved =>
            expandLoop m fuel moved offset length) =
              expandLoop m fuel moved offset length := by
          rw [hmoved]
          rfl
        rw [hstep]
        rcases ih hheap (by omega) with hpanic | ⟨hendless, hgrows, -⟩ | ⟨expanded, hok, hheap', hsame,
          hlen', henough⟩
        · exact .inl hpanic
        · refine .inr (.inl ⟨hendless, fun hrounds => hgrows ?_, .inr (by omega)⟩)
          have hgrown := m.lt_enlarged hrounds.2
          omega
        · exact .inr (.inr ⟨expanded, hok, hheap', hsame.trans hcontents, hlen'.trans hlen, henough⟩)
    next hspace => exact .inr (.inr ⟨file, rfl, h, rfl, rfl, by omega⟩)

theorem expandLoop_stuck {length : Int} (hspace : file.notOnRdBufferLength < offset + length)
    (hsmall : file.notOnRdBufferLength < m.least) (fuel : Nat) :
    expandLoop m fuel file offset length = .error .endless := by
  induction fuel generalizing file with
  | zero => rfl
  | succ fuel ih =>
    have hfits := h.fits
    obtain ⟨moved, hmoved, hheap, -, -, hcap⟩ := moveData_of_small m
      (by rw [h.length_data]; exact hfits) hfits h.small
    rw [expandLoop, h.space_eq h0 hle, if_pos (by omega), m.enlarged_small hsmall, hmoved]
    exact ih hheap (by omega) (by omega) (by omega)

end

theorem OnHeap.writeData (h : file.OnHeap) (fd : FileDescriptorContent) {offset : Nat}
    {bytes : List UInt8} (hroom : offset + bytes.length ≤ file.notOnRdBufferLength) :
    ∃ written, file.writeData fd offset bytes =
        .ok (written, { fd with offset := offset + bytes.length }, bytes.length) ∧
      written.OnHeap ∧ written.datalength = offset + bytes.length ∧
      (offset ≤ file.datalength → written.contents = file.contents.take offset ++ bytes) := by
  have hsmall := h.small
  have hlength := h.length_data
  have hcopy : memoryCopy (file.data.getD []) offset bytes =
      .ok (overwrite (file.data.getD []) offset bytes) := by
    rw [memoryCopy_eq (Int.natCast_nonneg offset) (by rw [hlength]; exact_mod_cast hroom),
      Int.toNat_natCast]
  have hend : u32 ((offset : Int) + bytes.length).toNat = offset + bytes.length := by
    rw [← Int.natCast_add, Int.toNat_natCast, u32_of_lt (by omega)]
  refine ⟨{ file with
      data := some (overwrite (file.data.getD []) offset bytes)
      datalength := offset + bytes.length }, ?_, ⟨h.notOnRamdisk, ⟨_, rfl, ?_⟩, hroom, hsmall⟩, rfl, ?_⟩
  · rw [RamdiskFile.writeData, hcopy, hend]
    rfl
  · rw [overwrite_length (by rw [hlength]; exact hroom), hlength]
  · intro hle
    have htake : ((file.data.getD []).take offset ++ bytes).length = offset + bytes.length := by
      rw [List.length_append, List.length_take, hlength]
      omega
    rw [contents, contents, getD_some, overwrite, List.take_left' htake, List.take_take,
      Nat.min_eq_left hle]

/-! ## Requests -/

variable {fd : FileDescriptorContent}

theorem writeOffset_nonneg (file : RamdiskFile) (h0 : 0 ≤ fd.offset) : 0 ≤ file.writeOffset fd := by
  unfold writeOffset
  split
  next => exact Int.natCast_nonneg _
  next => exact h0

section

variable (m : Machine) (h : file.Stored) (h0 : 0 ≤ fd.offset)
  (hrange : file.writeOffset fd ≤ file.capacity m)
include h h0 hrange

theorem requestWrite_spec (bytes : List UInt8) :
    requestWrite m file fd bytes = .error .panic ∨
      (requestWrite m file fd bytes = .error .endless ∧
        file.capacity m < file.writeOffset fd + bytes.length ∧ file.capacity m < m.least) ∨
      ∃ written, requestWrite m file fd bytes =
          .ok (written, { fd with offset := file.writeOffset fd + bytes.length }, bytes.length) ∧
        written.OnHeap ∧ (written.datalength : Int) = file.writeOffset fd + bytes.length ∧
        (file.writeOffset fd ≤ file.datalength →
          written.contents = file.contents.take (file.writeOffset fd).toNat ++ bytes) := by
  obtain ⟨o, ho⟩ := Int.eq_ofNat_of_zero_le (writeOffset_nonneg file h0)
  rcases prepareBuffer_spec m h with
    hpanic | ⟨prepared, hprepared, hheap, hcontents, hlen, hcap⟩
  · refine .inl ?_
    rw [requestWrite, hpanic]
    rfl
  · have hoffset : prepared.writeOffset fd = o := by
      rw [writeOffset, hlen]
      exact ho
    have hstep : requestWrite m file fd bytes =
        (expandLoop m (2 ^ 30) prepared o bytes.length).bind fun expanded =>
          expanded.writeData fd o bytes := by
      rw [requestWrite, hprepared, ← hoffset]
      rfl
    rw [ho, ← hcap] at hrange ⊢
    rw [hstep]
    rcases expandLoop_spec m hheap (Int.natCast_nonneg o) hrange bytes.length (2 ^ 30) with
      hpanic | ⟨hendless, hgrows, hspace⟩ | ⟨expanded, hexpanded, hheap', hcontents', hlen', henough⟩
    · refine .inl ?_
      rw [hpanic]
      rfl
    · refine .inr (.inl ⟨?_, by omega, by omega⟩)
      rw [hendless]
      rfl
    · obtain ⟨written, hwritten, hheapw, hlenw, hcontentsw⟩ :=
        hheap'.writeData fd (by exact_mod_cast henough)
      refine .inr (.inr ⟨written, ?_, hheapw, by rw [hlenw]; rfl, fun hle => ?_⟩)
      · rw [hexpanded]
        exact hwritten
      · rw [hcontentsw (by rw [hlen', hlen]; exact_mod_cast hle), hcontents', hcontents,
          Int.toNat_natCast]

/-- The loop that expands the buffer ends for a write of so many bytes, after a number of rounds. -/
def ExpansionEnds (m : Machine) (file : RamdiskFile) (fd : FileDescriptorContent)
    (length : Int) : Prop :=
  ∃ rounds, ((prepareBuffer m file).bind fun prepared =>
    expandLoop m rounds prepared (prepared.writeOffset fd) length) ≠ .error .endless

/-- The loop does not end for a write that starts inside the buffer and ends behind it, if the buffer
is too small to grow. -/
theorem expansion_stuck {length : Int} (hspace : file.capacity m < file.writeOffset fd + length)
    (hsmall : file.capacity m < m.least) (rounds : Nat) :
    ∃ prepared, prepareBuffer m file = .ok prepared ∧
      expandLoop m rounds prepared (prepared.writeOffset fd) length = .error .endless := by
  rcases prepareBuffer_spec m h with
    hpanic | ⟨prepared, hprepared, hheap, -, hlen, hcap⟩
  · have hlarge := prepareBuffer_panic h hpanic
    have hleast := m.least_lt
    omega
  · have hsame : prepared.writeOffset fd = file.writeOffset fd := by
      rw [writeOffset, writeOffset, hlen]
    refine ⟨prepared, hprepared, ?_⟩
    rw [hsame]
    exact expandLoop_stuck m hheap (writeOffset_nonneg file h0) (by omega) (by omega) (by omega)
      rounds

end

theorem expansion_ends (m : Machine) (h : file.Stored) (h0 : 0 ≤ fd.offset)
    (hrange : file.writeOffset fd ≤ file.capacity m) (length : Int) :
    ExpansionEnds m file fd length ↔
      file.writeOffset fd + length ≤ file.capacity m ∨ m.least ≤ file.capacity m := by
  constructor
  · rintro ⟨rounds, hends⟩
    by_contra hgrows
    have hspace : file.capacity m < file.writeOffset fd + length := by omega
    obtain ⟨prepared, hprepared, hendless⟩ :=
      expansion_stuck m h h0 hrange hspace (by omega) rounds
    rw [hprepared] at hends
    exact hends hendless
  · intro hgrows
    refine ⟨2 ^ 30, fun hendless => ?_⟩
    rcases prepareBuffer_spec m h with
      hpanic | ⟨prepared, hprepared, hheap, -, hlen, hcap⟩
    · rw [hpanic] at hendless
      cases hendless
    · have hsame : prepared.writeOffset fd = file.writeOffset fd := by
        rw [writeOffset, writeOffset, hlen]
      rw [hprepared, Except.bind, hsame] at hendless
      rcases expandLoop_spec m hheap (writeOffset_nonneg file h0) (by omega) length (2 ^ 30) with
        hpanic | ⟨-, hsmall, hspace⟩ | ⟨expanded, hok, -⟩
      · rw [hpanic] at hendless
        cases hendless
      · omega
      · rw [hok] at hendless
        cases hendless

/-- With the exact product, the loop ends for a write that starts inside the buffer if and only if there
is enough space in front of it, or the buffer has five bytes and grows. -/
theorem expansion_ends_iff (garbage : Nat → UInt8) (h : file.Stored) (h0 : 0 ≤ fd.offset)
    (hrange : file.writeOffset fd ≤ file.capacity (.floored garbage)) (length : Int) :
    ExpansionEnds (.floored garbage) file fd length ↔
      file.writeOffset fd + length ≤ file.capacity (.floored garbage) ∨
        5 ≤ file.capacity (.floored garbage) :=
  expansion_ends (.floored garbage) h h0 hrange length

theorem expansion_ends_iff_small :
    ExpansionEnds (.floored fun _ => 0) (loaded [1, 2, 3, 4])
        { id := 3, openFlags := 2, offset := 2 } 2 ∧
      ¬ ExpansionEnds (.floored fun _ => 0) (loaded [1, 2, 3, 4])
        { id := 3, openFlags := 2, offset := 2 } 3 ∧
      ExpansionEnds (.floored fun _ => 0) (loaded [1, 2, 3, 4, 5])
        { id := 3, openFlags := 2, offset := 5 } 9 :=
  ⟨(expansion_ends_iff (fun _ => 0) (stored_loaded _) (by decide) (by decide) 2).2 (by decide),
    mt (expansion_ends_iff (fun _ => 0) (stored_loaded _) (by decide) (by decide) 3).1 (by decide),
    (expansion_ends_iff (fun _ => 0) (stored_loaded _) (by decide) (by decide) 9).2 (by decide)⟩

/-- A write of one byte to an empty file of the ramdisk does not end. -/
theorem expansion_of_empty_endless : ¬ ∀ (garbage : Nat → UInt8) (file : RamdiskFile)
    (fd : FileDescriptorContent), file.Stored → 0 ≤ fd.offset → fd.offset ≤ file.datalength →
      ∀ length, ExpansionEnds (.floored garbage) file fd length := by
  intro hends
  -- the copy on the heap has no bytes either
  have hheap : OnHeap { loaded [] with dataOnRamdisk := false } :=
    ⟨rfl, ⟨[], rfl, rfl⟩, Nat.le_refl 0, by decide⟩
  obtain ⟨rounds, hrounds⟩ := hends (fun _ => 0) (loaded []) { id := 3, openFlags := 2 }
    (stored_loaded []) (Int.le_refl 0) (Int.le_refl 0) 1
  exact hrounds (expandLoop_stuck _ hheap (Int.le_refl 0) (Int.le_refl 0) (by decide) (by decide)
    rounds)

theorem requestRead_spec (h : file.Stored) (h0 : 0 ≤ fd.offset) (length : Nat) :
    ∃ status result,
      file.requestRead fd length =
        ({ fd with
           offset := fd.offset + ((file.contents.drop fd.offset.toNat).take length).length },
          status, result, (file.contents.drop fd.offset.toNat).take length) ∧
      (file.data = none ∧ status = .error ∨ file.data ≠ none ∧ status = .successful ∧
        result = min (length : Int) (file.datalength - fd.offset)) := by
  obtain ⟨o, ho⟩ := Int.eq_ofNat_of_zero_le h0
  have hlength := h.length_contents
  cases hdata : file.data with
  | none =>
    have hempty : file.contents = [] := by rw [contents, hdata, Option.getD_none, List.take_nil]
    refine ⟨.error, -1, ?_, .inl ⟨rfl, rfl⟩⟩
    simp [requestRead, hdata, hempty]
  | some data =>
    have hcontents : (file.contents.drop o).take length =
        (data.drop o).take (min length (file.datalength - o)) := by
      rw [contents, hdata, getD_some, List.drop_take, List.take_take]
    have htaken : ((data.drop o).take (min length (file.datalength - o))).length =
        min length (file.datalength - o) := by
      rw [← hcontents, List.length_take, List.length_drop, hlength]
    have hamount : (if fd.offset + length ≥ file.datalength then file.datalength - fd.offset
        else (length : Int)) = min (length : Int) (file.datalength - fd.offset) := by
      split <;> omega
    refine ⟨.successful, min (length : Int) (file.datalength - fd.offset), ?_,
      .inr ⟨some_ne_none data, rfl, rfl⟩⟩
    simp only [requestRead, hdata]
    rw [hamount, ho, Int.toNat_natCast, hcontents, htaken]
    by_cases hpos : min (length : Int) (file.datalength - o) > 0
    · have hmin : min (length : Int) (file.datalength - o) =
          (min length (file.datalength - o) : Nat) := by omega
      rw [if_pos hpos, hmin, Int.toNat_natCast]
    · have hmin : min length (file.datalength - o) = 0 := by omega
      rw [if_neg hpos, hmin, List.take_zero, Int.natCast_zero, Int.add_zero, ← ho]

end RamdiskFile

/-! ## Descriptors -/

namespace FileState

/-- A file that was loaded with the ramdisk or has just been created, and is not open. -/
def Initial (s : FileState) : Prop :=
  (s.file.dataOnRamdisk = true ∧
      (∃ data, s.file.data = some data ∧ data.length = s.file.datalength) ∨
    s.file = { data := none, datalength := 0, dataOnRamdisk := false, notOnRdBufferLength := 0 }) ∧
  s.descriptors = fun _ => none

/-- The data is stored, and the offsets are not negative. -/
structure Valid (s : FileState) : Prop where
  stored : s.file.Stored
  offset_nonneg : ∀ {fd content}, s.descriptors fd = some content → 0 ≤ content.offset

variable {m : Machine} {s s' : FileState}

theorem Initial.valid (h : s.Initial) : s.Valid := by
  obtain ⟨hfile, hdescriptors⟩ := h
  refine ⟨?_, fun hfd => ?_⟩
  · rcases hfile with hloaded | hcreated
    · exact .inl hloaded
    · rw [hcreated]
      exact .inr (.inr ⟨rfl, rfl, rfl⟩)
  · rw [hdescriptors] at hfd
    cases hfd

theorem Valid.setDescriptor {file : RamdiskFile} (h : s.Valid) (hfile : file.Stored) {fd : Int}
    {content : FileDescriptorContent} (h0 : 0 ≤ content.offset) :
    (({ s with file } : FileState).setDescriptor fd content).Valid := by
  refine ⟨hfile, fun {fd' content'} hfd => ?_⟩
  dsimp only [FileState.setDescriptor] at hfd
  rw [Function.update_apply] at hfd
  split at hfd
  next =>
    cases hfd
    exact h0
  next => exact h.offset_nonneg hfd

theorem stored_requestOpen {file : RamdiskFile} (h : file.Stored) (flags : Int) :
    (file.requestOpen flags).Stored := by
  unfold RamdiskFile.requestOpen
  split
  next htruncate => exact .inr (.inr ⟨htruncate.2, rfl, rfl⟩)
  next => exact h

theorem seek_eq (file : RamdiskFile) (content : FileDescriptorContent) (mode : FsSeekMode)
    (amount : Int) : ∃ offset : Int, file.seek content mode amount =
      ({ content with offset }, offset) ∧ 0 ≤ offset := by
  refine ⟨_, rfl, ?_⟩
  split <;> omega

/-! ## Staying in bounds -/

/-- The descriptor of a read is not behind the end of the file, and that of a write not behind the end
of the buffer. -/
def InRange (m : Machine) (s : FileState) : FileAccess → Prop
  | .read fd _ => ∀ content, s.descriptors fd = some content → s.file.data ≠ none →
      content.offset ≤ s.file.datalength
  | .write fd _ => ∀ content, s.descriptors fd = some content →
      s.file.writeOffset content ≤ s.file.capacity m
  | _ => True

/-- A read returns at most the length asked for, and no copy of a write goes over the end of a
buffer. -/
def InBounds (m : Machine) (s : FileState) : FileAccess → Prop
  | .read fd length => ∀ s' result bytes,
      s.access m (.read fd length) = .ok (s', .read .successful result bytes) →
        0 ≤ result ∧ result ≤ length
  | .write fd bytes => s.access m (.write fd bytes) ≠ .error .outOfBounds
  | _ => True

/-- The runs of calls on a file. -/
def system (m : Machine) : System FileState FileAccess where
  init := Initial
  step s a := (s.access m a).toOption.map Prod.fst

theorem access_write {fd : Int} {content : FileDescriptorContent}
    (hfd : s.descriptors fd = some content) (bytes : List UInt8) :
    s.access m (.write fd bytes) =
      (s.file.requestWrite m content bytes).bind fun r =>
        .ok (({ s with file := r.1 } : FileState).setDescriptor fd r.2.1, .written r.2.2) := by
  simp only [FileState.access, hfd]
  rfl

theorem Valid.access (h : s.Valid) {a : FileAccess} (hrange : s.InRange m a) {result : FileResult}
    (hstep : s.access m a = .ok (s', result)) : s'.Valid := by
  cases a with
  | «open» fd flags =>
    cases hstep
    exact h.setDescriptor (stored_requestOpen h.stored flags) (Int.le_refl 0)
  | seek fd mode amount =>
    cases hfd : s.descriptors fd with
    | none =>
      simp only [FileState.access, hfd, Except.ok.injEq, Prod.mk.injEq] at hstep
      exact hstep.1 ▸ h
    | some content =>
      obtain ⟨offset, hseek, h0⟩ := seek_eq s.file content mode amount
      simp only [FileState.access, hfd, hseek, Except.ok.injEq, Prod.mk.injEq] at hstep
      exact hstep.1 ▸ h.setDescriptor h.stored h0
  | read fd length =>
    cases hfd : s.descriptors fd with
    | none =>
      simp only [FileState.access, hfd, Except.ok.injEq, Prod.mk.injEq] at hstep
      exact hstep.1 ▸ h
    | some content =>
      have h0 := h.offset_nonneg hfd
      obtain ⟨status, amount, hread, -⟩ := RamdiskFile.requestRead_spec h.stored h0 length
      simp only [FileState.access, hfd, hread, Except.ok.injEq, Prod.mk.injEq] at hstep
      exact hstep.1 ▸ h.setDescriptor h.stored (Int.add_nonneg h0 (Int.natCast_nonneg _))
  | write fd bytes =>
    cases hfd : s.descriptors fd with
    | none =>
      simp only [FileState.access, hfd, Except.ok.injEq, Prod.mk.injEq] at hstep
      exact hstep.1 ▸ h
    | some content =>
      have h0 := h.offset_nonneg hfd
      rw [access_write hfd] at hstep
      rcases RamdiskFile.requestWrite_spec m h.stored h0 (hrange content hfd) bytes with
        hpanic | ⟨hendless, -⟩ | ⟨written, hwritten, hheap, -⟩
      · rw [hpanic] at hstep
        cases hstep
      · rw [hendless] at hstep
        cases hstep
      · rw [hwritten] at hstep
        cases hstep
        exact h.setDescriptor (.inr (.inl hheap)) (Int.add_nonneg
          (RamdiskFile.writeOffset_nonneg s.file h0) (Int.natCast_nonneg _))

theorem Valid.inBounds (h : s.Valid) {a : FileAccess} (hrange : s.InRange m a) :
    s.InBounds m a := by
  cases a with
  | «open» fd flags => trivial
  | seek fd mode amount => trivial
  | read fd length =>
    intro s' result bytes hstep
    cases hfd : s.descriptors fd with
    | none =>
      simp only [FileState.access, hfd] at hstep
      cases hstep
    | some content =>
      have h0 := h.offset_nonneg hfd
      obtain ⟨status, amount, hread, hstatus⟩ := RamdiskFile.requestRead_spec h.stored h0 length
      simp only [FileState.access, hfd, hread, Except.ok.injEq, Prod.mk.injEq,
        FileResult.read.injEq] at hstep
      obtain ⟨-, rfl, rfl, -⟩ := hstep
      rcases hstatus with ⟨-, herror⟩ | ⟨hdata, -, hamount⟩
      · cases herror
      · have hend := hrange content hfd hdata
        omega
  | write fd bytes =>
    intro hstep
    cases hfd : s.descriptors fd with
    | none =>
      simp only [FileState.access, hfd] at hstep
      cases hstep
    | some content =>
      rw [access_write hfd] at hstep
      rcases RamdiskFile.requestWrite_spec m h.stored (h.offset_nonneg hfd)
        (hrange content hfd) bytes with hpanic | ⟨hendless, -⟩ | ⟨written, hwritten, -⟩
      · rw [hpanic] at hstep
        cases hstep
      · rw [hendless] at hstep
        cases hstep
      · rw [hwritten] at hstep
        cases hstep

theorem toOption_eq_some_iff {ε α : Type} {x : Except ε α} {r : α} :
    x.toOption = some r ↔ x = .ok r := by
  cases x with
  | error e | ok r' => simp [Except.toOption]

theorem Valid.of_reachable (hs : (system m).Reachable (InRange m) s) : s.Valid := by
  refine System.Reachable.invariant (I := Valid) (fun _ hinit => Initial.valid hinit) ?_ hs
  intro s a s' hvalid hrange hstep
  obtain ⟨r, hok, rfl⟩ := map_eq_some_iff.1 hstep
  exact hvalid.access hrange (toOption_eq_some_iff.1 hok)

/-- Where no descriptor is used behind the end, reads return a count up to what was asked for and
writes stay inside. -/
theorem accesses_in_bounds (m : Machine) {s : FileState}
    (hs : (system m).Reachable (InRange m) s) {a : FileAccess} (hrange : s.InRange m a) :
    s.InBounds m a :=
  (Valid.of_reachable hs).inBounds hrange

/-- A file that has just been created. -/
def created : FileState :=
  { file := { data := none, datalength := 0, dataOnRamdisk := false, notOnRdBufferLength := 0 } }

theorem initial_created : created.Initial := ⟨.inr rfl, rfl⟩

theorem accesses_in_bounds_after_open :
    ∃ s, (system (.x87 fun _ => 0)).Reachable (InRange (.x87 fun _ => 0)) s ∧
      s.InRange (.x87 fun _ => 0) (.write 3 [1, 2]) ∧
      s.InBounds (.x87 fun _ => 0) (.write 3 [1, 2]) := by
  have hs : (system (.x87 fun _ => 0)).Reachable (InRange (.x87 fun _ => 0))
      ((created.setDescriptor 3 { id := 3, openFlags := 2 })) :=
    .step (.init initial_created)
      (show created.InRange (.x87 fun _ => 0) (.open 3 2) from trivial) rfl
  have hrange : (created.setDescriptor 3 { id := 3, openFlags := 2 }).InRange (.x87 fun _ => 0)
      (.write 3 [1, 2]) := by
    intro content hfd
    cases hfd
    decide
  exact ⟨_, hs, hrange, accesses_in_bounds _ hs hrange⟩

/-- A truncating open leaves another descriptor behind the end: its read is negative, and its write
goes over the end. -/
theorem truncated_file_is_left_behind :
    (∃ s, (system (.x87 fun _ => 0)).Reachable (fun _ _ => True) s ∧
      ¬ s.InBounds (.x87 fun _ => 0) (.read 3 10)) ∧
    ∃ s, (system (.x87 fun _ => 0)).Reachable (fun _ _ => True) s ∧
      ¬ s.InBounds (.x87 fun _ => 0) (.write 3 [1]) := by
  refine ⟨?_, ?_⟩
  · obtain ⟨s, hrun, ⟨s', result⟩, hok, rfl⟩ : ∃ s ∈ (system (.x87 fun _ => 0)).run created
        [.open 3 2, .write 3 [1, 2, 3], .open 4 18, .write 4 [9]],
        ∃ r ∈ (s.access (.x87 fun _ => 0) (.read 3 10)).toOption, r.2 = .read .successful (-2) [] := by
      decide +kernel
    refine ⟨s, System.reachable_of_run initial_created hrun, fun hbounds => ?_⟩
    exact absurd (hbounds s' _ _ (toOption_eq_some_iff.1 hok)).1 (by decide)
  · obtain ⟨s, hrun, hfault⟩ : ∃ s ∈ (system (.x87 fun _ => 0)).run created
        [.open 3 2, .write 3 (List.replicate 40 1), .open 4 18, .write 4 [9]],
        (match s.access (.x87 fun _ => 0) (.write 3 [1]) with
          | .ok _ => none
          | .error fault => some fault) = some .outOfBounds := by
      decide
    refine ⟨s, System.reachable_of_run initial_created hrun, fun hbounds => hbounds ?_⟩
    split at hfault
    next => cases hfault
    next fault hwrite => rw [hwrite, Option.some.inj hfault]

end FileState

/-! ## The file as an array of bytes -/

/-- An array of bytes with descriptors. -/
structure ByteFile where
  bytes : List UInt8
  descriptors : Int → Option FileDescriptorContent

namespace ByteFile

/-- The descriptor is moved. -/
def moveTo (t : ByteFile) (content : FileDescriptorContent) (fd offset : Int) : ByteFile :=
  { t with descriptors := Function.update t.descriptors fd (some { content with offset }) }

/-- The place that a seek asks for, brought into the file. -/
def seekOffset (t : ByteFile) (offset : Int) (mode : FsSeekMode) (amount : Int) : Int :=
  max 0 (min t.bytes.length (match mode with
    | .seekCur => s64 (offset + amount)
    | .seekSet => amount
    | .seekEnd => s64 (t.bytes.length - amount)))

/-- A truncating open empties the array, a read delivers the bytes from the offset on, a write puts its
bytes there, or behind the last one for an appending descriptor. -/
def access (t : ByteFile) : FileAccess → ByteFile × FileResult
  | .open fd flags =>
    (({ t with bytes := if isTruncate flags then [] else t.bytes } : ByteFile).moveTo
      { id := fd, openFlags := flags } fd 0, .opened)
  | .seek fd mode amount =>
    match t.descriptors fd with
    | none => (t, .invalidFd)
    | some content =>
      (t.moveTo content fd (t.seekOffset content.offset mode amount),
        .sought (t.seekOffset content.offset mode amount))
  | .read fd length =>
    match t.descriptors fd with
    | none => (t, .invalidFd)
    | some content =>
      let taken := (t.bytes.drop content.offset.toNat).take length
      (t.moveTo content fd (content.offset + taken.length),
        .read .successful taken.length taken)
  | .write fd data =>
    match t.descriptors fd with
    | none => (t, .invalidFd)
    | some content =>
      let offset : Int := if isAppend content.openFlags then t.bytes.length else content.offset
      (({ t with bytes := overwrite t.bytes offset.toNat data } : ByteFile).moveTo content fd
        (offset + data.length), .written data.length)

end ByteFile

namespace FileState

variable {m : Machine} {s s' : FileState}

/-- The array that a file stands for. -/
def toByteFile (s : FileState) : ByteFile :=
  { bytes := s.file.contents, descriptors := s.descriptors }

/-- A truncating open of a file that was written or is empty, a read inside a file that has a buffer, or
a write that starts inside the file and does not end before its end, with a buffer that is large enough
or grows. -/
def fits (m : Machine) (s : FileState) : FileAccess → Bool
  | .open _ flags => isTruncate flags → s.file.dataOnRamdisk → s.file.datalength = 0
  | .seek .. => true
  | .read fd _ =>
    match s.descriptors fd with
    | none => true
    | some content => s.file.data ≠ none ∧ content.offset ≤ s.file.datalength
  | .write fd bytes =>
    match s.descriptors fd with
    | none => true
    | some content =>
      s.file.writeOffset content ≤ s.file.datalength ∧
        s.file.datalength ≤ s.file.writeOffset content + bytes.length ∧
        (s.file.writeOffset content + bytes.length ≤ s.file.capacity m ∨ m.least ≤ s.file.capacity m)

/-- Runs a call that fits, with its result. -/
def accessIfFits (m : Machine) (s : FileState) (a : FileAccess) : Option (FileState × FileResult) :=
  if s.fits m a then (s.access m a).toOption else none

theorem contents_requestOpen {file : RamdiskFile} (h : file.Stored) {flags : Int}
    (hfits : isTruncate flags → file.dataOnRamdisk → file.datalength = 0) :
    (file.requestOpen flags).contents = if isTruncate flags then [] else file.contents := by
  unfold RamdiskFile.requestOpen
  by_cases htruncate : isTruncate flags
  · rw [if_pos htruncate]
    split
    next => exact List.take_nil
    next hon =>
      have hempty : file.datalength = 0 := hfits htruncate (by simpa [htruncate] using hon)
      rw [← List.length_eq_zero_iff, h.length_contents, hempty]
  · rw [if_neg (fun h => htruncate h.1), if_neg htruncate]

theorem seek_toByteFile (h : s.Valid) (content : FileDescriptorContent) (mode : FsSeekMode)
    (amount : Int) : s.file.seek content mode amount =
      ({ content with offset := s.toByteFile.seekOffset content.offset mode amount },
        s.toByteFile.seekOffset content.offset mode amount) := by
  have hclamp : ∀ offset : Int,
      (if (if offset > s.file.datalength then (s.file.datalength : Int) else offset) < 0 then 0
        else (if offset > s.file.datalength then (s.file.datalength : Int) else offset)) =
        max 0 (min (s.file.contents.length : Int) offset) := by
    intro offset
    rw [h.stored.length_contents]
    split <;> split <;> omega
  have hlength := h.stored.length_contents
  cases mode <;>
    simp only [RamdiskFile.seek, ByteFile.seekOffset, toByteFile, hclamp, hlength]

theorem Valid.access_fits (m : Machine) (h : s.Valid) {a : FileAccess} (hfits : s.fits m a) :
    s.access m a = .error .panic ∨
      ∃ s' result, s.access m a = .ok (s', result) ∧ s'.Valid ∧
        result = (s.toByteFile.access a).2 ∧
        s'.toByteFile = (s.toByteFile.access a).1 := by
  cases a with
  | «open» fd flags =>
    simp only [fits, decide_eq_true_eq] at hfits
    have hcontents := contents_requestOpen h.stored hfits
    refine .inr ⟨_, _, rfl, h.setDescriptor (stored_requestOpen h.stored flags) (Int.le_refl 0),
      rfl, ?_⟩
    simp only [ByteFile.access, ByteFile.moveTo, FileState.setDescriptor, toByteFile, hcontents]
  | seek fd mode amount =>
    cases hfd : s.descriptors fd with
    | none =>
      refine .inr ⟨s, .invalidFd, by simp [FileState.access, hfd], h, ?_, ?_⟩
      · simp [ByteFile.access, toByteFile, hfd]
      · simp [ByteFile.access, toByteFile, hfd]
    | some content =>
      have hseek := seek_toByteFile h content mode amount
      refine .inr ⟨s.setDescriptor fd { content with
          offset := s.toByteFile.seekOffset content.offset mode amount },
        .sought (s.toByteFile.seekOffset content.offset mode amount),
        by simp [FileState.access, hfd, hseek], h.setDescriptor h.stored (Int.le_max_left ..),
        ?_, ?_⟩
      · simp [ByteFile.access, toByteFile, hfd]
      · simp [ByteFile.access, ByteFile.moveTo, toByteFile, hfd, FileState.setDescriptor]
  | read fd length =>
    cases hfd : s.descriptors fd with
    | none =>
      refine .inr ⟨s, .invalidFd, by simp [FileState.access, hfd], h, ?_, ?_⟩
      · simp [ByteFile.access, toByteFile, hfd]
      · simp [ByteFile.access, toByteFile, hfd]
    | some content =>
      have h0 := h.offset_nonneg hfd
      have hlength := h.stored.length_contents
      obtain ⟨status, result, hread, hstatus⟩ := RamdiskFile.requestRead_spec h.stored h0 length
      simp only [fits, hfd, decide_eq_true_eq] at hfits
      rcases hstatus with ⟨hdata, -⟩ | ⟨-, rfl, rfl⟩
      · exact absurd hdata hfits.1
      have hresult : min (length : Int) (s.file.datalength - content.offset) =
          (((s.file.contents.drop content.offset.toNat).take length).length : Int) := by
        rw [List.length_take, List.length_drop, hlength]
        omega
      refine .inr ⟨s.setDescriptor fd { content with
          offset := content.offset +
            ((s.file.contents.drop content.offset.toNat).take length).length },
        .read .successful (min length (s.file.datalength - content.offset))
          ((s.file.contents.drop content.offset.toNat).take length),
        by simp [FileState.access, hfd, hread],
        h.setDescriptor h.stored (Int.add_nonneg h0 (Int.natCast_nonneg _)), ?_, ?_⟩
      · simp [ByteFile.access, toByteFile, hfd, hresult]
      · simp [ByteFile.access, ByteFile.moveTo, toByteFile, hfd, FileState.setDescriptor]
  | write fd bytes =>
    cases hfd : s.descriptors fd with
    | none =>
      refine .inr ⟨s, .invalidFd, by simp [FileState.access, hfd], h, ?_, ?_⟩
      · simp [ByteFile.access, toByteFile, hfd]
      · simp [ByteFile.access, toByteFile, hfd]
    | some content =>
      have h0 := h.offset_nonneg hfd
      simp only [fits, hfd, decide_eq_true_eq] at hfits
      obtain ⟨hstart, hend, hgrows⟩ := hfits
      have hcapacity := h.stored.datalength_le_capacity m
      rw [access_write hfd]
      rcases RamdiskFile.requestWrite_spec m h.stored h0 (by omega) bytes with
        hpanic | ⟨-, hspace, hsmall⟩ | ⟨written, hwritten, hheap, hlen, hcontents⟩
      · refine .inl ?_
        rw [hpanic]
        rfl
      · omega
      · refine .inr ⟨_, _, by rw [hwritten]; rfl, h.setDescriptor (.inr (.inl hheap))
          (Int.add_nonneg (RamdiskFile.writeOffset_nonneg s.file h0) (Int.natCast_nonneg _)), ?_, ?_⟩
        · simp [ByteFile.access, toByteFile, hfd]
        · have hoffset : s.file.writeOffset content =
              if isAppend content.openFlags then (s.file.contents.length : Int)
              else content.offset := by
            rw [RamdiskFile.writeOffset, h.stored.length_contents]
          have hdrop : s.file.contents.drop
              ((s.file.writeOffset content).toNat + bytes.length) = [] := by
            refine List.drop_eq_nil_of_le ?_
            rw [h.stored.length_contents]
            omega
          have hbytes : written.contents =
              overwrite s.file.contents (s.file.writeOffset content).toNat bytes := by
            rw [hcontents hstart, overwrite, hdrop, List.append_nil]
          simp [ByteFile.access, ByteFile.moveTo, toByteFile, hfd, FileState.setDescriptor, hbytes,
            hoffset]

/-- The file is an array of bytes in every run of calls that fit, and the next call that fits returns,
unless the kernel heap is full. -/
theorem file_behaves_as_bytes (m : Machine) {s₀ : FileState} (hinit : s₀.Initial)
    {calls : List FileAccess} {s : FileState} {results : List FileResult}
    (hrun : runResults (accessIfFits m) s₀ calls = some (s, results)) :
    results = (runSpec ByteFile.access s₀.toByteFile calls).2 ∧
      s.toByteFile = (runSpec ByteFile.access s₀.toByteFile calls).1 ∧
      ∀ a, s.fits m a → s.access m a ≠ .error .endless ∧
        s.access m a ≠ .error .outOfBounds := by
  have hstep : ∀ s t a s' result, (s.Valid ∧ s.toByteFile = t) →
      accessIfFits m s a = some (s', result) →
        result = (t.access a).2 ∧ s'.Valid ∧ s'.toByteFile = (t.access a).1 := by
    rintro s t a s' result ⟨hvalid, rfl⟩ hstep
    rw [accessIfFits] at hstep
    split at hstep
    next hfits =>
      have hok := toOption_eq_some_iff.1 hstep
      rcases hvalid.access_fits m hfits with hpanic | ⟨s1, result1, hok1, hvalid', hresult, hbytes⟩
      · rw [hpanic] at hok
        cases hok
      · rw [hok1] at hok
        cases hok
        exact ⟨hresult, hvalid', hbytes⟩
    next => cases hstep
  obtain ⟨hresults, hvalid, hbytes⟩ := runResults_refines hstep ⟨hinit.valid, rfl⟩ hrun
  refine ⟨hresults, hbytes, fun a hfits => ?_⟩
  rcases hvalid.access_fits m hfits with hpanic | ⟨s', result, hok, -⟩
  · rw [hpanic]
    exact ⟨by rintro ⟨⟩, by rintro ⟨⟩⟩
  · rw [hok]
    exact ⟨by rintro ⟨⟩, by rintro ⟨⟩⟩

/-- A write in the middle of a file. -/
def overwriting : List FileAccess :=
  [.open 3 2, .write 3 [1, 2, 3], .seek 3 .seekSet 1, .write 3 [7, 8, 9], .seek 3 .seekEnd 2, .read 3 10]

theorem file_behaves_as_bytes_overwriting :
    ∃ s results, runResults (accessIfFits (.x87 fun _ => 0)) created overwriting = some (s, results) ∧
      results = [.opened, .written 3, .sought 1, .written 3, .sought 2,
        .read .successful 2 [8, 9]] := by
  have hsome : (runResults (accessIfFits (.x87 fun _ => 0)) created overwriting).isSome := by
    decide +kernel
  obtain ⟨⟨s, results⟩, hrun⟩ := Option.isSome_iff_exists.1 hsome
  refine ⟨s, results, hrun, ?_⟩
  rw [(file_behaves_as_bytes (.x87 fun _ => 0) initial_created hrun).1]
  decide +kernel

/-- A write in front of the rest of a file. -/
def cutting : List FileAccess :=
  [.open 3 2, .write 3 [1, 2, 3], .seek 3 .seekSet 0, .write 3 [9], .seek 3 .seekSet 0, .read 3 10]

/-- A write in the middle cuts off what is behind it. -/
theorem write_cuts_off_the_rest :
    ∃ s results, runResults (fun s a => (s.access (.x87 fun _ => 0) a).toOption) created cutting =
        some (s, results) ∧
      results ≠ (runSpec ByteFile.access created.toByteFile cutting).2 := by
  obtain ⟨⟨s, results⟩, hrun, rfl⟩ :
      ∃ r ∈ runResults (fun s a => (s.access (.x87 fun _ => 0) a).toOption) created cutting,
        r.2 = [.opened, .written 3, .sought 0, .written 1, .sought 0, .read .successful 1 [9]] := by
    decide +kernel
  exact ⟨s, _, hrun, by decide⟩

end FileState

end MeetixOS.Kernel
