import MeetixOS.LibC.Lines

/-! # The position of a stream

A buffered stream is at another place than its backend: bytes are read ahead, pushed back or not
written out yet. `ftell` and `fseek` ask and move the backend alone, without a look at the buffer. -/

namespace LibC

open MeetixOS.Lib

/-! ## The calls -/

/-- `SEEK_SET`, `SEEK_CUR` and `SEEK_END`. -/
inductive Whence where
  | set
  | cur
  | atEnd
  deriving DecidableEq

namespace Backend

/-- `m_impl_tell`: the offset of the descriptor as a `long int`. -/
def tell (b : Backend) : Int := Int.bmod b.position (2 ^ 32)

/-- The kernel's part of `m_impl_seek`: the new offset, an `i64`, is put into the file. -/
def seek (whence : Whence) (amount : Int) (b : Backend) : Backend :=
  let length : Int := b.content.length
  let offset :=
    match whence with
    | .cur => Int.bmod (b.position + amount) (2 ^ 64)
    | .set => amount
    | .atEnd => Int.bmod (length - amount) (2 ^ 64)
  let offset := if length < offset then length else offset
  { b with position := (if offset < 0 then 0 else offset).toNat }

end Backend

namespace FILE

def ftell (s : FILE) : Int := s.backend.tell

/-- `fseeko_unlocked`: what it returns, and the stream. -/
def fseek (offset : Int) (whence : Whence) (s : FILE) : Int × FILE :=
  let b := s.backend.seek whence offset
  (Int.bmod b.position (2 ^ 32), { s with backend := b })

/-- The end of `fungetc_unlocked`: the byte is put in front of the unread ones. -/
def storeUnget (byte : UInt8) (s : FILE) : Option (Option UInt8 × FILE) :=
  if s.ioBuffer.length ≤ s.bufferedBytesReadOffset - 1 then none
  else
    some (some byte, { s with
      ioBuffer := s.ioBuffer.set (s.bufferedBytesReadOffset - 1) byte
      bufferedBytesReadOffset := s.bufferedBytesReadOffset - 1 })

/-- `fungetc_unlocked`; the byte is `none` for `EOF`. -/
def fungetc (c : Option UInt8) (s : FILE) : Option (Option UInt8 × FILE) :=
  let s := s.initBuffer
  if s.bufferMode = .unbuffered then some (none, s)
  else
    s.fflushWrite.bind fun r =>
      if r.1 = false then some (none, r.2)
      else
        let s : FILE := { r.2 with directionRead := true }
        match c with
        | none => some (none, s)
        | some byte =>
          if s.bufferedBytesReadOffset = 0 then
            -- the unread bytes go to the end of the buffer
            let bufferedBytes := s.bufferedBytesRead
            let bufferSpace := s.ioBuffer.length - bufferedBytes
            if bufferSpace = 0 then some (none, s)
            else
              storeUnget byte { s with
                ioBuffer := overwrite s.ioBuffer bufferSpace (s.ioBuffer.take bufferedBytes)
                bufferedBytesReadOffset := bufferSpace
                bufferedBytesRead := bufferSpace + bufferedBytes }
          else storeUnget byte s

/-- How many bytes are read ahead or pushed back. -/
def unread (s : FILE) : Nat := s.bufferedBytesRead - s.bufferedBytesReadOffset

/-! ## Histories -/

/-- The streams that a history of calls leaves, with the file including bytes still to be written out,
and with the position: where the stream started, one more for each byte read or written, one less for
each pushed back, and where a seek goes. Bytes pushed back are dropped when the direction changes; a seek
comes when nothing is unread or to be written out. -/
inductive StreamHistory : FILE → List UInt8 → Int → Prop
  | opened {b : Backend} {modeRead modeWrite : Bool} : b.position ≤ b.content.length →
      StreamHistory { opened b with modeRead := modeRead, modeWrite := modeWrite } b.content b.position
  | setvbuf {b : Backend} {modeRead modeWrite : Bool} {buffer : List UInt8} {mode : BufferMode} :
      b.position ≤ b.content.length → 0 < buffer.length → buffer.length < 2 ^ 32 → mode ≠ .unbuffered →
      StreamHistory
        (FILE.setvbuf buffer mode { opened b with modeRead := modeRead, modeWrite := modeWrite })
        b.content b.position
  | fgetc {s s' : FILE} {file : List UInt8} {position : Int} {c : Option UInt8} :
      StreamHistory s file position → s.modeRead = true → s.fgetc = some (c, s') →
      StreamHistory s' file (if c.isSome then position + 1 else position)
  | fungetc {s s' : FILE} {file : List UInt8} {position : Int} {byte c : Option UInt8} :
      StreamHistory s file position → s.modeRead = true → s.fungetc byte = some (c, s') →
      StreamHistory s' file (if c.isSome then position - 1 else position)
  | fputc {s s' : FILE} {file : List UInt8} {position : Int} {byte : UInt8} {c : Option UInt8} :
      StreamHistory s file position → s.modeWrite = true → s.SeekFits → s.fputc byte = some (c, s') →
      StreamHistory s' (overwrite file position.toNat [byte]) (position.toNat + 1)
  | fflush {s s' : FILE} {file : List UInt8} {position : Int} {flushed : Bool} :
      StreamHistory s file position → s.SeekFits → s.fflush = some (flushed, s') →
      StreamHistory s' file position.toNat
  | fseek {s : FILE} {file : List UInt8} {position amount : Int} {whence : Whence} :
      StreamHistory s file position → s.unread = 0 → s.bufferedBytesWrite = 0 →
      StreamHistory (s.fseek amount whence).2 file (s.backend.seek whence amount).position

/-! ## The backend of a stream -/

/-- The stream has read ahead or taken bytes back: its backend stands behind them. -/
structure ReadAhead (s : FILE) (file : List UInt8) (position : Int) : Prop where
  directionRead : s.directionRead = true
  directionWrite : s.directionWrite = false
  bufferSet : s.bufferSet = true
  write_eq : s.bufferedBytesWrite = 0
  offset_le : s.bufferedBytesReadOffset ≤ s.bufferedBytesRead
  read_le : s.bufferedBytesRead ≤ s.ioBuffer.length
  content_eq : s.backend.content = file
  position_eq : (s.backend.position : Int) =
    position + (s.bufferedBytesRead - s.bufferedBytesReadOffset : Nat)

/-- The stream, with its backend behind the bytes that are unread or in front of those to be written
out. -/
structure Placed (s : FILE) (file : List UInt8) (position : Int) : Prop where
  holds : s.ReadAhead file position ∨ ∃ p : Nat, position = p ∧ s.Collecting ⟨file, p⟩
  modeRead : s.directionRead = true → s.modeRead = true
  modeWrite : s.directionWrite = true → s.modeWrite = true
  buffered : s.bufferSet = true →
    s.bufferMode ≠ .unbuffered ∧ 0 < s.ioBuffer.length ∧ s.ioBuffer.length < 2 ^ 32
  inFile : s.backend.position ≤ s.backend.content.length

variable {s s' : FILE} {file : List UInt8} {position : Int}

section

variable (h : s.Placed file position)
include h

theorem Placed.initBuffer :
    s.initBuffer.Placed file position ∧ s.initBuffer.bufferSet = true ∧
      s.initBuffer.modeRead = s.modeRead ∧ s.initBuffer.modeWrite = s.modeWrite := by
  unfold FILE.initBuffer
  split_ifs with hset
  · exact ⟨h, hset, rfl, rfl⟩
  · rcases h.holds with hread | ⟨p, rfl, hcollect⟩
    · exact absurd hread.bufferSet hset
    · exact ⟨⟨.inr ⟨p, rfl, hcollect.setdefbuf hset⟩, h.modeRead, h.modeWrite,
        fun _ => s.setdefbuf_room, h.inFile⟩, rfl, rfl, rfl⟩

theorem Placed.fflushWrite :
    ∃ s', s.fflushWrite = some (true, s') ∧ s'.Placed file position ∧ s'.directionWrite = false ∧
      s'.bufferedBytesWrite = 0 ∧ s'.bufferSet = s.bufferSet ∧ s'.bufferMode = s.bufferMode ∧
      s'.ioBuffer = s.ioBuffer ∧ s'.directionRead = s.directionRead ∧ s'.modeRead = s.modeRead ∧
      s'.modeWrite = s.modeWrite := by
  by_cases hwrite : s.directionWrite = false
  · have hzero : s.bufferedBytesWrite = 0 := by
      rcases h.holds with hread | ⟨p, -, hcollect⟩
      · exact hread.write_eq
      · exact hcollect.idle hwrite
    exact ⟨s, by simp [FILE.fflushWrite, hwrite], h, hwrite, hzero, rfl, rfl, rfl, rfl, rfl, rfl⟩
  · rcases h.holds with hread | ⟨p, rfl, hcollect⟩
    · exact absurd hread.directionWrite hwrite
    · obtain ⟨hinFile, calls, hflush, hwritten⟩ :=
        hcollect.fflushWrite hwrite (h.modeWrite (by simpa using hwrite)) h.inFile
      exact ⟨_, hflush, ⟨.inr ⟨p, rfl, hwritten⟩, h.modeRead,
        fun hfalse => absurd hfalse (by simp [written]), h.buffered, hinFile⟩,
        rfl, rfl, rfl, rfl, rfl, rfl, rfl, rfl⟩

theorem Placed.startReading (hset : s.bufferSet = true) (hwrite : s.directionWrite = false) :
    ReadAhead { s with directionRead := true } file position := by
  rcases h.holds with hread | ⟨p, rfl, hcollect⟩
  · exact { hread with directionRead := rfl }
  · have hzero := hcollect.idle hwrite
    have hcontent := hcollect.content_eq
    have hposition := hcollect.position_eq
    rw [hzero] at hcontent hposition
    exact
      { directionRead := rfl
        directionWrite := hwrite
        bufferSet := hset
        write_eq := hzero
        offset_le := by simp [hcollect.offset_eq]
        read_le := by simp [hcollect.read_eq]
        content_eq := by simpa using hcontent.symm
        position_eq := by
          simp only [hcollect.read_eq, Nat.zero_sub, Int.natCast_zero, Int.add_zero]
          exact congrArg Nat.cast hposition.symm }

theorem Placed.toRead (hmode : s.modeRead = true) :
    ∃ s', s.initBuffer.fflushWrite = some (true, s') ∧ s.initBuffer.bufferMode ≠ .unbuffered ∧
      Placed { s' with directionRead := true } file position ∧
      ReadAhead { s' with directionRead := true } file position := by
  obtain ⟨h, hset, hread, -⟩ := h.initBuffer
  obtain ⟨s', hflush, h', hwrite, -, hset', hmode', -, -, hread', -⟩ := h.fflushWrite
  have hahead := h'.startReading (hset'.trans hset) hwrite
  refine ⟨s', hflush, (h.buffered hset).1, ⟨.inl hahead, fun _ => ?_, h'.modeWrite, h'.buffered,
    h'.inFile⟩, hahead⟩
  exact (hread'.trans hread).trans hmode

end

/-! ## Reading -/

theorem Placed.fillBuffer (h : s.Placed file position) (hread : s.ReadAhead file position)
    (hempty : s.bufferedBytesRead ≤ s.bufferedBytesReadOffset) :
    ∃ more s', s.fillBuffer = some (more, s') ∧ s'.Placed file position ∧
      (more = true → s'.ReadAhead file position ∧ s'.bufferedBytesReadOffset < s'.bufferedBytesRead) := by
  obtain ⟨hmode, hroom, hlong⟩ := h.buffered hread.bufferSet
  have hposition := hread.position_eq
  have hinFile := h.inFile
  obtain ⟨n, hn, hrest, -, hbackend⟩ := Backend.read_eq (s.ioBuffer.length -
    (if s.ioBuffer.length ≤ fileUngetPreservedSpace then 0 else fileUngetPreservedSpace)) s.backend
  unfold FILE.fillBuffer
  generalize (if s.ioBuffer.length ≤ fileUngetPreservedSpace then 0 else
    fileUngetPreservedSpace) = ungetSpace at *
  have hlen : ((s.backend.content.drop s.backend.position).take n).length = n := by
    simp only [List.length_take, List.length_drop]
    omega
  simp only [hbackend]
  by_cases hzero : n = 0
  · refine ⟨false, { s with
      backend := { s.backend with position := s.backend.position + n, calls := s.backend.calls + 1 } },
      by simp [hzero], ⟨.inl ?_, h.modeRead, h.modeWrite, h.buffered, ?_⟩, by simp⟩
    · exact { hread with
        position_eq := by
          show ((s.backend.position + n : Nat) : Int) =
            position + (s.bufferedBytesRead - s.bufferedBytesReadOffset : Nat)
          omega }
    · show s.backend.position + n ≤ s.backend.content.length
      omega
  · have hne : (s.backend.content.drop s.backend.position).take n ≠ [] := by
      intro hnil
      rw [hnil] at hlen
      exact hzero hlen.symm
    have hlength : (overwrite s.ioBuffer ungetSpace
        ((s.backend.content.drop s.backend.position).take n)).length = s.ioBuffer.length :=
      overwrite_length (by omega)
    have hahead : ReadAhead { s with
        backend := { s.backend with position := s.backend.position + n, calls := s.backend.calls + 1 }
        ioBuffer := overwrite s.ioBuffer ungetSpace
          ((s.backend.content.drop s.backend.position).take n)
        bufferedBytesRead := ungetSpace + n
        bufferedBytesReadOffset := ungetSpace } file position :=
      { hread with
        offset_le := Nat.le_add_right _ _
        read_le := by
          show ungetSpace + n ≤ (overwrite s.ioBuffer ungetSpace _).length
          omega
        position_eq := by
          show ((s.backend.position + n : Nat) : Int) = position + (ungetSpace + n - ungetSpace : Nat)
          omega }
    refine ⟨true, _, ?_, ⟨.inl hahead, h.modeRead, h.modeWrite, fun _ => ⟨hmode, ?_⟩, ?_⟩,
      fun _ => ⟨hahead, ?_⟩⟩
    · simp only [if_neg hne, hlen]
      rw [if_neg (by omega)]
    · show 0 < (overwrite s.ioBuffer ungetSpace _).length ∧
        (overwrite s.ioBuffer ungetSpace _).length < 2 ^ 32
      rw [hlength]
      exact ⟨hroom, hlong⟩
    · show s.backend.position + n ≤ s.backend.content.length
      omega
    · show ungetSpace < ungetSpace + n
      omega

theorem Placed.takeByte (h : s.Placed file position) (hread : s.ReadAhead file position)
    (hmore : s.bufferedBytesReadOffset < s.bufferedBytesRead) :
    ∃ c s', s.takeByte = some (some c, s') ∧ s'.Placed file (position + 1) := by
  have hlt := Nat.lt_of_lt_of_le hmore hread.read_le
  have hposition := hread.position_eq
  refine ⟨s.ioBuffer[s.bufferedBytesReadOffset],
    { s with bufferedBytesReadOffset := s.bufferedBytesReadOffset + 1 }, ?_, ?_⟩
  · simp [FILE.takeByte]
  · refine ⟨.inl { hread with offset_le := hmore, position_eq := ?_ }, h.modeRead, h.modeWrite,
      h.buffered, h.inFile⟩
    show (s.backend.position : Int) =
      position + 1 + (s.bufferedBytesRead - (s.bufferedBytesReadOffset + 1) : Nat)
    omega

theorem Placed.fgetc (h : s.Placed file position) (hmode : s.modeRead = true) :
    ∃ c s', s.fgetc = some (c, s') ∧
      s'.Placed file (if c.isSome then position + 1 else position) := by
  obtain ⟨s1, hflush, hbuffered, h1, hread1⟩ := h.toRead hmode
  unfold FILE.fgetc
  simp only [if_neg hbuffered, hflush, Option.bind_some, Bool.true_eq_false, if_false]
  split_ifs with hempty
  · obtain ⟨more, s2, hfill, h2, hmore⟩ := h1.fillBuffer hread1 hempty
    rw [hfill]
    cases more with
    | false => exact ⟨none, s2, rfl, h2⟩
    | true =>
      obtain ⟨hread2, hlt⟩ := hmore rfl
      obtain ⟨c, s3, htake, h3⟩ := h2.takeByte hread2 hlt
      exact ⟨some c, s3, htake, h3⟩
  · obtain ⟨c, s2, htake, h2⟩ := h1.takeByte hread1 (Nat.lt_of_not_le hempty)
    exact ⟨some c, s2, htake, h2⟩

/-! ## Pushing back -/

theorem Placed.storeUnget (h : s.Placed file position) (hread : s.ReadAhead file position)
    (hpos : 0 < s.bufferedBytesReadOffset) (byte : UInt8) :
    ∃ s', s.storeUnget byte = some (some byte, s') ∧ s'.Placed file (position - 1) := by
  have hposition := hread.position_eq
  have hoffset := hread.offset_le
  have hle := hread.read_le
  refine ⟨{ s with
    ioBuffer := s.ioBuffer.set (s.bufferedBytesReadOffset - 1) byte
    bufferedBytesReadOffset := s.bufferedBytesReadOffset - 1 }, if_neg (by omega), ?_⟩
  refine ⟨.inl { hread with offset_le := ?_, read_le := ?_, position_eq := ?_ }, h.modeRead,
    h.modeWrite, fun hset => ?_, h.inFile⟩
  · show s.bufferedBytesReadOffset - 1 ≤ s.bufferedBytesRead
    omega
  · simpa using hle
  · show (s.backend.position : Int) =
      position - 1 + (s.bufferedBytesRead - (s.bufferedBytesReadOffset - 1) : Nat)
    omega
  · simpa using h.buffered hset

theorem Placed.fungetc (h : s.Placed file position) (hmode : s.modeRead = true) (byte : Option UInt8) :
    ∃ c s', s.fungetc byte = some (c, s') ∧
      s'.Placed file (if c.isSome then position - 1 else position) := by
  obtain ⟨s1, hflush, hbuffered, h1, hread1⟩ := h.toRead hmode
  unfold FILE.fungetc
  simp only [if_neg hbuffered, hflush, Option.bind_some, Bool.true_eq_false, if_false]
  cases byte with
  | none => exact ⟨none, _, rfl, h1⟩
  | some byte =>
    split_ifs with hzero hfull
    · exact ⟨none, _, rfl, h1⟩
    · -- the unread bytes are moved to the end of the buffer first
      have hle := hread1.read_le
      have hposition := hread1.position_eq
      dsimp only at hle hposition hzero hfull
      have hlength : (overwrite s1.ioBuffer (s1.ioBuffer.length - s1.bufferedBytesRead)
          (s1.ioBuffer.take s1.bufferedBytesRead)).length = s1.ioBuffer.length := by
        apply overwrite_length
        rw [List.length_take]
        omega
      have hread2 : ReadAhead { s1 with
          directionRead := true
          ioBuffer := overwrite s1.ioBuffer (s1.ioBuffer.length - s1.bufferedBytesRead)
            (s1.ioBuffer.take s1.bufferedBytesRead)
          bufferedBytesReadOffset := s1.ioBuffer.length - s1.bufferedBytesRead
          bufferedBytesRead := s1.ioBuffer.length - s1.bufferedBytesRead + s1.bufferedBytesRead }
          file position :=
        { hread1 with
          offset_le := Nat.le_add_right _ _
          read_le := by
            dsimp only
            omega
          position_eq := by
            dsimp only
            omega }
      have h2 := Placed.mk (.inl hread2) h1.modeRead h1.modeWrite
        (fun hset => by
          rw [hlength]
          exact h1.buffered hset)
        h1.inFile
      obtain ⟨s3, hstore, h3⟩ := h2.storeUnget hread2 (by dsimp only; omega) byte
      exact ⟨some byte, s3, hstore, h3⟩
    · obtain ⟨s2, hstore, h2⟩ := h1.storeUnget hread1 (Nat.pos_of_ne_zero hzero) byte
      exact ⟨some byte, s2, hstore, h2⟩

/-! ## Writing -/

theorem Placed.fflushRead (h : s.Placed file position) (hfits : s.SeekFits) :
    ∃ s', s.fflushRead = (true, s') ∧ s'.Placed file position.toNat ∧
      s'.Collecting ⟨file, position.toNat⟩ ∧ s'.bufferSet = s.bufferSet ∧
      s'.modeWrite = s.modeWrite := by
  rcases h.holds with hread | ⟨p, rfl, hcollect⟩
  · have hinFile := h.inFile
    have hposition := hread.position_eq
    have hcollect := collecting_rewound (t := ⟨file, position.toNat⟩) hread.bufferSet hread.write_eq
      hread.content_eq
    have hplace : position.toNat ≤ s.backend.content.length := by omega
    exact ⟨_, fflushRead_eq hread.directionRead (h.modeRead hread.directionRead) hposition hfits,
      ⟨.inr ⟨_, rfl, hcollect⟩, fun hfalse => absurd hfalse (by simp [rewound]), h.modeWrite, h.buffered,
        hplace⟩, hcollect, rfl, rfl⟩
  · refine ⟨s, by simp [FILE.fflushRead, hcollect.directionRead], ?_, hcollect, rfl, rfl⟩
    rwa [Int.toNat_natCast]

theorem Placed.storeByte {p : Nat} (h : s.Placed file p) (hmode : s.modeWrite = true)
    (hcollect : s.Collecting ⟨file, p⟩) (hset : s.bufferSet = true)
    (hroom : s.bufferedBytesWrite < s.ioBuffer.length) (byte : UInt8) :
    ∃ s', s.storeByte byte = some (some byte, s') ∧
      s'.Placed (overwrite file p [byte]) (p + 1) := by
  unfold FILE.storeByte
  rw [if_neg (Nat.not_le.mpr hroom)]
  have hstored : (s.stored byte).Placed (overwrite file p [byte]) (p + 1) :=
    ⟨.inr ⟨p + 1, rfl, hcollect.stored hset hroom h.inFile byte⟩, h.modeRead, fun _ => hmode,
      fun _ => by simpa [stored] using h.buffered hset, h.inFile⟩
  simp only
  split_ifs with hline
  · obtain ⟨s', hflush, h', -⟩ := hstored.fflushWrite
    rw [stored] at hflush
    rw [hflush]
    exact ⟨s', rfl, h'⟩
  · exact ⟨_, rfl, hstored⟩

theorem Placed.fputc (h : s.Placed file position) (hmode : s.modeWrite = true) (hfits : s.SeekFits)
    (byte : UInt8) :
    ∃ s', s.fputc byte = some (some byte, s') ∧
      s'.Placed (overwrite file position.toNat [byte]) (position.toNat + 1) := by
  have hfits' := hfits.initBuffer fun hset =>
    (h.holds.resolve_left fun hread => hset hread.bufferSet).elim fun _ hp => hp.2.directionRead
  obtain ⟨h, hset, -, hmodeWrite⟩ := h.initBuffer
  obtain ⟨hbuffered, -⟩ := h.buffered hset
  obtain ⟨s1, hflush, h1, hcollect, hset1, hmode1⟩ := h.fflushRead hfits'
  rw [hset] at hset1
  have hmode1 : s1.modeWrite = true := (hmode1.trans hmodeWrite).trans hmode
  obtain ⟨-, hroom, -⟩ := h1.buffered hset1
  unfold FILE.fputc
  simp only [if_neg hbuffered, hflush, Bool.true_eq_false, if_false]
  split_ifs with hfull
  · obtain ⟨s2, hflush2, h2, hwrite2, hzero2, hset2, -, hbuffer2, hread2, -, hmode2⟩ := h1.fflushWrite
    have hcollect2 : s2.Collecting ⟨file, position.toNat⟩ := by
      rcases h2.holds with hread | ⟨p, hp, hcollect2⟩
      · rw [hread.directionRead, hcollect.directionRead] at hread2
        exact absurd hread2 (by simp)
      · rwa [Int.natCast_inj.1 hp]
    obtain ⟨s3, hstore, h3⟩ := h2.storeByte (hmode2.trans hmode1) hcollect2 (hset2.trans hset1)
      (by rw [hzero2, hbuffer2]; exact hroom) byte
    rw [hflush2]
    exact ⟨s3, hstore, h3⟩
  · exact h1.storeByte hmode1 hcollect hset1 (Nat.lt_of_le_of_ne hcollect.write_le hfull) byte

theorem Placed.fflush (h : s.Placed file position) (hfits : s.SeekFits) :
    ∃ s', s.fflush = some (true, s') ∧ s'.Placed file position.toNat := by
  obtain ⟨s1, hread, h1, -⟩ := h.fflushRead hfits
  obtain ⟨s2, hwrite, h2, -⟩ := h1.fflushWrite
  exact ⟨s2, by simp [FILE.fflush, hread, hwrite], h2⟩

theorem Placed.clean (h : s.Placed file position) (hunread : s.unread = 0)
    (hwrite : s.bufferedBytesWrite = 0) :
    s.backend.content = file ∧ (s.backend.position : Int) = position := by
  rcases h.holds with hread | ⟨p, rfl, hcollect⟩
  · refine ⟨hread.content_eq, ?_⟩
    have hposition := hread.position_eq
    unfold FILE.unread at hunread
    omega
  · have hcontent := hcollect.content_eq
    have hposition := hcollect.position_eq
    rw [hwrite] at hcontent hposition
    exact ⟨by simpa using hcontent.symm, congrArg Nat.cast hposition.symm⟩

theorem seek_position_le (whence : Whence) (amount : Int) (b : Backend) :
    (b.seek whence amount).position ≤ b.content.length ∧
      b.seek whence amount = { b with position := (b.seek whence amount).position } := by
  refine ⟨?_, rfl⟩
  unfold Backend.seek
  dsimp only
  split_ifs <;> omega

theorem Placed.moved (h : s.Placed file position) (hunread : s.unread = 0)
    (hwrite : s.bufferedBytesWrite = 0) {q : Nat} (hq : q ≤ file.length) :
    Placed { s with backend := { s.backend with position := q } } file q := by
  obtain ⟨hcontent, -⟩ := h.clean hunread hwrite
  refine ⟨?_, h.modeRead, h.modeWrite, h.buffered, hcontent.symm ▸ hq⟩
  rcases h.holds with hread | ⟨p, -, hcollect⟩
  · refine .inl { hread with position_eq := ?_ }
    unfold FILE.unread at hunread
    show (q : Int) = q + (s.bufferedBytesRead - s.bufferedBytesReadOffset : Nat)
    omega
  · refine .inr ⟨q, rfl, { hcollect with content_eq := ?_, position_eq := ?_ }⟩
    · show file = overwrite s.backend.content q (s.ioBuffer.take s.bufferedBytesWrite)
      rw [hwrite, List.take_zero, overwrite_nil, hcontent]
    · show q = q + s.bufferedBytesWrite
      omega

theorem StreamHistory.placed (h : StreamHistory s file position) : s.Placed file position := by
  induction h with
  | opened hfile =>
    refine ⟨.inr ⟨_, rfl, ?_⟩, fun hfalse => absurd hfalse (by simp [FILE.opened]),
      fun hfalse => absurd hfalse (by simp [FILE.opened]),
      fun hfalse => absurd hfalse (by simp [FILE.opened]), hfile⟩
    exact ⟨rfl, fun _ => rfl, fun hfalse => absurd hfalse (by simp [FILE.opened]), rfl, rfl,
      Nat.zero_le _, by simp [FILE.opened], rfl⟩
  | setvbuf hfile hpos hlong hmode =>
    refine ⟨.inr ⟨_, rfl, ?_⟩, fun hfalse => absurd hfalse (by simp [FILE.setvbuf, FILE.opened]),
      fun hfalse => absurd hfalse (by simp [FILE.setvbuf, FILE.opened]),
      fun _ => ⟨hmode, hpos, hlong⟩, hfile⟩
    exact ⟨rfl, fun _ => rfl, fun _ => rfl, rfl, rfl, Nat.zero_le _,
      by simp [FILE.setvbuf, FILE.opened], rfl⟩
  | fgetc _ hmode hrun ih =>
    obtain ⟨c, s', hrun', h'⟩ := ih.fgetc hmode
    obtain ⟨rfl, rfl⟩ := Prod.mk.inj (Option.mem_unique hrun hrun')
    exact h'
  | fungetc _ hmode hrun ih =>
    obtain ⟨c, s', hrun', h'⟩ := ih.fungetc hmode _
    obtain ⟨rfl, rfl⟩ := Prod.mk.inj (Option.mem_unique hrun hrun')
    exact h'
  | fputc _ hmode hfits hrun ih =>
    obtain ⟨s', hrun', h'⟩ := ih.fputc hmode hfits _
    obtain ⟨rfl, rfl⟩ := Prod.mk.inj (Option.mem_unique hrun hrun')
    exact h'
  | fflush _ hfits hrun ih =>
    obtain ⟨s', hrun', h'⟩ := ih.fflush hfits
    obtain ⟨rfl, rfl⟩ := Prod.mk.inj (Option.mem_unique hrun hrun')
    exact h'
  | fseek _ hunread hwrite ih =>
    obtain ⟨hle, heq⟩ := seek_position_le _ _ _
    rw [(ih.clean hunread hwrite).1] at hle
    unfold FILE.fseek
    dsimp only
    rw [heq]
    exact ih.moved hunread hwrite hle

/-! ## `ftell` -/

theorem bmod_far (n m : Nat) : Int.bmod n m = n ∨ Int.bmod n m ≤ n - m := by
  have hle := bmod_natCast_le n m
  rw [Int.bmod_eq_self_sub_mul_bdiv] at hle ⊢
  rcases Int.lt_or_le 0 (Int.bdiv n m) with hpos | hneg
  · have := Int.mul_le_mul_of_nonneg_left (Int.add_one_le_of_lt hpos) (Int.natCast_nonneg m)
    exact .inr (by omega)
  · have := Int.mul_nonpos_of_nonneg_of_nonpos (Int.natCast_nonneg m) hneg
    exact .inl (by omega)

theorem Placed.ftell_iff (h : s.Placed file position) :
    s.ftell = position ↔ s.unread = 0 ∧ s.bufferedBytesWrite = 0 ∧ position < 2 ^ 31 := by
  have hfar := bmod_far s.backend.position (2 ^ 32)
  have hmost : Int.bmod s.backend.position (2 ^ 32) < ((2 ^ 32 : Nat) + 1) / 2 :=
    Int.bmod_lt (by omega)
  unfold FILE.ftell Backend.tell
  constructor
  · intro heq
    rcases h.holds with hread | ⟨p, rfl, hcollect⟩
    · have hlong := (h.buffered hread.bufferSet).2.2
      have hposition := hread.position_eq
      have hle := hread.read_le
      unfold FILE.unread
      refine ⟨?_, hread.write_eq, ?_⟩ <;> omega
    · have hposition := hcollect.position_eq
      have hzero := hcollect.read_eq
      simp only at hposition
      unfold FILE.unread
      refine ⟨?_, ?_, ?_⟩ <;> omega
  · rintro ⟨hunread, hwrite, hlt⟩
    obtain ⟨-, hposition⟩ := h.clean hunread hwrite
    rw [← hposition] at hlt ⊢
    exact Int.bmod_eq_of_le (by omega) (by omega)

/-! ## `fseek` -/

/-- What an offset is counted from. -/
def base (whence : Whence) (file : List UInt8) (position : Int) : Int :=
  match whence with
  | .set => 0
  | .cur => position
  | .atEnd => file.length

/-- After `fseek` to the place `p` everything is written out and `fgetc` returns the byte there. -/
def SeeksTo (s : FILE) (file : List UInt8) (position : Int) (whence : Whence) (p : Nat) : Prop :=
  let s' := (s.fseek (p - base whence file position) whence).2
  s'.backend.content = file ∧ ∃ s'', s'.fgetc = some (file[p]?, s'')

/-- `SEEK_END`, of which the kernel subtracts the offset, reaches the byte at `p` or finds none either. -/
def EndFits (file : List UInt8) (p : Nat) : Prop :=
  p = file.length ∨ file = [] ∨ 2 ^ 63 + p ≤ 2 * file.length ∧ file[p]? = file[0]?

theorem Placed.fgetc_moved (h : s.Placed file position) (hmode : s.modeRead = true)
    (hunread : s.unread = 0) (hwrite : s.bufferedBytesWrite = 0) {q : Nat} (hq : q ≤ file.length) :
    ∃ s', FILE.fgetc { s with backend := { s.backend with position := q } } = some (file[q]?, s') := by
  obtain ⟨hcontent, -⟩ := h.clean hunread hwrite
  have hstands : Represents { s with
      backend := { s.backend with position := q }, modeWrite := true } ⟨file, q⟩ := by
    refine ⟨?_, hmode, rfl, fun hset => ⟨(h.buffered hset).1, (h.buffered hset).2.1⟩, ?_⟩
    · rcases h.holds with hread | ⟨p, -, hcollect⟩
      · unfold FILE.unread at hunread
        refine .inl { hread with position_eq := ?_, ahead := fun i hi => ?_ }
        · show q = q + (s.bufferedBytesRead - s.bufferedBytesReadOffset)
          omega
        · dsimp only at hi
          omega
      · refine .inr { hcollect with content_eq := ?_, position_eq := ?_ }
        · show file = overwrite s.backend.content q (s.ioBuffer.take s.bufferedBytesWrite)
          rw [hwrite, List.take_zero, overwrite_nil, hcontent]
        · show q = q + s.bufferedBytesWrite
          omega
    · rw [← hcontent] at hq
      exact hq
  obtain ⟨c, s', t', hfgetc, hget, -⟩ := simulates_fgetc_reads
    { s with backend := { s.backend with position := q } } ⟨file, q⟩ ⟨hmode, h.modeWrite, .inl hstands⟩
  refine ⟨s', ?_⟩
  rw [hfgetc]
  congr 2
  have hfst : (ByteStream.get ⟨file, q⟩).1 = c := congrArg Prod.fst (Option.some.inj hget)
  rw [← hfst]
  unfold ByteStream.get
  cases file[q]? <;> rfl

theorem Placed.seeksTo_iff (h : s.Placed file position) (hmode : s.modeRead = true)
    (hunread : s.unread = 0) (hwrite : s.bufferedBytesWrite = 0) (whence : Whence) (p : Nat) :
    SeeksTo s file position whence p ↔
      file[(s.backend.seek whence (p - base whence file position)).position]? = file[p]? := by
  obtain ⟨hcontent, -⟩ := h.clean hunread hwrite
  obtain ⟨hle, heq⟩ := seek_position_le whence (p - base whence file position) s.backend
  rw [hcontent] at hle
  obtain ⟨s', hfgetc⟩ := h.fgetc_moved hmode hunread hwrite hle
  unfold SeeksTo FILE.fseek
  dsimp only
  rw [heq, hfgetc]
  simp [hcontent]

theorem seek_position {b : Backend} {whence : Whence} {p : Nat} (hp : p < 2 ^ 63)
    (hwhence : whence ≠ .atEnd) :
    (b.seek whence (p - base whence b.content b.position)).position = min p b.content.length := by
  have hwrap : Int.bmod p (2 ^ 64) = p := Int.bmod_eq_of_le (by omega) (by omega)
  cases whence with
  | set =>
    unfold Backend.seek base
    dsimp only
    split_ifs <;> omega
  | cur =>
    unfold Backend.seek base
    dsimp only
    rw [show (b.position : Int) + (p - b.position) = p by omega, hwrap]
    split_ifs <;> omega
  | atEnd => exact absurd rfl hwhence

theorem seek_atEnd_position {b : Backend} {p : Nat} (hp : p < 2 ^ 63) (hfile : b.content.length < 2 ^ 63) :
    (b.seek .atEnd (p - base .atEnd b.content b.position)).position =
      if 2 ^ 63 + p ≤ 2 * b.content.length then 0
      else min (2 * b.content.length - p) b.content.length := by
  unfold Backend.seek base
  dsimp only
  rw [show (b.content.length : Int) - (p - b.content.length) = 2 * b.content.length - p by omega]
  by_cases hwrap : 2 ^ 63 + p ≤ 2 * b.content.length
  · have hbmod : Int.bmod (2 * b.content.length - p) (2 ^ 64) = 2 * b.content.length - p - 2 ^ 64 := by
      rw [← Int.sub_bmod_right]
      exact Int.bmod_eq_of_le (by omega) (by omega)
    split_ifs <;> omega
  · have hbmod : Int.bmod (2 * b.content.length - p) (2 ^ 64) = 2 * b.content.length - p :=
      Int.bmod_eq_of_le (by omega) (by omega)
    split_ifs <;> omega

theorem seek_atEnd_iff {b : Backend} {p : Nat} (hp : p < 2 ^ 63) (hfile : b.content.length < 2 ^ 63) :
    b.content[(b.seek .atEnd (p - base .atEnd b.content b.position)).position]? = b.content[p]? ↔
      EndFits b.content p := by
  rw [seek_atEnd_position hp hfile]
  by_cases hwrap : 2 ^ 63 + p ≤ 2 * b.content.length
  · rw [if_pos hwrap]
    constructor
    · exact fun heq => .inr (.inr ⟨hwrap, heq.symm⟩)
    · rintro (hend | hnil | ⟨-, heq⟩)
      · omega
      · rw [hnil, List.length_nil] at hwrap
        omega
      · exact heq.symm
  · rw [if_neg hwrap]
    rcases Nat.lt_trichotomy p b.content.length with hlt | hend | hgt
    · -- the end of the file instead of a byte in it
      refine iff_of_false ?_ ?_
      · rw [List.getElem?_eq_none (by omega), List.getElem?_eq_getElem hlt]
        simp
      · rintro (hend | hnil | ⟨hle, -⟩)
        · omega
        · rw [hnil, List.length_nil] at hlt
          omega
        · exact hwrap hle
    · refine iff_of_true ?_ (.inl hend)
      rw [show min (2 * b.content.length - p) b.content.length = p by omega]
    · by_cases hnil : b.content = []
      · exact iff_of_true (by simp [hnil]) (.inr (.inl hnil))
      · -- a byte of the file instead of its end
        have hpos := List.length_pos_of_ne_nil hnil
        refine iff_of_false ?_ ?_
        · rw [List.getElem?_eq_none (Nat.le_of_lt hgt), List.getElem?_eq_getElem (by omega)]
          simp
        · rintro (hend | hempty | ⟨hle, -⟩)
          · omega
          · exact hnil hempty
          · exact hwrap hle

/-- `ftell` and `fseek` to the place `p` are right if and only if nothing is unread or to be written
out, the position fits a `long int`, and `SEEK_END` reaches the byte. -/
theorem positions_right_iff (h : StreamHistory s file position) (hfile : file.length < 2 ^ 63)
    (whence : Whence) (p : Nat) (hp : p < 2 ^ 63) :
    (s.ftell = position ∧ (s.modeRead = true → SeeksTo s file position whence p)) ↔
      s.unread = 0 ∧ s.bufferedBytesWrite = 0 ∧ position < 2 ^ 31 ∧
        (s.modeRead = true → whence = .atEnd → EndFits file p) := by
  have h := h.placed
  rw [h.ftell_iff, and_assoc, and_assoc]
  refine and_congr_right fun hunread => and_congr_right fun hwrite => and_congr_right fun _ =>
    forall_congr' fun hmode => ?_
  obtain ⟨rfl, rfl⟩ := h.clean hunread hwrite
  rw [h.seeksTo_iff hmode hunread hwrite]
  by_cases hwhence : whence = .atEnd
  · subst hwhence
    rw [seek_atEnd_iff hp hfile]
    simp
  · refine iff_of_true ?_ fun heq => absurd heq hwhence
    rw [seek_position hp hwhence]
    rcases Nat.le_total p s.backend.content.length with hle | hle
    · rw [Nat.min_eq_left hle]
    · rw [Nat.min_eq_right hle, List.getElem?_eq_none hle, List.getElem?_eq_none (Nat.le_refl _)]

/-- A stream open in both directions on three bytes, with a buffer of eight. -/
def threeBytes : FILE := bufferedStream ⟨[1, 2, 3], 0⟩ (fun _ => 8) (List.replicate 8 0) .full

theorem streamHistory_threeBytes : StreamHistory threeBytes [1, 2, 3] 0 :=
  .setvbuf (Nat.zero_le _) (by simp) (by simp) (by simp)

/-- All bytes were read, and the second one is sought. -/
theorem positions_right_threeBytes : ∃ s, StreamHistory s [1, 2, 3] 1 ∧
    s.ftell = 1 ∧ (s.modeRead = true → SeeksTo s [1, 2, 3] 1 .cur 2) := by
  have h1 := streamHistory_threeBytes.fgetc rfl rfl
  have h := @StreamHistory.fseek _ _ _ 1 .set ((h1.fgetc rfl rfl).fgetc rfl rfl) rfl rfl
  exact ⟨_, h, (positions_right_iff h (by simp) .cur 2 (by simp)).2
    ⟨rfl, rfl, by decide, fun _ heq => absurd heq (by decide)⟩⟩

/-- After one byte was read `ftell` returns the end of the file, to which the buffer was filled. -/
theorem positions_after_fgetc : ∃ s, threeBytes.fgetc = some (some 1, s) ∧
    StreamHistory s [1, 2, 3] 1 ∧
    ¬ (s.ftell = 1 ∧ (s.modeRead = true → SeeksTo s [1, 2, 3] 1 .set 0)) := by
  refine ⟨_, rfl, .fgetc streamHistory_threeBytes rfl rfl, ?_⟩
  rintro ⟨hftell, -⟩
  exact absurd hftell (by decide)

end FILE

end LibC
