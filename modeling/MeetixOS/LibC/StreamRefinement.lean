import MeetixOS.LibC.Stdio

/-! # A buffered stream is a file of bytes

The stream's position is spread over the backend's position, the bounds of the bytes read ahead and the
number of bytes collected. `Represents` says which file with a single position a stream stands for; every
access keeps it, as long as the backend's position fits the `int` that `m_impl_seek` returns. -/

namespace LibC

open MeetixOS.Lib

theorem Backend.seekCur_of_lt {b : Backend} (h : b.position < 2 ^ 31) : b.seekCur = b.position := by
  exact Int.bmod_eq_of_le (by omega) (by omega)

theorem Backend.seekCur_neg {b : Backend} (h : 2 ^ 31 ≤ b.position % 2 ^ 32) : b.seekCur < 0 := by
  unfold Backend.seekCur
  rw [Int.bmod_def, if_neg (by omega)]
  omega

namespace FILE

/-! ## The file that a stream stands for -/

/-- The stream has read ahead: the unread bytes are those of the file at its position, and the backend
stands behind them. -/
structure Reading (s : FILE) (t : ByteStream) : Prop where
  directionRead : s.directionRead = true
  directionWrite : s.directionWrite = false
  bufferSet : s.bufferSet = true
  write_eq : s.bufferedBytesWrite = 0
  offset_le : s.bufferedBytesReadOffset ≤ s.bufferedBytesRead
  content_eq : s.backend.content = t.content
  position_eq : s.backend.position =
    t.position + (s.bufferedBytesRead - s.bufferedBytesReadOffset)
  ahead : ∀ i < s.bufferedBytesRead - s.bufferedBytesReadOffset,
    s.ioBuffer[s.bufferedBytesReadOffset + i]? = t.content[t.position + i]?

/-- The stream has collected bytes, or none: the file is the backend with these bytes written. -/
structure Collecting (s : FILE) (t : ByteStream) : Prop where
  directionRead : s.directionRead = false
  idle : s.directionWrite = false → s.bufferedBytesWrite = 0
  bufferSet : s.directionWrite = true → s.bufferSet = true
  read_eq : s.bufferedBytesRead = 0
  offset_eq : s.bufferedBytesReadOffset = 0
  write_le : s.bufferedBytesWrite ≤ s.ioBuffer.length
  content_eq : t.content = overwrite s.backend.content s.backend.position
    (s.ioBuffer.take s.bufferedBytesWrite)
  position_eq : t.position = s.backend.position + s.bufferedBytesWrite

/-- The stream stands for the file: open for both ways, its buffer has room, and it has read ahead
or collected bytes. -/
structure Represents (s : FILE) (t : ByteStream) : Prop where
  holds : s.Reading t ∨ s.Collecting t
  modeRead : s.modeRead = true
  modeWrite : s.modeWrite = true
  buffered : s.bufferSet = true → s.bufferMode ≠ .unbuffered ∧ 0 < s.ioBuffer.length
  inFile : s.backend.position ≤ s.backend.content.length

variable {s : FILE} {t : ByteStream}

theorem Collecting.setdefbuf (h : s.Collecting t) (hset : ¬s.bufferSet = true) :
    s.setdefbuf.Collecting t := by
  have hwrite : s.directionWrite = false := by
    by_contra hdir
    exact hset (h.bufferSet (by simpa using hdir))
  have hcontent := h.content_eq
  have hposition := h.position_eq
  rw [h.idle hwrite] at hcontent hposition
  refine ⟨h.directionRead, fun _ => rfl, fun _ => rfl, rfl, rfl, Nat.zero_le _, ?_, hposition⟩
  simpa [FILE.setdefbuf, setvbuf] using hcontent

theorem setdefbuf_room (s : FILE) :
    s.setdefbuf.bufferMode ≠ .unbuffered ∧ 0 < s.setdefbuf.ioBuffer.length ∧
      s.setdefbuf.ioBuffer.length < 2 ^ 32 := by
  simp only [setdefbuf, setvbuf, List.length_replicate]
  decide

theorem Represents.initBuffer (h : s.Represents t) :
    s.initBuffer.Represents t ∧ s.initBuffer.bufferSet = true := by
  unfold FILE.initBuffer
  split_ifs with hset
  · exact ⟨h, hset⟩
  · obtain ⟨hmode, hroom, -⟩ := s.setdefbuf_room
    rcases h.holds with hread | hcollect
    · exact absurd hread.bufferSet hset
    · exact ⟨⟨.inr (hcollect.setdefbuf hset), h.modeRead, h.modeWrite, fun _ => ⟨hmode, hroom⟩,
        h.inFile⟩, rfl⟩

/-! ## Flushing -/

/-- The stream with the collected bytes written out. -/
def written (s : FILE) (t : ByteStream) (calls : Nat) : FILE :=
  { s with
    backend := { s.backend with content := t.content, position := t.position, calls := calls }
    directionWrite := false
    bufferedBytesWrite := 0 }

theorem Collecting.fflushWrite (h : s.Collecting t) (hwrite : ¬s.directionWrite = false)
    (hmode : s.modeWrite = true) (hinFile : s.backend.position ≤ s.backend.content.length) :
    t.position ≤ t.content.length ∧
      ∃ calls, s.fflushWrite = some (true, s.written t calls) ∧ (s.written t calls).Collecting t := by
  obtain ⟨calls, hall⟩ := Backend.writeAll_eq (s.ioBuffer.take s.bufferedBytesWrite) s.backend hinFile
  have hlen : (s.ioBuffer.take s.bufferedBytesWrite).length = s.bufferedBytesWrite := by
    simp [h.write_le]
  rw [hlen, ← h.content_eq, ← h.position_eq] at hall
  refine ⟨?_, calls, ?_, h.directionRead, fun _ => rfl, fun hfalse => absurd hfalse (by simp [written]),
    h.read_eq, h.offset_eq, Nat.zero_le _, by simp [written], rfl⟩
  · rw [h.content_eq, h.position_eq, length_overwrite hinFile, hlen]
    exact Nat.le_max_right _ _
  · simp [FILE.fflushWrite, if_neg hwrite, hmode, if_neg (Nat.not_lt.mpr h.write_le), hall, written]

theorem Represents.fflushWrite (h : s.Represents t) :
    ∃ s', s.fflushWrite = some (true, s') ∧ s'.Represents t ∧ s'.directionWrite = false ∧
      s'.bufferSet = s.bufferSet ∧ s'.directionRead = s.directionRead ∧
      s'.ioBuffer = s.ioBuffer ∧ s'.bufferMode = s.bufferMode ∧ s'.bufferedBytesWrite = 0 := by
  by_cases hwrite : s.directionWrite = false
  · have hzero : s.bufferedBytesWrite = 0 := by
      rcases h.holds with hread | hcollect
      · exact hread.write_eq
      · exact hcollect.idle hwrite
    exact ⟨s, by simp [FILE.fflushWrite, hwrite], h, hwrite, rfl, rfl, rfl, rfl, hzero⟩
  · rcases h.holds with hread | hcollect
    · exact absurd hread.directionWrite hwrite
    · obtain ⟨hinFile, calls, hflush, hwritten⟩ := hcollect.fflushWrite hwrite h.modeWrite h.inFile
      exact ⟨_, hflush, ⟨.inr hwritten, h.modeRead, h.modeWrite, h.buffered, hinFile⟩,
        rfl, rfl, rfl, rfl, rfl, rfl⟩

/-- Giving the unread bytes back reaches the stream's position: the backend's fits an `int`, or reads as
a failed seek while nothing is unread. -/
def SeekFits (s : FILE) : Prop :=
  s.directionRead = true →
    s.backend.position < 2 ^ 31 ∨
      (2 ^ 31 ≤ s.backend.position % 2 ^ 32 ∧ s.bufferedBytesRead = s.bufferedBytesReadOffset)

/-- The stream with its unread bytes given back. -/
def rewound (s : FILE) (position : Nat) : FILE :=
  { s with
    backend := { s.backend with position := position }
    bufferedBytesRead := 0
    bufferedBytesReadOffset := 0
    directionRead := false }

/-- Before unread bytes, which may reach beyond the start of the file. -/
theorem fflushRead_eq {position : Int} (hread : s.directionRead = true) (hmode : s.modeRead = true)
    (hposition : (s.backend.position : Int) =
      position + (s.bufferedBytesRead - s.bufferedBytesReadOffset : Nat))
    (hfits : s.SeekFits) : s.fflushRead = (true, s.rewound position.toNat) := by
  have hrestored : s.restorePosition = { s.backend with position := position.toNat } := by
    unfold FILE.restorePosition
    rcases hfits hread with hsmall | ⟨hnegative, hempty⟩
    · have hcur := Backend.seekCur_of_lt hsmall
      have hback : (if (s.backend.position : Int) < (s.bufferedBytesRead - s.bufferedBytesReadOffset : Nat)
          then 0 else (s.backend.position : Int) -
            (s.bufferedBytesRead - s.bufferedBytesReadOffset : Nat)).toNat = position.toNat := by
        split_ifs <;> omega
      simp only [hcur, Int.natCast_nonneg, if_true, Backend.seekSet, hback]
    · have hcur : ¬ 0 ≤ s.backend.seekCur := Int.not_le.mpr (Backend.seekCur_neg hnegative)
      have hsame : s.backend.position = position.toNat := by omega
      simp [if_neg hcur, ← hsame]
  simp [FILE.fflushRead, hread, hmode, hrestored, rewound]

theorem collecting_rewound (hset : s.bufferSet = true) (hzero : s.bufferedBytesWrite = 0)
    (hcontent : s.backend.content = t.content) : (s.rewound t.position).Collecting t where
  directionRead := rfl
  idle := fun _ => hzero
  bufferSet := fun _ => hset
  read_eq := rfl
  offset_eq := rfl
  write_le := by simp [rewound, hzero]
  content_eq := by simp [rewound, hzero, hcontent]
  position_eq := by simp [rewound, hzero]

theorem Represents.fflushRead (h : s.Represents t) (hfits : s.SeekFits) :
    ∃ s', s.fflushRead = (true, s') ∧ s'.Represents t ∧ s'.Collecting t ∧
      s'.bufferSet = s.bufferSet := by
  rcases h.holds with hread | hcollect
  · have hinFile := h.inFile
    have hposition := hread.position_eq
    have hcollect := collecting_rewound hread.bufferSet hread.write_eq hread.content_eq
    have hplace : t.position ≤ s.backend.content.length := by omega
    have hflush := fflushRead_eq hread.directionRead h.modeRead
      (show (s.backend.position : Int) = (t.position : Int) + _ by omega) hfits
    exact ⟨_, hflush, ⟨.inr hcollect, h.modeRead, h.modeWrite, h.buffered, hplace⟩, hcollect, rfl⟩
  · exact ⟨s, by simp [FILE.fflushRead, hcollect.directionRead], h, hcollect, rfl⟩

/-! ## Reading -/

theorem ungetSpace_lt {len : Nat} (h : 0 < len) :
    (if len ≤ fileUngetPreservedSpace then 0 else fileUngetPreservedSpace) < len := by
  split_ifs <;> omega

theorem Represents.fillBuffer (h : s.Represents t) (hread : s.Reading t)
    (hempty : s.bufferedBytesRead ≤ s.bufferedBytesReadOffset) :
    ∃ more s', s.fillBuffer = some (more, s') ∧ s'.Represents t ∧ s'.Reading t ∧
      (if more then s'.bufferedBytesReadOffset < s'.bufferedBytesRead
        else t.content.length ≤ t.position) := by
  obtain ⟨hmode, hroom⟩ := h.buffered hread.bufferSet
  have hunget := ungetSpace_lt hroom
  have hposition : s.backend.position = t.position := by
    have := hread.position_eq
    omega
  obtain ⟨n, hn, hrest, hpos, hbackend⟩ := Backend.read_eq (s.ioBuffer.length -
    (if s.ioBuffer.length ≤ fileUngetPreservedSpace then 0 else fileUngetPreservedSpace)) s.backend
  unfold FILE.fillBuffer
  generalize (if s.ioBuffer.length ≤ fileUngetPreservedSpace then 0 else
    fileUngetPreservedSpace) = ungetSpace at *
  rw [hread.content_eq, hposition] at hrest hpos hbackend
  have hlen : ((t.content.drop t.position).take n).length = n := by
    simp only [List.length_take, List.length_drop]
    omega
  have hinFile := h.inFile
  rw [hread.content_eq, hposition] at hinFile
  simp only [hbackend]
  by_cases hzero : n = 0
  · have hreading : Reading { s with
        backend := ⟨t.content, t.position + n, s.backend.transfer, s.backend.calls + 1⟩ } t :=
      { hread with
        content_eq := rfl
        position_eq := by
          show t.position + n = t.position + (s.bufferedBytesRead - s.bufferedBytesReadOffset)
          omega }
    refine ⟨false, _, by simp [hzero],
      ⟨Or.inl hreading, h.modeRead, h.modeWrite, h.buffered, ?_⟩, hreading, ?_⟩
    · show t.position + n ≤ t.content.length
      omega
    · simp only [Bool.false_eq_true, if_false]
      omega
  · have hne : (t.content.drop t.position).take n ≠ [] := by
      intro hnil
      rw [hnil] at hlen
      exact hzero hlen.symm
    have hreading : Reading { s with
        backend := ⟨t.content, t.position + n, s.backend.transfer, s.backend.calls + 1⟩
        ioBuffer := overwrite s.ioBuffer ungetSpace ((t.content.drop t.position).take n)
        bufferedBytesRead := ungetSpace + n
        bufferedBytesReadOffset := ungetSpace } t :=
      { directionRead := hread.directionRead
        directionWrite := hread.directionWrite
        bufferSet := hread.bufferSet
        write_eq := hread.write_eq
        offset_le := Nat.le_add_right _ _
        content_eq := rfl
        position_eq := by
          show t.position + n = t.position + (ungetSpace + n - ungetSpace)
          omega
        ahead := by
          intro i hi
          replace hi : i < ungetSpace + n - ungetSpace := hi
          rw [overwrite_getElem?_inside (by omega) (by omega),
            List.getElem?_take_of_lt (by omega), List.getElem?_drop] }
    refine ⟨true, _, ?_, ⟨Or.inl hreading, h.modeRead, h.modeWrite, fun _ => ⟨hmode, ?_⟩, ?_⟩,
      hreading, ?_⟩
    · simp only [if_neg hne, hlen]
      rw [if_neg (by omega)]
    · show 0 < (overwrite s.ioBuffer ungetSpace _).length
      rw [overwrite_length (by omega)]
      exact hroom
    · show t.position + n ≤ t.content.length
      omega
    · show ungetSpace < ungetSpace + n
      omega

theorem Represents.takeByte (h : s.Represents t) (hread : s.Reading t)
    (hmore : s.bufferedBytesReadOffset < s.bufferedBytesRead) :
    ∃ c s', s.takeByte = some (some c, s') ∧ t.get.1 = some c ∧ s'.Represents t.get.2 := by
  have hahead := hread.ahead 0 (by omega)
  have hposition := hread.position_eq
  have hinFile := h.inFile
  rw [hread.content_eq] at hinFile
  obtain ⟨c, hc⟩ : ∃ c, t.content[t.position]? = some c :=
    ⟨_, List.getElem?_eq_getElem (by omega)⟩
  rw [Nat.add_zero, Nat.add_zero, hc] at hahead
  have hget : t.get = (some c, { t with position := t.position + 1 }) := by
    simp [ByteStream.get, hc]
  refine ⟨c, { s with bufferedBytesReadOffset := s.bufferedBytesReadOffset + 1 },
    by simp [FILE.takeByte, hahead], by rw [hget], ?_⟩
  rw [hget]
  refine ⟨Or.inl ?_, h.modeRead, h.modeWrite, h.buffered, h.inFile⟩
  exact
    { directionRead := hread.directionRead
      directionWrite := hread.directionWrite
      bufferSet := hread.bufferSet
      write_eq := hread.write_eq
      offset_le := hmore
      content_eq := hread.content_eq
      position_eq := by
        show s.backend.position = t.position + 1 +
          (s.bufferedBytesRead - (s.bufferedBytesReadOffset + 1))
        omega
      ahead := by
        intro i hi
        replace hi : i < s.bufferedBytesRead - (s.bufferedBytesReadOffset + 1) := hi
        have := hread.ahead (i + 1) (by omega)
        rw [Nat.add_assoc, Nat.add_assoc, Nat.add_comm 1 i]
        exact this }

theorem Represents.startReading (h : s.Represents t) (hset : s.bufferSet = true)
    (hwrite : s.directionWrite = false) :
    Represents { s with directionRead := true } t ∧ Reading { s with directionRead := true } t := by
  have hreading : Reading { s with directionRead := true } t := by
    rcases h.holds with hread | hcollect
    · exact { hread with directionRead := rfl }
    · have hzero := hcollect.idle hwrite
      have hcontent := hcollect.content_eq
      have hposition := hcollect.position_eq
      rw [hzero] at hcontent hposition
      exact
        { directionRead := rfl
          directionWrite := hwrite
          bufferSet := hset
          write_eq := hzero
          offset_le := by simp [hcollect.offset_eq]
          content_eq := by simpa using hcontent.symm
          position_eq := by simp [hcollect.read_eq, hposition]
          ahead := by simp [hcollect.read_eq] }
  exact ⟨⟨Or.inl hreading, h.modeRead, h.modeWrite, h.buffered, h.inFile⟩, hreading⟩

theorem simulates_fgetc : Simulates Represents fgetc fun t => some t.get := by
  intro s t h
  obtain ⟨h, hset⟩ := h.initBuffer
  obtain ⟨hmode, -⟩ := h.buffered hset
  obtain ⟨s1, hflush, h1, hwrite, hset1, -⟩ := h.fflushWrite
  obtain ⟨h2, hreading⟩ := h1.startReading (hset1.trans hset) hwrite
  unfold FILE.fgetc
  simp only [if_neg hmode, hflush, Option.bind_some, Bool.true_eq_false, if_false]
  split_ifs with hempty
  · obtain ⟨more, s3, hfill, h3, hreading3, hmore⟩ := h2.fillBuffer hreading hempty
    rw [hfill]
    cases more with
    | false =>
      -- the end of the file
      refine ⟨none, s3, t, rfl, ?_, h3⟩
      simp [ByteStream.get, List.getElem?_eq_none hmore]
    | true =>
      obtain ⟨c, s4, htake, hget, h4⟩ := h3.takeByte hreading3 (by simpa using hmore)
      exact ⟨some c, s4, t.get.2, htake, by rw [← hget], h4⟩
  · obtain ⟨c, s4, htake, hget, h4⟩ := h2.takeByte hreading (Nat.lt_of_not_le hempty)
    exact ⟨some c, s4, t.get.2, htake, by rw [← hget], h4⟩

/-! ## Writing -/

theorem Collecting.put_content (hcollect : s.Collecting t)
    (hroom : s.bufferedBytesWrite < s.ioBuffer.length)
    (hinFile : s.backend.position ≤ s.backend.content.length) (byte : UInt8) :
    (t.put byte).2.content = overwrite s.backend.content s.backend.position
      ((s.ioBuffer.set s.bufferedBytesWrite byte).take (s.bufferedBytesWrite + 1)) := by
  have hlen : (s.ioBuffer.take s.bufferedBytesWrite).length = s.bufferedBytesWrite := by
    simp [hcollect.write_le]
  have htake : (s.ioBuffer.set s.bufferedBytesWrite byte).take (s.bufferedBytesWrite + 1) =
      s.ioBuffer.take s.bufferedBytesWrite ++ [byte] := by
    rw [List.take_add_one, List.take_set_of_le (Nat.le_refl _)]
    simp [hroom]
  have happ : overwrite (overwrite s.backend.content s.backend.position
      (s.ioBuffer.take s.bufferedBytesWrite)) _ [byte] = _ := overwrite_append hinFile
  rw [hlen, ← hcollect.content_eq, ← hcollect.position_eq] at happ
  rw [htake]
  exact happ

/-- The stream with a byte behind those collected. -/
def stored (s : FILE) (byte : UInt8) : FILE :=
  { s with
    directionWrite := true
    ioBuffer := s.ioBuffer.set s.bufferedBytesWrite byte
    bufferedBytesWrite := s.bufferedBytesWrite + 1 }

theorem Collecting.stored (hcollect : s.Collecting t) (hset : s.bufferSet = true)
    (hroom : s.bufferedBytesWrite < s.ioBuffer.length)
    (hinFile : s.backend.position ≤ s.backend.content.length) (byte : UInt8) :
    (s.stored byte).Collecting (t.put byte).2 where
  directionRead := hcollect.directionRead
  idle := fun hfalse => absurd hfalse (by simp [FILE.stored])
  bufferSet := fun _ => hset
  read_eq := hcollect.read_eq
  offset_eq := hcollect.offset_eq
  write_le := by simpa [FILE.stored] using hroom
  content_eq := hcollect.put_content hroom hinFile byte
  position_eq := by
    show t.position + 1 = s.backend.position + (s.bufferedBytesWrite + 1)
    rw [hcollect.position_eq, Nat.add_assoc]

theorem Represents.storeByte (h : s.Represents t) (hcollect : s.Collecting t)
    (hset : s.bufferSet = true) (hroom : s.bufferedBytesWrite < s.ioBuffer.length) (byte : UInt8) :
    ∃ s', s.storeByte byte = some (some byte, s') ∧ s'.Represents (t.put byte).2 ∧
      s'.directionRead = false := by
  unfold FILE.storeByte
  rw [if_neg (Nat.not_le.mpr hroom)]
  have hstored : (s.stored byte).Represents (t.put byte).2 :=
    ⟨.inr (hcollect.stored hset hroom h.inFile byte), h.modeRead, h.modeWrite,
      fun _ => by simpa [stored] using h.buffered hset, h.inFile⟩
  simp only
  split_ifs with hline
  · obtain ⟨s', hflush, h', -, -, hdir, -⟩ := hstored.fflushWrite
    rw [stored] at hflush
    rw [hflush]
    exact ⟨s', rfl, h', hdir.trans hcollect.directionRead⟩
  · exact ⟨_, rfl, hstored, hcollect.directionRead⟩

/-- The stream stands for the file, and its unread bytes can be given back. -/
def Writable (s : FILE) (t : ByteStream) : Prop := s.Represents t ∧ s.SeekFits

theorem seekFits_of_not_reading (h : s.directionRead = false) : s.SeekFits :=
  fun hread => absurd hread (by simp [h])

theorem SeekFits.initBuffer (h : s.SeekFits)
    (hread : ¬s.bufferSet = true → s.directionRead = false) : s.initBuffer.SeekFits := by
  unfold FILE.initBuffer
  split_ifs with hset
  · exact h
  · exact seekFits_of_not_reading (hread hset)

theorem Represents.not_reading (h : s.Represents t) (hset : ¬s.bufferSet = true) :
    s.directionRead = false :=
  (h.holds.resolve_left fun hread => hset hread.bufferSet).directionRead

theorem simulates_fputc (byte : UInt8) :
    Simulates Writable (fputc byte) fun t => some (t.put byte) := by
  rintro s t ⟨h, hfits⟩
  have hfits' := hfits.initBuffer h.not_reading
  obtain ⟨h, hset⟩ := h.initBuffer
  obtain ⟨hmode, -⟩ := h.buffered hset
  obtain ⟨s1, hflush, h1, hcollect, hset1⟩ := h.fflushRead hfits'
  rw [hset] at hset1
  obtain ⟨-, hroom⟩ := h1.buffered hset1
  unfold FILE.fputc
  simp only [if_neg hmode, hflush, Bool.true_eq_false, if_false]
  split_ifs with hfull
  · obtain ⟨s2, hflush2, h2, hwrite2, hset2, hread2, hbuffer2, -, hzero2⟩ := h1.fflushWrite
    have hcollect2 : s2.Collecting t := by
      rcases h2.holds with hread | hcollect2
      · rw [hread.directionRead, hcollect.directionRead] at hread2
        exact absurd hread2 (by simp)
      · exact hcollect2
    obtain ⟨s3, hstore, h3, hdir⟩ := h2.storeByte hcollect2 (hset2.trans hset1)
      (by rw [hzero2, hbuffer2]; exact hroom) byte
    rw [hflush2]
    exact ⟨some byte, s3, (t.put byte).2, hstore, rfl, h3, seekFits_of_not_reading hdir⟩
  · obtain ⟨s3, hstore, h3, hdir⟩ := h1.storeByte hcollect hset1
      (Nat.lt_of_le_of_ne hcollect.write_le hfull) byte
    exact ⟨some byte, s3, (t.put byte).2, hstore, rfl, h3, seekFits_of_not_reading hdir⟩

theorem Represents.fflush (h : s.Represents t) (hfits : s.SeekFits) :
    ∃ s', s.fflush = some (true, s') ∧ s'.Represents t ∧ s'.backend.content = t.content ∧
      s'.backend.position = t.position := by
  obtain ⟨s1, hread, h1, hcollect, -⟩ := h.fflushRead hfits
  obtain ⟨s2, hwrite, h2, hdir2, -, hread2, -, -, hzero2⟩ := h1.fflushWrite
  refine ⟨s2, by simp [FILE.fflush, hread, hwrite], h2, ?_⟩
  rcases h2.holds with hreading | hcollect2
  · rw [hreading.directionRead, hcollect.directionRead] at hread2
    exact absurd hread2 (by simp)
  · have hcontent := hcollect2.content_eq
    have hposition := hcollect2.position_eq
    rw [hzero2] at hcontent hposition
    exact ⟨by simpa using hcontent.symm, hposition.symm⟩

end FILE

/-! ## Sequences of calls -/

/-- The calls made of a stream. The data of `fwrite` are whole elements of a size. -/
inductive StreamCall where
  | fgetc
  | fread (size count : Nat)
  | fputc (c : Int)
  | fwrite (size : Nat) (data : List UInt8)
  | fflush

/-- What a call returns: a byte or `EOF`, a count (with the bytes stored), or the status of a flush. -/
inductive StreamResult where
  | byte (c : Option UInt8)
  | count (n : Nat) (bytes : List UInt8)
  | status (successful : Bool)
  deriving DecidableEq

/-- A call made of a stream. -/
def FILE.access (s : FILE) : StreamCall → Option (FILE × StreamResult)
  | .fgetc => s.fgetc.map fun r => (r.2, .byte r.1)
  | .fread size count => (s.fread size count).map fun r => (r.2, .count r.1.1 r.1.2)
  | .fputc c => (s.fputc (UInt8.ofInt c)).map fun r => (r.2, .byte r.1)
  | .fwrite size data =>
    (s.fwrite data size (data.length / size)).map fun r => (r.2, .count r.1 [])
  | .fflush => s.fflush.map fun r => (r.2, .status r.1)

/-- The same call made of a file that is accessed byte by byte at a single position. -/
def byteAccess (t : ByteStream) : StreamCall → Option (ByteStream × StreamResult)
  | .fgetc => some (t.get.2, .byte t.get.1)
  | .fread size count =>
    if size = 0 ∨ count = 0 then some (t, .count 0 [])
    else (getElements (fun t => some t.get) size count 0 [] t).map fun r =>
      (r.2, .count r.1.1 r.1.2)
  | .fputc c => some ((t.put (UInt8.ofInt c)).2, .byte (some (UInt8.ofInt c)))
  | .fwrite size data =>
    if size = 0 ∨ data.length / size = 0 then some (t, .count 0 [])
    else (putElements (fun c t => some (t.put c)) size (data.length / size) 0 data t).map fun r =>
      (r.2, .count r.1 [])
  | .fflush => some (t, .status true)

/-- The calls that give unread bytes back are made where the backend's position allows it. -/
def FILE.Fits (s : FILE) : StreamCall → Prop
  | .fgetc => True
  | .fread _ _ => True
  | .fputc _ => s.SeekFits
  | .fwrite size data => data.length / size = 0 ∨ s.SeekFits
  | .fflush => s.SeekFits

theorem access_simulates {s : FILE} {t : ByteStream} (h : s.Represents t) (call : StreamCall)
    (hfits : s.Fits call) :
    ∃ result s' t', s.access call = some (s', result) ∧ byteAccess t call = some (t', result) ∧
      s'.Represents t' := by
  cases call with
  | fgetc =>
    obtain ⟨c, s', t', hs, ht, h'⟩ := FILE.simulates_fgetc s t h
    refine ⟨.byte c, s', t', by simp [FILE.access, hs], ?_, h'⟩
    simp [byteAccess, Option.some.inj ht]
  | fread size count =>
    by_cases hzero : size = 0 ∨ count = 0
    · exact ⟨.count 0 [], s, t, by simp [FILE.access, FILE.fread, hzero],
        by simp [byteAccess, hzero], h⟩
    · obtain ⟨h0, hset⟩ := h.initBuffer
      obtain ⟨r, s', t', hs, ht, h'⟩ :=
        FILE.simulates_fgetc.getElements size count 0 [] s.initBuffer t h0
      refine ⟨.count r.1 r.2, s', t', ?_, by simp [byteAccess, hzero, ht], h'⟩
      simp [FILE.access, FILE.fread, hzero, h.modeRead, (h0.buffered hset).1, hs]
  | fputc c =>
    obtain ⟨b, s', t', hs, ht, h'⟩ := FILE.simulates_fputc (UInt8.ofInt c) s t ⟨h, hfits⟩
    refine ⟨.byte b, s', t', by simp [FILE.access, hs], ?_, h'.1⟩
    obtain ⟨rfl, rfl⟩ := Prod.mk.inj (Option.some.inj ht)
    rfl
  | fwrite size data =>
    by_cases hzero : size = 0 ∨ data.length / size = 0
    · exact ⟨.count 0 [], s, t, by simp only [FILE.access, FILE.fwrite, if_pos hzero]; rfl,
        by simp only [byteAccess, if_pos hzero], h⟩
    · have hseek : s.SeekFits := hfits.resolve_left fun h => hzero (Or.inr h)
      have hseek' := hseek.initBuffer h.not_reading
      obtain ⟨h0, hset⟩ := h.initBuffer
      obtain ⟨r, s', t', hs, ht, h'⟩ := Simulates.putElements FILE.simulates_fputc 0
        (Nat.mul_div_le data.length size) s.initBuffer t ⟨h0, hseek'⟩
      refine ⟨.count r [], s', t', ?_, by simp only [byteAccess, if_neg hzero, ht]; rfl, h'.1⟩
      simp only [FILE.access, FILE.fwrite, if_neg hzero, h.modeWrite, Bool.true_eq_false,
        if_false, if_neg (h0.buffered hset).1, hs]
      rfl
  | fflush =>
    obtain ⟨s', hs, h', -⟩ := h.fflush hfits
    exact ⟨.status true, s', t, by simp [FILE.access, hs], rfl, h'⟩

/-- A stream for reading and writing with a buffer, on a file. -/
def bufferedStream (file : ByteStream) (transfer : Nat → Nat) (buffer : List UInt8)
    (mode : BufferMode) : FILE :=
  (FILE.opened ⟨file.content, file.position, transfer, 0⟩).setvbuf buffer mode

/-- Every sequence of calls of a buffered stream stays inside the buffer and returns what a file
accessed byte by byte returns, and a final `fflush` leaves the backend as this file, where every call
can give unread bytes back. -/
theorem stream_behaves_as_bytes (file : ByteStream) (hfile : file.position ≤ file.content.length)
    (transfer : Nat → Nat) (buffer : List UInt8) (hbuffer : 1 ≤ buffer.length) (mode : BufferMode)
    (hmode : mode = .full ∨ mode = .line) (calls : List StreamCall)
    (hfits : GuardedRun FILE.access FILE.Fits (bufferedStream file transfer buffer mode) calls) :
    ∃ results stream file', runResults FILE.access (bufferedStream file transfer buffer mode) calls =
        some (stream, results) ∧
      runResults byteAccess file calls = some (file', results) ∧
      (stream.SeekFits → ∃ flushed, stream.fflush = some (true, flushed) ∧
        flushed.backend.content = file'.content ∧ flushed.backend.position = file'.position) := by
  have hstart : (bufferedStream file transfer buffer mode).Represents file := by
    refine ⟨Or.inr ?_, rfl, rfl, fun _ => ⟨?_, hbuffer⟩, hfile⟩
    · exact ⟨rfl, fun _ => rfl, fun _ => rfl, rfl, rfl, Nat.zero_le _,
        by simp [bufferedStream, FILE.setvbuf, FILE.opened], rfl⟩
    · rcases hmode with rfl | rfl <;> simp [bufferedStream, FILE.setvbuf]
  obtain ⟨results, stream, file', hrun, hspec, h⟩ :=
    runResults_simulates
      (fun (s : FILE) (t : ByteStream) call (h : s.Represents t) (hok : s.Fits call) =>
        access_simulates h call hok) hstart hfits
  refine ⟨results, stream, file', hrun, hspec, fun hseek => ?_⟩
  obtain ⟨flushed, hflush, -, hcontent, hposition⟩ := h.fflush hseek
  exact ⟨flushed, hflush, hcontent, hposition⟩

theorem FILE.fits_of_lt {s : FILE} (call : StreamCall) (h : s.backend.position < 2 ^ 31) :
    s.Fits call := by
  have hseek : s.SeekFits := fun _ => Or.inl h
  cases call with
  | fgetc => trivial
  | fread size count => trivial
  | fputc c | fflush => exact hseek
  | fwrite size data => exact Or.inr hseek

theorem stream_behaves_as_bytes_mixed :
    ∃ stream, runResults FILE.access (bufferedStream ⟨[1, 2, 3, 4], 0⟩ (fun _ => 1) [0, 0] .full)
        [.fgetc, .fwrite 1 [7, 8], .fread 2 2] =
        some (stream, [.byte (some 1), .count 2 [], .count 0 [4]]) ∧
      ∃ flushed, stream.fflush = some (true, flushed) ∧
        flushed.backend.content = [1, 7, 8, 4] ∧ flushed.backend.position = 4 := by
  have hfits : GuardedRun FILE.access FILE.Fits
      (bufferedStream ⟨[1, 2, 3, 4], 0⟩ (fun _ => 1) [0, 0] .full)
      [.fgetc, .fwrite 1 [7, 8], .fread 2 2] := by
    refine GuardedRun.of_checkRun (fun s _ => decide (s.backend.position < 2 ^ 31))
      (fun s call h => ?_) (by decide +kernel)
    exact FILE.fits_of_lt call (of_decide_eq_true h)
  obtain ⟨results, stream, file, hrun, hspec, hflush⟩ :=
    stream_behaves_as_bytes ⟨[1, 2, 3, 4], 0⟩ (by decide) (fun _ => 1) [0, 0] (by decide) .full
      (Or.inl rfl) _ hfits
  have hfile : runResults byteAccess ⟨[1, 2, 3, 4], 0⟩ [.fgetc, .fwrite 1 [7, 8], .fread 2 2] =
      some (⟨[1, 7, 8, 4], 4⟩, [.byte (some 1), .count 2 [], .count 0 [4]]) := by decide
  obtain ⟨rfl, rfl⟩ := Prod.mk.inj (Option.mem_unique hspec hfile)
  have hsmall : (runResults FILE.access
      (bufferedStream ⟨[1, 2, 3, 4], 0⟩ (fun _ => 1) [0, 0] .full)
      [.fgetc, .fwrite 1 [7, 8], .fread 2 2]).map (fun r => decide (r.1.backend.position < 2 ^ 31)) =
      some true := by decide +kernel
  rw [hrun, Option.map_some, Option.some.injEq] at hsmall
  exact ⟨stream, hrun, hflush fun _ => Or.inl (of_decide_eq_true hsmall)⟩

/-- One byte taken of two that were read ahead, and `fflush` where the seek fails: the position
stays behind both. -/
theorem fflush_after_fgetc {content : List UInt8} {position : Nat} {a b : UInt8}
    (h : content.drop position = [a, b]) (hneg : 2 ^ 31 ≤ (position + 2) % 2 ^ 32) :
    ∃ stream flushed,
      runResults FILE.access (bufferedStream ⟨content, position⟩ (fun _ => 2) [0, 0] .full)
        [.fgetc] = some (stream, [.byte (some a)]) ∧
      runResults byteAccess ⟨content, position⟩ [.fgetc] =
        some (⟨content, position + 1⟩, [.byte (some a)]) ∧
      stream.fflush = some (true, flushed) ∧ flushed.backend.position = position + 2 := by
  have hget : content[position]? = some a := by
    have hzero : (content.drop position)[0]? = content[position + 0]? := List.getElem?_drop
    rw [h] at hzero
    exact hzero.symm
  have hread : Backend.read 2 ⟨content, position, fun _ => 2, 0⟩ =
      ([a, b], ⟨content, position + 2, fun _ => 2, 1⟩) := by
    simp [Backend.read, Backend.moved, h]
  have hcur : ¬ 0 ≤ Backend.seekCur ⟨content, position + 2, fun _ => 2, 1⟩ :=
    Int.not_le.mpr (Backend.seekCur_neg hneg)
  refine ⟨{ bufferedStream ⟨content, position⟩ (fun _ => 2) [0, 0] .full with
    backend := ⟨content, position + 2, fun _ => 2, 1⟩
    ioBuffer := [a, b]
    bufferedBytesRead := 2
    bufferedBytesReadOffset := 1
    directionRead := true },
    { bufferedStream ⟨content, position⟩ (fun _ => 2) [0, 0] .full with
    backend := ⟨content, position + 2, fun _ => 2, 1⟩
    ioBuffer := [a, b] }, ?_, ?_, ?_, rfl⟩
  · simp [runResults, FILE.access, FILE.fgetc, bufferedStream, FILE.opened, FILE.setvbuf,
      FILE.initBuffer, FILE.fflushWrite, FILE.fillBuffer, fileUngetPreservedSpace, hread, overwrite,
      FILE.takeByte]
  · simp [runResults, byteAccess, ByteStream.get, hget]
  · simp [FILE.fflush, FILE.fflushRead, FILE.restorePosition, hcur, FILE.fflushWrite,
      bufferedStream, FILE.opened, FILE.setvbuf]

/-- Two bytes behind the position `2 ^ 31` are read ahead and one of them is taken: `fflush` does not
give the other one back. -/
theorem fflush_loses_position :
    ∃ stream flushed, runResults FILE.access
        (bufferedStream ⟨List.replicate (2 ^ 31 + 2) 0, 2 ^ 31⟩ (fun _ => 2) [0, 0] .full)
        [.fgetc] = some (stream, [.byte (some 0)]) ∧
      runResults byteAccess ⟨List.replicate (2 ^ 31 + 2) 0, 2 ^ 31⟩ [.fgetc] =
        some (⟨List.replicate (2 ^ 31 + 2) 0, 2 ^ 31 + 1⟩, [.byte (some 0)]) ∧
      stream.fflush = some (true, flushed) ∧ flushed.backend.position = 2 ^ 31 + 2 := by
  have hdrop : (List.replicate (2 ^ 31 + 2) (0 : UInt8)).drop (2 ^ 31) = [0, 0] := by
    rw [List.drop_replicate, Nat.add_sub_cancel_left]
    rfl
  exact fflush_after_fgetc hdrop (by decide)

end LibC
