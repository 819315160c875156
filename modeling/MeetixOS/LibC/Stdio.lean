import MeetixOS.Lib.ByteStream
import MeetixOS.Lib.Runs

/-! # Buffered streams

A `FILE` of the C library reads ahead into its buffer or collects in it what is to be written. The
direction flags say which of the two the buffer holds; changing the direction gives the unread
bytes back by a seek, or writes the collected ones out. Accesses
outside of the buffer, or outside of the caller's data, give `none`. -/

namespace LibC

open MeetixOS.Lib

/-! ## The backend

The file behind `m_impl_read`, `m_impl_write` and `m_impl_seek`. A call may move fewer bytes than it
could; `transfer` says for each call how many it would move. -/

/-- An open file of the kernel. -/
structure Backend where
  content : List UInt8
  position : Nat
  transfer : Nat → Nat
  calls : Nat

namespace Backend

/-- The bytes a call moves where it could move `most`: at least one, if there is one, and as many as an
`isize` can count. -/
def moved (b : Backend) (most : Nat) : Nat :=
  if most = 0 then 0 else max 1 (min (min (b.transfer b.calls) most) (2 ^ 31 - 1))

/-- `read`: the bytes from the position on; none at the end of the file. -/
def read (len : Nat) (b : Backend) : List UInt8 × Backend :=
  let ready := (b.content.drop b.position).take len
  let bytes := ready.take (b.moved ready.length)
  (bytes, { b with position := b.position + bytes.length, calls := b.calls + 1 })

/-- `write`: how many of the bytes were written. -/
def write (bytes : List UInt8) (b : Backend) : Nat × Backend :=
  let written := b.moved bytes.length
  (written,
    { b with
      content := overwrite b.content b.position (bytes.take written)
      position := b.position + written
      calls := b.calls + 1 })

/-- The position as `m_impl_seek` returns it from `SEEK_CUR`: `static_cast<int>` of the offset. -/
def seekCur (b : Backend) : Int := Int.bmod b.position (2 ^ 32)

/-- `m_impl_seek` with `SEEK_SET`. -/
def seekSet (offset : Int) (b : Backend) : Backend := { b with position := offset.toNat }

theorem moved_le (b : Backend) (most : Nat) : b.moved most ≤ most := by
  unfold moved
  split_ifs <;> omega

theorem moved_pos (b : Backend) {most : Nat} (h : 0 < most) : 0 < b.moved most := by
  unfold moved
  split_ifs <;> omega

/-- The loop of `fflush_write_unlocked`; false where a call writes nothing. -/
def writeAll (bytes : List UInt8) (b : Backend) : Bool × Backend :=
  if bytes = [] then (true, b)
  else
    let r := b.write bytes
    if _h : r.1 = 0 then (false, r.2) else writeAll (bytes.drop r.1) r.2
termination_by bytes.length
decreasing_by
  have hlen : 0 < bytes.length := List.length_pos_of_ne_nil ‹_›
  have hmoved : 0 < r.1 := b.moved_pos hlen
  rw [List.length_drop]
  exact Nat.sub_lt hlen hmoved

end Backend

/-! ## The stream -/

/-- `_IONBF`, `_IOLBF` and `_IOFBF`. -/
inductive BufferMode where
  | unbuffered
  | line
  | full
  deriving DecidableEq

def bufsiz : Nat := 0x2000

def fileUngetPreservedSpace : Nat := 4

/-- `FILE`: its buffer, of `m_io_buffer_len` bytes, and its flags. -/
structure FILE where
  backend : Backend
  ioBuffer : List UInt8
  bufferMode : BufferMode
  bufferedBytesWrite : Nat
  bufferedBytesRead : Nat
  bufferedBytesReadOffset : Nat
  modeRead : Bool
  modeWrite : Bool
  bufferSet : Bool
  directionRead : Bool
  directionWrite : Bool

namespace FILE

/-- `fdopen_static` for reading and writing: no buffer yet. -/
def opened (backend : Backend) : FILE where
  backend := backend
  ioBuffer := []
  bufferMode := .unbuffered
  bufferedBytesWrite := 0
  bufferedBytesRead := 0
  bufferedBytesReadOffset := 0
  modeRead := true
  modeWrite := true
  bufferSet := false
  directionRead := false
  directionWrite := false

/-- `setvbuf_unlocked` with a buffer. -/
def setvbuf (buffer : List UInt8) (mode : BufferMode) (s : FILE) : FILE :=
  { s with
    ioBuffer := buffer
    bufferMode := mode
    bufferedBytesRead := 0
    bufferedBytesReadOffset := 0
    bufferedBytesWrite := 0
    bufferSet := true }

/-- `setdefbuf_unlocked`: a new buffer of `BUFSIZ` bytes. -/
def setdefbuf (s : FILE) : FILE := s.setvbuf (List.replicate bufsiz 0) .full

/-- The start of every access: "if necessary, initialize stream buffer". -/
def initBuffer (s : FILE) : FILE := if s.bufferSet then s else s.setdefbuf

/-- `fflush_write_unlocked`; false for `EOF`. -/
def fflushWrite (s : FILE) : Option (Bool × FILE) :=
  if s.directionWrite = false then some (true, s)
  else if s.modeWrite = false then some (false, s)
  else if s.ioBuffer.length < s.bufferedBytesWrite then none
  else
    let r := s.backend.writeAll (s.ioBuffer.take s.bufferedBytesWrite)
    some (r.1, { s with backend := r.2, directionWrite := false, bufferedBytesWrite := 0 })

/-- The part of `fflush_read_unlocked` that gives the unread bytes back. -/
def restorePosition (s : FILE) : Backend :=
  let currentPosition := s.backend.seekCur
  if 0 ≤ currentPosition then
    let bufferedBytes := s.bufferedBytesRead - s.bufferedBytesReadOffset
    s.backend.seekSet
      (if currentPosition < bufferedBytes then 0 else currentPosition - bufferedBytes)
  else s.backend

/-- `fflush_read_unlocked`; false for `EOF`. -/
def fflushRead (s : FILE) : Bool × FILE :=
  if s.directionRead = false then (true, s)
  else if s.modeRead = false then (false, s)
  else
    (true,
      { s with
        backend := s.restorePosition
        bufferedBytesRead := 0
        bufferedBytesReadOffset := 0
        directionRead := false })

/-- `fflush_unlocked`; false for `EOF`. -/
def fflush (s : FILE) : Option (Bool × FILE) :=
  let r := s.fflushRead
  if r.1 = false then some (false, r.2) else r.2.fflushWrite

/-! ## Unbuffered access -/

/-- The loop of `fread_unlocked` on an unbuffered stream. Every call asks for `total` more bytes; `none`
where they pass the end of the caller's `total` bytes, or where `done`, an `int`, is a negative index. -/
def readDirect (total : Nat) (done : List UInt8) (b : Backend) : Option (List UInt8 × Backend) :=
  if done.length < total then
    let r := b.read total
    if _h : r.1 = [] then some (done, r.2)
    else if total < done.length + r.1.length ∨ 2 ^ 31 ≤ done.length then none
    else readDirect total (done ++ r.1) r.2
  else some (done, b)
termination_by total - done.length
decreasing_by
  have hpos : 0 < r.1.length := List.length_pos_of_ne_nil _h
  rw [List.length_append]
  show total - (done.length + r.1.length) < total - done.length
  omega

/-- The loop of `fwrite_unlocked` on an unbuffered stream. Every call hands over `total` bytes behind
those done; `none` where it takes bytes behind the caller's data, or where `done`, an `int`, is a
negative index. The first component is `none` for `EOF`. -/
def writeDirect (data : List UInt8) (total done : Nat) (b : Backend) :
    Option (Option Nat × Backend) :=
  if done < total then
    if data.length < done + b.moved total ∨ 2 ^ 31 ≤ done then none
    else
      let r := b.write ((data.drop done).take (b.moved total))
      if _h : r.1 = 0 then some (none, r.2) else writeDirect data total (done + r.1) r.2
  else some (some done, b)
termination_by total - done
decreasing_by
  show total - (done + r.1) < total - done
  omega

/-- `EOF` as `usize`. -/
def eofCount : Nat := 2 ^ 32 - 1

/-- The unbuffered part of `fread_unlocked`: the elements read, and the bytes. The product is an
`usize`. -/
def freadUnbuffered (size count : Nat) (s : FILE) : Option ((Nat × List UInt8) × FILE) :=
  s.fflushWrite.bind fun r =>
    if r.1 = false then some ((eofCount, []), r.2)
    else
      (readDirect (size * count % 2 ^ 32) [] r.2.backend).map fun d =>
        ((d.1.length / size, d.1), { r.2 with backend := d.2, directionRead := true })

/-- The unbuffered part of `fwrite_unlocked`: the elements written. -/
def fwriteUnbuffered (data : List UInt8) (size count : Nat) (s : FILE) : Option (Nat × FILE) :=
  let r := s.fflushRead
  if r.1 = false then some (eofCount, r.2)
  else
    (writeDirect data (size * count % 2 ^ 32) 0 r.2.backend).map fun d =>
      ((d.1.map (· / size)).getD eofCount, { r.2 with backend := d.2, directionWrite := true })

/-! ## Buffered access -/

/-- Filling the empty buffer in `fgetc_unlocked`, behind the space kept for `ungetc`; false for `EOF`. -/
def fillBuffer (s : FILE) : Option (Bool × FILE) :=
  let ungetSpace :=
    if s.ioBuffer.length ≤ fileUngetPreservedSpace then 0 else fileUngetPreservedSpace
  let r := s.backend.read (s.ioBuffer.length - ungetSpace)
  if r.1 = [] then some (false, { s with backend := r.2 })
  else if s.ioBuffer.length < ungetSpace + r.1.length then none
  else
    some (true,
      { s with
        backend := r.2
        ioBuffer := overwrite s.ioBuffer ungetSpace r.1
        bufferedBytesRead := ungetSpace + r.1.length
        bufferedBytesReadOffset := ungetSpace })

/-- The end of `fgetc_unlocked`: the next byte of the buffer. -/
def takeByte (s : FILE) : Option (Option UInt8 × FILE) :=
  s.ioBuffer[s.bufferedBytesReadOffset]?.map fun c =>
    (some c, { s with bufferedBytesReadOffset := s.bufferedBytesReadOffset + 1 })

/-- `fgetc_unlocked`; the byte is `none` for `EOF`. -/
def fgetc (s : FILE) : Option (Option UInt8 × FILE) :=
  let s := s.initBuffer
  if s.bufferMode = .unbuffered then
    if s.modeRead = false then some (none, s)
    else (s.freadUnbuffered 1 1).map fun r => (if r.1.1 = 1 then r.1.2.head? else none, r.2)
  else
    s.fflushWrite.bind fun r =>
      if r.1 = false then some (none, r.2)
      else
        let s : FILE := { r.2 with directionRead := true }
        if s.bufferedBytesRead ≤ s.bufferedBytesReadOffset then
          s.fillBuffer.bind fun q => if q.1 = false then some (none, q.2) else q.2.takeByte
        else s.takeByte

/-- The end of `fputc_unlocked`: a byte behind those in the buffer, written out with a newline of a
line-buffered stream. -/
def storeByte (byte : UInt8) (s : FILE) : Option (Option UInt8 × FILE) :=
  if s.ioBuffer.length ≤ s.bufferedBytesWrite then none
  else
    let s : FILE := { s with
      directionWrite := true
      ioBuffer := s.ioBuffer.set s.bufferedBytesWrite byte
      bufferedBytesWrite := s.bufferedBytesWrite + 1 }
    if s.bufferMode = .line ∧ byte = 10 then
      s.fflushWrite.map fun r => (if r.1 then some byte else none, r.2)
    else some (some byte, s)

/-- `fputc_unlocked`, for the byte that its argument is cast to; the result is `none` for `EOF`. -/
def fputc (byte : UInt8) (s : FILE) : Option (Option UInt8 × FILE) :=
  let s := s.initBuffer
  if s.bufferMode = .unbuffered then
    if s.modeWrite = false then some (none, s)
    else (s.fwriteUnbuffered [byte] 1 1).map fun r => (if r.1 = 1 then some byte else none, r.2)
  else
    let r := s.fflushRead
    if r.1 = false then some (none, r.2)
    else if r.2.bufferedBytesWrite = r.2.ioBuffer.length then
      r.2.fflushWrite.bind fun q => if q.1 = false then some (none, q.2) else q.2.storeByte byte
    else r.2.storeByte byte

/-- `fread_unlocked`: the count it returns, and the bytes it stored. -/
def fread (size count : Nat) (s : FILE) : Option ((Nat × List UInt8) × FILE) :=
  if size = 0 ∨ count = 0 then some ((0, []), s)
  else if s.modeRead = false then some ((eofCount, []), s)
  else
    let s := s.initBuffer
    if s.bufferMode = .unbuffered then s.freadUnbuffered size count
    else getElements fgetc size count 0 [] s

/-- `fwrite_unlocked`: the count it returns. -/
def fwrite (data : List UInt8) (size count : Nat) (s : FILE) : Option (Nat × FILE) :=
  if size = 0 ∨ count = 0 then some (0, s)
  else if s.modeWrite = false then some (eofCount, s)
  else
    let s := s.initBuffer
    if s.bufferMode = .unbuffered then s.fwriteUnbuffered data size count
    else putElements fputc size count 0 data s

end FILE

/-! ## What the backend does -/

namespace Backend

variable {b : Backend}

theorem read_eq (len : Nat) (b : Backend) :
    ∃ n ≤ len, n ≤ b.content.length - b.position ∧
      (0 < len → b.position < b.content.length → 0 < n) ∧
      b.read len = ((b.content.drop b.position).take n,
        { b with position := b.position + n, calls := b.calls + 1 }) := by
  have hle := b.moved_le ((b.content.drop b.position).take len).length
  have hlen : ((b.content.drop b.position).take len).length =
      min len (b.content.length - b.position) := by simp
  refine ⟨b.moved ((b.content.drop b.position).take len).length, by omega, by omega, ?_, ?_⟩
  · intro h0 hpos
    exact b.moved_pos (by omega)
  · rw [hlen] at hle ⊢
    have htake : ((b.content.drop b.position).take len).take
        (b.moved (min len (b.content.length - b.position))) =
        (b.content.drop b.position).take (b.moved (min len (b.content.length - b.position))) := by
      rw [List.take_take]
      congr 1
      omega
    have hn : ((b.content.drop b.position).take
        (b.moved (min len (b.content.length - b.position)))).length =
        b.moved (min len (b.content.length - b.position)) := by
      simp only [List.length_take, List.length_drop]
      omega
    simp [read, hlen, htake, hn]

theorem writeAll_eq (bytes : List UInt8) (b : Backend) (h : b.position ≤ b.content.length) :
    ∃ calls, b.writeAll bytes = (true,
      { b with
        content := overwrite b.content b.position bytes
        position := b.position + bytes.length
        calls := calls }) := by
  fun_induction writeAll bytes b with
  | case1 b => exact ⟨b.calls, by simp⟩
  | case2 bytes b hnil r hzero =>
    have hpos : 0 < r.1 := b.moved_pos (List.length_pos_of_ne_nil hnil)
    omega
  | case3 bytes b hnil r hzero ih =>
    have hle : r.1 ≤ bytes.length := b.moved_le bytes.length
    have htake : (bytes.take r.1).length = r.1 := by simp [hle]
    have hcontent : r.2.content = overwrite b.content b.position (bytes.take r.1) := rfl
    have hposition : r.2.position = b.position + r.1 := rfl
    have hlong : r.2.position ≤ r.2.content.length := by
      rw [hcontent, hposition, length_overwrite h, htake]
      exact Nat.le_max_right _ _
    obtain ⟨calls, hrest⟩ := ih hlong
    refine ⟨calls, ?_⟩
    have hjoin : overwrite r.2.content r.2.position (bytes.drop r.1) =
        overwrite b.content b.position bytes := by
      have happ : overwrite (overwrite b.content b.position (bytes.take r.1)) _
          (bytes.drop r.1) = _ := overwrite_append h
      rwa [htake, List.take_append_drop] at happ
    have hend : r.2.position + (bytes.drop r.1).length = b.position + bytes.length := by
      rw [hposition, List.length_drop]
      omega
    rw [hrest, hjoin, hend]
    rfl

end Backend

end LibC
