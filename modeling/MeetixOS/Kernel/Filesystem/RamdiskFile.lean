import Mathlib.Data.Int.Bitwise
import MeetixOS.Kernel.Filesystem.FileSystem

/-! # The contents of ramdisk files

The requests of `filesystem/FsDelegateRamdisk.cpp` that read, write and truncate one file, and the seek of
`filesystem/FsTransactionHandlerGetLengthSeek.hpp`. A buffer is the list of all its bytes, also of those
behind the end of the file. A write fails where the kernel heap panics, the loop for a larger buffer does
not end, or `Memory::copy` goes over the end. What `n * 1.2` is depends on the floating-point unit, so that
a `Machine` says it. -/

namespace MeetixOS.Kernel

open MeetixOS.Lib

/-! ## Data -/

inductive FsSeekMode
  | seekSet
  | seekCur
  | seekEnd
  deriving DecidableEq, Repr

/-- `flags & FILE_FLAG_MODE_TRUNCATE`. -/
def isTruncate (flags : Int) : Bool := flags.testBit 4

/-- `flags & FILE_FLAG_MODE_APPEND`. -/
def isAppend (flags : Int) : Bool := flags.testBit 5

/-- What a machine decides: the bytes that lie in a new buffer, and `n * 1.2`, cut to an integer. Only
from the size `least` on a buffer grows. -/
structure Machine where
  garbage : Nat → UInt8
  enlarged : Nat → Nat
  least : Nat
  least_lt : least < 2 ^ 30
  enlarged_small : ∀ {n}, n < least → enlarged n = n
  lt_enlarged : ∀ {n}, least ≤ n → n < enlarged n

namespace Machine

theorem le_enlarged (m : Machine) (n : Nat) : n ≤ m.enlarged n := by
  by_cases h : n < m.least
  · exact Nat.le_of_eq (m.enlarged_small h).symm
  · exact Nat.le_of_lt (m.lt_enlarged (Nat.le_of_not_lt h))

/-- The exact product. -/
def floored (garbage : Nat → UInt8) : Machine where
  garbage
  enlarged n := n * 6 / 5
  least := 5
  least_lt := by decide
  enlarged_small h := by omega
  lt_enlarged h := by omega

/-- The product of the x87 unit with the double next to 1.2, which is a little smaller: 5 stays 5. (The
unit keeps 64 bits of it, which does not reach the next integer.) -/
def x87 (garbage : Nat → UInt8) : Machine where
  garbage
  enlarged n := n * 5404319552844595 / 2 ^ 52
  least := 6
  least_lt := by decide
  enlarged_small h := by omega
  lt_enlarged h := by omega

end Machine

/-- The fields of a `RamdiskEntry` that hold its data; `data` is `none` for a null pointer. -/
structure RamdiskFile where
  data : Option (List UInt8)
  datalength : Nat
  dataOnRamdisk : Bool
  notOnRdBufferLength : Nat

/-- Why a write does not return. -/
inductive WriteFault
  | panic
  | endless
  | outOfBounds
  deriving DecidableEq, Repr

namespace RamdiskFile

/-! ## Buffers -/

/-- `new uint8_t[size]`: the heap has less than 2^30 bytes, and panics when full. -/
def newBuffer (m : Machine) (size : Nat) : Except WriteFault (List UInt8) :=
  if size < 2 ^ 30 then .ok ((List.range size).map m.garbage) else .error .panic

/-- `Memory::copy` of `bytes` to the place `offset` of a buffer. -/
def memoryCopy (buffer : List UInt8) (offset : Int) (bytes : List UInt8) :
    Except WriteFault (List UInt8) :=
  if 0 ≤ offset ∧ offset + bytes.length ≤ buffer.length then
    .ok (overwrite buffer offset.toNat bytes)
  else .error .outOfBounds

/-- A buffer of another size, with the data in it. -/
def moveData (m : Machine) (file : RamdiskFile) (buflen : Nat) :
    Except WriteFault RamdiskFile := do
  let newBuffer ← newBuffer m buflen
  let data ← memoryCopy newBuffer 0 ((file.data.getD []).take file.datalength)
  .ok { file with data := some data, notOnRdBufferLength := buflen, dataOnRamdisk := false }

/-- The part of `requestWrite` that copies the data from the ramdisk, or makes a first buffer. -/
def prepareBuffer (m : Machine) (file : RamdiskFile) : Except WriteFault RamdiskFile :=
  if file.dataOnRamdisk then moveData m file (m.enlarged file.datalength)
  else if file.data = none then do
    let newBuffer ← newBuffer m 32
    .ok { file with data := some newBuffer, notOnRdBufferLength := 32 }
  else .ok file

/-- `space = notOnRdBufferLength - fd->offset`. -/
def space (file : RamdiskFile) (offset : Int) : Int :=
  (file.notOnRdBufferLength - offset) % 2 ^ 32

/-- The loop of `requestWrite` that expands the buffer; it reaches the size of the heap in less than
2^30 rounds. -/
def expandLoop (m : Machine) :
    Nat → RamdiskFile → (offset length : Int) → Except WriteFault RamdiskFile
  | 0, _, _, _ => .error .endless
  | fuel + 1, file, offset, length =>
    if file.space offset < length then do
      let file ← moveData m file (m.enlarged file.notOnRdBufferLength)
      expandLoop m fuel file offset length
    else .ok file

/-! ## Requests -/

/-- `FsDelegateRamdisk::requestRead`: the status, the result and the bytes copied. -/
def requestRead (file : RamdiskFile) (fd : FileDescriptorContent) (length : Nat) :
    FileDescriptorContent × FsReadStatus × Int × List UInt8 :=
  match file.data with
  | none => (fd, .error, -1, [])
  | some data =>
    let copyAmount : Int :=
      if fd.offset + length ≥ file.datalength then file.datalength - fd.offset else length
    if copyAmount > 0 then
      ({ fd with offset := fd.offset + copyAmount }, .successful, copyAmount,
        (data.drop fd.offset.toNat).take copyAmount.toNat)
    else (fd, .successful, copyAmount, [])

/-- The place at which `requestWrite` writes: an appending descriptor is set to the end. -/
def writeOffset (file : RamdiskFile) (fd : FileDescriptorContent) : Int :=
  if isAppend fd.openFlags then file.datalength else fd.offset

/-- The last part of `requestWrite`: the bytes are copied, and the file ends behind them. -/
def writeData (file : RamdiskFile) (fd : FileDescriptorContent) (offset : Int)
    (bytes : List UInt8) : Except WriteFault (RamdiskFile × FileDescriptorContent × Int) := do
  let data ← memoryCopy (file.data.getD []) offset bytes
  .ok ({ file with data := some data, datalength := u32 (offset + bytes.length).toNat },
    { fd with offset := offset + bytes.length }, bytes.length)

/-- `FsDelegateRamdisk::requestWrite`. The status is always successful. -/
def requestWrite (m : Machine) (file : RamdiskFile) (fd : FileDescriptorContent)
    (bytes : List UInt8) : Except WriteFault (RamdiskFile × FileDescriptorContent × Int) := do
  let prepared ← prepareBuffer m file
  let offset := prepared.writeOffset fd
  let expanded ← expandLoop m (2 ^ 30) prepared offset bytes.length
  expanded.writeData fd offset bytes

/-- `FsDelegateRamdisk::requestOpen` of a file that was found. -/
def requestOpen (file : RamdiskFile) (flags : Int) : RamdiskFile :=
  if isTruncate flags ∧ file.dataOnRamdisk = false then
    { file with data := none, datalength := 0, notOnRdBufferLength := 0 }
  else file

/-- `FsTransactionHandlerGetLengthSeek::performAfterwork`, after `requestGetLength`. -/
def seek (file : RamdiskFile) (fd : FileDescriptorContent) (mode : FsSeekMode) (amount : Int) :
    FileDescriptorContent × Int :=
  let offset : Int := match mode with
    | .seekCur => s64 (fd.offset + amount)
    | .seekSet => amount
    | .seekEnd => s64 (file.datalength - amount)
  let offset := if offset > file.datalength then (file.datalength : Int) else offset
  let offset := if offset < 0 then 0 else offset
  ({ fd with offset }, offset)

end RamdiskFile

/-! ## Calls -/

/-- The file and its open descriptors. -/
structure FileState where
  file : RamdiskFile
  descriptors : Int → Option FileDescriptorContent := fun _ => none

/-- A call on the file. -/
inductive FileAccess
  | open (fd : Int) (flags : Int)
  | seek (fd : Int) (mode : FsSeekMode) (amount : Int)
  | read (fd : Int) (length : Nat)
  | write (fd : Int) (bytes : List UInt8)

/-- What the caller sees. -/
inductive FileResult
  | opened
  | invalidFd
  | sought (result : Int)
  | read (status : FsReadStatus) (result : Int) (bytes : List UInt8)
  | written (result : Int)
  deriving DecidableEq

namespace FileState

/-- A write through the pointer to a descriptor. -/
def setDescriptor (s : FileState) (fd : Int) (content : FileDescriptorContent) : FileState :=
  { s with descriptors := Function.update s.descriptors fd (some content) }

def access (m : Machine) (s : FileState) :
    FileAccess → Except WriteFault (FileState × FileResult)
  | .open fd flags =>
    .ok (({ s with file := s.file.requestOpen flags } : FileState).setDescriptor fd
      { id := fd, openFlags := flags }, .opened)
  | .seek fd mode amount =>
    match s.descriptors fd with
    | none => .ok (s, .invalidFd)
    | some content =>
      let (content, result) := s.file.seek content mode amount
      .ok (s.setDescriptor fd content, .sought result)
  | .read fd length =>
    match s.descriptors fd with
    | none => .ok (s, .invalidFd)
    | some content =>
      let (content, status, result, bytes) := s.file.requestRead content length
      .ok (s.setDescriptor fd content, .read status result bytes)
  | .write fd bytes =>
    match s.descriptors fd with
    | none => .ok (s, .invalidFd)
    | some content => do
        let (file, content, result) ← s.file.requestWrite m content bytes
        .ok (({ s with file } : FileState).setDescriptor fd content, .written result)

end FileState

end MeetixOS.Kernel
