import MeetixOS.Lib.Bytes
import MeetixOS.Kernel.Ramdisk.Ramdisk

/-! # Loading a ramdisk

`Ramdisk::load`: the loop reads one record after the other from the memory of the multiboot module,
until it is at the end of the module. Pointers and positions are words of 32 bits. -/

namespace MeetixOS.Kernel

open MeetixOS.Lib

structure MultibootModule where
  moduleStart : Nat
  moduleEnd : Nat

/-- A C string: the characters up to the terminating zero. -/
def cString (bytes : List UInt8) : List Char :=
  (bytes.takeWhile (· ≠ 0)).map fun b => Char.ofNat b.toNat

namespace Ramdisk

variable (memory : Nat → UInt8) (ramdisk : Nat)

/-- `*(uint32_t*)(ramdisk + position)`. -/
def wordAt (position : Nat) : Nat := wordOf (bytesAt memory (u32 (ramdisk + position)) 4)

/-- The part of the loop of `load` that reads a record, with the position behind it. A type byte is
compared with `RAMDISK_ENTRY_TYPE_FILE` only. -/
def loadEntry (ramdiskPosition : Nat) : RamdiskEntry × Nat :=
  let isFile := memory (u32 (ramdisk + ramdiskPosition)) = 1
  let ramdiskPosition := u32 (ramdiskPosition + 1)
  let id := wordAt memory ramdisk ramdiskPosition
  let ramdiskPosition := u32 (ramdiskPosition + 4)
  let parentid := wordAt memory ramdisk ramdiskPosition
  let ramdiskPosition := u32 (ramdiskPosition + 4)
  let namelength := wordAt memory ramdisk ramdiskPosition
  let ramdiskPosition := u32 (ramdiskPosition + 4)
  let name := cString (bytesAt memory (u32 (ramdisk + ramdiskPosition)) namelength)
  let ramdiskPosition := u32 (ramdiskPosition + namelength)
  if isFile then
    let datalength := wordAt memory ramdisk ramdiskPosition
    let ramdiskPosition := u32 (ramdiskPosition + 4)
    let data := bytesAt memory (u32 (ramdisk + ramdiskPosition)) datalength
    ({ type := .file, id, parentid, name, data, dataOnRamdisk := true },
      u32 (ramdiskPosition + datalength))
  else ({ type := .folder, id, parentid, name, dataOnRamdisk := true }, ramdiskPosition)

/-- Appends an entry that was read, and starts with unused ids after it. -/
def addHeader (rd : Ramdisk) (header : RamdiskEntry) : Ramdisk :=
  { rd with
    headers := rd.headers ++ [header]
    nextUnusedId := if header.id > rd.nextUnusedId then u32 (header.id + 1) else rd.nextUnusedId }

/-- The loop of `load`, with its end position. A record has at least 13 bytes, so there are fewer rounds
than bytes unless the position wraps. -/
def loadLoop (ramdiskEnd : Nat) : Nat → Nat → Ramdisk → Option (Ramdisk × Nat)
  | 0, ramdiskPosition, rd =>
    if u32 (ramdisk + ramdiskPosition) < ramdiskEnd then none else some (rd, ramdiskPosition)
  | fuel + 1, ramdiskPosition, rd =>
    if u32 (ramdisk + ramdiskPosition) < ramdiskEnd then
      let (header, ramdiskPosition) := loadEntry memory ramdisk ramdiskPosition
      loadLoop ramdiskEnd fuel ramdiskPosition (rd.addHeader header)
    else some (rd, ramdiskPosition)

/-- `Ramdisk::load`. The constructor leaves `nextUnusedId` as it is in memory. -/
def load (module : MultibootModule) (nextUnusedId : Nat) : Option (Ramdisk × Nat) :=
  loadLoop memory module.moduleStart module.moduleEnd (module.moduleEnd - module.moduleStart) 0
    { headers := [], nextUnusedId }

end Ramdisk

end MeetixOS.Kernel
