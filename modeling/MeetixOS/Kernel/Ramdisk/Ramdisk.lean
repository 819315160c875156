import MeetixOS.Kernel.Types

/-! # The ramdisk

`ramdisk/Ramdisk.cpp`: the entries form one list (`firstHeader`, `next`), the hierarchy is in their
`parentid`s, and the root, with id 0, is not in the list. `findChild` reads the first header before
it tests for the end of the list; on an empty ramdisk that is a null pointer, and the model returns
`none`. -/

namespace MeetixOS.Kernel

inductive RamdiskEntryType
  | folder
  | file
  deriving DecidableEq, Repr

/-- `RamdiskEntry`; `data` stands for the data pointer and `datalength`. -/
structure RamdiskEntry where
  type : RamdiskEntryType := .folder
  id : Nat
  parentid : Nat := 0
  name : List Char := []
  data : List UInt8 := []
  dataOnRamdisk : Bool := false
  notOnRdBufferLength : Nat := 0
  deriving DecidableEq

/-- `Ramdisk`; `headers` are the entries from `firstHeader` on. -/
structure Ramdisk where
  root : RamdiskEntry := { id := 0 }
  headers : List RamdiskEntry
  nextUnusedId : Nat

namespace Ramdisk

/-- `Ramdisk::findChild`: the first header is read unconditionally. -/
def findChild (ramdisk : Ramdisk) (parent : RamdiskEntry) (childName : List Char) :
    Option (Option RamdiskEntry) :=
  if ramdisk.headers = [] then none
  else
    some (ramdisk.headers.find? fun current =>
      current.parentid = parent.id ∧ current.name = childName)

def findById (ramdisk : Ramdisk) (id : Nat) : Option RamdiskEntry :=
  if id = 0 then some ramdisk.root else ramdisk.headers.find? fun current => current.id = id

/-- `Ramdisk::createChild`: a new file in front of all headers. -/
def createChild (ramdisk : Ramdisk) (parent : RamdiskEntry) (filename : List Char) :
    Ramdisk × RamdiskEntry :=
  let newNode : RamdiskEntry :=
    { type := .file
      id := ramdisk.nextUnusedId
      parentid := parent.id
      name := filename }
  ({ ramdisk with
      headers := newNode :: ramdisk.headers
      nextUnusedId := u32 (ramdisk.nextUnusedId + 1) }, newNode)

end Ramdisk

end MeetixOS.Kernel
