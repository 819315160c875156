import MeetixOS.Lib.Bytes

/-! # The ramdisk writer

`Meta/Tools/RamdiskWriter/RamdiskWriter.cc`: a source directory is packed into one stream of bytes, a
record for each file and directory, without delimiters. The entries of a
directory come in the order in which `directory_iterator` gives them; what is neither a regular file
nor a directory is skipped by the source and not part of a `Directory`. The image is below 4 GiB, so
`m_next_id` does not overflow. -/

namespace MeetixOS.Tools

open MeetixOS.Lib

/-! ## Source trees -/

/-- The bytes of a text. -/
def ascii (text : String) : List UInt8 := text.toList.map fun c => UInt8.ofNat c.toNat

/-- A file name of the host. -/
structure FileName where
  bytes : List UInt8
  no_nul : 0 ∉ bytes
  not_special : bytes ≠ ascii "." ∧ bytes ≠ ascii ".."

/-- What is in a directory: its entries in order. -/
inductive Directory
  | empty
  | file (name : FileName) (content : List UInt8) (rest : Directory)
  | directory (name : FileName) (contents rest : Directory)

/-- The path of an entry of a directory. -/
def joinPath (path name : List UInt8) : List UInt8 :=
  if path = [] ∨ path.getLast? = some 47 then path ++ name else path ++ ascii "/" ++ name

/-! ## Ignore rules -/

/-- `std::string::find`: the position of the first occurrence. -/
def stdFind (s part : List UInt8) : Option Nat :=
  (List.range (s.length + 1)).find? fun i => part.isPrefixOf (s.drop i)

/-- The checks that `write_recursive` makes for one rule. -/
def matchesRule (basePath path ignore : List UInt8) : Bool :=
  -- pre-pended globbing
  (stdFind ignore (ascii "*") = some 0 ∧
    stdFind path (ignore.drop 1) = some (path.length - (ignore.drop 1).length)) ∨
  -- appended globbing
  (stdFind ignore (ascii "*") = some (ignore.length - 1) ∧
    stdFind path (basePath ++ ascii "/" ++ ignore.dropLast) = some 0) ∨
  -- full path ignore
  basePath ++ ascii "/" ++ ignore = path

/-! ## Writing -/

structure RamdiskWriter where
  nextId : Nat := 0
  outFile : List UInt8 := []
  ignores : List (List UInt8) := [ascii "*.keep"]

namespace RamdiskWriter

/-- The path is skipped. -/
def ignored (w : RamdiskWriter) (basePath path : List UInt8) : Bool :=
  w.ignores.any (matchesRule basePath path)

/-- `m_out_file.write`. -/
def write (w : RamdiskWriter) (bytes : List UInt8) : RamdiskWriter :=
  { w with outFile := w.outFile ++ bytes }

/-- The part of `write_recursive` that takes an id and writes what all entries have; the root has the id
0 and is not written. -/
def writeHeader (w : RamdiskWriter) (isFile : Bool) (parentId : Nat) (name : List UInt8) :
    RamdiskWriter :=
  let entryId := w.nextId
  let w := { w with nextId := w.nextId + 1 }
  if entryId > 0 then
    w.write ([if isFile then 1 else 0] ++ word entryId ++ word parentId ++ word name.length ++ name)
  else w

/-- `write_recursive` for a file. -/
def writeFile (w : RamdiskWriter) (basePath path name : List UInt8) (content : List UInt8)
    (parentId : Nat) : RamdiskWriter :=
  if w.ignored basePath path then w
  else (w.writeHeader true parentId name).write (word content.length ++ content)

/-- The loop of `write_recursive` over a directory, with the calls for its entries. -/
def writeContents (basePath : List UInt8) :
    Directory → (path : List UInt8) → (parentId : Nat) → RamdiskWriter → RamdiskWriter
  | .empty, _, _, w => w
  | .file name content rest, path, parentId, w =>
    writeContents basePath rest path parentId
      (w.writeFile basePath (joinPath path name.bytes) name.bytes content parentId)
  | .directory name contents rest, path, parentId, w =>
    writeContents basePath rest path parentId
      (if name.bytes = ascii "." ∨ name.bytes = ascii ".." then w
      else if w.ignored basePath (joinPath path name.bytes) then w
      else
        writeContents basePath contents (joinPath path name.bytes) w.nextId
          (w.writeHeader false parentId name.bytes))

/-- The call of `write_recursive` in `create`, for the source directory itself. -/
def create (w : RamdiskWriter) (sourcePath : List UInt8) (source : Directory) : RamdiskWriter :=
  if w.ignored sourcePath sourcePath then w
  else writeContents sourcePath source sourcePath w.nextId (w.writeHeader false 0 [])

end RamdiskWriter

/-! ## Records -/

/-- What an image says about an entry. -/
structure Record where
  isFile : Bool
  id : Nat
  parentId : Nat
  name : FileName
  content : List UInt8

/-- The bytes of a record. -/
def Record.bytes (r : Record) : List UInt8 :=
  [if r.isFile then 1 else 0] ++ word r.id ++ word r.parentId ++ word r.name.bytes.length ++
    r.name.bytes ++ (if r.isFile then word r.content.length ++ r.content else [])

/-- The number of entries in a directory, at any depth. -/
def Directory.count : Directory → Nat
  | .empty => 0
  | .file _ _ rest => 1 + rest.count
  | .directory _ contents rest => 1 + contents.count + rest.count

/-- One record for each entry: ids are given out in the order written, a directory before what is in it.
-/
def Directory.records : Directory → (parentId id : Nat) → List Record
  | .empty, _, _ => []
  | .file name content rest, parentId, id =>
    { isFile := true, id, parentId, name, content } :: rest.records parentId (id + 1)
  | .directory name contents rest, parentId, id =>
    { isFile := false, id, parentId, name, content := [] } ::
      (contents.records id (id + 1) ++ rest.records parentId (id + 1 + contents.count))

/-- No rule skips an entry of the directory. -/
def Directory.Kept (ignores : List (List UInt8)) (basePath : List UInt8) :
    Directory → (path : List UInt8) → Prop
  | .empty, _ => True
  | .file name _ rest, path =>
    ignores.any (matchesRule basePath (joinPath path name.bytes)) = false ∧
      rest.Kept ignores basePath path
  | .directory name contents rest, path =>
    ignores.any (matchesRule basePath (joinPath path name.bytes)) = false ∧
      contents.Kept ignores basePath (joinPath path name.bytes) ∧ rest.Kept ignores basePath path

variable {w : RamdiskWriter} {basePath path : List UInt8}

theorem Directory.length_records (d : Directory) (parentId id : Nat) :
    (d.records parentId id).length = d.count := by
  induction d generalizing parentId id with
  | empty => rfl
  | file name content rest ih => rw [records, List.length_cons, ih, count, Nat.add_comm]
  | directory name contents rest ihcontents ihrest =>
    rw [records, List.length_cons, List.length_append, ihcontents, ihrest, count]
    omega

theorem Directory.ids_records (d : Directory) (parentId id : Nat) :
    (d.records parentId id).map Record.id = List.range' id d.count := by
  induction d generalizing parentId id with
  | empty => rfl
  | file name content rest ih =>
    rw [records, List.map_cons, ih, count, Nat.add_comm 1, List.range'_succ]
  | directory name contents rest ihcontents ihrest =>
    have hcount : 1 + contents.count + rest.count = contents.count + rest.count + 1 := by omega
    rw [records, List.map_cons, List.map_append, ihcontents, ihrest, count, hcount,
      List.range'_succ, List.range'_append_1]

theorem Directory.parentId_lt {d : Directory} {parentId id : Nat} (hparent : parentId < id)
    {r : Record} (hr : r ∈ d.records parentId id) : r.parentId < r.id := by
  induction d generalizing parentId id with
  | empty => cases hr
  | file name content rest ih =>
    rcases List.mem_cons.1 hr with rfl | hr
    · exact hparent
    · exact ih (Nat.lt_succ_of_lt hparent) hr
  | directory name contents rest ihcontents ihrest =>
    rcases List.mem_cons.1 hr with rfl | hr
    · exact hparent
    · rcases List.mem_append.1 hr with hr | hr
      · exact ihcontents (Nat.lt_succ_self id) hr
      · exact ihrest (by omega) hr

/-! ## What the writer writes -/

theorem RamdiskWriter.writeHeader_eq (hid : 0 < w.nextId) (isFile : Bool) (parentId : Nat)
    (name : List UInt8) : w.writeHeader isFile parentId name =
      { w with
        nextId := w.nextId + 1
        outFile := w.outFile ++ ([if isFile then 1 else 0] ++ word w.nextId ++ word parentId ++
          word name.length ++ name) } := by
  rw [writeHeader, if_pos hid, write]

theorem RamdiskWriter.writeContents_eq {d : Directory} (hid : 0 < w.nextId)
    (hkept : d.Kept w.ignores basePath path) (parentId : Nat) :
    writeContents basePath d path parentId w =
      { w with
        nextId := w.nextId + d.count
        outFile := w.outFile ++ (d.records parentId w.nextId).flatMap Record.bytes } := by
  induction d generalizing w path parentId with
  | empty => simp [writeContents, Directory.records, Directory.count]
  | file name content rest ih =>
    obtain ⟨hkeep, hrest⟩ := hkept
    rw [writeContents, writeFile, ignored, hkeep, if_neg Bool.false_ne_true, writeHeader_eq hid, write, ih]
    · simp [Directory.records, Directory.count, Record.bytes, Nat.add_assoc]
    · exact Nat.succ_pos _
    · exact hrest
  | directory name contents rest ihcontents ihrest =>
    obtain ⟨hkeep, hcontents, hrest⟩ := hkept
    rw [writeContents, if_neg (not_or.2 name.not_special), ignored, hkeep, if_neg Bool.false_ne_true,
      writeHeader_eq hid, ihcontents, ihrest]
    · simp [Directory.records, Directory.count, Record.bytes, Nat.add_assoc]
    · exact Nat.lt_add_right _ (Nat.succ_pos _)
    · exact hrest
    · exact Nat.succ_pos _
    · exact hcontents

theorem RamdiskWriter.create_outFile {ignores : List (List UInt8)} {d : Directory}
    (hroot : ignores.any (matchesRule path path) = false) (hkept : d.Kept ignores path path) :
    (create { ignores } path d).outFile = (d.records 0 1).flatMap Record.bytes := by
  have hheader : ({ ignores } : RamdiskWriter).writeHeader false 0 [] = { nextId := 1, ignores } := rfl
  rw [create, ignored, hroot, if_neg Bool.false_ne_true, hheader,
    writeContents_eq Nat.zero_lt_one hkept]
  exact List.nil_append _

end MeetixOS.Tools
