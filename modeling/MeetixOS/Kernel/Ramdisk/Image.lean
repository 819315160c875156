import Mathlib.Data.List.Nodup
import Mathlib.Data.List.TakeWhile
import MeetixOS.Tools.RamdiskWriter
import MeetixOS.Kernel.Ramdisk.Load

/-! # Ramdisk images

The writer and the loader agree on the format: loading an image gives the entries of the source tree
(`load_create`). The loader has to leave the counter for new ids above all ids it has seen; it does so
only if the number of entries is odd (`entries_distinct_iff`). -/

namespace MeetixOS.Kernel

open MeetixOS.Lib MeetixOS.Tools

/-- The entry that a record of an image stands for. -/
def entryOf (r : Record) : RamdiskEntry :=
  { type := if r.isFile then .file else .folder
    id := r.id
    parentid := r.parentId
    name := r.name.bytes.map fun b => Char.ofNat b.toNat
    data := if r.isFile then r.content else []
    dataOnRamdisk := true }

/-- The entries of a source tree: the source directory itself is the root, with the id 0. -/
def sourceEntries (source : Directory) : List RamdiskEntry := (source.records 0 1).map entryOf

theorem cString_name (name : FileName) :
    cString name.bytes = name.bytes.map fun b => Char.ofNat b.toNat := by
  rw [cString, List.takeWhile_eq_self_iff.2]
  intro b hb
  exact decide_eq_true fun h => name.no_nul (h ▸ hb)

namespace Ramdisk

variable {memory : Nat → UInt8} {ramdisk position : Nat}

/-! ## Loading records -/

theorem wordAt_eq {n : Nat} (h : Stores memory (ramdisk + position) (word n)) (hn : n < 2 ^ 32)
    (hlt : ramdisk + position < 2 ^ 32) : wordAt memory ramdisk position = n := by
  rw [wordAt, u32_of_lt hlt, h.wordOf_eq hn]

theorem stores_bytes {r : Record} {a : Nat} (h : Stores memory a r.bytes) :
    memory a = (if r.isFile then 1 else 0) ∧ Stores memory (a + 1) (word r.id) ∧
      Stores memory (a + 5) (word r.parentId) ∧
      Stores memory (a + 9) (word r.name.bytes.length) ∧ Stores memory (a + 13) r.name.bytes ∧
      Stores memory (a + 13 + r.name.bytes.length)
        (if r.isFile then word r.content.length ++ r.content else []) := by
  simpa only [Record.bytes, List.append_assoc, List.singleton_append, stores_cons, stores_append,
    List.length_cons, length_word, Nat.add_assoc, Nat.reduceAdd, and_assoc] using h

theorem length_bytes (r : Record) : r.bytes.length =
    13 + r.name.bytes.length + (if r.isFile then 4 + r.content.length else 0) := by
  cases hfile : r.isFile <;> simp [Record.bytes, hfile] <;> omega

theorem loadEntry_eq {r : Record} (h : Stores memory (ramdisk + position) r.bytes)
    (hlt : ramdisk + position + r.bytes.length < 2 ^ 32) (hid : r.id < 2 ^ 32)
    (hparent : r.parentId < 2 ^ 32) :
    loadEntry memory ramdisk position = (entryOf r, position + r.bytes.length) := by
  obtain ⟨htype, hsid, hsparent, hslength, hsname, hscontent⟩ := stores_bytes h
  rw [length_bytes] at hlt
  simp only [Nat.add_assoc] at hsid hsparent hslength hsname hscontent
  have hname : r.name.bytes.length < 2 ^ 32 := by omega
  rw [loadEntry]
  simp (disch := omega) only [u32_of_lt, Nat.add_assoc, Nat.reduceAdd, wordAt_eq hsid hid,
    wordAt_eq hsparent hparent, wordAt_eq hslength hname, hsname.bytesAt_eq rfl, cString_name, htype]
  cases hfile : r.isFile with
  | false => simp [entryOf, hfile, length_bytes]
  | true =>
    rw [hfile, if_pos rfl] at hscontent hlt
    obtain ⟨hslen, hsdata⟩ := stores_append.1 hscontent
    have hlen : r.content.length < 2 ^ 32 := by omega
    simp only [length_word, Nat.add_assoc] at hsdata
    simp (disch := omega) only [u32_of_lt, wordAt_eq hslen hlen, hsdata.bytesAt_eq rfl]
    simp [entryOf, hfile, length_bytes, Nat.add_assoc]

theorem loadLoop_eq {records : List Record}
    (h : Stores memory (ramdisk + position) (records.flatMap Record.bytes)) {rd : Ramdisk}
    {ramdiskEnd fuel : Nat} (hend : ramdisk + position + (records.flatMap Record.bytes).length =
      ramdiskEnd) (hlt : ramdiskEnd < 2 ^ 32) (hfuel : records.length ≤ fuel)
    (hids : ∀ r ∈ records, r.id < 2 ^ 32 ∧ r.parentId < 2 ^ 32) :
    loadLoop memory ramdisk ramdiskEnd fuel position rd =
      some ((records.map entryOf).foldl addHeader rd, ramdiskEnd - ramdisk) := by
  induction records generalizing position rd fuel with
  | nil =>
    have hposition : ramdisk + position = ramdiskEnd := hend
    have hexit : loadLoop memory ramdisk ramdiskEnd fuel position rd = some (rd, position) := by
      cases fuel <;> rw [loadLoop, u32_of_lt (by omega), if_neg (by omega)]
    rw [hexit, ← hposition, Nat.add_sub_cancel_left]
    rfl
  | cons r records ih =>
    rw [List.flatMap_cons] at h hend
    rw [List.length_append] at hend
    obtain ⟨hr, hrest⟩ := stores_append.1 h
    obtain ⟨hid, hparent⟩ := hids r List.mem_cons_self
    have hpos := length_bytes r
    obtain ⟨fuel, rfl⟩ : ∃ n, fuel = n + 1 :=
      Nat.exists_eq_add_one_of_ne_zero fun h0 => (by simp [h0] at hfuel)
    rw [loadLoop, u32_of_lt (by omega), if_pos (by omega)]
    rw [loadEntry_eq hr (by omega) hid hparent]
    rw [Nat.add_assoc] at hrest
    exact ih hrest (by omega) (Nat.le_of_succ_le_succ hfuel)
      fun b hb => hids b (List.mem_cons_of_mem _ hb)

theorem headers_foldl_addHeader (rd : Ramdisk) (entries : List RamdiskEntry) :
    (entries.foldl addHeader rd).headers = rd.headers ++ entries ∧
      (entries.foldl addHeader rd).root = rd.root := by
  induction entries generalizing rd with
  | nil => exact ⟨(List.append_nil _).symm, rfl⟩
  | cons e entries ih =>
    obtain ⟨hheaders, hroot⟩ := ih (rd.addHeader e)
    refine ⟨?_, hroot⟩
    rw [List.foldl_cons, hheaders, addHeader, List.append_assoc, List.singleton_append]

/-! ## Loading what the writer has written -/

theorem length_flatMap_bytes (records : List Record) :
    13 * records.length ≤ (records.flatMap Record.bytes).length := by
  induction records with
  | nil => exact Nat.le_refl 0
  | cons r records ih =>
    rw [List.flatMap_cons, List.length_append, List.length_cons, length_bytes]
    omega

theorem ids_lt {source : Directory}
    (hlt : ((source.records 0 1).flatMap Record.bytes).length < 2 ^ 32) {r : Record}
    (hr : r ∈ source.records 0 1) : r.id < 2 ^ 32 ∧ r.parentId < 2 ^ 32 := by
  have hcount := length_flatMap_bytes (source.records 0 1)
  rw [source.length_records] at hcount
  have hmem : r.id ∈ List.range' 1 source.count := by
    rw [← source.ids_records 0 1]
    exact List.mem_map_of_mem hr
  rw [List.mem_range'_1] at hmem
  have hparent := source.parentId_lt Nat.zero_lt_one hr
  omega

/-- A source directory with one file in it. -/
def exampleFile : Directory :=
  .file ⟨ascii "a", by decide, by decide⟩ [7, 8] .empty

/-- The same file in a directory. -/
def exampleTree : Directory := .directory ⟨ascii "d", by decide, by decide⟩ exampleFile .empty

/-- The image of a source directory, with the rules there are without a file of rules. -/
def exampleImage (source : Directory) : List UInt8 :=
  (RamdiskWriter.create {} (ascii "/s") source).outFile

section

variable {ignores : List (List UInt8)} {sourcePath : List UInt8} {source : Directory}
  (hroot : ignores.any (matchesRule sourcePath sourcePath) = false)
  (hkept : source.Kept ignores sourcePath sourcePath) {image : List UInt8} {moduleStart : Nat}
  (himage : image = (RamdiskWriter.create { ignores } sourcePath source).outFile)
  (hstores : Stores memory moduleStart image) (hlt : moduleStart + image.length < 2 ^ 32)

include hroot hkept himage hstores hlt in
theorem load_eq (nextUnusedId : Nat) :
    load memory ⟨moduleStart, moduleStart + image.length⟩ nextUnusedId =
      some ((sourceEntries source).foldl addHeader { headers := [], nextUnusedId },
        image.length) := by
  rw [RamdiskWriter.create_outFile hroot hkept] at himage
  have hlength := length_flatMap_bytes (source.records 0 1)
  rw [← himage] at hlength
  have hrecords :
      Stores memory (moduleStart + 0) ((source.records 0 1).flatMap Record.bytes) := by
    rwa [← himage]
  have hids : ∀ r ∈ source.records 0 1, r.id < 2 ^ 32 ∧ r.parentId < 2 ^ 32 :=
    fun r hr => ids_lt (by rw [← himage]; omega) hr
  rw [load]
  dsimp only
  rw [loadLoop_eq hrecords (by rw [← himage]; rfl) hlt (by omega) hids, sourceEntries,
    Nat.add_sub_cancel_left]

include hroot hkept himage hstores hlt in
/-- Loading an image gives the entries of the source tree, in the order written, and ends at the end of
the image. -/
theorem load_create (nextUnusedId : Nat) :
    ∃ rd, load memory ⟨moduleStart, moduleStart + image.length⟩ nextUnusedId =
        some (rd, image.length) ∧
      rd.root.id = 0 ∧ rd.headers = sourceEntries source := by
  obtain ⟨hheaders, hrd⟩ :=
    headers_foldl_addHeader { headers := [], nextUnusedId } (sourceEntries source)
  refine ⟨_, load_eq hroot hkept himage hstores hlt nextUnusedId, ?_, ?_⟩
  · rw [hrd]
  · rw [hheaders, List.nil_append]

theorem load_create_tree :
    ∃ rd, load (memoryWith 4096 (exampleImage exampleTree))
        ⟨4096, 4096 + (exampleImage exampleTree).length⟩ 0 =
          some (rd, (exampleImage exampleTree).length) ∧
      rd.root.id = 0 ∧ rd.headers =
        [{ type := .folder, id := 1, parentid := 0, name := ['d'], dataOnRamdisk := true },
          { type := .file, id := 2, parentid := 1, name := ['a'], data := [7, 8],
            dataOnRamdisk := true }] :=
  load_create (by decide) (by simp only [exampleTree, exampleFile, Directory.Kept]; decide) rfl
    (stores_memoryWith ..) (by decide) 0

/-! ## Ids -/

/-- All entries, with the root, have different ids, and are found by them. -/
def Distinct (rd : Ramdisk) : Prop :=
  ((rd.root :: rd.headers).map RamdiskEntry.id).Nodup ∧
    ∀ e ∈ rd.root :: rd.headers, rd.findById e.id = some e

theorem find?_id_of_nodup {entries : List RamdiskEntry} {e : RamdiskEntry}
    (hnodup : (entries.map RamdiskEntry.id).Nodup) (he : e ∈ entries) :
    entries.find? (fun current => current.id = e.id) = some e := by
  induction entries with
  | nil => cases he
  | cons d entries ih =>
    obtain ⟨hd, hrest⟩ := List.nodup_cons.1 hnodup
    rcases List.mem_cons.1 he with rfl | he
    · rw [List.find?_cons_of_pos (by simp)]
    · have hne : ¬ d.id = e.id := fun h => hd (h ▸ List.mem_map_of_mem he)
      rw [List.find?_cons_of_neg (by simpa using hne), ih hrest he]

theorem distinct_iff {rd : Ramdisk} (hroot : rd.root.id = 0) :
    rd.Distinct ↔ (0 :: rd.headers.map RamdiskEntry.id).Nodup := by
  rw [Distinct, List.map_cons, hroot]
  refine ⟨And.left, fun hnodup => ⟨hnodup, ?_⟩⟩
  obtain ⟨hzero, hheaders⟩ := List.nodup_cons.1 hnodup
  intro e he
  rcases List.mem_cons.1 he with rfl | he
  · rw [hroot, findById, if_pos rfl]
  · have hne : e.id ≠ 0 := fun h => hzero (h ▸ List.mem_map_of_mem he)
    rw [findById, if_neg hne, find?_id_of_nodup hheaders he]

theorem nextUnusedId_foldl {entries : List RamdiskEntry} {n : Nat} (hn : n + 1 < 2 ^ 32)
    (hids : entries.map RamdiskEntry.id = List.range' 1 n) :
    (entries.foldl addHeader { headers := [], nextUnusedId := 0 }).nextUnusedId = n + n % 2 := by
  induction n generalizing entries with
  | zero =>
    rw [List.map_eq_nil_iff.1 hids]
    rfl
  | succ n ih =>
    rw [List.range'_1_concat, List.map_eq_append_iff] at hids
    obtain ⟨init, last, rfl, hinit, hlast⟩ := hids
    obtain ⟨e, rfl, he⟩ := List.map_eq_singleton_iff.1 hlast
    rw [List.foldl_append, List.foldl_cons, List.foldl_nil, addHeader]
    dsimp only
    rw [ih (by omega) hinit, he]
    split
    next h => rw [u32_of_lt (by omega)]; omega
    next h => omega

/-- Files are created one after the other. -/
def createChildren (rd : Ramdisk) (calls : List (RamdiskEntry × List Char)) : Ramdisk :=
  calls.foldl (fun rd call => (rd.createChild call.1 call.2).1) rd

theorem ids_createChildren (rd : Ramdisk) (hnext : rd.nextUnusedId < 2 ^ 32)
    (calls : List (RamdiskEntry × List Char)) :
    (rd.createChildren calls).headers.map RamdiskEntry.id =
        ((List.range calls.length).map fun i => u32 (rd.nextUnusedId + i)).reverse ++
          rd.headers.map RamdiskEntry.id ∧
      (rd.createChildren calls).root = rd.root := by
  induction calls generalizing rd with
  | nil => exact ⟨rfl, rfl⟩
  | cons call calls ih =>
    obtain ⟨hids, hroot⟩ := ih (rd.createChild call.1 call.2).1 (u32_lt _)
    refine ⟨?_, hroot⟩
    refine hids.trans ?_
    have hshift : ∀ i, u32 (u32 (rd.nextUnusedId + 1) + i) = u32 (rd.nextUnusedId + (i + 1)) := by
      intro i
      rw [u32_add_u32, Nat.add_assoc, Nat.add_comm 1]
    simp only [createChild, hshift, List.length_cons, List.range_succ_eq_map, List.map_cons,
      List.map_map, Nat.add_zero, u32_of_lt hnext, List.reverse_cons, List.append_assoc,
      List.singleton_append]
    rfl

theorem nodup_ids_iff {n k : Nat} (hn : n + 1 < 2 ^ 32) :
    (0 :: (((List.range k).map fun i => u32 (n + n % 2 + i)).reverse ++ List.range' 1 n)).Nodup ↔
      k = 0 ∨ (n % 2 = 1 ∧ n + k < 2 ^ 32) := by
  have hmem : ∀ id, id ∈ ((List.range k).map fun i => u32 (n + n % 2 + i)).reverse ↔
      ∃ i < k, u32 (n + n % 2 + i) = id := by simp
  rw [List.nodup_cons, List.mem_append, List.nodup_append, List.nodup_reverse, hmem]
  refine ⟨fun h => ?_, fun h => ?_⟩
  · obtain ⟨hzero, -, -, hapart⟩ := h
    by_contra hnot
    by_cases hodd : n % 2 = 1
    · -- the counter wraps around to the id of the root
      refine hzero (.inl ⟨2 ^ 32 - (n + 1), by omega, ?_⟩)
      rw [hodd, Nat.add_sub_cancel' (Nat.le_of_lt hn), u32]
      decide
    · -- the counter is at the id of the last entry, or of the root if there is none
      have hfirst : ∃ i < k, u32 (n + n % 2 + i) = n :=
        ⟨0, by omega, by rw [u32_of_lt (by omega)]; omega⟩
      by_cases h0 : n = 0
      · exact hzero (.inl (h0 ▸ hfirst))
      · exact hapart n ((hmem n).2 hfirst) n (List.mem_range'_1.2 (by omega)) rfl
  · have hid : ∀ i < k, u32 (n + n % 2 + i) = n + 1 + i := by
      intro i hi
      rw [u32_of_lt (by omega)]
      omega
    refine ⟨?_, ?_, List.nodup_range' .., ?_⟩
    · rintro (⟨i, hi, h0⟩ | h0)
      · rw [hid i hi] at h0
        omega
      · rw [List.mem_range'_1] at h0
        omega
    · refine List.nodup_range.map_on fun i hi j hj hij => ?_
      rw [hid i (List.mem_range.1 hi), hid j (List.mem_range.1 hj)] at hij
      omega
    · rintro a ha b hb rfl
      obtain ⟨i, hi, rfl⟩ := (hmem a).1 ha
      rw [hid i hi, List.mem_range'_1] at hb
      omega

include hroot hkept himage hstores hlt in
/-- After loading an image, all ids differ if and only if no file was created, or the number of
entries is odd and the counter has not wrapped. -/
theorem entries_distinct_iff {rd : Ramdisk} {position : Nat}
    (hload : load memory ⟨moduleStart, moduleStart + image.length⟩ 0 = some (rd, position))
    (calls : List (RamdiskEntry × List Char)) :
    (rd.createChildren calls).Distinct ↔
      calls.length = 0 ∨ (source.count % 2 = 1 ∧ source.count + calls.length < 2 ^ 32) := by
  rw [load_eq hroot hkept himage hstores hlt] at hload
  obtain ⟨rfl, -⟩ := Prod.mk.inj (Option.some.inj hload)
  obtain ⟨hheaders, hrd⟩ :=
    headers_foldl_addHeader { headers := [], nextUnusedId := 0 } (sourceEntries source)
  have hids : (sourceEntries source).map RamdiskEntry.id = List.range' 1 source.count := by
    rw [sourceEntries, List.map_map, ← source.ids_records 0 1]
    rfl
  have hcount : source.count + 1 < 2 ^ 32 := by
    have hlength := length_flatMap_bytes (source.records 0 1)
    rw [source.length_records, ← RamdiskWriter.create_outFile hroot hkept, ← himage] at hlength
    omega
  have hnext := nextUnusedId_foldl hcount hids
  obtain ⟨hcreated, hrootSame⟩ := ids_createChildren
    ((sourceEntries source).foldl addHeader { headers := [], nextUnusedId := 0 })
    (by rw [hnext]; omega) calls
  rw [distinct_iff (by rw [hrootSame, hrd]), hcreated, hheaders, List.nil_append, hids, hnext,
    nodup_ids_iff hcount]

theorem entries_distinct_one_file :
    ∃ rd position, load (memoryWith 4096 (exampleImage exampleFile))
        ⟨4096, 4096 + (exampleImage exampleFile).length⟩ 0 = some (rd, position) ∧
      (rd.createChildren [(rd.root, ['x'])]).Distinct := by
  have hkept : exampleFile.Kept [ascii "*.keep"] (ascii "/s") (ascii "/s") := by
    simp only [exampleFile, Directory.Kept]
    decide
  have hload := load_eq (by decide) hkept rfl
    (stores_memoryWith 4096 (exampleImage exampleFile)) (by decide) 0
  exact ⟨_, _, hload, (entries_distinct_iff (by decide) hkept rfl (stores_memoryWith ..) (by decide)
    hload _).2 (.inr (by decide))⟩

/-- With two entries the counter is left at 2, so the next file gets the id of the second entry. -/
theorem created_file_shares_id :
    ∃ rd position, load (memoryWith 4096 (exampleImage exampleTree))
        ⟨4096, 4096 + (exampleImage exampleTree).length⟩ 0 = some (rd, position) ∧
      ¬ (rd.createChildren [(rd.root, ['x'])]).Distinct := by
  obtain ⟨⟨rd, position⟩, hload, hids⟩ : ∃ r ∈ load (memoryWith 4096 (exampleImage exampleTree))
      ⟨4096, 4096 + (exampleImage exampleTree).length⟩ 0,
      (r.1.createChildren [(r.1.root, ['x'])]).headers.map RamdiskEntry.id = [2, 1, 2] := by
    decide +kernel
  refine ⟨rd, position, hload, fun hdistinct => ?_⟩
  have hnodup := hdistinct.1
  rw [List.map_cons, hids] at hnodup
  exact absurd (List.nodup_cons.1 hnodup).2 (by decide)

end

end Ramdisk

end MeetixOS.Kernel
