import MeetixOS.Kernel.Filesystem.RealPath

/-! # Paths in the ramdisk

`Ramdisk::findRelative` copies the path to a buffer and cuts one name after the other off its front. It
goes on with the pointer that `findChild` returned, without a test for null: a name that is missing is
reported only if no other name comes behind it (`findAbsolute_eq_iff`). -/

open Option (bind_eq_bind bind_some)

namespace MeetixOS.Kernel

open MeetixOS.Lib.StringBuffer

def ramdiskMaximumPathLength : Nat := 512

/-- `String::indexOf`, with `pos` characters before `str`. -/
def indexOf (c : Char) : (str : List Char) → (pos : Nat) → Option Nat
  | [], _ => none
  | d :: str, pos => if d = c then some pos else indexOf c str (pos + 1)

namespace Ramdisk

/-! ## The functions -/

/-- `Ramdisk::findChild` with the pointer it is given, which it follows. -/
def findChildAt (ramdisk : Ramdisk) (parent : Option RamdiskEntry) (childName : List Char) :
    Option (Option RamdiskEntry) := do
  ramdisk.findChild (← parent) childName

/-- The loop of `findRelative`; `childpath` is not set up when a round starts. -/
def findRelativeFrom (ramdisk : Ramdisk) (childpath : Buffer Char) :
    (rounds : Nat) → (currentNode : Option RamdiskEntry) → (buf : Buffer Char) →
      Option (Option RamdiskEntry)
  | 0, _, _ => none
  | rounds + 1, currentNode, buf =>
    if (read buf).length > 0 then
      match indexOf '/' (read buf) 0 with
      | some slashIndex => do
          let currentNode ←
            (if slashIndex > 0 then do
              let childpath ← copy ((read buf).take slashIndex) 0 childpath
              let childpath ← write childpath slashIndex none
              ramdisk.findChildAt currentNode (read childpath)
            else some currentNode)
          let len := (read buf).length - (slashIndex + 1)
          let buf ← copyWithin 0 (slashIndex + 1) len buf
          let buf ← write buf len none
          findRelativeFrom ramdisk childpath rounds currentNode buf
      | none => ramdisk.findChildAt currentNode (read buf)
    else some currentNode

/-- `Ramdisk::findRelative`; `buf` and `childpath` are its two arrays. -/
def findRelative (ramdisk : Ramdisk) (node : Option RamdiskEntry) (path : List Char)
    (buf childpath : Buffer Char) : Option (Option RamdiskEntry) := do
  let pathLen := path.length
  let buf ← copy path 0 buf
  let buf ← write buf pathLen none
  findRelativeFrom ramdisk childpath (pathLen + 1) node buf

def findAbsolute (ramdisk : Ramdisk) (path : List Char) (buf childpath : Buffer Char) :
    Option (Option RamdiskEntry) :=
  findRelative ramdisk (some ramdisk.root) path buf childpath

/-! ## What a path stands for -/

/-- The entry that the names lead to: each is the first one with that name below the entry before. -/
def follow (ramdisk : Ramdisk) : RamdiskEntry → List (List Char) → Option RamdiskEntry
  | node, [] => some node
  | node, name :: names => do
      let child ← ramdisk.headers.find? fun entry => entry.parentid = node.id ∧ entry.name = name
      ramdisk.follow child names

/-- One name after the other is looked up, below whatever was found for the name before. -/
def findNames (ramdisk : Ramdisk) : Option RamdiskEntry → List (List Char) → Option (Option RamdiskEntry)
  | node, [] => some node
  | node, name :: names => do ramdisk.findNames (← ramdisk.findChildAt node name) names

/-- All names lead to entries, but for the last one maybe; a name is looked up only in a ramdisk that
has entries. -/
def OnlyLastMissing (ramdisk : Ramdisk) (node : RamdiskEntry) (names : List (List Char)) : Prop :=
  names ≠ [] → ramdisk.headers ≠ [] ∧ (ramdisk.follow node names.dropLast).isSome

instance (ramdisk : Ramdisk) (node : RamdiskEntry) (names : List (List Char)) :
    Decidable (ramdisk.OnlyLastMissing node names) :=
  inferInstanceAs (Decidable (_ → _))

variable {ramdisk : Ramdisk}

theorem findNames_none (names : List (List Char)) :
    ramdisk.findNames none names = if names = [] then some none else none := by
  cases names <;> rfl

theorem findNames_eq_iff {node : RamdiskEntry} {names : List (List Char)} :
    ramdisk.findNames (some node) names = some (ramdisk.follow node names) ↔
      ramdisk.OnlyLastMissing node names := by
  induction names generalizing node with
  | nil => exact iff_of_true rfl fun h => absurd rfl h
  | cons name names ih =>
    simp only [findNames, follow, findChildAt, findChild, bind_eq_bind, bind_some]
    by_cases hheaders : ramdisk.headers = []
    · rw [if_pos hheaders]
      exact iff_of_false (by simp) fun h => (h (by simp)).1 hheaders
    · rw [if_neg hheaders, bind_some]
      cases hfind : ramdisk.headers.find? fun entry =>
          entry.parentid = node.id ∧ entry.name = name with
      | none =>
        rw [findNames_none, Option.bind_none, OnlyLastMissing]
        cases names with
        | nil => exact iff_of_true rfl fun _ => ⟨hheaders, rfl⟩
        | cons next names =>
          -- the next name is looked up below null
          refine iff_of_false (by simp) fun h => ?_
          obtain ⟨-, h⟩ := h (by simp)
          rw [List.dropLast_cons_cons, follow, hfind] at h
          cases h
      | some child =>
        rw [bind_some, ih, OnlyLastMissing, OnlyLastMissing]
        cases names with
        | nil => exact iff_of_true (fun h => absurd rfl h) fun _ => ⟨hheaders, rfl⟩
        | cons next names =>
          rw [List.dropLast_cons_cons, follow, hfind, bind_eq_bind, bind_some]
          simp

end Ramdisk

/-! ## The loop -/

theorem indexOf_eq_none {c : Char} {str : List Char} {pos : Nat} (h : indexOf c str pos = none) :
    c ∉ str := by
  induction str generalizing pos with
  | nil => exact List.not_mem_nil
  | cons d str ih =>
    rw [indexOf] at h
    split at h
    next => cases h
    next hd =>
      rw [List.mem_cons, not_or]
      exact ⟨fun hc => hd hc.symm, ih h⟩

theorem indexOf_eq_some {c : Char} {str : List Char} {pos i : Nat} (h : indexOf c str pos = some i) :
    ∃ before after, str = before ++ c :: after ∧ i = pos + before.length ∧ c ∉ before := by
  induction str generalizing pos with
  | nil => cases h
  | cons d str ih =>
    rw [indexOf] at h
    split at h
    next hd =>
      cases h
      exact ⟨[], str, by rw [hd]; rfl, rfl, List.not_mem_nil⟩
    next hd =>
      obtain ⟨before, after, rfl, rfl, hmem⟩ := ih h
      refine ⟨d :: before, after, rfl, by rw [List.length_cons]; omega, ?_⟩
      rw [List.mem_cons, not_or]
      exact ⟨fun hc => hd hc.symm, hmem⟩

namespace Ramdisk

variable {ramdisk : Ramdisk}

theorem cut_front (before after : List Char) (rest : Buffer Char) :
    ∃ moved rest',
      copyWithin 0 (before.length + 1) after.length
        ((before ++ '/' :: after).map some ++ none :: rest) = some moved ∧
      write moved after.length none = some (after.map some ++ none :: rest') := by
  have hmove : copyWithin 0 (before.length + 1) after.length
      ((before ++ '/' :: after).map some ++ none :: rest) = _ :=
    copyWithin_eq (Nat.zero_le _) (by simp; omega)
  have hsource : (((before ++ '/' :: after).map some ++ none :: rest).drop (before.length + 1)).take
      after.length = after.map some := by
    simp [List.drop_append, List.take_append]
  rw [hsource, List.take_zero, List.nil_append, Nat.zero_add] at hmove
  obtain ⟨x, rest', hrest⟩ := List.exists_cons_of_length_pos (show 0 <
      (((before ++ '/' :: after).map some ++ none :: rest).drop after.length).length by simp; omega)
  rw [hrest] at hmove
  exact ⟨_, rest', hmove, write_append (by rw [List.length_map])⟩

theorem findRelativeFrom_eq {childpath : Buffer Char} {rounds : Nat} {s : List Char}
    (hrounds : s.length < rounds) (hlen : s.length < childpath.length) (node : Option RamdiskEntry)
    (rest : Buffer Char) :
    ramdisk.findRelativeFrom childpath rounds node (s.map some ++ none :: rest) =
      ramdisk.findNames node (pathNames s) := by
  induction rounds generalizing s node rest with
  | zero => omega
  | succ rounds ih =>
    rw [findRelativeFrom, read_append]
    by_cases hs : s = []
    · subst hs
      rfl
    rw [if_pos (List.length_pos_iff.2 hs)]
    cases hslash : indexOf '/' s 0 with
    | none =>
      rw [PathBuffers.pathNames_eq_nil_or (indexOf_eq_none hslash), if_neg hs, findNames]
      exact (Option.bind_fun_some _).symm
    | some slashIndex =>
      obtain ⟨before, after, rfl, rfl, hmem⟩ := indexOf_eq_some hslash
      rw [List.length_append, List.length_cons] at hrounds hlen
      obtain ⟨moved, rest', hmove, hend⟩ := cut_front before after rest
      have hcut : (before ++ '/' :: after).length - (0 + before.length + 1) = after.length := by
        simp
        omega
      have hrec : ∀ next, ramdisk.findRelativeFrom childpath rounds next
          (after.map some ++ none :: rest') = ramdisk.findNames next (pathNames after) :=
        fun next => ih (by omega) (by omega) next rest'
      rw [pathNames_append_slash, PathBuffers.pathNames_eq_nil_or hmem]
      dsimp only
      rw [hcut, Nat.zero_add]
      by_cases hbefore : before = []
      · subst hbefore
        simp only [bind_eq_bind, List.length_nil, Nat.lt_irrefl, gt_iff_lt, if_false,
          bind_some]
        rw [show copyWithin 0 (0 + 1) after.length _ = some moved from hmove, bind_some, hend,
          bind_some, hrec]
        rfl
      · obtain ⟨copied, rest'', hcopy, hwrite, -⟩ :=
          copy_write (show before.length < childpath.length by omega)
        rw [if_pos (List.length_pos_iff.2 hbefore), if_neg hbefore, List.singleton_append, findNames,
          List.take_left' rfl]
        simp only [bind_eq_bind, hcopy, hwrite, bind_some, read_append]
        refine Option.bind_congr fun next _ => ?_
        rw [hmove, bind_some, hend, bind_some, hrec]

/-- `findAbsolute` returns the entry that the names lead to, or null where one is missing, if and only
if none is missing before the last and the ramdisk is not empty, or there are no names. Otherwise it
follows a null pointer. -/
theorem findAbsolute_eq_iff (ramdisk : Ramdisk) {path : List Char} {buf childpath : Buffer Char}
    (hpath : path.length < ramdiskMaximumPathLength) (hbuf : buf.length = ramdiskMaximumPathLength)
    (hchildpath : childpath.length = ramdiskMaximumPathLength) :
    ramdisk.findAbsolute path buf childpath = some (ramdisk.follow ramdisk.root (pathNames path)) ↔
      ramdisk.OnlyLastMissing ramdisk.root (pathNames path) := by
  obtain ⟨copied, rest, hcopy, hwrite, -⟩ := copy_write (show path.length < buf.length by omega)
  rw [← findNames_eq_iff, findAbsolute, findRelative, hcopy]
  simp only [bind_eq_bind, bind_some, hwrite]
  rw [findRelativeFrom_eq (Nat.lt_succ_self _) (by omega)]

/-- A folder `d` with a file `f` in it. -/
def sample : Ramdisk where
  headers :=
    [{ type := .folder, id := 1, parentid := 0, name := ['d'] },
      { type := .file, id := 2, parentid := 1, name := ['f'] }]
  nextUnusedId := 3

/-- An array that was not written yet. -/
def freshArray : Buffer Char := List.replicate ramdiskMaximumPathLength none

theorem findAbsolute_sample :
    sample.findAbsolute "//d/f/".toList freshArray freshArray =
      some (sample.follow sample.root (pathNames "//d/f/".toList)) :=
  (findAbsolute_eq_iff sample (by decide) List.length_replicate List.length_replicate).2 (by decide)

/-- `f` is looked up below the folder `x` that does not exist. -/
theorem missing_folder_followed :
    ¬ ∀ (ramdisk : Ramdisk) (path : List Char), path.length < ramdiskMaximumPathLength →
      ramdisk.findAbsolute path freshArray freshArray =
        some (ramdisk.follow ramdisk.root (pathNames path)) := by
  intro h
  exact absurd (h sample "/x/f".toList (by decide)) (by decide +kernel)

end Ramdisk

end MeetixOS.Kernel
