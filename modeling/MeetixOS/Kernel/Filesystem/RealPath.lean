import Mathlib.Data.List.TakeWhile
import MeetixOS.Lib.StringBuffer
import MeetixOS.Kernel.Filesystem.Names

/-! # Paths in buffers

`getRealPathToNode`, `concatAsAbsolutePath` and the scanner of `findExisting`, as they move characters in
their buffers. Each leaves the string behind, or reaches the node, that it does on strings
(`FileSystem`), as long as the buffers hold what is written.

A path built for a node leads back to it (`real_paths_resolve`), with two exceptions: an empty path stays
empty, which leads to the root, and `getRealPathToNode` stops at every node of type `FS_NODE_TYPE_ROOT`. -/

open Option (bind_eq_bind bind_some)
open List (append_assoc append_nil length_append length_cons length_map length_nil length_take
  nil_append)

namespace MeetixOS.Kernel

open MeetixOS.Lib MeetixOS.Lib.StringBuffer

namespace PathBuffers

/-! ## The functions on buffers -/

/-- The loop of `getRealPathToNode`, with `absLen` characters in `out` so far. -/
def realPathWithin (fs : FileSystem) :
    (depth : Nat) → (current absLen : Nat) → Buffer Char → Option (Nat × Buffer Char)
  | 0, _, absLen, out => some (absLen, out)
  | depth + 1, current, absLen, out =>
    match fs.nodes.get current with
    | none => some (absLen, out)
    | some node =>
      if node.type = .root then some (absLen, out)
      else
        match node.name with
        | none => some (absLen, out)
        | some name =>
          let nameLen := name.length
          if absLen + nameLen + 1 > pathMax then some (absLen, out)
          else do
            let out ← shift (nameLen + 1) absLen out
            let out ← write out nameLen (some '/')
            let out ← copy name 0 out
            match node.parent with
            | none => some (absLen + nameLen + 1, out)
            | some parent => realPathWithin fs depth parent (absLen + nameLen + 1) out

/-- `FileSystem::getRealPathToNode`. -/
def getRealPathToNode (fs : FileSystem) (node : Nat) (out : Buffer Char) : Option (Buffer Char) := do
  let (absLen, out) ← realPathWithin fs (node + 1) node 0 out
  let out ← shift 1 absLen out
  let out ← write out 0 (some '/')
  write out (absLen + 1) none

/-- `FileSystem::concatAsAbsolutePath`. -/
def concatAsAbsolutePath (relativeBase input : List Char) (out : Buffer Char) :
    Option (Buffer Char) :=
  let lenIn := input.length
  if lenIn = 0 then write out 0 none
  else if input.head? = some '/' then do
    let out ← copy input 0 out
    write out lenIn none
  else do
    let lenCwd := relativeBase.length
    let lenSep := 1
    let out ← copy relativeBase 0 out
    let out ← copy ['/'] lenCwd out
    let out ← copy input (lenCwd + lenSep) out
    write out (lenCwd + lenIn + lenSep) none

/-- `while ( *abspos != 0 && *abspos != '/' )`: the first name goes to `nameCurrent`. -/
def copyName : (abspos : List Char) → (curlen : Nat) → Buffer Char →
    Option (List Char × Nat × Buffer Char)
  | [], curlen, nameCurrent => some ([], curlen, nameCurrent)
  | c :: abspos, curlen, nameCurrent =>
    if c = '/' then some (c :: abspos, curlen, nameCurrent)
    else do copyName abspos (curlen + 1) (← write nameCurrent curlen (some c))

/-- The loop of `findExisting`; every round but the last takes a character of the path. -/
def findExistingFrom (fs : FileSystem) :
    (rounds : Nat) → (abspos : List Char) → (child : Nat) → Buffer Char → Option Existing
  | 0, _, _, _ => none
  | rounds + 1, abspos, child, nameCurrent => do
      let parent := child
      let (abspos, curlen, nameCurrent) ← copyName (abspos.dropWhile (· = '/')) 0 nameCurrent
      let nameCurrent ← write nameCurrent curlen none
      if curlen = 0 then some { parent, child := some child, nameCurrent := read nameCurrent }
      else if read nameCurrent = dotDot then
        findExistingFrom fs rounds abspos ((fs.parentOf parent).getD child) nameCurrent
      else if read nameCurrent = dot then findExistingFrom fs rounds abspos child nameCurrent
      else
        match fs.findChild parent (read nameCurrent) with
        | none => some { parent, child := none, nameCurrent := read nameCurrent }
        | some child => findExistingFrom fs rounds abspos child nameCurrent

/-- `FileSystem::findExisting`. -/
def findExisting (fs : FileSystem) (absolutePath : List Char) (nameCurrent : Buffer Char) :
    Option Existing :=
  findExistingFrom fs (absolutePath.length + 1) absolutePath fs.root nameCurrent

/-! ## The scanner -/

variable {abspos name s : List Char} {rest : Buffer Char}

theorem copyName_append {before middle : Buffer Char} {curlen : Nat}
    (hi : curlen = before.length) (hlen : middle.length = (abspos.takeWhile (· ≠ '/')).length)
    (after : Buffer Char) :
    copyName abspos curlen (before ++ (middle ++ after)) =
      some (abspos.dropWhile (· ≠ '/'), curlen + (abspos.takeWhile (· ≠ '/')).length,
        before ++ ((abspos.takeWhile (· ≠ '/')).map some ++ after)) := by
  induction abspos generalizing before middle curlen with
  | nil =>
    rw [List.takeWhile_nil, length_nil, List.length_eq_zero_iff] at hlen
    rw [hlen]
    rfl
  | cons c abspos ih =>
    by_cases hc : c = '/'
    · rw [List.takeWhile_cons_of_neg (by simpa using hc), length_nil,
        List.length_eq_zero_iff] at hlen
      rw [copyName, if_pos hc, hlen, List.takeWhile_cons_of_neg (by simpa using hc),
        List.dropWhile_cons_of_neg (by simpa using hc)]
      rfl
    · rw [List.takeWhile_cons_of_pos (by simpa using hc)] at hlen
      obtain ⟨x, middle, rfl⟩ := List.exists_cons_of_length_eq_add_one hlen
      rw [copyName, if_neg hc, List.cons_append, write_append hi, bind_eq_bind,
        bind_some, List.takeWhile_cons_of_pos (by simpa using hc),
        List.dropWhile_cons_of_pos (by simpa using hc)]
      have hbefore : curlen + 1 = (before ++ [some c]).length := by rw [hi, length_append]; rfl
      have hrec := ih hbefore (Nat.succ.inj hlen)
      simpa [Nat.add_assoc, Nat.add_comm 1] using hrec

theorem pathNames_slash (path : List Char) : pathNames ('/' :: path) = pathNames path := by
  have h := pathNames_append_slash [] path
  rwa [nil_append, pathNames_nil, nil_append] at h

theorem pathNames_dropWhile (path : List Char) :
    pathNames (path.dropWhile (· = '/')) = pathNames path := by
  induction path with
  | nil => rfl
  | cons c path ih =>
    by_cases hc : c = '/'
    · rw [List.dropWhile_cons_of_pos (by simpa using hc), ih, hc, pathNames_slash]
    · rw [List.dropWhile_cons_of_neg (by simpa using hc)]

theorem pathNames_takeWhile (path : List Char) :
    pathNames path = pathNames (path.takeWhile (· ≠ '/')) ++ pathNames (path.dropWhile (· ≠ '/')) := by
  have hpath := List.takeWhile_append_dropWhile (p := (· ≠ '/')) (l := path)
  cases hrest : path.dropWhile (· ≠ '/') with
  | nil =>
    rw [hrest, append_nil] at hpath
    rw [pathNames_nil, append_nil, hpath]
  | cons c rest =>
    have hc : c = '/' := by
      have hhead := List.head?_dropWhile_not (· ≠ '/') path
      rw [hrest] at hhead
      simpa using hhead
    rw [hrest, hc] at hpath
    rw [hc, pathNames_slash, ← pathNames_append_slash, hpath]

theorem pathNames_eq_nil_or (h : '/' ∉ name) :
    pathNames name = if name = [] then [] else [name] := by
  rw [pathNames, List.splitOn_eq_singleton h]
  split <;> simp_all

variable {nameCurrent out : Buffer Char}

theorem copyName_write (abspos : List Char)
    (h : (abspos.takeWhile (· ≠ '/')).length < nameCurrent.length) :
    ∃ copied nameCurrent',
      copyName abspos 0 nameCurrent =
        some (abspos.dropWhile (· ≠ '/'), (abspos.takeWhile (· ≠ '/')).length, copied) ∧
      write copied (abspos.takeWhile (· ≠ '/')).length none = some nameCurrent' ∧
      nameCurrent'.length = nameCurrent.length ∧ read nameCurrent' = abspos.takeWhile (· ≠ '/') := by
  have hsplit := List.take_append_drop (abspos.takeWhile (· ≠ '/')).length nameCurrent
  obtain ⟨x, rest, hrest⟩ := List.exists_cons_of_length_pos
    (show 0 < (nameCurrent.drop (abspos.takeWhile (· ≠ '/')).length).length by
      rw [List.length_drop]; omega)
  have hmiddle : (nameCurrent.take (abspos.takeWhile (· ≠ '/')).length).length =
      (abspos.takeWhile (· ≠ '/')).length := by
    rw [length_take]
    omega
  have hcopy := copyName_append (show 0 = ([] : Buffer Char).length from rfl) hmiddle
    (nameCurrent.drop (abspos.takeWhile (· ≠ '/')).length)
  rw [nil_append, nil_append, hsplit, Nat.zero_add, hrest] at hcopy
  refine ⟨_, _, hcopy, write_append (by rw [length_map]), ?_, read_append _ _⟩
  rw [← hsplit, hrest, length_append, length_append, length_map, length_take,
    length_cons, length_cons]
  omega

theorem findExistingFrom_eq (fs : FileSystem) {rounds : Nat} (child : Nat)
    (hrounds : abspos.length < rounds) (hlen : abspos.length < nameCurrent.length) :
    findExistingFrom fs rounds abspos child nameCurrent =
      some (fs.findExistingFrom child (pathNames abspos)) := by
  induction rounds generalizing abspos child nameCurrent with
  | zero => omega
  | succ rounds ih =>
    have hnames := pathNames_takeWhile (abspos.dropWhile (· = '/'))
    rw [pathNames_dropWhile] at hnames
    have hdrop := (List.dropWhile_sublist (l := abspos) (· = '/')).length_le
    have hhead := List.head?_dropWhile_not (· = '/') abspos
    rw [findExistingFrom]
    generalize abspos.dropWhile (· = '/') = path at hnames hdrop hhead ⊢
    have hparts := congrArg List.length (List.takeWhile_append_dropWhile (p := (· ≠ '/')) (l := path))
    rw [length_append] at hparts
    have hslash : '/' ∉ path.takeWhile (· ≠ '/') := fun hmem => by
      simpa using List.mem_takeWhile_imp hmem
    rw [pathNames_eq_nil_or hslash] at hnames
    obtain ⟨copied, current, hcopy, hwrite, hlength, hread⟩ :=
      copyName_write path (show (path.takeWhile (· ≠ '/')).length < nameCurrent.length by omega)
    simp only [bind_eq_bind, hcopy, hwrite, hread, bind_some]
    cases hname : path.takeWhile (· ≠ '/') with
    | nil =>
      -- nothing is left but slashes
      cases path with
      | nil =>
        rw [hnames]
        rfl
      | cons c path =>
        have hc : c ≠ '/' := by simpa using hhead
        rw [List.takeWhile_cons_of_pos (by simpa using hc)] at hname
        cases hname
    | cons c name =>
      rw [hname] at hnames hparts
      rw [if_neg (List.cons_ne_nil c name), List.singleton_append] at hnames
      rw [hnames, FileSystem.findExistingFrom, if_neg (by simp)]
      rw [length_cons] at hparts
      have hrec : ∀ next, findExistingFrom fs rounds (path.dropWhile (· ≠ '/')) next current =
          some (fs.findExistingFrom next (pathNames (path.dropWhile (· ≠ '/')))) := fun next =>
        ih next (by omega) (by omega)
      split
      next => exact hrec _
      next =>
        split
        next => exact hrec _
        next =>
          cases fs.findChild child (c :: name) with
          | none => rfl
          | some next => exact hrec next

theorem findExisting_eq (fs : FileSystem) {absolutePath : List Char}
    (h : absolutePath.length < nameCurrent.length) :
    findExisting fs absolutePath nameCurrent = some (fs.findExisting absolutePath) :=
  findExistingFrom_eq fs fs.root (Nat.lt_succ_self _) h

/-! ## The path that is built backwards -/

theorem put_name (h : name.length + 2 ≤ rest.length) :
    ∃ moved slashed rest',
      shift (name.length + 1) s.length (s.map some ++ rest) = some moved ∧
      write moved name.length (some '/') = some slashed ∧
      copy name 0 slashed = some ((name ++ '/' :: s).map some ++ rest') ∧
      rest'.length + name.length + 1 = rest.length := by
  have hroom : s.length + 1 + (name.length + 1) ≤ (s.map some ++ rest).length := by
    rw [length_append, length_map]
    omega
  have hshift := shift_eq hroom
  -- the cells that the shift leaves behind are overwritten by the name and the slash
  have hfront : ((s.map some ++ rest).take (name.length + 1)).length = name.length + 1 := by
    rw [length_take, length_append]
    omega
  generalize (s.map some ++ rest).take (name.length + 1) = front at hshift hfront
  obtain ⟨front, x, rfl⟩ := (List.eq_nil_or_concat' front).resolve_left (by rintro rfl; cases hfront)
  have hlen : front.length = name.length := by simpa using hfront
  obtain ⟨tail, htail, htailLen⟩ : ∃ tail : Buffer Char,
      (s.map some ++ rest).take (s.length + 1) ++
        (s.map some ++ rest).drop (s.length + 1 + (name.length + 1)) = s.map some ++ tail ∧
      tail.length + name.length + 1 = rest.length := by
    refine ⟨rest.take 1 ++ rest.drop (name.length + 2), ?_, ?_⟩
    · rw [List.take_append, List.drop_append, length_map, Nat.add_sub_cancel_left,
        List.take_of_length_le (by simp), List.drop_eq_nil_of_le (by simp; omega), nil_append,
        append_assoc]
      congr 3
      omega
    · rw [length_append, length_take, List.length_drop]
      omega
  rw [htail, append_assoc, List.singleton_append] at hshift
  have hcopy : copy name 0 ([] ++ (front ++ some '/' :: (s.map some ++ tail))) = _ :=
    copy_append rfl hlen
  refine ⟨_, _, tail, hshift, write_append hlen.symm, ?_, htailLen⟩
  rw [nil_append] at hcopy
  rw [hcopy, List.map_append, List.map_cons, append_assoc, List.cons_append]
  rfl

theorem realPathWithin_length_le (fs : FileSystem) (depth current : Nat) (s : List Char) :
    s.length ≤ (fs.realPathWithin depth current s).length := by
  induction depth generalizing current s with
  | zero => exact Nat.le_refl _
  | succ depth ih =>
    rw [FileSystem.realPathWithin]
    split
    next => exact Nat.le_refl _
    next node _ =>
      split
      next => exact Nat.le_refl _
      next =>
        split
        next => exact Nat.le_refl _
        next name _ =>
          have hput : s.length ≤ (name ++ '/' :: s).length := by simp; omega
          split
          next => exact Nat.le_refl _
          next =>
            split
            next => exact hput
            next parent _ => exact Nat.le_trans hput (ih parent _)

theorem realPathWithin_eq (fs : FileSystem) {depth current : Nat}
    (h : (fs.realPathWithin depth current s).length + 2 ≤ s.length + rest.length) :
    ∃ rest', realPathWithin fs depth current s.length (s.map some ++ rest) =
        some ((fs.realPathWithin depth current s).length,
          (fs.realPathWithin depth current s).map some ++ rest') ∧
      (fs.realPathWithin depth current s).length + rest'.length = s.length + rest.length := by
  induction depth generalizing current s rest with
  | zero => exact ⟨rest, rfl, rfl⟩
  | succ depth ih =>
    rw [FileSystem.realPathWithin] at h ⊢
    rw [realPathWithin]
    cases hnode : fs.nodes.get current with
    | none => exact ⟨rest, rfl, rfl⟩
    | some node =>
      rw [hnode] at h
      dsimp only at h ⊢
      split
      next => exact ⟨rest, rfl, rfl⟩
      next htype =>
        rw [if_neg htype] at h
        cases hname : node.name with
        | none => exact ⟨rest, rfl, rfl⟩
        | some name =>
          rw [hname] at h
          dsimp only at h ⊢
          split
          next => exact ⟨rest, rfl, rfl⟩
          next hmax =>
            rw [if_neg hmax] at h
            have hput : (name ++ '/' :: s).length = s.length + name.length + 1 := by simp; omega
            have hroom : name.length + 2 ≤ rest.length := by
              cases hparent : node.parent with
              | none =>
                rw [hparent] at h
                dsimp only at h
                omega
              | some parent =>
                rw [hparent] at h
                have := realPathWithin_length_le fs depth parent (name ++ '/' :: s)
                dsimp only at h
                omega
            obtain ⟨moved, slashed, rest1, hshift, hwrite, hcopy, hrest1⟩ := put_name (s := s) hroom
            simp only [bind_eq_bind, hshift, hwrite, hcopy, bind_some, ← hput]
            cases hparent : node.parent with
            | none => exact ⟨rest1, rfl, by dsimp only; omega⟩
            | some parent =>
              rw [hparent] at h
              dsimp only at h ⊢
              have hfits : (fs.realPathWithin depth parent (name ++ '/' :: s)).length + 2 ≤
                  (name ++ '/' :: s).length + rest1.length := by omega
              obtain ⟨rest2, hrec, hlen⟩ := ih hfits
              exact ⟨rest2, hrec, by omega⟩

theorem getRealPathToNode_eq (fs : FileSystem) (node : Nat)
    (h : (fs.getRealPathToNode node).length + 1 ≤ out.length) :
    ∃ out', getRealPathToNode fs node out = some out' ∧ out'.length = out.length ∧
      read out' = fs.getRealPathToNode node := by
  rw [FileSystem.getRealPathToNode, length_cons] at h
  have hstart : (fs.realPathWithin (node + 1) node []).length + 2 ≤ ([] : List Char).length + out.length := by
    rw [length_nil, Nat.zero_add]
    exact h
  obtain ⟨rest, hloop, hlen⟩ := realPathWithin_eq fs hstart
  simp only [length_nil, List.map_nil, nil_append, Nat.zero_add] at hloop hlen
  rw [getRealPathToNode, hloop, FileSystem.getRealPathToNode]
  generalize fs.realPathWithin (node + 1) node [] = s at h hlen ⊢
  -- the final slash is put in front as a name without characters would be
  have hroom : ([] : List Char).length + 2 ≤ rest.length := by
    rw [length_nil]
    omega
  obtain ⟨moved, slashed, rest', hshift, hwrite, hcopy, hrest'⟩ := put_name hroom
  rw [copy, Option.some.injEq] at hcopy
  obtain ⟨x, rest', rfl⟩ := List.exists_cons_of_length_pos (show 0 < rest'.length by
    omega)
  have hend : write slashed (s.length + 1) none = some (('/' :: s).map some ++ none :: rest') := by
    rw [hcopy, nil_append]
    exact write_append (by rw [length_map, length_cons])
  refine ⟨('/' :: s).map some ++ none :: rest', ?_, ?_, read_append _ _⟩
  · simp only [bind_eq_bind, bind_some]
    rw [show shift 1 s.length (s.map some ++ rest) = some moved from hshift, bind_some,
      show write moved 0 (some '/') = some slashed from hwrite, bind_some]
    exact hend
  · simp at hrest' ⊢
    omega

theorem exists_pieces {n : Nat} (h : n ≤ out.length) :
    ∃ front rest, out = front ++ rest ∧ front.length = n ∧ rest.length = out.length - n :=
  ⟨out.take n, out.drop n, (List.take_append_drop n out).symm, by rw [length_take]; omega,
    List.length_drop⟩

theorem concatAsAbsolutePath_eq {relativeBase input : List Char}
    (h : relativeBase.length + input.length + 2 ≤ out.length) :
    ∃ out', concatAsAbsolutePath relativeBase input out = some out' ∧
      read out' = Kernel.concatAsAbsolutePath relativeBase input := by
  rw [concatAsAbsolutePath]
  cases input with
  | nil =>
    obtain ⟨x, rest, rfl⟩ := List.exists_cons_of_length_pos (show 0 < out.length by omega)
    have hwrite : write ([] ++ x :: rest) 0 none = _ := write_append rfl
    exact ⟨none :: rest, hwrite, rfl⟩
  | cons c input =>
    rw [length_cons] at h
    rw [if_neg (by simp)]
    by_cases hc : c = '/'
    · subst hc
      obtain ⟨front, rest, rfl, hfront, hrest⟩ := exists_pieces (n := input.length + 1)
        (show _ ≤ out.length by omega)
      obtain ⟨x, rest, rfl⟩ := List.exists_cons_of_length_pos (show 0 < rest.length by omega)
      have hcopy : copy ('/' :: input) 0 ([] ++ (front ++ x :: rest)) = _ := copy_append rfl hfront
      rw [nil_append, nil_append] at hcopy
      refine ⟨('/' :: input).map some ++ none :: rest, ?_, read_append _ _⟩
      rw [List.head?_cons, if_pos rfl, hcopy]
      exact write_append (by rw [length_map])
    · obtain ⟨front, rest, rfl, hfront, hrest⟩ := exists_pieces (n := relativeBase.length)
        (show _ ≤ out.length by omega)
      obtain ⟨x, rest, rfl⟩ := List.exists_cons_of_length_pos (show 0 < rest.length by omega)
      rw [length_append, hfront, length_cons] at h
      obtain ⟨middle, rest, rfl, hmiddle, hrest⟩ := exists_pieces (n := input.length + 1)
        (show _ ≤ rest.length by omega)
      obtain ⟨y, rest, rfl⟩ := List.exists_cons_of_length_pos (show 0 < rest.length by omega)
      have hbase : copy relativeBase 0 ([] ++ (front ++ x :: (middle ++ y :: rest))) = _ :=
        copy_append rfl hfront
      have hslash : copy ['/'] relativeBase.length
          (relativeBase.map some ++ ([x] ++ (middle ++ y :: rest))) = _ :=
        copy_append (by rw [length_map]) rfl
      have hinput : copy (c :: input) (relativeBase.length + 1)
          ((relativeBase ++ ['/']).map some ++ (middle ++ y :: rest)) = _ :=
        copy_append (by simp) hmiddle
      refine ⟨(relativeBase ++ '/' :: c :: input).map some ++ none :: rest, ?_, ?_⟩
      · rw [nil_append, nil_append] at hbase
        rw [List.head?_cons, if_neg (by simpa using hc), hbase]
        simp only [bind_eq_bind, bind_some]
        rw [List.singleton_append] at hslash
        rw [hslash, bind_some]
        rw [List.map_append, append_assoc] at hinput
        rw [hinput, bind_some]
        have hend : write ((relativeBase ++ '/' :: c :: input).map some ++ y :: rest)
            (relativeBase.length + (c :: input).length + 1) none = _ :=
          write_append (by simp; omega)
        simpa using hend
      · rw [read_append, Kernel.concatAsAbsolutePath]
        · exact List.cons_ne_nil c input
        · rintro rest' heq
          exact hc (List.cons.inj heq).1

/-! ## The path of a node -/

theorem slash_flatMap (names : List (List Char)) :
    '/' :: names.flatMap (· ++ ['/']) = names.flatMap ('/' :: ·) ++ ['/'] := by
  induction names with
  | nil => rfl
  | cons name names ih =>
    rw [List.flatMap_cons, List.flatMap_cons, append_assoc, append_assoc, ← ih]
    rfl

end PathBuffers

namespace FileSystem

variable {fs : FileSystem} {id : Nat}

/-- The root, and no other node from `id` upwards, has the type of a root. -/
def RootTyped (fs : FileSystem) (id : Nat) : Prop :=
  ∀ m, Relation.ReflTransGen (fun child parent => fs.parentOf child = some parent) id m →
    (fs.typeOf m = some .root ↔ m = fs.root)

theorem rootTyped_of_le (ht : fs.Tree) (h : ∀ m ≤ id, fs.typeOf m = some .root ↔ m = fs.root) :
    fs.RootTyped id := by
  intro m hm
  refine h m ?_
  induction hm with
  | refl => exact Nat.le_refl id
  | tail _ hp ih => exact Nat.le_trans (Nat.le_of_lt (ht.of_parentOf hp).1) ih

/-- The path of the node fits into `PATH_MAX` characters, with the slash and the zero at its end. -/
def PathFits (fs : FileSystem) (id : Nat) : Prop := (fs.ownPath id).length + 2 ≤ pathMax

instance (fs : FileSystem) (id : Nat) : Decidable (fs.PathFits id) :=
  inferInstanceAs (Decidable (_ ≤ _))

theorem realPathWithin_ownNames (ht : fs.Tree) (hn : fs.Named) {depth : Nat} {s : List Char}
    (hdepth : id < depth) (hid : fs.Has id) (hnamed : fs.RootOrNamed id) (htyped : fs.RootTyped id)
    (hlen : ((fs.ownNames id).flatMap (· ++ ['/'])).length + s.length ≤ pathMax) :
    fs.realPathWithin depth id s = (fs.ownNames id).flatMap (· ++ ['/']) ++ s := by
  induction depth generalizing id s with
  | zero => omega
  | succ depth ih =>
    obtain ⟨node, hnode⟩ := Option.isSome_iff_exists.1 hid
    have htype := htyped id .refl
    rw [typeOf, hnode, Option.map_some, Option.some.injEq] at htype
    rw [realPathWithin, hnode]
    dsimp only
    by_cases hroot : id = fs.root
    · rw [if_pos (htype.2 hroot), hroot, ownNames_root ht, List.flatMap_nil, nil_append]
    · obtain ⟨p, n, hlt, hpmem, hpnamed, -, hfind, hnames⟩ := hn.exists_parent ht hid hroot hnamed
      obtain ⟨hmem, hname⟩ := findChild_spec hfind
      have hparent := (ht.child p id hmem).2
      rw [nameOf, hnode, bind_some] at hname
      rw [parentOf, hnode, bind_some] at hparent
      rw [hnames, List.flatMap_append, length_append, List.flatMap_singleton,
        length_append, List.length_singleton] at hlen
      rw [if_neg (fun h => hroot (htype.1 h)), hname]
      dsimp only
      rw [if_neg (by omega), hparent]
      dsimp only
      rw [ih (by omega) hpmem hpnamed (fun m hm => htyped m (.head (ht.child p id hmem).2 hm))
        (by rw [length_append, length_cons]; omega), hnames, List.flatMap_append,
        List.flatMap_singleton, append_assoc, append_assoc, List.singleton_append]

theorem realPathOk_of_fits (ht : fs.Tree) (hn : fs.Named) (hid : fs.Has id)
    (hnamed : fs.RootOrNamed id) (htyped : fs.RootTyped id) (hfits : fs.PathFits id) :
    fs.RealPathOk id := by
  have hslash := PathBuffers.slash_flatMap (fs.ownNames id)
  have hlen := congrArg List.length hslash
  rw [length_cons, length_append, List.length_singleton] at hlen
  rw [PathFits, ownPath] at hfits
  rw [RealPathOk, getRealPathToNode, realPathWithin_ownNames ht hn (Nat.lt_succ_self id) hid hnamed htyped
    (by rw [length_nil]; omega), append_nil, hslash, ownPath]

/-! ## Walks -/

/-- One name after the other is followed: `.` stays, `..` goes to the parent and stays at the root, and
any other name goes to the child that has it. -/
inductive Walk (fs : FileSystem) : Nat → List (List Char) → Nat → Prop
  | here (n : Nat) : Walk fs n [] n
  | dot {n m : Nat} {names : List (List Char)} (h : Walk fs n names m) : Walk fs n (dot :: names) m
  | up {n p m : Nat} {names : List (List Char)} (hp : fs.parentOf n = some p) (h : Walk fs p names m) :
      Walk fs n (dotDot :: names) m
  | root {n m : Nat} {names : List (List Char)} (hp : fs.parentOf n = none) (h : Walk fs n names m) :
      Walk fs n (dotDot :: names) m
  | down {n c m : Nat} {name : List Char} {names : List (List Char)} (hdot : name ≠ Kernel.dot)
      (hdots : name ≠ dotDot) (hc : c ∈ fs.childrenOf n) (hname : fs.nameOf c = some name)
      (h : Walk fs c names m) : Walk fs n (name :: names) m

theorem Named.findChild_iff (hn : fs.Named) {n c : Nat} {name : List Char} :
    fs.findChild n name = some c ↔ c ∈ fs.childrenOf n ∧ fs.nameOf c = some name :=
  ⟨findChild_spec, fun ⟨hc, hname⟩ => find?_of_nodup_filterMap (hn.distinct n) hc hname⟩

theorem findExistingFrom_iff_walk (hn : fs.Named) {n m : Nat} {names : List (List Char)} :
    (fs.findExistingFrom n names).child = some m ↔ fs.Walk n names m := by
  induction names generalizing n with
  | nil =>
    constructor
    · intro h
      cases h
      exact .here _
    · intro h
      cases h
      rfl
  | cons name names ih =>
    rw [findExistingFrom]
    split
    next hdots =>
      subst hdots
      rw [ih]
      constructor
      · intro h
        cases hp : fs.parentOf n with
        | none => exact .root hp (by rwa [hp] at h)
        | some p => exact .up hp (by rwa [hp] at h)
      · intro h
        cases h with
        | up hp h | root hp h => rwa [hp]
        | down _ hdots => exact absurd rfl hdots
    next hdots =>
      split
      next hdot =>
        subst hdot
        rw [ih]
        refine ⟨.dot, fun h => ?_⟩
        cases h with
        | dot h => exact h
        | down hdot => exact absurd rfl hdot
      next hdot =>
        constructor
        · intro h
          cases hfind : fs.findChild n name with
          | none =>
            rw [hfind] at h
            cases h
          | some c =>
            rw [hfind] at h
            obtain ⟨hc, hname⟩ := findChild_spec hfind
            exact .down hdot hdots hc hname (ih.1 h)
        · intro h
          cases h with
          | dot => exact absurd rfl hdot
          | up | root => exact absurd rfl hdots
          | down _ _ hc hname h =>
            rw [hn.findChild_iff.2 ⟨hc, hname⟩]
            exact ih.2 h

/-! ## Round trips -/

/-- In buffers of `PATH_MAX` characters, `findExisting` finds the node through the path that
`getRealPathToNode` writes. -/
def FoundByRealPath (fs : FileSystem) (id : Nat) : Prop :=
  ∀ out nameCurrent : Buffer Char, pathMax ≤ out.length → pathMax ≤ nameCurrent.length →
    ∃ out' existing, PathBuffers.getRealPathToNode fs id out = some out' ∧
      PathBuffers.findExisting fs (read out') nameCurrent = some existing ∧ existing.child = some id

/-- In buffers that hold the joined path, `findExisting` finds what the walk along `path` reaches. -/
def ResolvesFrom (fs : FileSystem) (id : Nat) (path : List Char) : Prop :=
  ∀ out absolute nameCurrent : Buffer Char, pathMax ≤ out.length →
    pathMax + path.length < absolute.length → pathMax + path.length < nameCurrent.length →
    ∃ out' absolute' existing, PathBuffers.getRealPathToNode fs id out = some out' ∧
      PathBuffers.concatAsAbsolutePath (read out') path absolute = some absolute' ∧
      PathBuffers.findExisting fs (read absolute') nameCurrent = some existing ∧
      ∀ m, existing.child = some m ↔ fs.Walk id (pathNames path) m

theorem length_getRealPathToNode_lt (hpath : fs.RealPathOk id) (hfits : fs.PathFits id) :
    (fs.getRealPathToNode id).length + 1 ≤ pathMax := by
  rw [hpath, length_append, List.length_singleton]
  exact hfits

section

variable (ht : fs.Tree) (hn : fs.Named) (hid : fs.Has id) (hnamed : fs.RootOrNamed id)
  (htyped : fs.RootTyped id) (hfits : fs.PathFits id)
include ht hn hid hnamed htyped hfits

theorem foundByRealPath : fs.FoundByRealPath id := by
  intro out nameCurrent hout hcurrent
  have hpath := realPathOk_of_fits ht hn hid hnamed htyped hfits
  have hlen := length_getRealPathToNode_lt hpath hfits
  obtain ⟨out', hreal, -, hread⟩ := PathBuffers.getRealPathToNode_eq fs id (Nat.le_trans hlen hout)
  refine ⟨out', _, hreal, PathBuffers.findExisting_eq fs (by rw [hread]; omega), ?_⟩
  obtain ⟨hfound, hall⟩ := hn.found ht hid hnamed
  rw [hread, hpath, findExisting, pathNames_append_slash, ownPath, pathNames_flatMap hall, pathNames_nil,
    append_nil]
  exact hfound

theorem resolvesFrom {path : List Char} (hne : path ≠ []) (hrelative : path.head? ≠ some '/') :
    fs.ResolvesFrom id path := by
  intro out absolute nameCurrent hout habsolute hcurrent
  have hpath := realPathOk_of_fits ht hn hid hnamed htyped hfits
  have hlen := length_getRealPathToNode_lt hpath hfits
  obtain ⟨out', hreal, -, hread⟩ := PathBuffers.getRealPathToNode_eq fs id (Nat.le_trans hlen hout)
  have hroom : (read out').length + path.length + 2 ≤ absolute.length := by
    rw [hread]
    omega
  obtain ⟨absolute', hconcat, hjoined⟩ := PathBuffers.concatAsAbsolutePath_eq hroom
  have hjoin : concatAsAbsolutePath (read out') path = read out' ++ '/' :: path := by
    rw [concatAsAbsolutePath]
    · exact hne
    · rintro rest rfl
      exact hrelative rfl
  rw [hjoin] at hjoined
  refine ⟨out', absolute', _, hreal, hconcat, PathBuffers.findExisting_eq fs ?_, fun m => ?_⟩
  · rw [hjoined, length_append, length_cons, hread]
    omega
  · obtain ⟨hfound, hall⟩ := hn.found ht hid hnamed
    rw [hjoined, hread, hpath, findExisting, pathNames_append_slash, pathNames_append_slash, ownPath,
      pathNames_flatMap hall, pathNames_nil, append_nil, findExistingFrom_append hfound,
      findExistingFrom_iff_walk hn]

end

/-- A node is found through its real path, and a relative path behind it is walked from the node. -/
theorem real_paths_resolve (fs : FileSystem) (ht : fs.Tree) (hn : fs.Named) :
    (∀ n, fs.Has n → fs.RootOrNamed n → fs.RootTyped n → fs.PathFits n → fs.FoundByRealPath n) ∧
      ∀ d path, fs.Has d → fs.RootOrNamed d → fs.RootTyped d → fs.PathFits d → path ≠ [] →
        path.head? ≠ some '/' → fs.ResolvesFrom d path :=
  ⟨fun _ hid hnamed htyped hfits => foundByRealPath ht hn hid hnamed htyped hfits,
    fun _ _ hid hnamed htyped hfits hne hrelative =>
      resolvesFrom ht hn hid hnamed htyped hfits hne hrelative⟩

theorem real_paths_resolve_initially :
    initialResources.FoundByRealPath 2 ∧
      initialResources.ResolvesFrom 1 "../mount/./ramdisk".toList := by
  obtain ⟨ht, hn⟩ := initialResources_tree
  obtain ⟨hfound, hresolves⟩ := real_paths_resolve initialResources ht hn
  exact ⟨hfound 2 (by decide +kernel) (by decide +kernel) (rootTyped_of_le ht (by decide +kernel))
      (by decide +kernel),
    hresolves 1 _ (by decide +kernel) (by decide +kernel) (rootTyped_of_le ht (by decide +kernel))
      (by decide +kernel) (by decide) (by decide)⟩

theorem FoundByRealPath.child_eq (h : fs.FoundByRealPath id)
    (hlen : (fs.getRealPathToNode id).length + 1 ≤ pathMax) :
    (fs.findExisting (fs.getRealPathToNode id)).child = some id := by
  have hbuffer : pathMax ≤ (List.replicate pathMax none : Buffer Char).length :=
    Nat.le_of_eq List.length_replicate.symm
  obtain ⟨out1, existing, hreal1, hexisting, hchild⟩ := h _ _ hbuffer hbuffer
  obtain ⟨out2, hreal2, -, hread⟩ :=
    PathBuffers.getRealPathToNode_eq fs id (Nat.le_trans hlen hbuffer)
  obtain rfl := Option.mem_unique hreal1 hreal2
  rw [hread, PathBuffers.findExisting_eq fs (Nat.lt_of_lt_of_le hlen hbuffer),
    Option.some.injEq] at hexisting
  rw [hexisting, hchild]

theorem length_concatAsAbsolutePath_le (relativeBase input : List Char) :
    (concatAsAbsolutePath relativeBase input).length ≤ relativeBase.length + input.length + 1 := by
  unfold concatAsAbsolutePath
  split
  · exact Nat.zero_le _
  · omega
  · rw [length_append, length_cons]
    omega

theorem ResolvesFrom.child_iff {path : List Char} (h : fs.ResolvesFrom id path)
    (hlen : (fs.getRealPathToNode id).length + 1 ≤ pathMax) (m : Nat) :
    (fs.findExisting (concatAsAbsolutePath (fs.getRealPathToNode id) path)).child = some m ↔
      fs.Walk id (pathNames path) m := by
  have hbuffer : pathMax ≤ (List.replicate pathMax none : Buffer Char).length :=
    Nat.le_of_eq List.length_replicate.symm
  have hlarge : pathMax + path.length <
      (List.replicate (pathMax + path.length + 1) none : Buffer Char).length :=
    Nat.lt_of_lt_of_eq (Nat.lt_succ_self _) List.length_replicate.symm
  obtain ⟨out1, absolute1, existing, hreal1, hconcat1, hexisting, hwalk⟩ := h _ _ _ hbuffer hlarge hlarge
  obtain ⟨out2, hreal2, -, hread⟩ :=
    PathBuffers.getRealPathToNode_eq fs id (Nat.le_trans hlen hbuffer)
  obtain rfl := Option.mem_unique hreal1 hreal2
  have hroom : (read out1).length + path.length + 2 ≤
      (List.replicate (pathMax + path.length + 1) none : Buffer Char).length := by
    rw [hread]
    omega
  obtain ⟨absolute2, hconcat2, hjoined⟩ := PathBuffers.concatAsAbsolutePath_eq hroom
  obtain rfl := Option.mem_unique hconcat1 hconcat2
  have hlength := length_concatAsAbsolutePath_le (read out1) path
  rw [PathBuffers.findExisting_eq fs (by rw [hjoined]; omega), Option.some.injEq, hjoined,
    hread] at hexisting
  rw [hexisting, hwalk]

/-- A driver's node of type `FS_NODE_TYPE_ROOT` below the root. -/
def secondRoot : FileSystem := initialResources.fsCreateNode 0 ['x'] .root 0

theorem secondRoot_tree : secondRoot.Tree ∧ secondRoot.Named := by
  obtain ⟨ht, hn⟩ := initialResources_tree
  have hcall : Vfs.call { Vfs.sample with fs := initialResources } (.fsCreateNode 0 ['x'] .root 0) =
      some { Vfs.sample with fs := secondRoot } := rfl
  have hg := Vfs.grows_call ht hcall
  exact ⟨ht.grows hg, Vfs.named_grows (by decide +kernel) ht hn hg⟩

/-- The path of a second root is found as the first one; an empty path leads to the root. -/
theorem real_paths_miss :
    (¬ ∀ fs : FileSystem, fs.Tree → fs.Named →
      ∀ n, fs.Has n → fs.RootOrNamed n → fs.PathFits n → fs.FoundByRealPath n) ∧
    ¬ ∀ fs : FileSystem, fs.Tree → fs.Named →
      ∀ d path, fs.Has d → fs.RootOrNamed d → fs.RootTyped d → fs.PathFits d →
        path.head? ≠ some '/' → fs.ResolvesFrom d path := by
  constructor
  · intro h
    obtain ⟨ht, hn⟩ := secondRoot_tree
    have hfound := h secondRoot ht hn 4 (by decide +kernel) (by decide +kernel) (by decide +kernel)
    exact absurd (hfound.child_eq (by decide +kernel)) (by decide +kernel)
  · intro h
    obtain ⟨ht, hn⟩ := initialResources_tree
    have hresolves := h initialResources ht hn 1 [] (by decide +kernel) (by decide +kernel)
      (rootTyped_of_le ht (by decide +kernel)) (by decide +kernel) (by decide)
    exact absurd ((hresolves.child_iff (by decide +kernel) 1).2 (.here 1)) (by decide)

end FileSystem

end MeetixOS.Kernel
