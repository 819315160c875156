import MeetixOS.Kernel.Filesystem.RealPath

/-! # The bounds of a path buffer

Before it puts a name in front of the path, `getRealPathToNode` checks that the path has at most
`PATH_MAX` characters with it. The slash and the zero that come last are written behind that check, so a
path of `PATH_MAX - 1` or `PATH_MAX` characters passes it and leaves the buffer. -/

namespace MeetixOS.Kernel

open MeetixOS.Lib.StringBuffer

namespace FileSystem

variable {fs : FileSystem}

/-! ## What lies above a node -/

/-- Names from a node upwards, up to a root, to a node without a name or to any node before. -/
inductive Climb (fs : FileSystem) : Option Nat → List (List Char) → Prop
  | here (current : Option Nat) : Climb fs current []
  | up {id : Nat} {node : FsNode} {name : List Char} {names : List (List Char)}
      (hnode : fs.nodes.get id = some node) (htype : node.type ≠ .root)
      (hname : node.name = some name) (h : Climb fs node.parent names) :
      Climb fs (some id) (name :: names)

/-- How many characters the names have, with a slash each. -/
def slashedLength (names : List (List Char)) : Nat := (names.map (·.length + 1)).sum

/-- Behind `absLen` characters, the names from `current` upwards never end just before the end of a
buffer of `PATH_MAX` characters, or at its end. -/
def Misses (fs : FileSystem) (current : Option Nat) (absLen : Nat) : Prop :=
  ∀ names, fs.Climb current names →
    absLen + slashedLength names ≠ pathMax - 1 ∧ absLen + slashedLength names ≠ pathMax

theorem misses_of_stop {current : Option Nat} {absLen : Nat}
    (hstop : ∀ names, fs.Climb current names → names = []) :
    fs.Misses current absLen ↔ absLen ≠ pathMax - 1 ∧ absLen ≠ pathMax := by
  constructor
  · intro h
    exact h [] (.here current)
  · intro h names hclimb
    rw [hstop names hclimb]
    exact h

theorem misses_none (absLen : Nat) :
    fs.Misses none absLen ↔ absLen ≠ pathMax - 1 ∧ absLen ≠ pathMax :=
  misses_of_stop fun _ hclimb => by cases hclimb; rfl

theorem misses_up {id absLen : Nat} {node : FsNode} {name : List Char}
    (hnode : fs.nodes.get id = some node) (htype : node.type ≠ .root) (hname : node.name = some name) :
    fs.Misses (some id) absLen ↔
      (absLen ≠ pathMax - 1 ∧ absLen ≠ pathMax) ∧ fs.Misses node.parent (absLen + name.length + 1) := by
  have hcons : ∀ names, absLen + slashedLength (name :: names) =
      absLen + name.length + 1 + slashedLength names := by
    intro names
    rw [slashedLength, List.map_cons, List.sum_cons, slashedLength]
    omega
  constructor
  · intro h
    refine ⟨h [] (.here _), fun names hclimb => ?_⟩
    rw [← hcons]
    exact h _ (.up hnode htype hname hclimb)
  · rintro ⟨hhere, habove⟩ names hclimb
    cases hclimb with
    | here => exact hhere
    | up hnode' htype' hname' hclimb =>
      cases hnode.symm.trans hnode'
      cases hname.symm.trans hname'
      rw [hcons]
      exact habove _ hclimb

theorem misses_of_lt {current : Option Nat} {absLen : Nat} (h : pathMax < absLen) :
    fs.Misses current absLen := by
  intro names _
  omega

/-- The path that the loop builds stays two characters short of `PATH_MAX` if and only if the names
above miss the end. -/
theorem realPathWithin_le_iff (ht : fs.Tree) {depth id : Nat} (hdepth : id < depth) {s : List Char}
    (hs : s.length + 2 ≤ pathMax) :
    (fs.realPathWithin depth id s).length + 2 ≤ pathMax ↔ fs.Misses (some id) s.length := by
  induction depth generalizing id s with
  | zero => omega
  | succ depth ih =>
    have hstays : (∀ names, fs.Climb (some id) names → names = []) →
        (s.length + 2 ≤ pathMax ↔ fs.Misses (some id) s.length) := fun hstop => by
      rw [misses_of_stop hstop]
      omega
    rw [realPathWithin]
    split
    next hnode =>
      refine hstays fun names hclimb => ?_
      cases hclimb with
      | here => rfl
      | up hnode' => cases hnode.symm.trans hnode'
    next node hnode =>
      split
      next htype =>
        refine hstays fun names hclimb => ?_
        cases hclimb with
        | here => rfl
        | up hnode' htype' =>
          cases hnode.symm.trans hnode'
          exact absurd htype htype'
      next htype =>
        split
        next hname =>
          refine hstays fun names hclimb => ?_
          cases hclimb with
          | here => rfl
          | up hnode' _ hname' =>
            cases hnode.symm.trans hnode'
            cases hname.symm.trans hname'
        next name hname =>
          have hput : (name ++ '/' :: s).length = s.length + name.length + 1 := by simp; omega
          rw [misses_up hnode htype hname, ← hput]
          have hhere : s.length ≠ pathMax - 1 ∧ s.length ≠ pathMax := by omega
          rw [and_iff_right hhere]
          split
          next hmax =>
            exact iff_of_true hs (misses_of_lt hmax)
          next hmax =>
            split
            next hparent =>
              rw [hparent, misses_none]
              omega
            next parent hparent =>
              rw [hparent]
              have hlt : parent < id := (ht.of_parentOf (show fs.parentOf id = some parent by
                rw [parentOf, hnode, Option.bind_some, hparent])).1
              by_cases hshort : (name ++ '/' :: s).length + 2 ≤ pathMax
              · exact ih (by omega) hshort
              · -- the name has filled the buffer; what is above does not matter any more
                have hlong := PathBuffers.realPathWithin_length_le fs depth parent (name ++ '/' :: s)
                refine iff_of_false (by omega) fun hmisses => ?_
                have hend := hmisses [] (.here _)
                rw [slashedLength, List.map_nil, List.sum_nil] at hend
                omega

end FileSystem

namespace PathBuffers

variable {fs : FileSystem}

/-! ## Writes behind the end -/

theorem realPathWithin_some {depth current absLen : Nat} {s : List Char} {out out' : Buffer Char}
    (h : realPathWithin fs depth current s.length out = some (absLen, out')) :
    absLen = (fs.realPathWithin depth current s).length ∧ out'.length = out.length := by
  induction depth generalizing current s out with
  | zero =>
    cases h
    exact ⟨rfl, rfl⟩
  | succ depth ih =>
    rw [realPathWithin] at h
    rw [FileSystem.realPathWithin]
    cases hnode : fs.nodes.get current with
    | none =>
      rw [hnode] at h
      cases h
      exact ⟨rfl, rfl⟩
    | some node =>
      rw [hnode] at h
      dsimp only at h ⊢
      split at h
      next htype =>
        cases h
        rw [if_pos htype]
        exact ⟨rfl, rfl⟩
      next htype =>
        rw [if_neg htype]
        cases hname : node.name with
        | none =>
          rw [hname] at h
          cases h
          exact ⟨rfl, rfl⟩
        | some name =>
          rw [hname] at h
          have hput : (name ++ '/' :: s).length = s.length + name.length + 1 := by simp; omega
          dsimp only at h ⊢
          split at h
          next hmax =>
            cases h
            rw [if_pos hmax]
            exact ⟨rfl, rfl⟩
          next hmax =>
            rw [if_neg hmax]
            obtain ⟨moved, hshift, h⟩ := Option.bind_eq_some_iff.1 h
            obtain ⟨slashed, hwrite, h⟩ := Option.bind_eq_some_iff.1 h
            obtain ⟨copied, hcopy, h⟩ := Option.bind_eq_some_iff.1 h
            have hlen : copied.length = out.length :=
              (copy_length hcopy).trans ((write_length hwrite).trans (shift_length hshift))
            cases hparent : node.parent with
            | none =>
              rw [hparent] at h
              cases h
              exact ⟨hput.symm, hlen⟩
            | some parent =>
              rw [hparent, ← hput] at h
              obtain ⟨habs, hout⟩ := ih h
              exact ⟨habs, hout.trans hlen⟩

theorem getRealPathToNode_isSome_iff (fs : FileSystem) (node : Nat) (out : Buffer Char) :
    (getRealPathToNode fs node out).isSome ↔
      (fs.realPathWithin (node + 1) node []).length + 2 ≤ out.length := by
  constructor
  · intro h
    obtain ⟨out', h⟩ := Option.isSome_iff_exists.1 h
    obtain ⟨⟨absLen, built⟩, hloop, h⟩ := Option.bind_eq_some_iff.1 h
    obtain ⟨moved, hshift, -⟩ := Option.bind_eq_some_iff.1 h
    obtain ⟨habs, hlen⟩ := realPathWithin_some (s := []) hloop
    by_contra hlong
    rw [shift_eq_none (by omega)] at hshift
    cases hshift
  · intro h
    obtain ⟨out', hsome, -⟩ := getRealPathToNode_eq fs node
      (show (fs.getRealPathToNode node).length + 1 ≤ out.length from h)
    rw [hsome]
    rfl

end PathBuffers

namespace FileSystem

variable {fs : FileSystem}

/-- `getRealPathToNode` stays inside a buffer of `PATH_MAX` characters if and only if no names from the
node upwards, with a slash each, have `PATH_MAX - 1` or `PATH_MAX` characters together. -/
theorem real_path_in_bounds_iff (ht : fs.Tree) (node : Nat) {out : Buffer Char}
    (hout : out.length = pathMax) :
    (PathBuffers.getRealPathToNode fs node out).isSome ↔
      ∀ names, fs.Climb (some node) names →
        slashedLength names ≠ pathMax - 1 ∧ slashedLength names ≠ pathMax := by
  rw [PathBuffers.getRealPathToNode_isSome_iff, hout,
    realPathWithin_le_iff ht (Nat.lt_succ_self node) (by decide), Misses]
  simp only [List.length_nil, Nat.zero_add]

/-- A driver's file below the root, with a name of `n` characters. -/
def longName (n : Nat) : FileSystem :=
  initialResources.fsCreateNode 0 (List.replicate n 'x') .file 0

theorem longName_tree (n : Nat) : (longName n).Tree := by
  obtain ⟨ht, -⟩ := initialResources_tree
  have hcall : Vfs.call { Vfs.sample with fs := initialResources }
      (.fsCreateNode 0 (List.replicate n 'x') .file 0) =
        some { Vfs.sample with fs := longName n } := rfl
  exact ht.grows (Vfs.grows_call ht hcall)

theorem real_path_in_bounds_longest :
    (PathBuffers.getRealPathToNode (longName (pathMax - 3)) 4 (List.replicate pathMax none)).isSome := by
  refine (real_path_in_bounds_iff (longName_tree _) 4 List.length_replicate).2 fun names h => ?_
  have hfile : ((longName (pathMax - 3)).nodes.get 4).map (fun node => (node.name, node.parent)) =
      some (some (List.replicate (pathMax - 3) 'x'), some 0) := by
    with_unfolding_all rfl
  have hroot : ((longName (pathMax - 3)).nodes.get 0).map FsNode.type = some .root := by
    with_unfolding_all rfl
  cases h with
  | here => decide
  | up hnode _ hname h =>
    rw [hnode, Option.map_some, Option.some.injEq, Prod.mk.injEq] at hfile
    obtain rfl := Option.some.inj (hname.symm.trans hfile.1)
    rw [hfile.2] at h
    cases h with
    | here =>
      rw [slashedLength, List.map_singleton, List.sum_singleton, List.length_replicate]
      decide
    | up hnode htype _ _ =>
      rw [hnode] at hroot
      exact absurd (Option.some.inj hroot) htype

/-- The real path of the file ends with a slash, which leaves no place for the zero. -/
theorem long_name_overflows :
    ¬ ∀ (fs : FileSystem) (node : Nat) (out : Buffer Char), fs.Tree → out.length = pathMax →
      (PathBuffers.getRealPathToNode fs node out).isSome := by
  intro h
  have hbounds := h (longName (pathMax - 2)) 4 (List.replicate pathMax none)
    (longName_tree _) List.length_replicate
  rw [PathBuffers.getRealPathToNode_isSome_iff, List.length_replicate] at hbounds
  exact absurd hbounds (by decide +kernel)

end FileSystem

end MeetixOS.Kernel
