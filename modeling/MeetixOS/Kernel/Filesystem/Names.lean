import Mathlib.Data.List.Induction
import MeetixOS.Kernel.Filesystem.Tree

/-! # Names tell nodes apart

When the named children of every node have different names, and every named node is found by
`findExisting` through its own path. Three calls do not look before they add: `createDelegate` looks below
the root and adds below `/mount`, an open that creates a file names the node by the whole path, and a
refresh looks for a path that `getRealPathToNode` may have cut. -/

open Option (bind_eq_some_iff map_eq_some_iff)

namespace MeetixOS.Kernel

open MeetixOS.Lib

/-! ## Names in paths -/

/-- A name that is found in a path and leads to a child. -/
def ValidName (name : List Char) : Prop :=
  name ≠ [] ∧ '/' ∉ name ∧ name ≠ dot ∧ name ≠ dotDot

instance (name : List Char) : Decidable (ValidName name) :=
  inferInstanceAs (Decidable (_ ∧ _ ∧ _ ∧ _))

@[simp] theorem pathNames_nil : pathNames [] = [] := rfl

theorem pathNames_append_slash (path rest : List Char) :
    pathNames (path ++ '/' :: rest) = pathNames path ++ pathNames rest := by
  rw [pathNames, List.splitOn_append_cons_self, List.filter_append, pathNames, pathNames]

theorem pathNames_of_validName {name : List Char} (h : ValidName name) : pathNames name = [name] := by
  rw [pathNames, List.splitOn_eq_singleton h.2.1, List.filter_cons_of_pos (by simpa using h.1),
    List.filter_nil]

theorem not_mem_of_mem_splitOn {path name : List Char} (h : name ∈ path.splitOn '/') :
    '/' ∉ name := by
  induction path generalizing name with
  | nil =>
    rw [List.splitOn_nil, List.mem_singleton] at h
    simp [h]
  | cons c path ih =>
    rw [List.splitOn_cons_eq_if_modifyHead] at h
    split at h
    next =>
      rcases List.mem_cons.1 h with rfl | h
      · exact List.not_mem_nil
      · exact ih h
    next hc =>
      -- the character goes to the front of the first piece
      cases hsplit : path.splitOn '/' with
      | nil => exact absurd hsplit (List.splitOn_ne_nil _ _)
      | cons first others =>
        rw [hsplit, List.modifyHead_cons] at h
        rcases List.mem_cons.1 h with rfl | h
        · intro hin
          rcases List.mem_cons.1 hin with heq | hin
          · exact hc (by simp [← heq])
          · exact ih (hsplit ▸ List.mem_cons_self) hin
        · exact ih (hsplit ▸ List.mem_cons_of_mem _ h)

theorem mem_pathNames {path name : List Char} (h : name ∈ pathNames path) :
    name ≠ [] ∧ '/' ∉ name := by
  obtain ⟨hin, hne⟩ := List.mem_filter.1 h
  exact ⟨by simpa using hne, not_mem_of_mem_splitOn hin⟩

theorem pathNames_flatMap {names : List (List Char)} (h : ∀ name ∈ names, ValidName name) :
    pathNames (names.flatMap ('/' :: ·)) = names := by
  induction names using List.reverseRecOn with
  | nil => rfl
  | append_singleton names name ih =>
    rw [List.flatMap_append, List.flatMap_cons, List.flatMap_nil, List.append_nil,
      pathNames_append_slash, pathNames_of_validName (h name (by simp)),
      ih fun n hn => h n (List.mem_append_left _ hn)]

theorem find?_of_nodup_filterMap {α β : Type} [DecidableEq β] {f : α → Option β} {l : List α} {a : α}
    {b : β} (hnodup : (l.filterMap f).Nodup) (ha : a ∈ l) (hb : f a = some b) :
    (l.find? fun x => f x = some b) = some a := by
  induction l with
  | nil => cases ha
  | cons x l ih =>
    rcases List.mem_cons.1 ha with rfl | ha
    · exact List.find?_cons_of_pos (by simp [hb])
    · by_cases hx : f x = some b
      · rw [List.filterMap_cons_some hx, List.nodup_cons] at hnodup
        exact absurd (List.mem_filterMap.2 ⟨a, ha, hb⟩) hnodup.1
      · rw [List.find?_cons_of_neg (by simpa using hx)]
        refine ih ?_ ha
        cases hfx : f x with
        | none => rwa [List.filterMap_cons_none hfx] at hnodup
        | some c => exact (List.nodup_cons.1 (List.filterMap_cons_some hfx ▸ hnodup)).2

namespace FileSystem

variable {fs fs' : FileSystem} {parent id : Nat} {name : Option (List Char)}

/-! ## Nodes and their own paths -/

/-- The names from the root down to a node, over at most `depth` nodes. -/
def namesWithin (fs : FileSystem) : (depth : Nat) → (id : Nat) → List (List Char)
  | 0, _ => []
  | depth + 1, id =>
    match fs.parentOf id with
    | none => []
    | some parent => fs.namesWithin depth parent ++ [(fs.nameOf id).getD []]

/-- The names from the root down to a node. -/
def ownNames (fs : FileSystem) (id : Nat) : List (List Char) := fs.namesWithin (id + 1) id

/-- A node's own path. -/
def ownPath (fs : FileSystem) (id : Nat) : List Char := (fs.ownNames id).flatMap ('/' :: ·)

/-- The node is the root or has a name. -/
def RootOrNamed (fs : FileSystem) (id : Nat) : Prop := id = fs.root ∨ fs.nameOf id ≠ none

instance (fs : FileSystem) (id : Nat) : Decidable (fs.RootOrNamed id) :=
  inferInstanceAs (Decidable (_ ∨ _))

/-- A node with the name can be added below `parent`. -/
def Fits (fs : FileSystem) (parent : Nat) (name : List Char) : Prop :=
  ValidName name ∧ fs.findChild parent name = none ∧ fs.RootOrNamed parent

instance (fs : FileSystem) (parent : Nat) (name : List Char) : Decidable (fs.Fits parent name) :=
  inferInstanceAs (Decidable (_ ∧ _ ∧ _))

/-- The names are valid and different below every node, and stand below named nodes. -/
structure Named (fs : FileSystem) : Prop where
  distinct : ∀ parent, ((fs.childrenOf parent).filterMap fs.nameOf).Nodup
  valid : ∀ id name, fs.nameOf id = some name → ValidName name
  above : ∀ id parent, fs.nameOf id ≠ none → fs.parentOf id = some parent → fs.RootOrNamed parent

theorem Named.sameShape (h : fs.Named) (hs : SameShape fs fs') : fs'.Named := by
  have hnames : fs'.nameOf = fs.nameOf := funext hs.nameOf
  refine { distinct := ?_, valid := ?_, above := ?_ }
  all_goals
    simp [RootOrNamed, hs.root, hnames, hs.childrenOf, hs.parentOf]
  · exact h.distinct
  · exact h.valid
  · exact h.above

theorem findChild_eq_none {name : List Char} :
    fs.findChild parent name = none ↔ name ∉ (fs.childrenOf parent).filterMap fs.nameOf := by
  simp [findChild, List.find?_eq_none, List.mem_filterMap]

theorem Adds.filterMap_nameOf (ha : Adds fs fs' parent name) (ht : fs.Tree) (p : Nat) :
    (fs.childrenOf p).filterMap fs'.nameOf = (fs.childrenOf p).filterMap fs.nameOf :=
  List.filterMap_congr fun c hc => ha.nameOf_of_has ht (ht.child p c hc).1

theorem Adds.rootOrNamed (ha : Adds fs fs' parent name) (ht : fs.Tree) (hid : fs.Has id) :
    fs'.RootOrNamed id ↔ fs.RootOrNamed id := by
  rw [RootOrNamed, RootOrNamed, ha.root, ha.nameOf_of_has ht hid]

theorem Named.adds (h : fs.Named) (ht : fs.Tree) (hparent : fs.Has parent)
    (hfits : ∀ n, name = some n → fs.Fits parent n) (ha : Adds fs fs' parent name) : fs'.Named := by
  refine { distinct := ?_, valid := ?_, above := ?_ }
  · intro p
    rw [ha.childrenOf]
    split
    next => exact List.nodup_nil
    next =>
      split
      next hp =>
        have hnew : fs'.nameOf fs.nodeNextID = name := by rw [ha.nameOf, if_pos rfl]
        cases name with
        | none =>
          rw [List.filterMap_cons_none hnew, ha.filterMap_nameOf ht]
          exact h.distinct p
        | some n =>
          rw [List.filterMap_cons_some hnew, ha.filterMap_nameOf ht, List.nodup_cons, hp]
          exact ⟨findChild_eq_none.1 (hfits n rfl).2.1, h.distinct parent⟩
      next =>
        rw [ha.filterMap_nameOf ht]
        exact h.distinct p
  · intro id n hn
    rw [ha.nameOf] at hn
    split at hn
    next => exact (hfits n hn).1
    next => exact h.valid id n hn
  · intro id p hn hp
    rw [ha.nameOf] at hn
    rw [ha.parentOf] at hp
    by_cases hid : id = fs.nodeNextID
    · rw [if_pos hid] at hn hp
      obtain rfl := Option.some.inj hp
      obtain ⟨n, hname⟩ := Option.ne_none_iff_exists'.1 hn
      exact (ha.rootOrNamed ht hparent).2 (hfits n hname).2.2
    · rw [if_neg hid] at hn hp
      have hmem : fs.Has p := (ht.of_parentOf hp).2.1
      exact (ha.rootOrNamed ht hmem).2 (h.above id p hn hp)

/-! ## Every named node is found -/

theorem findExistingFrom_append {as bs : List (List Char)} {c d : Nat}
    (h : (fs.findExistingFrom c as).child = some d) :
    fs.findExistingFrom c (as ++ bs) = fs.findExistingFrom d bs := by
  induction as generalizing c with
  | nil =>
    cases h
    rfl
  | cons name as ih =>
    rw [List.cons_append, findExistingFrom]
    rw [findExistingFrom] at h
    split
    next hdots =>
      rw [if_pos hdots] at h
      exact ih h
    next hdots =>
      rw [if_neg hdots] at h
      split
      next hdot =>
        rw [if_pos hdot] at h
        exact ih h
      next hdot =>
        rw [if_neg hdot] at h
        cases hfind : fs.findChild c name with
        | none => rw [hfind] at h; cases h
        | some next =>
          rw [hfind] at h
          exact ih h

variable {n : List Char}

theorem findExistingFrom_single (hvalid : ValidName n) :
    (fs.findExistingFrom id [n]).child = fs.findChild id n := by
  rw [findExistingFrom, if_neg hvalid.2.2.2, if_neg hvalid.2.2.1]
  cases fs.findChild id n <;> rfl

theorem namesWithin_of_lt (ht : fs.Tree) {depth depth' : Nat} (h : id < depth) (h' : id < depth') :
    fs.namesWithin depth id = fs.namesWithin depth' id := by
  induction depth generalizing depth' id with
  | zero => omega
  | succ depth ih =>
    cases depth' with
    | zero => omega
    | succ depth' =>
      rw [namesWithin, namesWithin]
      cases hp : fs.parentOf id with
      | none => rfl
      | some p =>
        have hlt := (ht.of_parentOf hp).1
        have hrec : fs.namesWithin depth p = fs.namesWithin depth' p :=
          ih (by omega) (by omega)
        dsimp only
        rw [hrec]

theorem ownNames_eq (ht : fs.Tree) (hp : fs.parentOf id = some parent) :
    fs.ownNames id = fs.ownNames parent ++ [(fs.nameOf id).getD []] := by
  have hlt := (ht.of_parentOf hp).1
  have hdepth : fs.namesWithin id parent = fs.ownNames parent :=
    namesWithin_of_lt ht hlt (Nat.lt_succ_self parent)
  rw [ownNames, namesWithin, hp]
  dsimp only
  rw [hdepth]

theorem ownNames_root (ht : fs.Tree) : fs.ownNames fs.root = [] := by
  rw [ownNames, namesWithin, ht.root_parent]

section

variable (h : fs.Named) (ht : fs.Tree) (hid : fs.Has id)
include h ht hid

theorem Named.exists_parent (hroot : id ≠ fs.root) (hnamed : fs.RootOrNamed id) :
    ∃ parent n, parent < id ∧ fs.Has parent ∧ fs.RootOrNamed parent ∧ ValidName n ∧
      fs.findChild parent n = some id ∧ fs.ownNames id = fs.ownNames parent ++ [n] := by
  obtain ⟨n, hn⟩ := Option.ne_none_iff_exists'.1 (hnamed.resolve_left hroot)
  obtain ⟨p, hp, hlt, hpmem, hin⟩ := ht.above id hid hroot
  refine ⟨p, n, hlt, hpmem, h.above id p (by rw [hn]; simp) hp, h.valid id n hn, ?_, ?_⟩
  · exact find?_of_nodup_filterMap (h.distinct p) hin hn
  · rw [ownNames_eq ht hp, hn, Option.getD_some]

theorem Named.found (hnamed : fs.RootOrNamed id) :
    (fs.findExistingFrom fs.root (fs.ownNames id)).child = some id ∧
      ∀ n ∈ fs.ownNames id, ValidName n := by
  induction id using Nat.strong_induction_on with
  | _ id ih =>
    by_cases hroot : id = fs.root
    · rw [hroot, ownNames_root ht]
      exact ⟨rfl, by simp⟩
    · obtain ⟨p, n, hlt, hpmem, hpnamed, hvalid, hfind, hnames⟩ := h.exists_parent ht hid hroot hnamed
      obtain ⟨hfound, hall⟩ := ih p hlt hpmem hpnamed
      rw [hnames, findExistingFrom_append hfound, findExistingFrom_single hvalid]
      refine ⟨hfind, fun m hm => ?_⟩
      rcases List.mem_append.1 hm with hm | hm
      · exact hall m hm
      · rw [List.mem_singleton.1 hm]
        exact hvalid

theorem Named.findExisting_ownPath (hnamed : fs.RootOrNamed id) :
    (fs.findExisting (fs.ownPath id)).child = some id := by
  obtain ⟨hfound, hall⟩ := h.found ht hid hnamed
  rw [findExisting, ownPath, pathNames_flatMap hall, hfound]

end

/-! ## Discovery -/

theorem has_of_nameOf (h : fs.nameOf id = some n) : fs.Has id := by
  obtain ⟨node, hnode, -⟩ := bind_eq_some_iff.1 h
  rw [Has, hnode]
  rfl

theorem findChild_spec {c : Nat} (h : fs.findChild parent n = some c) :
    c ∈ fs.childrenOf parent ∧ fs.nameOf c = some n :=
  ⟨List.mem_of_find?_eq_some h, by simpa using List.find?_some h⟩

theorem findExistingFrom_none (ht : fs.Tree) (hn : fs.Named) {c : Nat} {names : List (List Char)}
    (hc : fs.Has c) (hcnamed : fs.RootOrNamed c)
    (hnames : ∀ n ∈ names, n ≠ [] ∧ '/' ∉ n) (h : (fs.findExistingFrom c names).child = none) :
    fs.Fits (fs.findExistingFrom c names).parent (fs.findExistingFrom c names).nameCurrent := by
  induction names generalizing c with
  | nil => cases h
  | cons n names ih =>
    have hrest : ∀ m ∈ names, m ≠ [] ∧ '/' ∉ m := fun m hm => hnames m (List.mem_cons_of_mem _ hm)
    rw [findExistingFrom] at h ⊢
    split at h
    next hdots =>
      rw [if_pos hdots]
      cases hp : fs.parentOf c with
      | none =>
        rw [hp] at h
        exact ih hc hcnamed hrest h
      | some p =>
        rw [hp] at h
        have hpnamed : fs.RootOrNamed p := by
          refine hn.above c p (hcnamed.resolve_left ?_) hp
          rintro rfl
          rw [ht.root_parent] at hp
          cases hp
        exact ih (ht.of_parentOf hp).2.1 hpnamed hrest h
    next hdots =>
      rw [if_neg hdots]
      split at h
      next hdot =>
        rw [if_pos hdot]
        exact ih hc hcnamed hrest h
      next hdot =>
        rw [if_neg hdot]
        cases hfind : fs.findChild c n with
        | none =>
          obtain ⟨hne, hslash⟩ := hnames n List.mem_cons_self
          exact ⟨⟨hne, hslash, hdot, hdots⟩, hfind, hcnamed⟩
        | some next =>
          rw [hfind] at h
          have hname := (findChild_spec hfind).2
          exact ih (has_of_nameOf hname) (Or.inr (by rw [hname]; simp)) hrest h

/-! ## Real paths -/

theorem namesWithin_adds (ha : Adds fs fs' parent name) (ht : fs.Tree) (depth : Nat)
    (hid : fs.Has id) : fs'.namesWithin depth id = fs.namesWithin depth id := by
  induction depth generalizing id with
  | zero => rfl
  | succ depth ih =>
    rw [namesWithin, namesWithin, ha.parentOf_of_has ht hid, ha.nameOf_of_has ht hid]
    cases hp : fs.parentOf id with
    | none => rfl
    | some p =>
      dsimp only
      rw [ih (ht.of_parentOf hp).2.1]

theorem realPathWithin_adds (ha : Adds fs fs' parent name) (ht : fs.Tree) (depth : Nat)
    (hid : fs.Has id) (out : List Char) :
    fs'.realPathWithin depth id out = fs.realPathWithin depth id out := by
  induction depth generalizing id out with
  | zero => rfl
  | succ depth ih =>
    obtain ⟨node, hnode⟩ := Option.isSome_iff_exists.1 hid
    obtain ⟨node', hnode'⟩ := Option.isSome_iff_exists.1 ((ha.has id).2 (Or.inr hid))
    have htype : node'.type = node.type := by
      have h := ha.typeOf id (ht.ne_next hid)
      rw [typeOf, typeOf, hnode, hnode'] at h
      exact Option.some.inj h
    have hname : node'.name = node.name := by
      have h := ha.nameOf_of_has ht hid
      rwa [nameOf, nameOf, hnode, hnode'] at h
    have hparent : node'.parent = node.parent := by
      have h := ha.parentOf_of_has ht hid
      rwa [parentOf, parentOf, hnode, hnode'] at h
    rw [realPathWithin, realPathWithin, hnode, hnode']
    dsimp only
    rw [htype, hname, hparent]
    split
    next => rfl
    next =>
      cases node.name with
      | none => rfl
      | some n =>
        dsimp only
        split
        next => rfl
        next =>
          cases hp : node.parent with
          | none => rfl
          | some p =>
            have hpof : fs.parentOf id = some p := by
              rw [parentOf, hnode, Option.bind_some, hp]
            exact ih (ht.of_parentOf hpof).2.1 _

/-- `getRealPathToNode` gives the node's own path. -/
def RealPathOk (fs : FileSystem) (id : Nat) : Prop :=
  fs.getRealPathToNode id = fs.ownPath id ++ ['/']

instance (fs : FileSystem) (id : Nat) : Decidable (fs.RealPathOk id) :=
  inferInstanceAs (Decidable (_ = _))

theorem RealPathOk.adds (h : fs.RealPathOk id) (ht : fs.Tree) (hid : fs.Has id)
    (ha : Adds fs fs' parent name) : fs'.RealPathOk id := by
  rw [RealPathOk, getRealPathToNode, ownPath, ownNames, realPathWithin_adds ha ht _ hid,
    namesWithin_adds ha ht _ hid]
  exact h

theorem findExisting_realPath (ht : fs.Tree) (hn : fs.Named) (hid : fs.Has id)
    (hnamed : fs.RootOrNamed id) (hpath : fs.RealPathOk id) (hvalid : ValidName n) :
    (fs.findExisting (fs.getRealPathToNode id ++ '/' :: n)).child = fs.findChild id n := by
  obtain ⟨hfound, hall⟩ := hn.found ht hid hnamed
  rw [hpath, findExisting, pathNames_append_slash, pathNames_append_slash, ownPath,
    pathNames_flatMap hall, pathNames_nil, List.append_nil, pathNames_of_validName hvalid,
    findExistingFrom_append hfound, findExistingFrom_single hvalid]

end FileSystem

/-! ## What the calls write -/

open FileSystem

/-- The call adds no node whose name does not fit. -/
def VfsCall.Ok (s : Vfs) : VfsCall → Prop
  | .discover _ => True
  | .refresh folder _ =>
    s.fs.getDelegate folder = some .ramdisk →
      s.fs.RootOrNamed folder ∧ s.fs.RealPathOk folder ∧
        ∀ entry ∈ s.ramdisk.headers,
          some entry.parentid = (s.fs.nodes.get folder).map FsNode.physFsID →
            ValidName entry.name
  | .fsCreateNode parent name _ _ =>
    s.fs.findChild parent name = none → s.fs.Fits parent name
  | .createDelegate _ name _ _ =>
    s.fs.findChild s.fs.root name = none → s.fs.Fits s.fs.mountRoot name
  | .openMissing node filename flags =>
    s.fs.getDelegate node = some .ramdisk → isCreate flags → s.fs.Fits node filename
  | .pipe _ _ => True

instance (s : Vfs) (call : VfsCall) : Decidable (call.Ok s) :=
  match call with
  | .discover _ | .pipe _ _ => inferInstanceAs (Decidable True)
  | .refresh _ _ => inferInstanceAs (Decidable (_ → _ ∧ _ ∧ _))
  | .fsCreateNode _ _ _ _ | .createDelegate _ _ _ _ => inferInstanceAs (Decidable (_ → _))
  | .openMissing _ _ _ => inferInstanceAs (Decidable (_ → _ → _))

namespace Vfs

variable {s s' : Vfs}

/-- What is known of a node that is added when `P` holds. -/
def Fitting (P : Prop) (fs : FileSystem) (parent : Nat) (name : Option (List Char)) : Prop :=
  P → fs.Tree → fs.Named → ∀ n, name = some n → fs.Fits parent n

theorem requestDiscovery_eq {parent : Nat} {child : List Char} {status : FsDiscoveryStatus}
    (h : s.requestDiscovery parent child = some (s', status)) :
    s.fs.Has parent ∧ ((s' = s ∧ status = .notFound) ∨
      (status = .successful ∧ ∃ entry : RamdiskEntry, entry.name = child ∧
        s' = { s with fs := (s.fs.createVfsNode entry parent).1 })) := by
  obtain ⟨node, hnode, h⟩ := bind_eq_some_iff.1 h
  refine ⟨by rw [Has, hnode]; rfl, ?_⟩
  split at h
  next =>
    cases h
    exact Or.inl ⟨rfl, rfl⟩
  next ramdiskParent _ =>
    obtain ⟨found, hfound, h⟩ := bind_eq_some_iff.1 h
    cases found with
    | none =>
      cases h
      exact Or.inl ⟨rfl, rfl⟩
    | some entry =>
      cases h
      refine Or.inr ⟨rfl, entry, ?_, rfl⟩
      rw [Ramdisk.findChild] at hfound
      split at hfound
      next => cases hfound
      next =>
        have hpred := List.find?_some (Option.some.inj hfound)
        simp only [decide_eq_true_eq] at hpred
        exact hpred.2

theorem grows_discover {P : Prop} {absolutePath : List Char} (ht : s.fs.Tree)
    (h : s.discover absolutePath = some s') : Grows (Fitting P) s.fs s'.fs := by
  rw [discover] at h
  split at h
  next => cases h
  next =>
    split at h
    next hmissing =>
      obtain ⟨⟨s1, status⟩, hreq, rfl⟩ := map_eq_some_iff.1 h
      obtain ⟨hhas, ⟨rfl, -⟩ | ⟨-, entry, hname, rfl⟩⟩ := requestDiscovery_eq hreq
      · exact .refl
      · refine .single (Or.inr ⟨_, _, hhas, ?_, adds_createVfsNode ht hhas entry⟩)
        intro _ _ hn n hsome
        obtain rfl := Option.some.inj hsome
        rw [hname]
        exact findExistingFrom_none ht hn ht.root_mem (Or.inl rfl)
          (fun _ hm => mem_pathNames hm) hmissing.1
    next =>
      cases h
      exact .refl

theorem grows_refreshEntries {P : Prop} {folder : Nat} {fs fs' : FileSystem}
    {entries : List RamdiskEntry} (ht : fs.Tree) (hfolder : fs.Has folder)
    (hok : P → fs.RootOrNamed folder ∧ fs.RealPathOk folder ∧ ∀ e ∈ entries, ValidName e.name)
    (h : entries.foldlM (refreshEntry folder) fs = some fs') : Grows (Fitting P) fs fs' := by
  induction entries generalizing fs with
  | nil =>
    cases h
    exact .refl
  | cons entry entries ih =>
    obtain ⟨fs1, h1, h⟩ := bind_eq_some_iff.1 h
    rw [refreshEntry] at h1
    split at h1
    next =>
      split at h1
      next =>
        cases h1
        refine ih ht hfolder (fun hp => ?_) h
        exact ⟨(hok hp).1, (hok hp).2.1, fun e he => (hok hp).2.2 e (List.mem_cons_of_mem _ he)⟩
      next hmissing =>
        cases h1
        have ha := adds_createVfsNode ht hfolder entry
        have htail := ih (ht.adds hfolder ha) ((ha.has folder).2 (Or.inr hfolder)) (fun hp => ?_) h
        · refine .head (Or.inr ⟨folder, _, hfolder, ?_, ha⟩) htail
          intro hp _ hn n hsome
          obtain rfl := Option.some.inj hsome
          obtain ⟨hnamed, hpath, hvalid⟩ := hok hp
          have hentry := hvalid entry List.mem_cons_self
          rw [findExisting_realPath ht hn hfolder hnamed hpath hentry] at hmissing
          exact ⟨hentry, hmissing, hnamed⟩
        · obtain ⟨hnamed, hpath, hvalid⟩ := hok hp
          exact ⟨(ha.rootOrNamed ht hfolder).2 hnamed, hpath.adds ht hfolder ha,
            fun e he => hvalid e (List.mem_cons_of_mem _ he)⟩
    next => cases h1

theorem sameShape_setContentsValid (fs : FileSystem) (folder : Nat) :
    SameShape fs (setContentsValid fs folder) :=
  sameShape_modifyNode fs folder (fun _ => rfl) (fun _ => rfl) (fun _ => rfl)

theorem grows_refresh {folder storage : Nat} (ht : s.fs.Tree)
    (h : s.refresh folder storage = some s') :
    Grows (Fitting ((VfsCall.refresh folder storage).Ok s)) s.fs s'.fs := by
  have hvalid : ∀ id, Grows (Fitting ((VfsCall.refresh folder storage).Ok s)) s.fs
      (setContentsValid s.fs id) := fun id => .single (Or.inl (sameShape_setContentsValid s.fs id))
  rw [refresh] at h
  cases hnode : s.fs.nodes.get folder with
  | none =>
    rw [hnode] at h
    cases h
    exact .refl
  | some node =>
    rw [hnode] at h
    dsimp only at h
    split at h
    next =>
      cases h
      exact .refl
    next =>
      cases hdel : s.fs.getDelegate folder with
      | none => rw [hdel] at h; cases h; exact .refl
      | some delegate =>
        rw [hdel] at h
        cases delegate with
        | mount | pipe => cases h; exact hvalid folder
        | tasked thread => cases h; exact hvalid storage
        | ramdisk =>
          obtain ⟨⟨s1, status⟩, hreq, rfl⟩ := map_eq_some_iff.1 h
          obtain ⟨node', hnode', hreq⟩ := bind_eq_some_iff.1 hreq
          obtain rfl : node = node' := Option.mem_unique hnode hnode'
          split at hreq
          next => cases hreq; exact .refl
          next =>
            obtain ⟨fs1, hloop, hreq⟩ := bind_eq_some_iff.1 hreq
            cases hreq
            refine .tail (grows_refreshEntries ht (by rw [Has, hnode]; rfl) ?_ hloop)
              (Or.inl (sameShape_setContentsValid fs1 folder))
            intro hok
            obtain ⟨hnamed, hpath, hentries⟩ := hok hdel
            refine ⟨hnamed, hpath, fun e he => ?_⟩
            obtain ⟨hmem, hparent⟩ := List.mem_filter.1 he
            refine hentries e hmem ?_
            rw [hnode, Option.map_some, of_decide_eq_true hparent]

theorem grows_openMissing {node : Nat} {filename : List Char} {flags : Int} (ht : s.fs.Tree)
    (h : s.openMissing node filename flags = some s') :
    Grows (Fitting ((VfsCall.openMissing node filename flags).Ok s)) s.fs s'.fs := by
  rw [openMissing] at h
  split at h
  next hdel =>
    obtain ⟨⟨s1, created, status⟩, hreq, rfl⟩ := map_eq_some_iff.1 h
    obtain ⟨n, hnode, hreq⟩ := bind_eq_some_iff.1 hreq
    have hhas : s.fs.Has node := by rw [Has, hnode]; rfl
    dsimp only at hreq
    split at hreq
    next hcreate =>
      obtain ⟨entry, -, hreq⟩ := bind_eq_some_iff.1 hreq
      cases hreq
      refine .single (Or.inr ⟨node, _, hhas, ?_, adds_createVfsNode ht hhas _⟩)
      intro hok _ _ n hsome
      obtain rfl := Option.some.inj hsome
      exact hok hdel hcreate
    next =>
      cases hreq
      exact .refl
  next =>
    cases h
    exact .refl

theorem grows_pipe {P : Prop} {fs : FileSystem} (ht : fs.Tree) (pid : Pid) (block : PipeBlock) :
    Grows (Fitting P) fs (fs.pipe pid block).1 := by
  have hpipes : SameShape fs (Pipes.create fs block).1 := .of_nodes_eq ⟨rfl, rfl, rfl⟩ rfl rfl
  have ht1 := ht.sameShape hpipes
  have hadd : Adds (Pipes.create fs block).1 (fs.createPipeNode block).1 fs.pipeRoot none :=
    adds_addNode ht1.pipeRoot_mem (ht1.ne_next ht1.pipeRoot_mem) rfl
  have hmaps : SameShape (fs.createPipeNode block).1 (fs.pipe pid block).1 := by
    simp only [FileSystem.pipe]
    generalize (fs.createPipeNode block).1 = fs1
    have hfirst := sameShape_mapFile fs1 pid (fs.createPipeNode block).2 0 (-1)
    generalize (fs1.mapFile pid (fs.createPipeNode block).2 0 (-1)).1 = fs2 at hfirst ⊢
    exact hfirst.trans (sameShape_mapFile fs2 pid _ 0 (-1))
  have hfits : Fitting P (Pipes.create fs block).1 fs.pipeRoot none := by
    intro _ _ _ n hsome
    cases hsome
  generalize (fs.pipe pid block).1 = fs2 at hmaps ⊢
  exact .tail (.tail (.single (Or.inl hpipes)) (Or.inr ⟨_, none, ht1.pipeRoot_mem, hfits, hadd⟩))
    (Or.inl hmaps)

theorem grows_call {call : VfsCall} (ht : s.fs.Tree) (h : s.call call = some s') :
    Grows (Fitting (call.Ok s)) s.fs s'.fs := by
  cases call with
  | discover absolutePath => exact grows_discover ht h
  | refresh folder storage => exact grows_refresh ht h
  | openMissing node filename flags => exact grows_openMissing ht h
  | pipe pid block =>
    rw [call] at h
    have hgrows := grows_pipe (P := (VfsCall.pipe pid block).Ok s) ht pid block
    generalize (s.fs.pipe pid block).1 = fs1 at h hgrows
    cases h
    exact hgrows
  | fsCreateNode parent name type physFsID =>
    cases h
    rw [fsCreateNode]
    split
    next hhas =>
      split
      next child _ =>
        exact .single (Or.inl (sameShape_modifyNode s.fs child (fun _ => rfl) (fun _ => rfl)
          (fun _ => rfl)))
      next hfind =>
        refine .single (Or.inr ⟨parent, some name, hhas, ?_,
          adds_addNode hhas (ht.ne_next hhas) rfl⟩)
        intro hok _ _ n hsome
        obtain rfl := Option.some.inj hsome
        exact hok hfind
    next => exact .refl
  | createDelegate thread name physMountpointID prepared =>
    cases h
    rw [createDelegate]
    split
    next => exact .refl
    next hfind =>
      split
      next =>
        refine .single (Or.inr ⟨_, some name, ht.mountRoot_mem, ?_,
          adds_addNode ht.mountRoot_mem (ht.ne_next ht.mountRoot_mem) rfl⟩)
        intro hok _ _ n hsome
        obtain rfl := Option.some.inj hsome
        exact hok (Option.not_isSome_iff_eq_none.1 hfind)
      next => exact .refl

end Vfs

/-! ## Runs -/

namespace FileSystem

theorem tree_root : (empty.createNode { id := 0, type := .root, delegate := some .ramdisk }).1.Tree ∧
    (empty.createNode { id := 0, type := .root, delegate := some .ramdisk }).1.Named := by
  obtain ⟨fs, hfs⟩ : ∃ fs,
      fs = (empty.createNode { id := 0, type := .root, delegate := some .ramdisk }).1 := ⟨_, rfl⟩
  rw [← hfs]
  have hget : ∀ id, fs.nodes.get id =
      if id = 0 then some { id := 0, type := .root, delegate := some .ramdisk } else none := by
    intro id
    simp [hfs, createNode, HashMap.get_add, empty, HashMap.get_empty]
  have hhas : ∀ id, fs.Has id ↔ id = 0 := by
    intro id
    rw [Has, hget]
    split <;> simp_all
  have hchildren : ∀ id, fs.childrenOf id = [] := by
    intro id
    rw [childrenOf, hget]
    split <;> rfl
  have hname : ∀ id, fs.nameOf id = none := by
    intro id
    rw [nameOf, hget]
    split <;> rfl
  have hparent : ∀ id, fs.parentOf id = none := by
    intro id
    rw [parentOf, hget]
    split <;> rfl
  have hroots : fs.root = 0 ∧ fs.mountRoot = 0 ∧ fs.pipeRoot = 0 ∧ fs.nodeNextID = 1 := by
    rw [hfs]
    exact ⟨rfl, rfl, rfl, rfl⟩
  obtain ⟨hroot, hmount, hpipe, hnext⟩ := hroots
  refine ⟨{ root_mem := ?_, root_parent := ?_, mountRoot_mem := ?_, pipeRoot_mem := ?_, lt := ?_,
            above := ?_, child := ?_, nodup := ?_ }, { distinct := ?_, valid := ?_, above := ?_ }⟩
  all_goals simp [hroot, hmount, hpipe, hnext, hhas, hchildren, hname, hparent]

theorem tree_createMountpoint {fs : FileSystem} (h : fs.Tree ∧ fs.Named) (parent : Nat)
    (name : List Char) (delegate : FsDelegate) (hparent : fs.Has parent)
    (hfits : fs.Fits parent name) :
    (fs.createMountpoint parent name delegate).1.Tree ∧
      (fs.createMountpoint parent name delegate).1.Named := by
  have ha : Adds fs (fs.createMountpoint parent name delegate).1 parent (some name) :=
    adds_addNode hparent (h.1.ne_next hparent) rfl
  refine ⟨h.1.adds hparent ha, h.2.adds h.1 hparent ?_ ha⟩
  rintro n ⟨⟩
  exact hfits

theorem tree_setRoots {fs : FileSystem} (h : fs.Tree ∧ fs.Named) {root mountRoot pipeRoot : Nat}
    (hroot : fs.root = root) (hmount : fs.Has mountRoot) (hpipe : fs.Has pipeRoot) :
    ({ fs with root, mountRoot, pipeRoot } : FileSystem).Tree ∧
      ({ fs with root, mountRoot, pipeRoot } : FileSystem).Named := by
  subst hroot
  exact ⟨{ root_mem := h.1.root_mem
           root_parent := h.1.root_parent
           mountRoot_mem := hmount
           pipeRoot_mem := hpipe
           lt := h.1.lt
           above := h.1.above
           child := h.1.child
           nodup := h.1.nodup },
         { distinct := h.2.distinct, valid := h.2.valid, above := h.2.above }⟩

theorem initialResources_tree : initialResources.Tree ∧ initialResources.Named := by
  have hmount := tree_createMountpoint tree_root 0 ['m', 'o', 'u', 'n', 't'] .mount
    (by decide +kernel) (by decide +kernel)
  have hramdisk := tree_createMountpoint hmount 1 ['r', 'a', 'm', 'd', 'i', 's', 'k'] .ramdisk
    (by decide +kernel) (by decide +kernel)
  have hpipe := tree_createMountpoint hramdisk 1 ['p', 'i', 'p', 'e'] .pipe
    (by decide +kernel) (by decide +kernel)
  exact tree_setRoots hpipe (by decide +kernel) (by decide +kernel) (by decide +kernel)

/-- The named children of every node have different names. -/
def NamesDistinct (fs : FileSystem) : Prop :=
  ∀ id, ((fs.childrenOf id).filterMap fs.nameOf).Nodup

/-- Every named node is found through its own path. -/
def NodesFound (fs : FileSystem) : Prop :=
  ∀ id, fs.nameOf id ≠ none → (fs.findExisting (fs.ownPath id)).child = some id

end FileSystem

namespace Vfs

theorem reachable_tree {ok : Vfs → VfsCall → Prop} {s : Vfs} (h : vfsCalls.Reachable ok s) :
    s.fs.Tree := by
  refine h.invariant (I := fun s => s.fs.Tree) ?_ ?_
  · intro s hinit
    rw [show s.fs = FileSystem.initialResources from hinit]
    exact initialResources_tree.1
  · intro s call s' ht _ hstep
    exact ht.grows (grows_call ht hstep)

theorem named_grows {P : Prop} {fs fs' : FileSystem} (hP : P) (ht : fs.Tree) (hn : fs.Named)
    (hg : Grows (Fitting P) fs fs') : fs'.Named := by
  induction hg with
  | refl => exact hn
  | tail hg hw ih =>
    have htree := ht.grows hg
    rcases hw with hs | ⟨parent, name, hparent, hfit, ha⟩
    · exact ih.sameShape hs
    · exact ih.adds htree hparent (hfit hP htree ih) ha

/-- In every run whose calls add no node that does not fit, names tell the nodes apart. -/
theorem names_distinct_and_found {s : Vfs} (h : vfsCalls.Reachable (fun s call => call.Ok s) s) :
    s.fs.NamesDistinct ∧ s.fs.NodesFound := by
  have hinv : s.fs.Tree ∧ s.fs.Named := by
    refine h.invariant (I := fun s => s.fs.Tree ∧ s.fs.Named) ?_ ?_
    · intro s hinit
      rw [show s.fs = FileSystem.initialResources from hinit]
      exact initialResources_tree
    · rintro s call s' ⟨ht, hn⟩ hok hstep
      have hg := grows_call ht hstep
      exact ⟨ht.grows hg, named_grows hok ht hn hg⟩
  obtain ⟨ht, hn⟩ := hinv
  refine ⟨hn.distinct, fun id hid => ?_⟩
  obtain ⟨n, hname⟩ := Option.ne_none_iff_exists'.1 hid
  exact hn.findExisting_ownPath ht (has_of_nameOf hname) (Or.inr hid)

/-- The initial resources over a ramdisk with a folder and a file in it. -/
def sample : Vfs where
  fs := FileSystem.initialResources
  ramdisk :=
    { headers :=
        [{ type := .folder, id := 1, parentid := 0, name := "a".toList },
         { type := .file, id := 2, parentid := 1, name := "b".toList }]
      nextUnusedId := 3 }

theorem names_distinct_in_sample : ∃ s : Vfs, vfsCalls.Reachable (fun s call => call.Ok s) s ∧
    (s.fs.findExisting "/a/b".toList).child = some 5 ∧
    (s.fs.findExisting "/mount/disk".toList).child = some 6 ∧
    s.fs.NamesDistinct ∧ s.fs.NodesFound := by
  obtain ⟨s, hs, hb, hdisk⟩ : ∃ s ∈ vfsCalls.runGuarded (fun s call => call.Ok s) sample
      [.discover "/a/b".toList, .discover "/a/b".toList, .createDelegate 8 "disk".toList 0 true,
        .refresh 0 0, .fsCreateNode 6 "c".toList .file 9, .openMissing 4 "d".toList 64],
      (s.fs.findExisting "/a/b".toList).child = some 5 ∧
      (s.fs.findExisting "/mount/disk".toList).child = some 6 := by
    decide +kernel
  have hreach := System.Reachable.of_runGuarded (.init rfl) hs
  exact ⟨s, hreach, hb, hdisk, names_distinct_and_found hreach⟩

/-- Two opens of the same path: each creates a node, named by the whole path, below the root. -/
theorem created_twice_under_one_name :
    ¬ ∀ s : Vfs, vfsCalls.Reachable (fun _ _ => True) s → s.fs.NamesDistinct ∧ s.fs.NodesFound := by
  intro h
  obtain ⟨s, hs, hnames⟩ : ∃ s ∈ vfsCalls.run sample [.discover "/x".toList,
      .openMissing 0 "/x".toList 64, .discover "/x".toList, .openMissing 0 "/x".toList 64],
      (s.fs.childrenOf 0).filterMap s.fs.nameOf = ["/x".toList, "/x".toList, "mount".toList] := by
    decide +kernel
  have hdistinct := (h s (System.reachable_of_run (show vfsCalls.init sample from rfl) hs)).1 0
  rw [hnames] at hdistinct
  exact absurd hdistinct (by decide)

end Vfs

end MeetixOS.Kernel
