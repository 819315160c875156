import MeetixOS.Lib.PartialMap
import MeetixOS.LibTC.Map

/-! # The partial map in the buckets

A `Map` lists a finite partial map: each pair lies in the bucket of its key's hash, no key occurs twice
and the counter is the number of pairs. One lemma for each operation says that it keeps this and answers
as the partial map does. Only a map without buckets, which is what moving leaves behind, cannot look a
key up. -/

open Slots PartialMap

namespace LibTC

namespace Map

variable {K T : Type} {m : Map K T} {bucket : List (K × T)}
  {buckets before after : List (List (K × T))} {s : K → Option T}
  {traits : Traits K} {key : K} {value : T}

/-! ## Buckets -/

/-- The vector of vectors holds the lists of pairs. -/
def Shelves (storage : Vector (Vector (K × T))) (buckets : List (List (K × T))) : Prop :=
  ∃ vectors, storage.Holds vectors ∧ List.Forall₂ Vector.Holds vectors buckets

/-- The pairs are in the buckets of their keys. -/
def Filed (traits : Traits K) (buckets : List (List (K × T))) : Prop :=
  ∀ i bucket, buckets[i]? = some bucket → ∀ pair ∈ bucket, traits.hash pair.1 % buckets.length = i

/-- The map lists the partial map. -/
structure Holds (traits : Traits K) (m : Map K T) (buckets : List (List (K × T)))
    (s : K → Option T) : Prop where
  shelves : Shelves m.bucketsStorage buckets
  filed : Filed traits buckets
  lists : Lists s buckets.flatten
  count : m.valuesCount = buckets.flatten.length

variable {storage : Vector (Vector (K × T))}

theorem Shelves.count (h : Shelves storage buckets) : storage.valuesCount = buckets.length := by
  obtain ⟨vectors, hstorage, hvectors⟩ := h
  rw [hstorage.count, hvectors.length_eq]

theorem Shelves.focus (h : Shelves storage (before ++ bucket :: after)) :
    ∃ vector, storage.valueAt before.length = .ok vector ∧ vector.Holds bucket ∧
      ∀ vector' bucket', vector'.Holds bucket' →
        ∃ storage', storage.setAt before.length vector' = .ok storage' ∧
          Shelves storage' (before ++ bucket' :: after) := by
  obtain ⟨vectors, hstorage, hvectors⟩ := h
  have hfront := List.forall₂_take_append vectors before (bucket :: after) hvectors
  obtain ⟨vector, block, hvector, hblock, hdrop⟩ :=
    List.forall₂_cons_right_iff.1 (List.forall₂_drop_append vectors before (bucket :: after) hvectors)
  rw [← List.take_append_drop before.length vectors, hdrop] at hstorage
  have hlength := hfront.length_eq
  refine ⟨vector, ?_, hvector, ?_⟩
  · rw [← hlength]
    exact hstorage.valueAt
  · intro vector' bucket' hvector'
    obtain ⟨storage', hset, hstorage', -⟩ := hstorage.setAt vector'
    rw [← hlength]
    exact ⟨storage', hset, _, hstorage',
      List.rel_append hfront (.cons hvector' hblock)⟩

theorem Filed.replace (h : Filed traits (before ++ bucket :: after)) {bucket' : List (K × T)}
    (hnew : ∀ pair ∈ bucket', traits.hash pair.1 % (before ++ bucket :: after).length = before.length) :
    Filed traits (before ++ bucket' :: after) := by
  have hlength : (before ++ bucket' :: after).length = (before ++ bucket :: after).length := by simp
  intro i found hfound
  rw [hlength]
  rcases Nat.lt_trichotomy i before.length with hlt | rfl | hgt
  · refine h i found ?_
    rwa [List.getElem?_append_left hlt] at hfound ⊢
  · rw [List.getElem?_append_right (Nat.le_refl _), Nat.sub_self] at hfound
    cases hfound
    exact hnew
  · refine h i found ?_
    obtain ⟨k, hk⟩ := Nat.exists_eq_succ_of_ne_zero (show i - before.length ≠ 0 by omega)
    rw [List.getElem?_append_right hgt.le, hk] at hfound ⊢
    exact hfound

theorem Holds.bucketByHash (h : m.Holds traits buckets s) (hne : buckets ≠ []) (key : K) :
    ∃ before bucket after vector, buckets = before ++ bucket :: after ∧
      traits.hash key % buckets.length = before.length ∧
      m.bucketByHash traits key = .ok (before.length, vector) ∧ vector.Holds bucket := by
  have hlt : traits.hash key % buckets.length < buckets.length :=
    Nat.mod_lt _ (List.length_pos_iff.2 hne)
  have hsplit : buckets = buckets.take (traits.hash key % buckets.length) ++
      buckets[traits.hash key % buckets.length] ::
        buckets.drop (traits.hash key % buckets.length + 1) := by
    rw [← List.drop_eq_getElem_cons hlt, List.take_append_drop]
  have hlength : (buckets.take (traits.hash key % buckets.length)).length =
      traits.hash key % buckets.length := by
    rw [List.length_take]
    omega
  have hshelves := h.shelves
  rw [hsplit] at hshelves
  obtain ⟨vector, hread, hvector, -⟩ := hshelves.focus
  refine ⟨_, _, _, vector, hsplit, hlength.symm, ?_, hvector⟩
  rw [Map.bucketByHash, bucketIndex, h.shelves.count, if_neg (by omega), ok_bind]
  rw [hlength] at hread ⊢
  rw [hread]
  rfl

section

variable (h : m.Holds traits (before ++ bucket :: after) s)
  (hindex : traits.hash key % (before ++ bucket :: after).length = before.length)
include h hindex

theorem Holds.mem_bucket : s key = some value ↔ (key, value) ∈ bucket := by
  rw [h.lists.mem, List.mem_flatten]
  constructor
  · rintro ⟨found, hmem, hpair⟩
    obtain ⟨i, hi⟩ := List.mem_iff_getElem?.1 hmem
    have hfiled := h.filed i found hi _ hpair
    rw [hindex] at hfiled
    rw [← hfiled, List.getElem?_append_right (Nat.le_refl _), Nat.sub_self] at hi
    cases hi
    exact hpair
  · intro hpair
    exact ⟨bucket, by simp, hpair⟩

theorem Holds.ne_of_other {pair : K × T} (hpair : pair ∈ before.flatten ∨ pair ∈ after.flatten) :
    key ≠ pair.1 := by
  rintro rfl
  rcases hpair with hpair | hpair
  · obtain ⟨other, hother, hmem⟩ := List.mem_flatten.1 hpair
    obtain ⟨i, hi⟩ := List.mem_iff_getElem?.1 hother
    have hlt := (List.getElem?_eq_some_iff.1 hi).1
    have hfiled := h.filed i other (by rw [List.getElem?_append_left hlt, hi]) pair hmem
    omega
  · obtain ⟨other, hother, hmem⟩ := List.mem_flatten.1 hpair
    obtain ⟨i, hi⟩ := List.mem_iff_getElem?.1 hother
    have hfiled := h.filed (before.length + (i + 1)) other
      (by rw [List.getElem?_append_right (Nat.le_add_right _ _), Nat.add_sub_cancel_left]; exact hi) pair hmem
    omega

end

theorem flatten_split (before : List (List (K × T))) (bucket : List (K × T))
    (after : List (List (K × T))) :
    (before ++ bucket :: after).flatten = before.flatten ++ (bucket ++ after.flatten) := by
  rw [List.flatten_append, List.flatten_cons]

/-! ## Construction -/

section

variable (traits : Traits K)

theorem holds_left : Holds traits ({} : Map K T) [] fun _ => none :=
  ⟨⟨[], Vector.holds_empty, .nil⟩, fun _ _ hbucket => (by cases hbucket), lists_empty, rfl⟩

theorem filed_replicate (n : Nat) : Filed traits (List.replicate n ([] : List (K × T))) := by
  intro i bucket hbucket pair hpair
  obtain ⟨hlt, rfl⟩ := List.getElem?_eq_some_iff.1 hbucket
  rw [List.getElem_replicate] at hpair
  cases hpair

theorem holds_replicate {n : Nat} (h : storage.Holds (List.replicate n {})) :
    Holds traits { bucketsStorage := storage, valuesCount := 0 } (List.replicate n [])
      fun _ => none := by
  have hflatten : (List.replicate n ([] : List (K × T))).flatten = [] := by
    rw [List.flatten_eq_nil_iff]
    exact fun _ hbucket => List.eq_of_mem_replicate hbucket
  refine ⟨⟨_, h, ?_⟩, filed_replicate traits n, ?_, ?_⟩
  · rw [List.forall₂_iff_get]
    refine ⟨by simp, ?_⟩
    intro i hi hi'
    simpa using Vector.holds_empty
  · rw [hflatten]
    exact lists_empty
  · rw [hflatten]
    rfl

theorem ofBucketCount_holds {n : Nat} (hpos : 0 < n) (hlt : n < 2 ^ 32) :
    ∃ m : Map K T, ofBucketCount true n = .ok m ∧
      m.Holds traits (List.replicate n []) fun _ => none := by
  obtain ⟨storage, hensure, h, hroom⟩ := Vector.ensureCapacity_first (α := Vector (K × T)) hpos hlt false
  obtain ⟨buckets, hresize, hbuckets⟩ :=
    @Vector.Holds.tryResize_within _ _ _ ⟨{}⟩ h false true n (Nat.zero_le n) hroom
  refine ⟨{ bucketsStorage := buckets }, ?_, holds_replicate traits hbuckets⟩
  rw [ofBucketCount, Vector.ofCapacity, hensure, ok_bind, hresize]
  rfl

end

theorem Holds.clear (h : m.Holds traits buckets s) (granted : Bool) :
    ∃ m', m.clear granted = .ok m' ∧
      m'.Holds traits (List.replicate m.bucketsStorage.dataCapacity []) fun _ => none := by
  obtain ⟨vectors, hstorage, -⟩ := h.shelves
  obtain ⟨cleared, hclear, hempty, hkept⟩ := hstorage.clear false true
  obtain ⟨storage, hresize, hbuckets⟩ := @Vector.Holds.tryResize_within _ _ _ ⟨{}⟩ hempty false granted
    m.bucketsStorage.dataCapacity (Nat.zero_le _) (hkept rfl).ge
  refine ⟨{ bucketsStorage := storage, valuesCount := 0 }, ?_, holds_replicate traits hbuckets⟩
  rw [Map.clear, hclear, ok_bind, hresize]
  rfl

/-! ## Looking up -/

variable [DecidableEq K]

section

variable (h : m.Holds traits buckets s) (hne : buckets ≠ []) (key : K)
include h hne

theorem Holds.findPairByKey :
    (∃ before front block after value, buckets = before ++ (front ++ (key, value) :: block) :: after ∧
        traits.hash key % buckets.length = before.length ∧ s key = some value ∧
        m.findPairByKey traits key = .ok (some (before.length, front.length, (key, value)))) ∨
      s key = none ∧ m.findPairByKey traits key = .ok none := by
  obtain ⟨before, bucket, after, vector, rfl, hindex, hbucket, hvector⟩ := h.bucketByHash hne key
  rw [Map.findPairByKey, hbucket, ok_bind]
  dsimp only
  rcases hvector.indexIf (fun pair => pair.1 == key) with
    ⟨front, ⟨j, value⟩, block, rfl, hkey, hfind⟩ | ⟨hnone, hfind⟩
  · obtain rfl : j = key := beq_iff_eq.1 hkey
    refine .inl ⟨before, front, block, after, value, rfl, hindex, ?_, ?_⟩
    · rw [h.mem_bucket hindex]
      simp
    · rw [hfind, ok_bind]
      dsimp only
      rw [hvector.valueAt]
      rfl
  · refine .inr ⟨?_, by rw [hfind]; rfl⟩
    rw [Option.eq_none_iff_forall_ne_some]
    intro value hvalue
    have hother := hnone _ ((h.mem_bucket hindex).1 hvalue)
    simp at hother

theorem Holds.valueAt : m.valueAt traits key = .ok (s key) := by
  rw [Map.valueAt]
  rcases h.findPairByKey hne key with ⟨_, _, _, _, value, -, -, hvalue, hfind⟩ | ⟨hnone, hfind⟩
  · rw [hfind, hvalue]
    rfl
  · rw [hfind, hnone]
    rfl

theorem Holds.hasKey : m.hasKey traits key = .ok (s key).isSome := by
  rw [Map.hasKey]
  rcases h.findPairByKey hne key with ⟨_, _, _, _, value, -, -, hvalue, hfind⟩ | ⟨hnone, hfind⟩
  · rw [hfind, hvalue]
    rfl
  · rw [hfind, hnone]
    rfl

end

/-! ## Insertion -/

omit [DecidableEq K] in
theorem insertPair_spec {vector : Vector (K × T)} (h : vector.Holds bucket) (traits : Traits K)
    (granted : Bool) (pair : K × T) (hgrow : vector.Growable (bucket.length + 1)) :
    (∃ vector' bucket', insertPair traits granted pair vector = .ok (.ok (), vector') ∧
        vector'.Holds bucket' ∧ bucket'.Perm (pair :: bucket)) ∨
      granted = false ∧ insertPair traits granted pair vector = .ok (.error .enomem, vector) := by
  rw [insertPair]
  split
  next =>
    rcases h.tryInsertSorted false granted (fun a b => traits.greater a.1 b.1) pair hgrow with
      ⟨vector', hinsert, h'⟩ | hrefused
    · refine .inl ⟨vector', _, hinsert, h', List.perm_middle.trans ?_⟩
      rw [List.takeWhile_append_dropWhile]
    · exact .inr hrefused
  next =>
    rcases h.tryAppend false granted pair hgrow with ⟨vector', hinsert, h'⟩ | hrefused
    · exact .inl ⟨vector', _, hinsert, h', List.perm_append_singleton pair bucket⟩
    · exact .inr hrefused

/-- The bucket that `try_insert` appends to can grow. -/
def BucketGrowable (traits : Traits K) (key : K) (m : Map K T) : Prop :=
  ∀ index vector, m.bucketByHash traits key = .ok (index, vector) →
    vector.Growable (vector.valuesCount + 1)

section

variable (h : m.Holds traits buckets s) (hne : buckets ≠ []) (granted : Bool)
include h hne

theorem Holds.tryInsert_new (mode : OnExistingKey) (value : T) (hnew : s key = none)
    (hgrow : m.BucketGrowable traits key) :
    (∃ m' buckets', m.tryInsert traits granted key value mode = .ok (.ok none, m') ∧ buckets' ≠ [] ∧
        m'.Holds traits buckets' (Function.update s key (some value))) ∨
      granted = false ∧ m.tryInsert traits granted key value mode = .ok (.error .enomem, m) := by
  have hfind : m.findPairByKey traits key = .ok none := by
    rcases h.findPairByKey hne key with ⟨_, _, _, _, old, -, -, hold, -⟩ | ⟨-, hfind⟩
    · rw [hold] at hnew
      cases hnew
    · exact hfind
  obtain ⟨before, bucket, after, vector, rfl, hindex, hbucket, hvector⟩ := h.bucketByHash hne key
  have hgrow' := hgrow _ _ hbucket
  rw [hvector.count] at hgrow'
  rw [Map.tryInsert, hfind, ok_bind]
  simp only [hbucket, ok_bind]
  rcases insertPair_spec hvector traits granted (key, value) hgrow' with
    ⟨vector', bucket', hinsert, hvector', hperm⟩ | ⟨hrefused, hinsert⟩
  · obtain ⟨-, -, -, hset⟩ := h.shelves.focus
    obtain ⟨storage', hset, hshelves⟩ := hset vector' bucket' hvector'
    have hpairs : ((key, value) :: (before ++ bucket :: after).flatten).Perm
        (before ++ bucket' :: after).flatten := by
      rw [flatten_split, flatten_split]
      exact List.perm_middle.symm.trans ((hperm.symm.append_right _).append_left _)
    refine .inl ⟨{ bucketsStorage := storage', valuesCount := m.valuesCount + 1 }, _, ?_,
      List.append_ne_nil_of_right_ne_nil _ (List.cons_ne_nil bucket' after), hshelves, ?_,
      (h.lists.insert hnew value).perm hpairs, ?_⟩
    · simp [hinsert, ok_bind, hset, pure_eq_ok]
    · refine h.filed.replace ?_
      intro pair hpair
      rcases List.mem_cons.1 (hperm.mem_iff.1 hpair) with rfl | hmem
      · exact hindex
      · exact h.filed before.length bucket (by simp) pair hmem
    · rw [← hpairs.length_eq, List.length_cons, h.count]
  · refine .inr ⟨hrefused, ?_⟩
    rw [hinsert]
    rfl

theorem Holds.tryInsert_update (value : T) {old : T} (hold : s key = some old) :
    ∃ m' buckets', m.tryInsert traits granted key value .update = .ok (.ok (some old), m') ∧
      buckets' ≠ [] ∧ m'.Holds traits buckets' (Function.update s key (some value)) := by
  rcases h.findPairByKey hne key with
    ⟨before, front, block, after, found, rfl, hindex, hfound, hfind⟩ | ⟨hnone, -⟩
  · rw [hold] at hfound
    cases hfound
    obtain ⟨vector, hread, hvector, hset⟩ := h.shelves.focus
    obtain ⟨vector', hput, hvector', -⟩ := hvector.setAt (key, value)
    obtain ⟨storage', hset, hshelves⟩ := hset vector' _ hvector'
    have hlists := h.lists
    have hsplit : ∀ x : T, (before ++ (front ++ (key, x) :: block) :: after).flatten =
        (before.flatten ++ front) ++ (key, x) :: (block ++ after.flatten) := fun x => by
      simp
    rw [hsplit] at hlists
    refine ⟨{ m with bucketsStorage := storage' }, _, ?_,
      List.append_ne_nil_of_right_ne_nil _ (List.cons_ne_nil _ after), hshelves, ?_, ?_, ?_⟩
    · rw [Map.tryInsert, hfind, ok_bind]
      simp [hread, hput, hset, pure_eq_ok]
    · refine h.filed.replace ?_
      intro pair hpair
      have hfiled := h.filed before.length (front ++ (key, old) :: block) (by simp)
      rcases List.mem_append.1 hpair with hmem | hmem
      · exact hfiled pair (List.mem_append_left _ hmem)
      · rcases List.mem_cons.1 hmem with rfl | hmem
        · exact hindex
        · exact hfiled pair (List.mem_append_right _ (List.mem_cons_of_mem _ hmem))
    · rw [hsplit]
      exact hlists.overwrite value
    · rw [hsplit, h.count, hsplit]
      simp
  · rw [hold] at hnone
    cases hnone

theorem Holds.tryInsert_keep (value : T) {old : T} (hold : s key = some old) :
    m.tryInsert traits granted key value .keepOldValue = .ok (.ok none, m) := by
  rcases h.findPairByKey hne key with ⟨_, _, _, _, found, -, -, -, hfind⟩ | ⟨hnone, -⟩
  · rw [Map.tryInsert, hfind]
    rfl
  · rw [hold] at hnone
    cases hnone

end

/-! ## Removal -/

theorem Holds.eraseKey (h : m.Holds traits buckets s) (hne : buckets ≠ []) (key : K) :
    if (s key).isSome then
      ∃ m' buckets', m.eraseKey traits key = .ok (.ok (), m') ∧ buckets' ≠ [] ∧
        m'.Holds traits buckets' (Function.update s key none)
    else
      m.eraseKey traits key = .ok (.error .enoent, m) := by
  obtain ⟨before, bucket, after, vector, rfl, hindex, hbucket, hvector⟩ := h.bucketByHash hne key
  have herase := hvector.eraseAllMatches false fun pair => key == pair.1
  have hany : bucket.any (fun pair => key == pair.1) = true ↔ (s key).isSome := by
    rw [List.any_eq_true, Option.isSome_iff_exists]
    constructor
    · rintro ⟨⟨j, x⟩, hmem, hkey⟩
      obtain rfl : key = j := beq_iff_eq.1 hkey
      exact ⟨x, (h.mem_bucket hindex).2 hmem⟩
    · rintro ⟨x, hx⟩
      exact ⟨(key, x), (h.mem_bucket hindex).1 hx, beq_self_eq_true key⟩
  rw [Map.eraseKey, hbucket, ok_bind]
  dsimp only
  by_cases hsome : (s key).isSome
  · rw [if_pos hsome]
    rw [if_pos (hany.2 hsome)] at herase
    obtain ⟨vector', herase, hvector'⟩ := herase
    obtain ⟨-, -, -, hset⟩ := h.shelves.focus
    obtain ⟨storage', hset, hshelves⟩ := hset vector' _ hvector'
    -- only the key's own bucket has a pair to erase
    have hothers : ∀ pairs : List (K × T), (∀ pair ∈ pairs, key ≠ pair.1) →
        pairs.filter (fun pair => !(key == pair.1)) = pairs := fun pairs hne =>
      List.filter_eq_self.2 fun pair hpair => by simpa using hne pair hpair
    have hflatten : (before ++ (bucket.filter fun pair => !(key == pair.1)) :: after).flatten =
        (before ++ bucket :: after).flatten.filter fun pair => !(key == pair.1) := by
      rw [flatten_split, flatten_split, List.filter_append, List.filter_append,
        hothers _ fun pair hpair => h.ne_of_other hindex (.inl hpair),
        hothers _ fun pair hpair => h.ne_of_other hindex (.inr hpair)]
    obtain ⟨pair, hmem, hkey⟩ := List.any_eq_true.1 (hany.2 hsome)
    have hall := h.lists.countP_key ⟨pair, List.mem_flatten.2 ⟨bucket, by simp, hmem⟩, hkey⟩
    have hone : bucket.countP (fun pair => key == pair.1) = 1 := by
      have hle := (List.sublist_flatten_of_mem (show bucket ∈ before ++ bucket :: after by simp)).countP_le
        (p := fun pair => key == pair.1)
      have hpos := List.countP_pos_iff (p := fun pair => key == pair.1).2 ⟨pair, hmem, hkey⟩
      omega
    refine ⟨{ bucketsStorage := storage', valuesCount := m.valuesCount - 1 }, _, ?_,
      List.append_ne_nil_of_right_ne_nil _ (List.cons_ne_nil _ after), hshelves, ?_, ?_, ?_⟩
    · rw [herase, ok_bind]
      simp [hone, verify_of, hset, pure_eq_ok]
    · refine h.filed.replace ?_
      intro pair hpair
      exact h.filed before.length bucket (by simp) pair (List.mem_of_mem_filter hpair)
    · rw [hflatten, ← filter_key]
      exact h.lists.filter _
    · rw [hflatten, length_filter_not, hall, h.count]
  · rw [if_neg hsome]
    rw [if_neg (mt hany.1 hsome)] at herase
    rw [herase]
    rfl

variable [BEq T]

omit [DecidableEq K] [BEq T] in
theorem eraseAllMatches_filter {vector : Vector (K × T)} (h : vector.Holds bucket)
    (matcher : K × T → Bool) :
    ∃ removed vector', vector.eraseAllMatches false matcher = .ok (removed, vector') ∧
      vector'.Holds (bucket.filter fun pair => !matcher pair) ∧
      (removed = .ok (bucket.countP matcher) ∨ removed = .error .enoent ∧ bucket.countP matcher = 0) := by
  have herase := h.eraseAllMatches false matcher
  by_cases hany : bucket.any matcher = true
  · rw [if_pos hany] at herase
    obtain ⟨vector', herase, h'⟩ := herase
    exact ⟨_, vector', herase, h', .inl rfl⟩
  · rw [if_neg hany] at herase
    rw [List.any_eq_true] at hany
    refine ⟨_, vector, herase, ?_, .inr ⟨rfl, ?_⟩⟩
    · rw [List.filter_eq_self.2]
      · exact h
      · intro pair hpair
        rw [Bool.not_eq_true', Bool.eq_false_iff]
        exact fun hmatch => hany ⟨pair, hpair, hmatch⟩
    · rw [List.countP_eq_zero]
      exact fun pair hpair hmatch => hany ⟨pair, hpair, hmatch⟩

omit [DecidableEq K] in
theorem eraseValueFrom_spec {storage : Vector (Vector (K × T))} (value : T) (removedKeysCount : Nat)
    {front rest : List (List (K × T))} (h : Shelves storage (front ++ rest)) :
    ∃ storage', eraseValueFrom value rest.length front.length removedKeysCount storage =
        .ok (removedKeysCount + rest.flatten.countP fun pair => pair.2 == value, storage') ∧
      Shelves storage' (front ++ rest.map fun bucket => bucket.filter fun pair => !(pair.2 == value)) := by
  induction rest generalizing front storage removedKeysCount with
  | nil => exact ⟨storage, rfl, h⟩
  | cons bucket rest ih =>
    obtain ⟨vector, hread, hvector, hset⟩ := h.focus
    obtain ⟨removed, vector', herase, hvector', hremoved⟩ :=
      eraseAllMatches_filter hvector fun pair => pair.2 == value
    obtain ⟨storage', hset, hshelves⟩ := hset vector' _ hvector'
    rw [List.append_cons] at hshelves
    have hlength : (front ++ [bucket.filter fun pair => !(pair.2 == value)]).length =
        front.length + 1 := List.length_append
    rw [List.length_cons, eraseValueFrom, hread, ok_bind, herase, ok_bind]
    dsimp only
    rw [hset, ok_bind, List.flatten_cons, List.countP_append, List.map_cons, List.append_cons]
    rcases hremoved with rfl | ⟨rfl, hzero⟩
    · obtain ⟨storage'', hrest, hshelves'⟩ :=
        ih (removedKeysCount + bucket.countP fun pair => pair.2 == value) hshelves
      rw [hlength, Nat.add_assoc] at hrest
      exact ⟨storage'', hrest, hshelves'⟩
    · obtain ⟨storage'', hrest, hshelves'⟩ := ih removedKeysCount hshelves
      rw [hlength] at hrest
      rw [hzero, Nat.zero_add]
      exact ⟨storage'', hrest, hshelves'⟩

omit [DecidableEq K] in
theorem Holds.eraseValue (h : m.Holds traits buckets s) (value : T) :
    ∃ m' buckets', m.eraseValue value =
        .ok (if buckets.flatten.countP (fun pair => pair.2 == value) = 0 then .error .enoent
          else .ok (buckets.flatten.countP fun pair => pair.2 == value), m') ∧
      (buckets' = [] ↔ buckets = []) ∧
      m'.Holds traits buckets' (filter (fun pair => !(pair.2 == value)) s) := by
  obtain ⟨storage', hloop, hshelves⟩ := eraseValueFrom_spec value 0
    (show Shelves m.bucketsStorage ([] ++ buckets) from h.shelves)
  rw [List.length_nil, Nat.zero_add] at hloop
  have hflatten := List.filter_flatten (p := fun pair : K × T => !(pair.2 == value)) (L := buckets)
  have hcount : m.valuesCount - buckets.flatten.countP (fun pair => pair.2 == value) =
      (buckets.flatten.filter fun pair => !(pair.2 == value)).length := by
    rw [length_filter_not, h.count]
  have hfiled : Filed traits (buckets.map fun bucket => bucket.filter fun pair => !(pair.2 == value)) := by
    intro i bucket hbucket pair hpair
    rw [List.getElem?_map] at hbucket
    obtain ⟨found, hfound, rfl⟩ := Option.map_eq_some_iff.1 hbucket
    rw [List.length_map]
    exact h.filed i found hfound pair (List.mem_of_mem_filter hpair)
  rw [Map.eraseValue, h.shelves.count, hloop, ok_bind]
  dsimp only
  by_cases hzero : buckets.flatten.countP (fun pair => pair.2 == value) = 0
  · rw [hzero, Nat.sub_zero] at hcount
    rw [if_pos hzero, if_pos hzero]
    refine ⟨_, _, rfl, List.map_eq_nil_iff, hshelves, hfiled, ?_, ?_⟩
    · rw [← hflatten]
      exact h.lists.filter _
    · rw [← hflatten]
      exact hcount
  · rw [if_neg hzero, if_neg hzero]
    refine ⟨_, _, rfl, List.map_eq_nil_iff, hshelves, hfiled, ?_, ?_⟩
    · rw [← hflatten]
      exact h.lists.filter _
    · rw [← hflatten]
      exact hcount

omit [DecidableEq K] in
theorem hasValueFrom_spec {storage : Vector (Vector (K × T))} (value : T)
    {front rest : List (List (K × T))} (h : Shelves storage (front ++ rest)) :
    hasValueFrom value storage rest.length front.length =
      .ok (rest.flatten.any fun pair => value == pair.2) := by
  induction rest generalizing front with
  | nil => rfl
  | cons bucket rest ih =>
    obtain ⟨vector, hread, hvector, -⟩ := h.focus
    rw [List.length_cons, hasValueFrom, hread, ok_bind, List.flatten_cons, List.any_append]
    rcases hvector.indexIf (fun pair => value == pair.2) with
      ⟨before, pair, after, rfl, hvalue, hfind⟩ | ⟨hnone, hfind⟩
    · have hany : (before ++ pair :: after).any (fun pair => value == pair.2) = true :=
        List.any_eq_true.2 ⟨pair, by simp, hvalue⟩
      rw [hfind, hany]
      rfl
    · have hany := List.any_eq_false.2 fun pair hpair => Bool.eq_false_iff.1 (hnone pair hpair)
      rw [List.append_cons] at h
      have hrest := ih h
      rw [show (front ++ [bucket]).length = front.length + 1 from List.length_append] at hrest
      rw [hfind, hany, Bool.false_or]
      exact hrest

omit [DecidableEq K] in
theorem Holds.hasValue (h : m.Holds traits buckets s) (value : T) :
    ∃ found, m.hasValue value = .ok found ∧
      (found = true ↔ ∃ key x, s key = some x ∧ (value == x) = true) := by
  refine ⟨buckets.flatten.any fun pair => value == pair.2, ?_, ?_⟩
  · rw [Map.hasValue, h.shelves.count]
    exact hasValueFrom_spec value (show Shelves m.bucketsStorage ([] ++ buckets) from h.shelves)
  · rw [List.any_eq_true]
    constructor
    · rintro ⟨⟨key, x⟩, hmem, hvalue⟩
      exact ⟨key, x, (h.lists.mem key x).2 hmem, hvalue⟩
    · rintro ⟨key, x, hx, hvalue⟩
      exact ⟨(key, x), (h.lists.mem key x).1 hx, hvalue⟩

end Map

end LibTC
