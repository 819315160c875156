import Mathlib.Data.List.Perm.Basic
import MeetixOS.Lib.Chain
import MeetixOS.Kernel.Types

/-! # The kernel's hash map

`utils/HashMap.hpp`: 64 buckets, each a chain of nodes. A `HashMap` carries what its representation keeps:
a node sits in the bucket of its key, and no key has two nodes. `size` is the counter of the class, which
`add` increments also when it overwrites. -/

namespace MeetixOS.Kernel

open MeetixOS.Lib

/-- `HashAble::hashcode`, the `uint32_t` hash of a key. -/
class HashAble (K : Type) where
  hashcode : K → Nat

/-- Unsigned keys hash to themselves, cut to 32 bits. -/
instance : HashAble Nat := ⟨fun value => u32 value⟩

/-- Signed keys are sign-extended to 64 bits and then cut to 32. -/
instance : HashAble Int := ⟨fun value => (value % 2 ^ 32).toNat⟩

/-- `_bucketCount`, as the constructor sets it. -/
def bucketCount : Nat := 64

variable {K V : Type}

/-- `HashAble::hashcode(key) % _bucketCount`. -/
def bucketIndex [HashAble K] (key : K) : Nat := HashAble.hashcode key % bucketCount

theorem bucketIndex_lt [HashAble K] (key : K) : bucketIndex key < bucketCount :=
  Nat.mod_lt _ (by decide)

/-- `HashMap<KeyType, ValueType>`. -/
structure HashMap (K V : Type) [HashAble K] where
  buckets : List (List (K × V))
  size : Nat
  buckets_length : buckets.length = bucketCount
  hashed : ∀ i bucket, buckets[i]? = some bucket → ∀ e ∈ bucket, bucketIndex e.1 = i
  nodup : ∀ bucket ∈ buckets, (chainKeys bucket).Nodup

namespace HashMap

variable [HashAble K]

/-! ## Operations -/

/-- `_buckets[bucketIndex]`. -/
def bucket (m : HashMap K V) (key : K) : List (K × V) :=
  m.buckets.get ⟨bucketIndex key, m.buckets_length ▸ bucketIndex_lt key⟩

/-- The constructor: 64 empty buckets. -/
def empty : HashMap K V where
  buckets := List.replicate bucketCount []
  size := 0
  buckets_length := List.length_replicate
  hashed i bucket h e he := by
    rw [List.eq_of_mem_replicate (List.mem_of_getElem? h)] at he
    cases he
  nodup bucket h := by
    rw [List.eq_of_mem_replicate h]
    exact List.nodup_nil

/-- Replace the bucket of `key` by the chain `chain`, whose keys are those of the bucket or `key`. -/
def setBucket (m : HashMap K V) (key : K) (chain : List (K × V)) (size : Nat)
    (hkeys : ∀ j ∈ chainKeys chain, j ∈ chainKeys (m.bucket key) ∨ j = key)
    (hnodup : (chainKeys chain).Nodup) : HashMap K V where
  buckets := m.buckets.set (bucketIndex key) chain
  size := size
  buckets_length := by rw [List.length_set, m.buckets_length]
  hashed i bucket h e he := by
    by_cases hi : bucketIndex key = i
    · rw [List.getElem?_set, if_pos hi] at h
      split at h
      · cases h
        rcases hkeys _ (List.mem_map_of_mem he) with hold | hnew
        · obtain ⟨old, hold, holdkey⟩ := List.mem_map.1 hold
          rw [← holdkey, ← hi]
          exact m.hashed _ _ (List.getElem?_eq_getElem _) _ hold
        · rw [hnew, hi]
      · cases h
    · rw [List.getElem?_set_ne hi] at h
      exact m.hashed _ _ h _ he
  nodup bucket h := by
    rcases List.mem_or_eq_of_mem_set h with hold | rfl
    · exact m.nodup _ hold
    · exact hnodup

theorem bucket_nodup (m : HashMap K V) (key : K) : (chainKeys (m.bucket key)).Nodup :=
  m.nodup _ (List.get_mem _ _)

variable {m m' : HashMap K V} {key : K} {value : V} {p : V → Bool}

theorem bucket_setBucket {chain : List (K × V)} {size : Nat}
    {hkeys : ∀ j ∈ chainKeys chain, j ∈ chainKeys (m.bucket key) ∨ j = key}
    {hnodup : (chainKeys chain).Nodup} (j : K) :
    (m.setBucket key chain size hkeys hnodup).bucket j =
      if bucketIndex j = bucketIndex key then chain else m.bucket j := by
  simp [bucket, setBucket, List.get_eq_getElem, List.getElem_set, eq_comm]

/-- The nodes in the order `begin()`, `++` visits them. -/
def entries (m : HashMap K V) : List (K × V) := m.buckets.flatten

theorem entries_keys_nodup (m : HashMap K V) : (chainKeys m.entries).Nodup := by
  rw [chainKeys, entries, List.map_flatten, List.nodup_flatten]
  refine ⟨?_, ?_⟩
  · intro keys hkeys
    obtain ⟨b, hb, rfl⟩ := List.mem_map.1 hkeys
    exact m.nodup b hb
  · -- a key of two buckets would have both their indices as its own
    rw [List.pairwise_map, List.pairwise_iff_getElem]
    intro i j hi hj hij key hkeyi hkeyj
    obtain ⟨ei, hei, rfl⟩ := List.mem_map.1 hkeyi
    obtain ⟨ej, hej, hejk⟩ := List.mem_map.1 hkeyj
    have hidx := m.hashed i _ (List.getElem?_eq_getElem hi) ei hei
    have hjdx := m.hashed j _ (List.getElem?_eq_getElem hj) ej hej
    rw [hejk, hidx] at hjdx
    exact hij.ne hjdx

theorem entries_nodup (m : HashMap K V) : m.entries.Nodup :=
  List.Nodup.of_map _ m.entries_keys_nodup

variable [DecidableEq K]

def get (m : HashMap K V) (key : K) : Option V := chainGet key (m.bucket key)

def add (m : HashMap K V) (key : K) (value : V) : HashMap K V :=
  m.setBucket key (chainAdd key value (m.bucket key)) (u32 (m.size + 1))
    (by
      intro j hj
      rw [chainKeys_add] at hj
      split at hj
      · exact Or.inl hj
      · simpa using hj)
    (chainKeys_add_nodup (m.bucket_nodup key))

def erase (m : HashMap K V) (key : K) : HashMap K V :=
  m.setBucket key (chainErase key (m.bucket key))
    (if (m.get key).isSome then u32 (m.size + 2 ^ 32 - 1) else m.size)
    (fun _ hj => Or.inl ((chainKeys_erase_sublist key _).subset hj))
    (chainKeys_erase_nodup (m.bucket_nodup key))

/-- A write through the pointer a node holds: the value of `key` changes in place. -/
def update (m : HashMap K V) (key : K) (value : V) : HashMap K V :=
  m.setBucket key (chainUpdate key value (m.bucket key)) m.size
    (fun _ hj => Or.inl (chainKeys_update key value _ ▸ hj))
    (by rw [chainKeys_update]; exact m.bucket_nodup key)

/-! ## What the operations do to each key -/

@[simp] theorem get_empty (key : K) : (empty : HashMap K V).get key = none := by
  have hbucket : (empty : HashMap K V).bucket key = [] := by
    simp [bucket, empty]
  rw [get, hbucket, chainGet]

section

variable (m : HashMap K V) (key j : K)

theorem get_add (value : V) :
    (m.add key value).get j = if j = key then some value else m.get j := by
  rw [get, add, bucket_setBucket]
  by_cases hb : bucketIndex j = bucketIndex key
  · have hsame : m.bucket j = m.bucket key := by simp only [bucket, hb]
    rw [if_pos hb, chainGet_add, get, hsame]
  · rw [if_neg hb, if_neg (fun h => hb (congrArg bucketIndex h)), get]

theorem get_erase : (m.erase key).get j = if j = key then none else m.get j := by
  rw [get, erase, bucket_setBucket]
  by_cases hb : bucketIndex j = bucketIndex key
  · have hsame : m.bucket j = m.bucket key := by simp only [bucket, hb]
    rw [if_pos hb, chainGet_erase (m.bucket_nodup key), get, hsame]
  · rw [if_neg hb, if_neg (fun h => hb (congrArg bucketIndex h)), get]

theorem get_update (value : V) :
    (m.update key value).get j = if j = key then (m.get key).map fun _ => value else m.get j := by
  rw [get, update, bucket_setBucket]
  by_cases hb : bucketIndex j = bucketIndex key
  · have hsame : m.bucket j = m.bucket key := by simp only [bucket, hb]
    rw [if_pos hb, chainGet_update, get, get, hsame]
  · rw [if_neg hb, if_neg (fun h => hb (congrArg bucketIndex h)), get]

end

/-! ## Iteration -/

theorem mem_entries :
    (key, value) ∈ m.entries ↔ m.get key = some value := by
  rw [get, chainGet_eq_some_iff (m.bucket_nodup key), entries, List.mem_flatten]
  constructor
  · rintro ⟨b, hb, he⟩
    obtain ⟨i, hi⟩ := List.mem_iff_getElem?.1 hb
    have hindex : bucketIndex key = i := m.hashed i b hi _ he
    have hget : m.buckets[bucketIndex key]? = some (m.bucket key) :=
      List.getElem?_eq_getElem _
    rw [hindex, hi] at hget
    cases hget
    exact he
  · intro he
    exact ⟨_, List.get_mem _ _, he⟩

theorem entries_perm_of_get_eq (h : ∀ key, m.get key = m'.get key) : m.entries.Perm m'.entries := by
  rw [List.perm_ext_iff_of_nodup m.entries_nodup m'.entries_nodup]
  rintro ⟨key, value⟩
  rw [mem_entries, mem_entries, h]

theorem entries_perm_cons (hkey : m.get key = none)
    (h : ∀ j, m'.get j = if j = key then some value else m.get j) :
    m'.entries.Perm ((key, value) :: m.entries) := by
  have hnot : (key, value) ∉ m.entries := by
    rw [mem_entries, hkey]
    exact Option.some_ne_none _ ∘ Eq.symm
  rw [List.perm_ext_iff_of_nodup m'.entries_nodup (List.nodup_cons.2 ⟨hnot, entries_nodup _⟩)]
  rintro ⟨j, w⟩
  rw [mem_entries, List.mem_cons, mem_entries, h]
  by_cases hj : j = key
  · subst hj
    simp [hkey, eq_comm]
  · simp [hj]

/-- The number of entries whose value satisfies `p`. -/
def count (p : V → Bool) (m : HashMap K V) : Nat := m.entries.countP fun e => p e.2

theorem count_congr (h : ∀ key, m.get key = m'.get key) : m.count p = m'.count p :=
  (entries_perm_of_get_eq h).countP_eq _

theorem count_insert
    (hkey : m.get key = none) (h : ∀ j, m'.get j = if j = key then some value else m.get j) :
    m'.count p = m.count p + if p value then 1 else 0 := by
  rw [count, (entries_perm_cons hkey h).countP_eq, List.countP_cons, count]

theorem count_remove
    (hkey : m.get key = some value) (h : ∀ j, m'.get j = if j = key then none else m.get j) :
    m.count p = m'.count p + if p value then 1 else 0 := by
  apply count_insert (by rw [h, if_pos rfl])
  intro j
  by_cases hj : j = key
  · rw [if_pos hj, hj, hkey]
  · rw [if_neg hj, h, if_neg hj]

theorem count_update {value value' : V} (hkey : m.get key = some value) (hp : p value' = p value) :
    (m.update key value').count p = m.count p := by
  have hupd : ∀ j, (m.erase key).get j = if j = key then none else (m.update key value').get j := by
    intro j
    rw [get_erase, get_update]
    split <;> rfl
  rw [count_remove hkey (get_erase m key),
    count_remove (by rw [get_update, if_pos rfl, hkey]; rfl) hupd, hp]

theorem count_pos :
    0 < m.count p ↔ ∃ key value, m.get key = some value ∧ p value = true := by
  rw [count, List.countP_pos_iff]
  constructor
  · rintro ⟨⟨key, value⟩, hmem, hp⟩
    exact ⟨key, value, mem_entries.1 hmem, hp⟩
  · rintro ⟨key, value, hget, hp⟩
    exact ⟨(key, value), mem_entries.2 hget, hp⟩

/-! ## Iterators

An iterator holds a pointer to the node it stands on. No key has two nodes, so the node is named by
its key; a key that is gone from the map stands for a node that was deleted. -/

/-- `HashMapIterator`; the end has no current node. -/
structure Iterator (K : Type) where
  bucketIndex : Nat
  current : Option K
  deriving DecidableEq

/-- The search for the next bucket that is not empty, from bucket `i` on. -/
def seek (i : Nat) : List (List (K × V)) → Iterator K
  | [] => ⟨i, none⟩
  | [] :: rest => seek (i + 1) rest
  | (e :: _) :: _ => ⟨i, some e.1⟩

def begin (m : HashMap K V) : Iterator K := seek 0 m.buckets

/-- `_current->next`, the key of the node behind `key` in its chain. -/
def chainNext (key : K) : List (K × V) → Option K
  | [] => none
  | e :: es => if e.1 = key then es.head?.map Prod.fst else chainNext key es

/-- `operator++`; `none` where it reads a null pointer or a node that was deleted. -/
def next (m : HashMap K V) (it : Iterator K) : Option (Iterator K) := do
  let key ← it.current
  if (m.get key).isNone then none
  else match chainNext key (m.buckets.getD it.bucketIndex []) with
    | some key => some { it with current := some key }
    | none => some (seek (it.bucketIndex + 1) (m.buckets.drop (it.bucketIndex + 1)))

/-- The iterator stands in front of `rest`, the entries that it still visits. -/
def AtEntries (m : HashMap K V) (it : Iterator K) (rest : List (K × V)) : Prop :=
  it.current = rest.head?.map Prod.fst ∧
    (rest ≠ [] → ∃ chain before, rest = chain ++ (m.buckets.drop (it.bucketIndex + 1)).flatten ∧
      m.buckets[it.bucketIndex]? = some (before ++ chain) ∧ chain ≠ [])

omit [DecidableEq K] in
theorem atEntries_seek (m : HashMap K V) (i : Nat) :
    m.AtEntries (seek i (m.buckets.drop i)) (m.buckets.drop i).flatten := by
  induction hrest : m.buckets.drop i generalizing i with
  | nil => exact ⟨rfl, fun h => absurd rfl h⟩
  | cons bucket rest ih =>
    have htail : m.buckets.drop (i + 1) = rest := by
      rw [← List.drop_drop, hrest, List.drop_one, List.tail_cons]
    have hget : m.buckets[i]? = some bucket := by
      have := congrArg List.head? hrest
      rwa [List.head?_drop, List.head?_cons] at this
    cases bucket with
    | nil =>
      have := ih (i + 1) htail
      rwa [seek, List.flatten_cons, List.nil_append]
    | cons e es =>
      refine ⟨rfl, fun _ => ⟨e :: es, [], ?_, hget, List.cons_ne_nil _ _⟩⟩
      rw [seek, htail, List.flatten_cons]

omit [DecidableEq K] in
theorem atEntries_begin (m : HashMap K V) : m.AtEntries m.begin m.entries :=
  m.atEntries_seek 0

theorem AtEntries.next {it : Iterator K} {e : K × V} {rest : List (K × V)}
    (h : m.AtEntries it (e :: rest)) : ∃ it', m.next it = some it' ∧ m.AtEntries it' rest := by
  obtain ⟨hcurrent, hbucket⟩ := h
  obtain ⟨chain, before, hrest, hget, hne⟩ := hbucket (List.cons_ne_nil _ _)
  cases chain with
  | nil => exact absurd rfl hne
  | cons e' chain =>
    obtain ⟨rfl, rfl⟩ := hrest
    have hmem : e ∈ m.entries :=
      List.mem_flatten.2 ⟨_, List.mem_of_getElem? hget, by simp⟩
    have hthere : m.get e.1 = some e.2 := mem_entries.1 hmem
    -- the keys before the current node are different from its key
    have hbefore : e.1 ∉ chainKeys before := by
      intro hkey
      have hnodup := m.nodup _ (List.mem_of_getElem? hget)
      rw [chainKeys, List.map_append, List.nodup_append] at hnodup
      exact hnodup.2.2 _ hkey e.1 (by simp) rfl
    have hchainNext : chainNext e.1 (before ++ e :: chain) = chain.head?.map Prod.fst := by
      clear hget
      induction before with
      | nil => rw [List.nil_append, chainNext, if_pos rfl]
      | cons b before ih =>
        have hb : b.1 ≠ e.1 := fun heq => hbefore (by simp [chainKeys, heq])
        rw [List.cons_append, chainNext, if_neg hb]
        exact ih fun hmem => hbefore (List.mem_cons_of_mem _ hmem)
    have hbuckets : m.buckets.getD it.bucketIndex [] = before ++ e :: chain := by
      rw [List.getD_eq_getElem?_getD, hget, Option.getD_some]
    rw [HashMap.next, hcurrent]
    simp only [List.head?_cons, Option.map_some, Option.bind_eq_bind, Option.bind_some, hthere,
      Option.isNone_some, Bool.false_eq_true, if_false, hbuckets, hchainNext]
    cases chain with
    | nil => exact ⟨_, rfl, m.atEntries_seek (it.bucketIndex + 1)⟩
    | cons e2 chain =>
      refine ⟨_, rfl, rfl, fun _ => ⟨e2 :: chain, before ++ [e], rfl, ?_, List.cons_ne_nil _ _⟩⟩
      rw [hget, List.append_assoc, List.singleton_append]

theorem next_of_erased {it : Iterator K} (hcurrent : it.current = some key)
    (herased : m.get key = none) : m.next it = none := by
  rw [HashMap.next, hcurrent]
  simp [herased]

end HashMap

end MeetixOS.Kernel
