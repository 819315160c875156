import Mathlib.Data.Finmap
import MeetixOS.Kernel.Utils.HashMap

/-! # The hash map as a finite map

A run of calls to a `HashMap` against the same run on a finite map. Lookups and iterators agree with the
finite map in every run (`get_after`, `visits_begin`). The counter does not: `add` increments it also
where it only overwrites a value, so `size` is the number of keys as long as no key is added that is
there already (`represents_iff`). -/

namespace MeetixOS.Kernel

/-- The calls that a run is made of. -/
inductive MapCall (K V : Type)
  | add (key : K) (value : V)
  | erase (key : K)
  | get (key : K)

namespace HashMap

variable {K V : Type} [DecidableEq K]

/-! ## The finite map -/

/-- What a call does to the finite map. -/
def specCall (spec : Finmap fun _ : K => V) : MapCall K V → Finmap fun _ : K => V
  | .add key value => spec.insert key value
  | .erase key => spec.erase key
  | .get _ => spec

/-- The finite map after the calls. -/
def spec (calls : List (MapCall K V)) : Finmap fun _ : K => V := calls.foldl specCall ∅

section

variable (s : Finmap fun _ : K => V)

theorem lookup_insert (key j : K) (value : V) :
    (s.insert key value).lookup j = if j = key then some value else s.lookup j := by
  split
  next hj => rw [hj, Finmap.lookup_insert]
  next hj => exact Finmap.lookup_insert_of_ne s hj

theorem lookup_erase (key j : K) :
    (s.erase key).lookup j = if j = key then none else s.lookup j := by
  split
  next hj => rw [hj, Finmap.lookup_erase]
  next hj => exact Finmap.lookup_erase_ne hj

theorem keys_insert (key : K) (value : V) : (s.insert key value).keys = insert key s.keys := by
  ext j
  rw [Finmap.mem_keys, Finmap.mem_insert, Finset.mem_insert, Finmap.mem_keys]

end

theorem spec_append (before : List (MapCall K V)) (call : MapCall K V) :
    spec (before ++ [call]) = specCall (spec before) call := by
  rw [spec, List.foldl_append, List.foldl_cons, List.foldl_nil, spec]

/-! ## Runs -/

variable [HashAble K]

/-- What a call does to the map; what `get` returns is `HashMap.get` of the map. -/
def call (m : HashMap K V) : MapCall K V → HashMap K V
  | .add key value => m.add key value
  | .erase key => m.erase key
  | .get _ => m

/-- The map after the calls. -/
def after (calls : List (MapCall K V)) : HashMap K V := calls.foldl call empty

theorem after_append (before : List (MapCall K V)) (c : MapCall K V) :
    after (before ++ [c]) = (after before).call c := by
  rw [after, List.foldl_append, List.foldl_cons, List.foldl_nil, after]

/-- An iterator comes by the keys, one after the other, until it is equal to `end`. -/
inductive Visits (m : HashMap K V) : Iterator K → List K → Prop
  | done {it : Iterator K} (hcurrent : it.current = none) : Visits m it []
  | step {it it' : Iterator K} {key : K} {keys : List K} (hcurrent : it.current = some key)
      (hnext : m.next it = some it') (h : Visits m it' keys) : Visits m it (key :: keys)

/-- The map is the finite map: lookups agree, `size` is the number of keys, and an iteration visits each
key once. -/
structure Represents (m : HashMap K V) (s : Finmap fun _ : K => V) : Prop where
  get : ∀ key, m.get key = s.lookup key
  size : m.size = s.keys.card
  visits : ∃ keys, m.Visits m.begin keys ∧ keys.Nodup ∧ ∀ key, key ∈ keys ↔ key ∈ s

variable {m : HashMap K V} {s : Finmap fun _ : K => V}

theorem get_call (h : ∀ key, m.get key = s.lookup key)
    (c : MapCall K V) (key : K) : (m.call c).get key = (specCall s c).lookup key := by
  cases c with
  | add j value => rw [call, specCall, get_add, lookup_insert, h]
  | erase j => rw [call, specCall, get_erase, lookup_erase, h]
  | get j => exact h key

theorem get_after (calls : List (MapCall K V)) (key : K) :
    (after calls).get key = (spec calls).lookup key := by
  induction calls using List.reverseRecOn generalizing key with
  | nil => rw [after, List.foldl_nil, get_empty, spec, List.foldl_nil, Finmap.lookup_empty]
  | append_singleton before c ih =>
    rw [after_append, spec_append]
    exact get_call ih c key

/-! ## Iteration -/

theorem visits_of_atEntries {it : Iterator K} {rest : List (K × V)}
    (h : m.AtEntries it rest) : m.Visits it (Lib.chainKeys rest) := by
  induction rest generalizing it with
  | nil => exact .done h.1
  | cons e rest ih =>
    obtain ⟨it', hnext, hrest⟩ := h.next
    exact .step h.1 hnext (ih hrest)

theorem visits_begin (calls : List (MapCall K V)) :
    ∃ keys, (after calls).Visits (after calls).begin keys ∧ keys.Nodup ∧
      ∀ key, key ∈ keys ↔ key ∈ spec calls := by
  refine ⟨_, visits_of_atEntries (atEntries_begin _), entries_keys_nodup _, fun key => ?_⟩
  rw [← Finmap.lookup_isSome, ← get_after, Option.isSome_iff_exists, Lib.chainKeys, List.mem_map]
  constructor
  · rintro ⟨⟨key, value⟩, hmem, rfl⟩
    exact ⟨value, mem_entries.1 hmem⟩
  · rintro ⟨value, hget⟩
    exact ⟨(key, value), mem_entries.2 hget, rfl⟩

/-! ## The counter -/

theorem size_lt (calls : List (MapCall K V)) : (after calls).size < 2 ^ 32 := by
  induction calls using List.reverseRecOn with
  | nil => exact Nat.two_pow_pos 32
  | append_singleton before c ih =>
    rw [after_append]
    cases c with
    | add key value => exact u32_lt _
    | erase key =>
      rw [call, erase, setBucket]
      split
      next => exact u32_lt _
      next => exact ih
    | get key => exact ih

theorem size_add_iff (hsize : m.size = s.keys.card)
    (hlt : m.size < 2 ^ 32) (key : K) (value : V) :
    (m.add key value).size = (s.insert key value).keys.card ↔
      key ∉ s ∧ (s.insert key value).keys.card < 2 ^ 32 := by
  have hadd : (m.add key value).size = u32 (s.keys.card + 1) := by rw [← hsize]; rfl
  rw [hadd, keys_insert, ← Finmap.mem_keys]
  by_cases hkey : key ∈ s.keys
  · rw [Finset.insert_eq_of_mem hkey, u32]
    refine iff_of_false (by omega) fun h => h.1 hkey
  · rw [Finset.card_insert_of_notMem hkey, u32]
    constructor
    · intro h
      exact ⟨hkey, by omega⟩
    · rintro ⟨-, h⟩
      omega

theorem size_erase
    (hget : ∀ key, m.get key = s.lookup key) (hsize : m.size = s.keys.card) (hlt : m.size < 2 ^ 32)
    (key : K) : (m.erase key).size = (s.erase key).keys.card := by
  have hsome : (m.get key).isSome ↔ key ∈ s.keys := by
    rw [hget, Finmap.lookup_isSome, Finmap.mem_keys]
  rw [erase, setBucket, Finmap.keys_erase]
  dsimp only
  by_cases hkey : key ∈ s.keys
  · have hpos := Finset.card_pos.2 ⟨key, hkey⟩
    rw [if_pos (hsome.2 hkey), Finset.card_erase_of_mem hkey, u32]
    omega
  · rw [if_neg (mt hsome.1 hkey), Finset.erase_eq_of_notMem hkey, hsize]

theorem size_after_iff (calls : List (MapCall K V)) :
    (∀ before, before <+: calls → (after before).size = (spec before).keys.card) ↔
      (∀ before key value, before ++ [.add key value] <+: calls → key ∉ spec before) ∧
        ∀ before, before <+: calls → (spec before).keys.card < 2 ^ 32 := by
  constructor
  · intro h
    refine ⟨fun before key value hcalls => ?_, fun before hcalls => h before hcalls ▸ size_lt before⟩
    have hadded := h _ hcalls
    rw [after_append, spec_append] at hadded
    have hbefore := h before ((List.prefix_append _ _).trans hcalls)
    exact ((size_add_iff hbefore (size_lt before) key value).1 hadded).1
  · rintro ⟨hnew, hcount⟩ before hcalls
    induction before using List.reverseRecOn with
    | nil => rfl
    | append_singleton before c ih =>
      have hbefore := ih ((List.prefix_append _ _).trans hcalls)
      have hmany := hcount _ hcalls
      rw [after_append]
      rw [spec_append] at hmany ⊢
      cases c with
      | add key value =>
        exact (size_add_iff hbefore (size_lt before) key value).2 ⟨hnew before key value hcalls, hmany⟩
      | erase key => exact size_erase (get_after before) hbefore (size_lt before) key
      | get key => exact hbefore

/-- Lookups and iterations are those of the finite map after every run. The map with its counter is the
finite map in every state if and only if the run adds no key that is there and never has more keys than
can be counted. -/
theorem represents_iff (calls : List (MapCall K V)) :
    ((∀ key, (after calls).get key = (spec calls).lookup key) ∧
        ∃ keys, (after calls).Visits (after calls).begin keys ∧ keys.Nodup ∧
          ∀ key, key ∈ keys ↔ key ∈ spec calls) ∧
      ((∀ before, before <+: calls → (after before).Represents (spec before)) ↔
        (∀ before key value, before ++ [.add key value] <+: calls → key ∉ spec before) ∧
          ∀ before, before <+: calls → (spec before).keys.card < 2 ^ 32) := by
  refine ⟨⟨get_after calls, visits_begin calls⟩, ?_⟩
  rw [← size_after_iff]
  constructor
  · intro h before hcalls
    exact (h before hcalls).size
  · intro h before hcalls
    exact { get := get_after before, size := h before hcalls, visits := visits_begin before }

/-- A key that is added twice is counted twice. -/
theorem overwritten_key_counted :
    ¬ ∀ calls : List (MapCall Nat Nat), (after calls).Represents (spec calls) := by
  intro h
  have hsize := (h [.add 1 10, .add 1 20]).size
  have hkeys : (spec [.add 1 10, .add 1 20] : Finmap fun _ : Nat => Nat).keys = {1} := by
    rfl
  exact absurd hsize (by decide +kernel)

end HashMap

end MeetixOS.Kernel
