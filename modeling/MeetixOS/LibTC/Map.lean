import MeetixOS.LibTC.VectorConstructors

/-! # `Map`

The map of the template library: a vector of buckets, each of which is a vector of pairs. The bucket of a
key is taken by the hash of the key, reduced by the number of buckets. Where pairs are ordered, a new one
is put in front of the first whose key is not greater. -/

open Slots

namespace LibTC

/-- What a map is instantiated with: `TypeIntrinsics<K>::hash`, `operator>` of the keys and `Ordered`. -/
structure Traits (K : Type) where
  hash : K → Nat
  greater : K → K → Bool
  ordered : Bool

/-- `m_buckets_storage` and `m_values_count`. The pairs take memory, so that their number does not wrap
around. -/
structure Map (K T : Type) where
  bucketsStorage : Vector (Vector (K × T)) := {}
  valuesCount : Nat := 0

inductive OnExistingKey
  | update
  | keepOldValue
  deriving DecidableEq

namespace Map

variable {K T : Type}

/-- `Map(usize bucket_count)`: the buckets are constructed empty. -/
def ofBucketCount (granted : Bool) (bucketCount : Nat) : Checked (Map K T) := do
  let buckets ← Vector.ofCapacity false granted bucketCount
  match ← @Vector.tryResize _ ⟨{}⟩ false granted bucketCount buckets with
  | (.ok (), buckets) => return { bucketsStorage := buckets }
  | (.error _, _) => .error .verify

/-- `Map(Map const&)`. -/
def copy (granted : Bool) (rhs : Map K T) : Checked (Map K T) := do
  let buckets ← rhs.bucketsStorage.copy (Vector.copy .ok false granted) false granted
  return { bucketsStorage := buckets, valuesCount := rhs.valuesCount }

/-- `Map(Map&&)`: the new map, and what is left of the other. -/
def moved (rhs : Map K T) : Map K T × Map K T :=
  let (buckets, left) := rhs.bucketsStorage.moved
  ({ bucketsStorage := buckets, valuesCount := rhs.valuesCount }, { bucketsStorage := left })

/-- `clear`: `resize` finds the capacity that was kept. -/
def clear (granted : Bool) (m : Map K T) : Checked (Map K T) := do
  let capacity := m.bucketsStorage.dataCapacity
  let buckets ← m.bucketsStorage.clear false true
  match ← @Vector.tryResize _ ⟨{}⟩ false granted capacity buckets with
  | (.ok (), buckets) => return { bucketsStorage := buckets, valuesCount := 0 }
  | (.error _, _) => .error .verify

/-- The index of a key's bucket; a map without buckets divides by zero. -/
def bucketIndex (traits : Traits K) (key : K) (m : Map K T) : Checked Nat :=
  if m.bucketsStorage.valuesCount = 0 then .error .divide
  else .ok (traits.hash key % m.bucketsStorage.valuesCount)

/-- `bucket_by_hash`, with the index of the bucket. -/
def bucketByHash (traits : Traits K) (key : K) (m : Map K T) : Checked (Nat × Vector (K × T)) := do
  let index ← m.bucketIndex traits key
  return (index, ← m.bucketsStorage.valueAt index)

variable [DecidableEq K]

/-- `find_pair_by_key`: a reference to the pair, by the indices of the bucket and of the pair. -/
def findPairByKey (traits : Traits K) (key : K) (m : Map K T) :
    Checked (Option (Nat × Nat × (K × T))) := do
  let (index, bucket) ← m.bucketByHash traits key
  match ← bucket.indexIf fun pair => pair.1 == key with
  | none => return none
  | some i => return some (index, i, ← bucket.valueAt i)

/-- The bucket with one pair more. -/
def insertPair (traits : Traits K) (granted : Bool) (pair : K × T) (bucket : Vector (K × T)) :
    Checked (Outcome (K × T) Unit) :=
  if traits.ordered then
    bucket.tryInsertSorted false granted (fun a b => traits.greater a.1 b.1) pair
  else
    bucket.tryAppend false granted pair

/-- `try_insert`, with the value that was overwritten. -/
def tryInsert (traits : Traits K) (granted : Bool) (key : K) (value : T)
    (onExistingKey : OnExistingKey) (m : Map K T) : Checked (Except Error (Option T) × Map K T) := do
  match ← m.findPairByKey traits key with
  | some (index, i, pair) =>
    if onExistingKey = .keepOldValue then
      return (.ok none, m)
    else
      let bucket ← m.bucketsStorage.valueAt index
      let bucket ← bucket.setAt i (pair.1, value)
      let buckets ← m.bucketsStorage.setAt index bucket
      return (.ok (some pair.2), { m with bucketsStorage := buckets })
  | none =>
    let (index, bucket) ← m.bucketByHash traits key
    match ← insertPair traits granted (key, value) bucket with
    | (.error e, _) => return (.error e, m)
    | (.ok (), bucket) =>
      let buckets ← m.bucketsStorage.setAt index bucket
      return (.ok none, { bucketsStorage := buckets, valuesCount := m.valuesCount + 1 })

/-- `at` and `operator[]`. -/
def valueAt (traits : Traits K) (key : K) (m : Map K T) : Checked (Option T) := do
  match ← m.findPairByKey traits key with
  | some (_, _, pair) => return some pair.2
  | none => return none

def hasKey (traits : Traits K) (key : K) (m : Map K T) : Checked Bool := do
  return (← m.findPairByKey traits key).isSome

def eraseKey (traits : Traits K) (key : K) (m : Map K T) : Checked (Except Error Unit × Map K T) := do
  let (index, bucket) ← m.bucketByHash traits key
  match ← bucket.eraseAllMatches false fun pair => key == pair.1 with
  | (.error e, _) => return (.error e, m)
  | (.ok erasedCount, bucket) =>
    verify (erasedCount = 1)
    let buckets ← m.bucketsStorage.setAt index bucket
    return (.ok (), { bucketsStorage := buckets, valuesCount := m.valuesCount - erasedCount })

variable [BEq T]

/-- The loop of `erase_value` over the buckets, with `n` rounds left. -/
def eraseValueFrom (value : T) :
    (n i removedKeysCount : Nat) → Vector (Vector (K × T)) → Checked (Nat × Vector (Vector (K × T)))
  | 0, _, removedKeysCount, buckets => return (removedKeysCount, buckets)
  | n + 1, i, removedKeysCount, buckets => do
      let bucket ← buckets.valueAt i
      let (removed, bucket) ← bucket.eraseAllMatches false fun pair => pair.2 == value
      let buckets ← buckets.setAt i bucket
      match removed with
      | .ok count => eraseValueFrom value n (i + 1) (removedKeysCount + count) buckets
      | .error _ => eraseValueFrom value n (i + 1) removedKeysCount buckets

def eraseValue (value : T) (m : Map K T) : Checked (Except Error Nat × Map K T) := do
  let (removedKeysCount, buckets) ← eraseValueFrom value m.bucketsStorage.valuesCount 0 0 m.bucketsStorage
  if removedKeysCount = 0 then
    return (.error .enoent, { m with bucketsStorage := buckets })
  else
    return (.ok removedKeysCount,
      { bucketsStorage := buckets, valuesCount := m.valuesCount - removedKeysCount })

/-- The loops of `has_value` over the buckets, with `n` rounds left. -/
def hasValueFrom (value : T) (buckets : Vector (Vector (K × T))) : (n i : Nat) → Checked Bool
  | 0, _ => return false
  | n + 1, i => do
      let bucket ← buckets.valueAt i
      match ← bucket.indexIf fun pair => value == pair.2 with
      | some _ => return true
      | none => hasValueFrom value buckets n (i + 1)

def hasValue (value : T) (m : Map K T) : Checked Bool :=
  hasValueFrom value m.bucketsStorage m.bucketsStorage.valuesCount 0

end Map

end LibTC
