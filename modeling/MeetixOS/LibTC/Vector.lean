import MeetixOS.Kernel.Types
import MeetixOS.Lib.Slots

/-! # `Vector`

The vector of the template library: a storage that is allocated with a capacity, and the count of the values
at its start. `trivial` is `TypeIntrinsics<T>::is_trivial()`: values of trivial types are moved all at once,
others one by one. Whether an allocation succeeds is an argument, `granted`. A `VERIFY` that fails is kept
apart from an access outside of the storage. -/

open List (append_assoc append_nil cons_append length_append length_cons length_map map_append
  map_cons nil_append)
open Slots
open MeetixOS.Kernel (u32 u32_of_lt)

namespace LibTC

/-- The error codes of the vector. -/
inductive Error
  | einval
  | enoent
  | enomem
  deriving DecidableEq, Repr

/-- `m_data_storage` (null, or the allocated slots), `m_data_capacity` and `m_values_count`. -/
structure Vector (α : Type) where
  dataStorage : Option (Storage α) := none
  dataCapacity : Nat := 0
  valuesCount : Nat := 0

/-- `ErrorOr<β>`, with the vector behind the call. -/
abbrev Outcome (α β : Type) := Except Error β × Vector α

namespace Vector

variable {α : Type}

/-- What can be accessed through `m_data_storage`. -/
def slots (v : Vector α) : Storage α :=
  v.dataStorage.getD []

/-- The storage after accesses to it. -/
def withSlots (v : Vector α) (slots : Storage α) : Vector α :=
  { v with dataStorage := v.dataStorage.map fun _ => slots }

/-- `operator[]` and `at`. -/
def valueAt (v : Vector α) (index : Nat) : Checked α := do
  verify (index < v.valuesCount)
  read v.slots index

/-- An assignment through the reference that `at` returns. -/
def setAt (index : Nat) (value : α) (v : Vector α) : Checked (Vector α) := do
  verify (index < v.valuesCount)
  return v.withSlots (← construct v.slots index value)

/-- The loop of `index_if`, with `n` rounds left. -/
def indexFrom (callback : α → Bool) (v : Vector α) : (n i : Nat) → Checked (Option Nat)
  | 0, _ => return none
  | n + 1, i => do
      let current ← read v.slots i
      if callback current then
        return some i
      else
        indexFrom callback v n (i + 1)

def indexIf (callback : α → Bool) (v : Vector α) : Checked (Option Nat) :=
  v.indexFrom callback v.valuesCount 0

/-- `m_values_count` values go into new storage. -/
def moveValues (trivial : Bool) (v : Vector α) (newDataStorage : Storage α) : Checked (Storage α) :=
  if trivial then
    memmoveInto v.slots v.valuesCount newDataStorage
  else
    relocateInto v.slots v.valuesCount v.valuesCount 0 newDataStorage

/-- The capacity that is allocated for `capacity` values. -/
def newCapacity (v : Vector α) (capacity : Nat) : Nat :=
  if v.dataCapacity = 0 then
    if capacity = 0 then 16 else capacity
  else
    u32 (capacity + capacity / 4)

def tryEnsureCapacity (trivial granted : Bool) (capacity : Nat) (v : Vector α) :
    Checked (Outcome α Unit) := do
  verify (0 < capacity)
  if capacity ≤ v.dataCapacity then
    return (.ok (), v)
  else if granted then
    let newDataStorage ← v.moveValues trivial (List.replicate (v.newCapacity capacity) none)
    return (.ok (), { v with dataStorage := newDataStorage, dataCapacity := v.newCapacity capacity })
  else
    return (.error .enomem, v)

/-- The values from `index` on go one slot up. -/
def openSlot (trivial : Bool) (index : Nat) (v : Vector α) : Checked (Vector α) := do
  if trivial then
    return v.withSlots (← memmove v.slots (index + 1) index (v.valuesCount - index))
  else
    return v.withSlots (← relocateUp v.valuesCount index v.valuesCount v.slots)

/-- The new value is constructed in its slot. -/
def place (index : Nat) (value : α) (v : Vector α) : Checked (Vector α) := do
  let slots ← construct v.slots index value
  return { v.withSlots slots with valuesCount := u32 (v.valuesCount + 1) }

def tryInsertAt (trivial granted : Bool) (index : Nat) (value : α) (v : Vector α) :
    Checked (Outcome α Unit) := do
  if v.valuesCount < index then
    return (.error .einval, v)
  match ← v.tryEnsureCapacity trivial granted (u32 (v.valuesCount + 1)) with
  | (.error e, v) => return (.error e, v)
  | (.ok (), v) =>
    let v ← (if index < v.valuesCount then v.openSlot trivial index else pure v)
    return (.ok (), ← v.place index value)

/-- The loop of `try_insert_sorted`, with `n` rounds left: the index behind the values that come before
the new one. -/
def sortedIndex (comparator : α → α → Bool) (value : α) (v : Vector α) :
    (n i insertIndex : Nat) → Checked Nat
  | 0, _, insertIndex => return insertIndex
  | n + 1, i, insertIndex => do
      let current ← read v.slots i
      if comparator current value then
        sortedIndex comparator value v n (i + 1) (i + 1)
      else
        return insertIndex

def tryInsertSorted (trivial granted : Bool) (comparator : α → α → Bool) (value : α)
    (v : Vector α) : Checked (Outcome α Unit) := do
  let insertIndex ← v.sortedIndex comparator value v.valuesCount 0 0
  v.tryInsertAt trivial granted insertIndex value

def tryPrepend (trivial granted : Bool) (value : α) (v : Vector α) : Checked (Outcome α Unit) :=
  v.tryInsertAt trivial granted 0 value

def tryAppend (trivial granted : Bool) (value : α) (v : Vector α) : Checked (Outcome α Unit) :=
  v.tryInsertAt trivial granted v.valuesCount value

/-- `try_emplace_first`; `value` is what the arguments construct. -/
def tryEmplaceFirst (trivial granted : Bool) (value : α) (v : Vector α) :
    Checked (Outcome α Unit) := do
  match ← v.tryEnsureCapacity trivial granted (u32 (v.valuesCount + 1)) with
  | (.error e, v) => return (.error e, v)
  | (.ok (), v) =>
    let v ← v.openSlot trivial 0
    return (.ok (), ← v.place 0 value)

def tryEmplaceLast (trivial granted : Bool) (value : α) (v : Vector α) :
    Checked (Outcome α Unit) := do
  match ← v.tryEnsureCapacity trivial granted (u32 (v.valuesCount + 1)) with
  | (.error e, v) => return (.error e, v)
  | (.ok (), v) => return (.ok (), ← v.place v.valuesCount value)

/-- The values behind `index` go one slot down. -/
def closeSlot (trivial : Bool) (index : Nat) (v : Vector α) : Checked (Storage α) := do
  if trivial then
    memmove v.slots index (index + 1) (v.valuesCount - index - 1)
  else
    verify (index < v.valuesCount)
    let slots ← destroy v.slots index
    relocateDown (v.valuesCount - (index + 1)) (index + 1) slots

def eraseAt (trivial : Bool) (index : Nat) (v : Vector α) : Checked (Outcome α Unit) := do
  if v.valuesCount ≤ index then
    return (.error .einval, v)
  let slots ← v.closeSlot trivial index
  return (.ok (), { v.withSlots slots with valuesCount := v.valuesCount - 1 })

/-- `take_at`. What the value leaves behind in its slot is destroyed by `erase_at`. -/
def takeAt (trivial : Bool) (index : Nat) (v : Vector α) : Checked (Outcome α α) := do
  verify (index < v.valuesCount)
  let value ← read v.slots index
  let (_, v) ← v.eraseAt trivial index
  return (.ok value, v)

/-- The loop of `erase_first_of`, with the rounds that are left. -/
def eraseFirstFrom [BEq α] (trivial : Bool) (value : α) (v : Vector α) :
    Nat → Nat → Checked (Outcome α Unit)
  | 0, _ => return (.error .enoent, v)
  | rounds + 1, i => do
      let current ← read v.slots i
      if current == value then
        v.eraseAt trivial i
      else
        eraseFirstFrom trivial value v rounds (i + 1)

def eraseFirstOf [BEq α] (trivial : Bool) (value : α) (v : Vector α) : Checked (Outcome α Unit) :=
  v.eraseFirstFrom trivial value v.valuesCount 0

/-- The loop of `erase_all_matches`; each round erases a value or goes on to the next. -/
def eraseMatchesFrom (trivial : Bool) (matcher : α → Bool) :
    (rounds i erasedCount : Nat) → Vector α → Checked (Nat × Vector α)
  | 0, _, erasedCount, v => return (erasedCount, v)
  | rounds + 1, i, erasedCount, v => do
      let current ← read v.slots i
      if matcher current then
        let (_, v) ← v.eraseAt trivial i
        eraseMatchesFrom trivial matcher rounds i (erasedCount + 1) v
      else
        eraseMatchesFrom trivial matcher rounds (i + 1) erasedCount v

def eraseAllMatches (trivial : Bool) (matcher : α → Bool) (v : Vector α) :
    Checked (Outcome α Nat) := do
  let (erasedCount, v) ← eraseMatchesFrom trivial matcher v.valuesCount 0 0 v
  if 0 < erasedCount then
    return (.ok erasedCount, v)
  else
    return (.error .enoent, v)

/-- `try_resize`; the values that are destroyed are below the count, as `at` verifies. -/
def tryResize [Inhabited α] (trivial granted : Bool) (newCount : Nat) (v : Vector α) :
    Checked (Outcome α Unit) := do
  if newCount < v.valuesCount then
    let slots ← destroyFrom (v.valuesCount - newCount) newCount v.slots
    return (.ok (), { v.withSlots slots with valuesCount := newCount })
  else if v.valuesCount < newCount then
    match ← v.tryEnsureCapacity trivial granted newCount with
    | (.error e, v) => return (.error e, v)
    | (.ok (), v) =>
      let slots ← constructFrom default (newCount - v.valuesCount) v.valuesCount v.slots
      return (.ok (), { v.withSlots slots with valuesCount := newCount })
  else
    return (.ok (), { v with valuesCount := newCount })

/-- `clear`; `keep` is `KeepStorageCapacity::Yes`. -/
def clear (trivial keep : Bool) (v : Vector α) : Checked (Vector α) := do
  match v.dataStorage with
  | none => return { v with valuesCount := 0 }
  | some slots =>
    let slots ← (if trivial then pure slots else destroyFrom v.valuesCount 0 slots)
    if keep then
      return { v with dataStorage := slots, valuesCount := 0 }
    else
      return {}

/-! ## The values of a vector -/

/-- The vector holds the list: its values stand at the start of a storage that has as many slots as the
capacity says. -/
structure Holds (v : Vector α) (xs : List α) : Prop where
  starts : ∃ rest, v.slots = xs.map some ++ rest
  capacity : v.slots.length = v.dataCapacity
  count : v.valuesCount = xs.length
  range : v.dataCapacity < 2 ^ 32

variable {v : Vector α} {xs front block : List α} {x : α} {trivial granted : Bool} {c i : Nat}

theorem holds_empty : Holds ({} : Vector α) [] :=
  ⟨⟨[], rfl⟩, rfl, rfl, Nat.two_pow_pos 32⟩

theorem Holds.count_le (h : v.Holds xs) : v.valuesCount ≤ v.dataCapacity := by
  obtain ⟨rest, hslots⟩ := h.starts
  have hlen := congrArg List.length hslots
  rw [length_append, length_map, h.capacity, ← h.count] at hlen
  omega

theorem Holds.withSlots (h : v.Holds xs) {slots : Storage α} (hlen : slots.length = v.slots.length) :
    (v.withSlots slots).slots = slots ∧ (v.withSlots slots).dataCapacity = v.dataCapacity := by
  refine ⟨?_, rfl⟩
  obtain ⟨storage, capacity, count⟩ := v
  cases storage with
  | none => exact (List.length_eq_zero_iff.1 hlen).symm
  | some => rfl

theorem withSlots_withSlots (v : Vector α) (slots slots' : Storage α) :
    (v.withSlots slots).withSlots slots' = v.withSlots slots' := by
  rw [withSlots, withSlots, withSlots, Option.map_map]
  rfl

theorem withSlots_slots (v : Vector α) : v.withSlots v.slots = v := by
  obtain ⟨storage, capacity, count⟩ := v
  cases storage with
  | none | some => rfl

theorem Holds.update (h : v.Holds xs) {ys : List α} {rest : Storage α} {count : Nat}
    (hlen : (ys.map some ++ rest).length = v.slots.length) (hcount : count = ys.length) :
    ({ v.withSlots (ys.map some ++ rest) with valuesCount := count } : Vector α).Holds ys := by
  obtain ⟨hslots, hcapacity⟩ := h.withSlots hlen
  exact ⟨⟨rest, hslots⟩, (congrArg List.length hslots).trans (hlen.trans h.capacity), hcount, h.range⟩

/-! ## Access -/

section

variable (h : v.Holds (front ++ x :: block))
include h

theorem Holds.read : read v.slots front.length = .ok x := by
  obtain ⟨rest, hslots⟩ := h.starts
  rw [hslots, map_append, map_cons, append_assoc, cons_append]
  exact read_append _ _ (length_map _).symm x

theorem Holds.valueAt : v.valueAt front.length = .ok x := by
  have hlt : front.length < v.valuesCount := by
    rw [h.count, length_append, length_cons]
    omega
  rw [Vector.valueAt, verify_of hlt, ok_bind, h.read]

theorem Holds.setAt (y : α) :
    ∃ v', v.setAt front.length y = .ok v' ∧ v'.Holds (front ++ y :: block) ∧
      v'.dataCapacity = v.dataCapacity := by
  obtain ⟨rest, hslots⟩ := h.starts
  have hcount := h.count
  rw [length_append, length_cons] at hcount
  have hset : (front ++ y :: block).map some ++ rest =
      front.map some ++ some y :: (block.map some ++ rest) := by
    rw [map_append, map_cons, append_assoc, cons_append]
  have hslots' : v.slots = front.map some ++ some x :: (block.map some ++ rest) := by
    rw [hslots, map_append, map_cons, append_assoc, cons_append]
  have hlen : ((front ++ y :: block).map some ++ rest).length = v.slots.length := by
    rw [hslots, length_append, length_append, length_map, length_map]
    simp
  rw [Vector.setAt, verify_of (by omega), ok_bind, hslots',
    construct_append _ _ (length_map _).symm, ← hset]
  refine ⟨_, rfl, h.update hlen ?_, rfl⟩
  rw [length_append, length_cons]
  exact hcount

end

theorem Holds.indexFrom (h : v.Holds (front ++ block)) (callback : α → Bool) :
    (∃ before x after, block = before ++ x :: after ∧ callback x = true ∧
        v.indexFrom callback block.length front.length = .ok (some (front ++ before).length)) ∨
      (∀ x ∈ block, callback x = false) ∧
        v.indexFrom callback block.length front.length = .ok none := by
  induction block generalizing front with
  | nil => exact .inr ⟨fun _ hx => absurd hx List.not_mem_nil, rfl⟩
  | cons x block ih =>
    rw [length_cons, Vector.indexFrom, h.read, ok_bind]
    by_cases hx : callback x = true
    · rw [if_pos hx]
      exact .inl ⟨[], x, block, rfl, hx, by rw [append_nil]; rfl⟩
    · rw [if_neg hx]
      have hnext : v.Holds ((front ++ [x]) ++ block) := by rwa [append_assoc]
      rcases ih hnext with ⟨before, y, after, rfl, hy, hindex⟩ | ⟨hnone, hindex⟩
      · rw [show (front ++ [x]).length = front.length + 1 from length_append,
          append_assoc] at hindex
        exact .inl ⟨x :: before, y, after, rfl, hy, hindex⟩
      · rw [length_append] at hindex
        refine .inr ⟨?_, hindex⟩
        rintro y (_ | ⟨_, hy⟩)
        · exact Bool.eq_false_iff.2 hx
        · exact hnone y hy

theorem Holds.indexIf (h : v.Holds xs) (callback : α → Bool) :
    (∃ before x after, xs = before ++ x :: after ∧ callback x = true ∧
        v.indexIf callback = .ok (some before.length)) ∨
      (∀ x ∈ xs, callback x = false) ∧ v.indexIf callback = .ok none := by
  rw [Vector.indexIf, h.count]
  exact Holds.indexFrom (show v.Holds ([] ++ xs) from h) callback

/-! ## Growth -/

/-- The next capacity does not wrap around where `c` values do not fit into a storage that exists. -/
def Growable (v : Vector α) (c : Nat) : Prop :=
  0 < v.dataCapacity → v.dataCapacity < c → c + c / 4 < 2 ^ 32

theorem Growable.newCapacity (h : v.Growable c) (hfull : v.dataCapacity < c)
    (hfirst : v.dataCapacity = 0 → c < 2 ^ 32) :
    c ≤ v.newCapacity c ∧ v.newCapacity c < 2 ^ 32 := by
  rw [Vector.newCapacity]
  split
  next hzero =>
    rw [if_neg (by omega)]
    exact ⟨Nat.le_refl c, hfirst hzero⟩
  next hpos =>
    have hlt := h (by omega) hfull
    rw [u32_of_lt hlt]
    omega

theorem Holds.moveValues (h : v.Holds xs) (trivial : Bool) {n : Nat} (hn : xs.length ≤ n) :
    v.moveValues trivial (List.replicate n none) =
      .ok (xs.map some ++ List.replicate (n - xs.length) none) := by
  obtain ⟨rest, hslots⟩ := h.starts
  have hraw : List.replicate n (none : Option α) =
      List.replicate xs.length none ++ List.replicate (n - xs.length) none := by
    rw [List.replicate_append_replicate, Nat.add_sub_cancel' hn]
  rw [Vector.moveValues, hslots, h.count, hraw]
  split
  next => exact memmoveInto_append rest xs (List.length_replicate ..)
  next =>
    exact relocateInto_append [] rest [] xs rfl rfl (List.length_replicate ..) (by omega)

theorem Holds.tryEnsureCapacity (h : v.Holds xs) (trivial granted : Bool) (hpos : 0 < c)
    (hgrow : v.Growable c) (hfirst : v.dataCapacity = 0 → c < 2 ^ 32) :
    (∃ v', v.tryEnsureCapacity trivial granted c = .ok (.ok (), v') ∧ v'.Holds xs ∧
        c ≤ v'.dataCapacity) ∨
      granted = false ∧ v.tryEnsureCapacity trivial granted c = .ok (.error .enomem, v) := by
  rw [Vector.tryEnsureCapacity, verify_of hpos, ok_bind]
  by_cases hroom : c ≤ v.dataCapacity
  · rw [if_pos hroom]
    exact .inl ⟨v, rfl, h, hroom⟩
  · rw [if_neg hroom]
    cases granted with
    | false => exact .inr ⟨rfl, rfl⟩
    | true =>
      obtain ⟨hle, hlt⟩ := hgrow.newCapacity (Nat.lt_of_not_le hroom) hfirst
      have hcount := h.count_le
      rw [h.count] at hcount
      rw [if_pos rfl, h.moveValues trivial (by omega)]
      refine .inl ⟨_, rfl, ⟨⟨_, rfl⟩, ?_, h.count, hlt⟩, hle⟩
      simp only [slots, Option.getD_some, length_append, length_map, List.length_replicate]
      omega

/-! ## Insertion -/

theorem Holds.openSlot (h : v.Holds (front ++ block)) (trivial : Bool)
    (hroom : (front ++ block).length < v.dataCapacity) :
    ∃ y rest, v.openSlot trivial front.length =
        .ok (v.withSlots (front.map some ++ y :: (block.map some ++ rest))) ∧
      (front.map some ++ y :: (block.map some ++ rest)).length = v.slots.length := by
  obtain ⟨rest, hslots⟩ := h.starts
  have hcapacity := h.capacity
  rw [hslots, length_append, length_map] at hcapacity
  obtain ⟨y, rest, rfl⟩ := List.exists_cons_of_length_pos (show 0 < rest.length by omega)
  have hcount : v.valuesCount = front.length + block.length := by rw [h.count, length_append]
  rw [map_append, append_assoc] at hslots
  rw [Vector.openSlot, hslots, hcount]
  have hfront : front.length = (front.map (some : α → Option α)).length := (length_map _).symm
  cases trivial with
  | true =>
    obtain ⟨y', hmove⟩ := memmove_up (front.map some) rest block y hfront
    rw [Nat.add_sub_cancel_left, if_pos rfl, hmove]
    exact ⟨y', rest, rfl, by simp; omega⟩
  | false =>
    obtain ⟨y', hmove⟩ := relocateUp_append (front.map some) rest block y hfront
      (Nat.le_refl _)
    rw [if_neg Bool.false_ne_true, hmove]
    exact ⟨y', rest, rfl, by simp; omega⟩

theorem Holds.place (h : v.Holds (front ++ block)) {y : Option α} {rest : Storage α}
    (hlen : (front.map some ++ y :: (block.map some ++ rest)).length = v.slots.length) (x : α) :
    ∃ v', (v.withSlots (front.map some ++ y :: (block.map some ++ rest))).place front.length x =
      .ok v' ∧ v'.Holds (front ++ x :: block) := by
  have hslots : (front ++ x :: block).map some ++ rest =
      front.map some ++ some x :: (block.map some ++ rest) := by
    rw [map_append, map_cons, append_assoc, cons_append]
  have hlen' : ((front ++ x :: block).map some ++ rest).length = v.slots.length := by
    rw [hslots, ← hlen]
    simp
  have hcount : u32 (v.valuesCount + 1) = (front ++ x :: block).length := by
    have hroom := h.capacity
    have hrange := h.range
    have hcount := h.count
    rw [← hlen'] at hroom
    simp only [length_append, length_map, length_cons] at hroom hcount ⊢
    rw [u32_of_lt (by omega), hcount]
    omega
  rw [Vector.place, (h.withSlots hlen).1, construct_append _ _ (length_map _).symm, ok_bind,
    ← hslots, withSlots_withSlots]
  exact ⟨_, rfl, h.update hlen' hcount⟩

theorem place_capacity {v' : Vector α} (h : v.place i x = .ok v') :
    v'.dataCapacity = v.dataCapacity := by
  rw [Vector.place] at h
  cases hconstruct : construct v.slots i x with
  | error fault =>
    rw [hconstruct] at h
    cases h
  | ok slots =>
    rw [hconstruct] at h
    cases h
    rfl

theorem Holds.placeLast (h : v.Holds xs) (hroom : xs.length < v.dataCapacity) (x : α) :
    ∃ v', v.place xs.length x = .ok v' ∧ v'.Holds (xs ++ [x]) := by
  obtain ⟨rest, hslots⟩ := h.starts
  have hcapacity := h.capacity
  rw [hslots, length_append, length_map] at hcapacity
  obtain ⟨y, rest, rfl⟩ := List.exists_cons_of_length_pos (show 0 < rest.length by omega)
  have h' : v.Holds (xs ++ []) := by rwa [append_nil]
  have hplace := h'.place (congrArg List.length hslots.symm) x
  rwa [List.map_nil, nil_append, ← hslots, withSlots_slots] at hplace

theorem Growable.u32_count (hgrow : v.Growable (xs.length + 1)) (h : v.Holds xs) :
    u32 (v.valuesCount + 1) = xs.length + 1 := by
  have hcount := h.count_le
  have hrange := h.range
  rw [h.count] at hcount ⊢
  refine u32_of_lt ?_
  by_contra hge
  have hlt := hgrow (by omega) (by omega)
  omega

theorem Holds.ensureNext (h : v.Holds xs) (trivial granted : Bool)
    (hgrow : v.Growable (xs.length + 1)) :
    (∃ v', v.tryEnsureCapacity trivial granted (u32 (v.valuesCount + 1)) = .ok (.ok (), v') ∧
        v'.Holds xs ∧ xs.length < v'.dataCapacity) ∨
      granted = false ∧
        v.tryEnsureCapacity trivial granted (u32 (v.valuesCount + 1)) = .ok (.error .enomem, v) := by
  have hcount := h.count_le
  rw [hgrow.u32_count h]
  refine h.tryEnsureCapacity trivial granted (Nat.succ_pos _) hgrow ?_
  intro hzero
  rw [h.count] at hcount
  omega

theorem Holds.tryInsertAt (h : v.Holds (front ++ block)) (trivial granted : Bool) (x : α)
    (hgrow : v.Growable ((front ++ block).length + 1)) :
    (∃ v', v.tryInsertAt trivial granted front.length x = .ok (.ok (), v') ∧
        v'.Holds (front ++ x :: block)) ∨
      granted = false ∧ v.tryInsertAt trivial granted front.length x = .ok (.error .enomem, v) := by
  have hindex : ¬ v.valuesCount < front.length := by
    rw [h.count, length_append]
    omega
  rw [Vector.tryInsertAt, if_neg hindex]
  rcases h.ensureNext trivial granted hgrow with ⟨v', hensure, h', hroom⟩ | ⟨hrefused, hensure⟩
  · obtain ⟨y, rest, hopen, hlen⟩ := h'.openSlot trivial hroom
    obtain ⟨filled, hplace, hfilled⟩ := h'.place hlen x
    rw [hensure, ok_bind]
    by_cases hinside : front.length < v'.valuesCount
    · refine .inl ⟨filled, ?_, hfilled⟩
      simp [if_pos hinside, hopen, hplace, pure_eq_ok]
    · have hblock : block = [] := by
        rw [h'.count, length_append] at hinside
        exact List.length_eq_zero_iff.1 (by omega)
      subst hblock
      rw [append_nil] at h' hroom
      obtain ⟨filled, hplace, hfilled⟩ := h'.placeLast hroom x
      refine .inl ⟨filled, ?_, hfilled⟩
      simp [if_neg hinside, hplace, pure_eq_ok]
  · rw [hensure]
    exact .inr ⟨hrefused, rfl⟩

theorem Holds.sortedIndex (h : v.Holds (front ++ block)) (comparator : α → α → Bool) (value : α) :
    v.sortedIndex comparator value block.length front.length front.length =
      .ok (front ++ block.takeWhile (comparator · value)).length := by
  induction block generalizing front with
  | nil => rw [List.takeWhile_nil, append_nil]; rfl
  | cons x block ih =>
    rw [length_cons, Vector.sortedIndex, h.read, ok_bind]
    by_cases hx : comparator x value = true
    · have hnext : v.Holds ((front ++ [x]) ++ block) := by rwa [append_assoc]
      have hrest := ih hnext
      rw [length_append, List.length_singleton] at hrest
      rw [if_pos hx, hrest, List.takeWhile_cons_of_pos (p := (comparator · value)) hx,
        append_assoc, List.singleton_append]
    · rw [if_neg hx, List.takeWhile_cons_of_neg (p := (comparator · value)) hx, append_nil]
      rfl

theorem Holds.tryInsertSorted (h : v.Holds xs) (trivial granted : Bool) (comparator : α → α → Bool)
    (x : α) (hgrow : v.Growable (xs.length + 1)) :
    (∃ v', v.tryInsertSorted trivial granted comparator x = .ok (.ok (), v') ∧
        v'.Holds (xs.takeWhile (comparator · x) ++ x :: xs.dropWhile (comparator · x))) ∨
      granted = false ∧
        v.tryInsertSorted trivial granted comparator x = .ok (.error .enomem, v) := by
  have hindex := Holds.sortedIndex (show v.Holds ([] ++ xs) from h) comparator x
  rw [nil_append, List.length_nil] at hindex
  rw [Vector.tryInsertSorted, h.count, hindex, ok_bind]
  rw [← List.takeWhile_append_dropWhile (l := xs)] at h hgrow
  exact h.tryInsertAt trivial granted x hgrow

section

variable (h : v.Holds xs) (trivial granted : Bool) (x : α) (hgrow : v.Growable (xs.length + 1))
include h hgrow

theorem Holds.tryPrepend :
    (∃ v', v.tryPrepend trivial granted x = .ok (.ok (), v') ∧ v'.Holds (x :: xs)) ∨
      granted = false ∧ v.tryPrepend trivial granted x = .ok (.error .enomem, v) :=
  Holds.tryInsertAt (show v.Holds ([] ++ xs) from h) trivial granted x hgrow

theorem Holds.tryAppend :
    (∃ v', v.tryAppend trivial granted x = .ok (.ok (), v') ∧ v'.Holds (xs ++ [x])) ∨
      granted = false ∧ v.tryAppend trivial granted x = .ok (.error .enomem, v) := by
  rw [Vector.tryAppend, h.count]
  rw [← append_nil xs] at h hgrow
  exact h.tryInsertAt trivial granted x hgrow

theorem Holds.tryEmplaceFirst :
    (∃ v', v.tryEmplaceFirst trivial granted x = .ok (.ok (), v') ∧ v'.Holds (x :: xs)) ∨
      granted = false ∧ v.tryEmplaceFirst trivial granted x = .ok (.error .enomem, v) := by
  rw [Vector.tryEmplaceFirst]
  rcases h.ensureNext trivial granted hgrow with ⟨v', hensure, h', hroom⟩ | ⟨hrefused, hensure⟩
  · rw [← nil_append xs] at h' hroom
    obtain ⟨y, rest, hopen, hlen⟩ := h'.openSlot trivial hroom
    obtain ⟨filled, hplace, hfilled⟩ := h'.place hlen x
    refine .inl ⟨filled, ?_, hfilled⟩
    rw [List.length_nil] at hopen hplace
    simp only [hensure, ok_bind, hopen, hplace, pure_eq_ok]
  · rw [hensure]
    exact .inr ⟨hrefused, rfl⟩

theorem Holds.tryEmplaceLast :
    (∃ v', v.tryEmplaceLast trivial granted x = .ok (.ok (), v') ∧ v'.Holds (xs ++ [x])) ∨
      granted = false ∧ v.tryEmplaceLast trivial granted x = .ok (.error .enomem, v) := by
  rw [Vector.tryEmplaceLast]
  rcases h.ensureNext trivial granted hgrow with ⟨v', hensure, h', hroom⟩ | ⟨hrefused, hensure⟩
  · obtain ⟨filled, hplace, hfilled⟩ := h'.placeLast hroom x
    refine .inl ⟨filled, ?_, hfilled⟩
    simp [hensure, h'.count, hplace, pure_eq_ok]
  · rw [hensure]
    exact .inr ⟨hrefused, rfl⟩

end

/-! ## Removal -/

section

variable (h : v.Holds (front ++ x :: block)) (trivial : Bool)
include h

theorem Holds.closeSlot :
    ∃ rest, v.closeSlot trivial front.length = .ok ((front ++ block).map some ++ rest) ∧
      ((front ++ block).map some ++ rest).length = v.slots.length := by
  obtain ⟨rest, hslots⟩ := h.starts
  have hcount : v.valuesCount = front.length + 1 + block.length := by
    rw [h.count, length_append, length_cons]
    omega
  rw [map_append, map_cons, append_assoc, cons_append] at hslots
  rw [Vector.closeSlot, hslots, hcount]
  have hfront : front.length = (front.map (some : α → Option α)).length := (length_map _).symm
  cases trivial with
  | true =>
    obtain ⟨y, hmove⟩ := memmove_down (front.map some) rest block (some x) hfront
    rw [if_pos rfl, show front.length + 1 + block.length - front.length - 1 = block.length by omega,
      hmove]
    exact ⟨y :: rest, by rw [map_append, append_assoc], by simp; omega⟩
  | false =>
    obtain ⟨y, hmove⟩ := relocateDown_append (front.map some) rest block none hfront
    rw [if_neg Bool.false_ne_true, verify_of (by omega), ok_bind, destroy_append _ _ hfront, ok_bind,
      Nat.add_sub_cancel_left, hmove]
    exact ⟨y :: rest, by rw [map_append, append_assoc], by simp; omega⟩

theorem Holds.eraseAt :
    ∃ v', v.eraseAt trivial front.length = .ok (.ok (), v') ∧ v'.Holds (front ++ block) := by
  obtain ⟨rest, hclose, hlen⟩ := h.closeSlot trivial
  have hcount := h.count
  rw [length_append, length_cons] at hcount
  rw [Vector.eraseAt, if_neg (by omega), hclose]
  refine ⟨_, rfl, h.update hlen ?_⟩
  rw [length_append]
  omega

theorem Holds.takeAt :
    ∃ v', v.takeAt trivial front.length = .ok (.ok x, v') ∧ v'.Holds (front ++ block) := by
  obtain ⟨v', herase, h'⟩ := h.eraseAt trivial
  have hcount := h.count
  rw [length_append, length_cons] at hcount
  rw [Vector.takeAt, verify_of (by omega), ok_bind, h.read, ok_bind, herase]
  exact ⟨v', rfl, h'⟩

end

theorem Holds.eraseFirstFrom [BEq α] (h : v.Holds (front ++ block)) (trivial : Bool) (value : α) :
    if block.any (· == value) then
      ∃ v', v.eraseFirstFrom trivial value block.length front.length = .ok (.ok (), v') ∧
        v'.Holds (front ++ block.eraseP (· == value))
    else
      v.eraseFirstFrom trivial value block.length front.length = .ok (.error .enoent, v) := by
  induction block generalizing front with
  | nil => rfl
  | cons x block ih =>
    rw [List.any_cons, length_cons, Vector.eraseFirstFrom, h.read, ok_bind]
    by_cases hx : (x == value) = true
    · rw [hx, Bool.true_or, if_pos rfl, if_pos rfl, List.eraseP_cons_of_pos (p := (· == value)) hx]
      exact h.eraseAt trivial
    · have hnext : v.Holds ((front ++ [x]) ++ block) := by rwa [append_assoc]
      have hrest := ih hnext
      rw [Bool.eq_false_iff.2 hx, Bool.false_or, List.eraseP_cons_of_neg (p := (· == value)) hx,
        if_neg Bool.false_ne_true]
      rwa [length_append, append_assoc] at hrest

theorem Holds.eraseFirstOf [BEq α] (h : v.Holds xs) (trivial : Bool) (value : α) :
    if xs.any (· == value) then
      ∃ v', v.eraseFirstOf trivial value = .ok (.ok (), v') ∧ v'.Holds (xs.eraseP (· == value))
    else
      v.eraseFirstOf trivial value = .ok (.error .enoent, v) := by
  rw [Vector.eraseFirstOf, h.count]
  exact Holds.eraseFirstFrom (show v.Holds ([] ++ xs) from h) trivial value

theorem Holds.eraseMatchesFrom (h : v.Holds (front ++ block)) (trivial : Bool) (matcher : α → Bool)
    (erasedCount : Nat) :
    ∃ v', Vector.eraseMatchesFrom trivial matcher block.length front.length erasedCount v =
        .ok (erasedCount + block.countP matcher, v') ∧
      v'.Holds (front ++ block.filter fun x => !matcher x) ∧ (block.countP matcher = 0 → v' = v) := by
  induction block generalizing front erasedCount v with
  | nil => exact ⟨v, rfl, h, fun _ => rfl⟩
  | cons x block ih =>
    rw [length_cons, Vector.eraseMatchesFrom, h.read, ok_bind]
    by_cases hx : matcher x = true
    · obtain ⟨v', herase, h'⟩ := h.eraseAt trivial
      obtain ⟨v'', hrest, h'', -⟩ := ih h' (erasedCount + 1)
      rw [if_pos hx, herase, ok_bind]
      dsimp only
      rw [hrest, List.countP_cons_of_pos hx,
        List.filter_cons_of_neg (by simp [hx]), Nat.add_assoc, Nat.add_comm 1]
      exact ⟨v'', rfl, h'', fun hnone => absurd hnone (Nat.succ_ne_zero _)⟩
    · have hnext : v.Holds ((front ++ [x]) ++ block) := by rwa [append_assoc]
      obtain ⟨v', hrest, h', hsame⟩ := ih hnext erasedCount
      rw [length_append] at hrest
      rw [append_assoc] at h'
      rw [if_neg hx, List.countP_cons_of_neg hx, List.filter_cons_of_pos (by simp [hx])]
      exact ⟨v', hrest, h', hsame⟩

theorem Holds.eraseAllMatches (h : v.Holds xs) (trivial : Bool) (matcher : α → Bool) :
    if xs.any matcher then
      ∃ v', v.eraseAllMatches trivial matcher = .ok (.ok (xs.countP matcher), v') ∧
        v'.Holds (xs.filter fun x => !matcher x)
    else
      v.eraseAllMatches trivial matcher = .ok (.error .enoent, v) := by
  obtain ⟨v', hloop, h', hsame⟩ := Holds.eraseMatchesFrom (show v.Holds ([] ++ xs) from h) trivial
    matcher 0
  rw [Vector.eraseAllMatches, h.count]
  rw [List.length_nil, Nat.zero_add] at hloop
  rw [hloop, ok_bind]
  split
  next hany =>
    have hpos : 0 < xs.countP matcher := List.countP_pos_iff.2 (List.any_eq_true.1 hany)
    exact ⟨v', if_pos hpos, h'⟩
  next hnone =>
    have hzero : xs.countP matcher = 0 := by
      by_contra hne
      exact hnone (List.any_eq_true.2 (List.countP_pos_iff.1 (Nat.pos_of_ne_zero hne)))
    rw [hsame hzero]
    exact if_neg (by omega)

/-! ## Other sizes -/

theorem Holds.construct (h : v.Holds xs) {newCount : Nat} (hle : xs.length ≤ newCount)
    (hroom : newCount ≤ v.dataCapacity) (x : α) :
    ∃ slots, constructFrom x (newCount - v.valuesCount) v.valuesCount v.slots = .ok slots ∧
      ({ v.withSlots slots with valuesCount := newCount } : Vector α).Holds
        (xs ++ List.replicate (newCount - xs.length) x) := by
  obtain ⟨rest, hslots⟩ := h.starts
  have hcapacity := h.capacity
  rw [hslots, length_append, length_map] at hcapacity
  have hraw : (rest.take (newCount - xs.length)).length = newCount - xs.length := by
    rw [List.length_take]
    omega
  have hconstruct := constructFrom_append (xs.map some) (rest.drop (newCount - xs.length)) x
    (rest.take (newCount - xs.length)) (show xs.length = _ by rw [length_map])
  rw [List.take_append_drop, ← hslots, hraw] at hconstruct
  have hvalues : xs.map some ++ (List.replicate (newCount - xs.length) (some x) ++
      rest.drop (newCount - xs.length)) =
      (xs ++ List.replicate (newCount - xs.length) x).map some ++
        rest.drop (newCount - xs.length) := by
    rw [map_append, List.map_replicate, append_assoc]
  rw [h.count, hconstruct, hvalues]
  refine ⟨_, rfl, h.update ?_ ?_⟩
  · rw [hslots]
    simp
    omega
  · rw [length_append, List.length_replicate]
    omega

theorem Holds.tryResize [Inhabited α] (h : v.Holds xs) (trivial granted : Bool) {newCount : Nat}
    (hlt : newCount < 2 ^ 32) (hgrow : xs.length < newCount → v.Growable newCount) :
    (∃ v', v.tryResize trivial granted newCount = .ok (.ok (), v') ∧
        v'.Holds (xs.take newCount ++ List.replicate (newCount - xs.length) default)) ∨
      granted = false ∧ xs.length < newCount ∧
        v.tryResize trivial granted newCount = .ok (.error .enomem, v) := by
  rw [Vector.tryResize, h.count]
  obtain ⟨rest, hslots⟩ := h.starts
  by_cases hshrink : newCount < xs.length
  · have htake : (xs.take newCount).length = newCount := by
      rw [List.length_take]
      omega
    have hslots' : v.slots = (xs.take newCount).map some ++ ((xs.drop newCount).map some ++ rest) := by
      rw [← append_assoc, ← map_append, List.take_append_drop, hslots]
    have hdestroy := destroyFrom_append ((xs.take newCount).map some) rest (xs.drop newCount)
      (show newCount = _ by rw [length_map, htake])
    rw [← hslots', List.length_drop] at hdestroy
    rw [if_pos hshrink, hdestroy, Nat.sub_eq_zero_of_le hshrink.le, List.replicate_zero, append_nil]
    refine .inl ⟨_, rfl, h.update ?_ htake.symm⟩
    rw [hslots']
    simp
  · rw [if_neg hshrink, List.take_of_length_le (Nat.le_of_not_lt hshrink)]
    by_cases hgrows : xs.length < newCount
    · rw [if_pos hgrows]
      rcases h.tryEnsureCapacity trivial granted (by omega) (hgrow hgrows) (fun _ => hlt) with
        ⟨v', hensure, h', hroom⟩ | ⟨hrefused, hensure⟩
      · obtain ⟨slots, hconstruct, hfilled⟩ := h'.construct hgrows.le hroom default
        rw [hensure, ok_bind]
        dsimp only
        rw [hconstruct]
        exact .inl ⟨_, rfl, hfilled⟩
      · rw [hensure]
        exact .inr ⟨hrefused, hgrows, rfl⟩
    · obtain rfl : newCount = xs.length := by omega
      rw [if_neg hgrows, Nat.sub_self, List.replicate_zero, append_nil]
      exact .inl ⟨_, rfl, ⟨h.starts, h.capacity, rfl, h.range⟩⟩

theorem Holds.tryResize_within [Inhabited α] (h : v.Holds xs) (trivial granted : Bool) {newCount : Nat}
    (hle : xs.length ≤ newCount) (hroom : newCount ≤ v.dataCapacity) :
    ∃ v', v.tryResize trivial granted newCount = .ok (.ok (), v') ∧
      v'.Holds (xs ++ List.replicate (newCount - xs.length) default) := by
  have hgrow : v.Growable newCount := fun _ hlt => absurd hlt (Nat.not_lt.2 hroom)
  rcases h.tryResize trivial granted (Nat.lt_of_le_of_lt hroom h.range) (fun _ => hgrow) with
    ⟨v', hresize, h'⟩ | ⟨-, hgrows, hresize⟩
  · rw [List.take_of_length_le hle] at h'
    exact ⟨v', hresize, h'⟩
  · rw [Vector.tryResize, if_neg (by rw [h.count]; omega), if_pos (by rw [h.count]; exact hgrows),
      Vector.tryEnsureCapacity, verify_of (by omega), ok_bind, if_pos hroom] at hresize
    obtain ⟨slots, hconstruct, -⟩ := h.construct hle hroom default
    simp only [pure_eq_ok, ok_bind, hconstruct] at hresize
    cases hresize

theorem Holds.clear (h : v.Holds xs) (trivial keep : Bool) :
    ∃ v', v.clear trivial keep = .ok v' ∧ v'.Holds [] ∧
      (keep = true → v'.dataCapacity = v.dataCapacity) := by
  obtain ⟨rest, hslots⟩ := h.starts
  have hcapacity := h.capacity
  have hrange := h.range
  rw [Vector.clear, h.count]
  obtain ⟨storage, capacity, count⟩ := v
  cases storage with
  | none => exact ⟨_, rfl, ⟨⟨[], rfl⟩, hcapacity, rfl, hrange⟩, fun _ => rfl⟩
  | some storage =>
    simp only [Vector.slots, Option.getD_some] at hslots hcapacity
    obtain ⟨storage', hdestroyed, hlen⟩ : ∃ storage', (if trivial then pure storage else
        destroyFrom xs.length 0 storage) = .ok storage' ∧ storage'.length = storage.length := by
      cases trivial with
      | true => exact ⟨storage, rfl, rfl⟩
      | false =>
        have hdestroy := destroyFrom_append [] rest xs (show 0 = _ from rfl)
        rw [nil_append, ← hslots] at hdestroy
        refine ⟨_, hdestroy, ?_⟩
        rw [hslots]
        simp
    simp only [hdestroyed, ok_bind]
    cases keep with
    | true => exact ⟨_, rfl, ⟨⟨storage', rfl⟩, hlen.trans hcapacity, rfl, hrange⟩, fun _ => rfl⟩
    | false => exact ⟨_, rfl, holds_empty, fun hfalse => absurd hfalse Bool.false_ne_true⟩

end Vector

end LibTC
