import MeetixOS.LibTC.Vector

/-! # The constructors of `Vector`

How a vector is built from a list of values: from an `initializer_list`, as a copy, by moving another
vector and by adopting a storage. The copy constructor sets the count before it asks for storage, so that
the growth moves that many values out of a storage that is not there (`copy_of_pos`). -/

open Slots

namespace LibTC

namespace Vector

variable {α : Type}

/-- `ensure_capacity`: an error fails the assertion of `MUST`. -/
def ensureCapacity (trivial granted : Bool) (capacity : Nat) (v : Vector α) : Checked (Vector α) := do
  match ← v.tryEnsureCapacity trivial granted capacity with
  | (.ok (), v) => return v
  | (.error _, _) => .error .verify

/-- `Vector(usize capacity)`. -/
def ofCapacity (trivial granted : Bool) (capacity : Nat) : Checked (Vector α) :=
  ensureCapacity trivial granted capacity {}

def appendUnchecked (value : α) (v : Vector α) : Checked (Vector α) :=
  v.place v.valuesCount value

/-- The loop over the `initializer_list`. -/
def appendAll : List α → Vector α → Checked (Vector α)
  | [], v => return v
  | value :: values, v => do
      let v ← v.appendUnchecked value
      appendAll values v

/-- `Vector(std::initializer_list<T>)`. -/
def ofInitializerList (trivial granted : Bool) (values : List α) : Checked (Vector α) := do
  let v ← ensureCapacity trivial granted values.length {}
  appendAll values v

/-- The loop of the copy constructor, with `n` rounds left. -/
def copyValues (copyValue : α → Checked α) (rhs : Vector α) :
    (n : Nat) → (i : Nat) → Storage α → Checked (Storage α)
  | 0, _, slots => return slots
  | n + 1, i, slots => do
      let value ← copyValue (← rhs.valueAt i)
      let slots ← construct slots i value
      copyValues copyValue rhs n (i + 1) slots

/-- `Vector(Vector const&)`; `copyValue` is the copy constructor of the values. -/
def copy (copyValue : α → Checked α) (trivial granted : Bool) (rhs : Vector α) :
    Checked (Vector α) := do
  let v : Vector α := { valuesCount := rhs.valuesCount }
  if v.valuesCount = 0 then
    return v
  else
    let v ← v.ensureCapacity trivial granted rhs.valuesCount
    return v.withSlots (← copyValues copyValue rhs v.valuesCount 0 v.slots)

/-- `Vector(Vector&&)`: the new vector, and what is left of the other. -/
def moved (rhs : Vector α) : Vector α × Vector α :=
  (rhs, {})

/-- `Vector(AdoptTag, T*, usize size, usize capacity)`. -/
def adoptWithCapacity (dataStorage : Option (Storage α)) (size capacity : Nat) : Vector α :=
  { dataStorage, dataCapacity := size, valuesCount := capacity }

/-- The end of each assignment: the new vector is swapped in, and the old one is destroyed. -/
def swapIn (trivial : Bool) (vector this : Vector α) : Checked (Vector α) := do
  let _ ← this.clear trivial false
  return vector

/-- `operator=(Vector const&)`; `same` is `this == &rhs`. -/
def assignCopy (copyValue : α → Checked α) (trivial granted same : Bool) (rhs this : Vector α) :
    Checked (Vector α) := do
  if same then
    return this
  else
    let vector ← rhs.copy copyValue trivial granted
    swapIn trivial vector this

/-- `operator=(Vector&&)` from another vector, and what is left of that. -/
def assignMove (trivial : Bool) (rhs this : Vector α) : Checked (Vector α × Vector α) := do
  let (vector, left) := rhs.moved
  return (← swapIn trivial vector this, left)

/-- `operator=(std::initializer_list<T>)`. -/
def assignInitializerList (trivial granted : Bool) (values : List α) (this : Vector α) :
    Checked (Vector α) := do
  let vector ← ofInitializerList trivial granted values
  swapIn trivial vector this

/-! ## What they build -/

variable {v this : Vector α} {xs values : List α} {trivial : Bool}

theorem Holds.swapIn (h : this.Holds values) (trivial : Bool) (vector : Vector α) :
    swapIn trivial vector this = .ok vector := by
  obtain ⟨cleared, hclear, -⟩ := h.clear trivial false
  rw [Vector.swapIn, hclear]
  rfl

theorem ensureCapacity_first {n : Nat} (hpos : 0 < n) (hlt : n < 2 ^ 32) (trivial : Bool) :
    ∃ v : Vector α, ensureCapacity trivial true n {} = .ok v ∧ v.Holds [] ∧ n ≤ v.dataCapacity := by
  have hgrow : ({} : Vector α).Growable n := fun hzero => absurd hzero (Nat.lt_irrefl 0)
  rcases holds_empty.tryEnsureCapacity trivial true hpos hgrow (fun _ => hlt) with
    ⟨v, hensure, h, hroom⟩ | ⟨hrefused, -⟩
  · exact ⟨v, by rw [ensureCapacity, hensure]; rfl, h, hroom⟩
  · cases hrefused

theorem Holds.appendAll (h : v.Holds xs) (values : List α)
    (hroom : xs.length + values.length ≤ v.dataCapacity) :
    ∃ v', appendAll values v = .ok v' ∧ v'.Holds (xs ++ values) := by
  induction values generalizing v xs with
  | nil => exact ⟨v, rfl, by rwa [List.append_nil]⟩
  | cons value values ih =>
    rw [List.length_cons] at hroom
    obtain ⟨v', hplace, h'⟩ := h.placeLast (by omega) value
    obtain ⟨v'', hrest, h''⟩ := ih h' (by
      rw [place_capacity hplace, List.length_append, List.length_singleton]
      omega)
    rw [List.append_assoc] at h''
    refine ⟨v'', ?_, h''⟩
    rw [Vector.appendAll, appendUnchecked, h.count, hplace]
    exact hrest

theorem ofInitializerList_cons (trivial : Bool) (hne : xs ≠ []) (hlt : xs.length < 2 ^ 32) :
    ∃ v, ofInitializerList trivial true xs = .ok v ∧ v.Holds xs := by
  obtain ⟨v, hensure, h, hroom⟩ :=
    ensureCapacity_first (α := α) (List.length_pos_iff.2 hne) hlt trivial
  obtain ⟨v', happend, h'⟩ := h.appendAll xs (by rwa [List.length_nil, Nat.zero_add])
  rw [ofInitializerList, hensure]
  exact ⟨v', happend, h'⟩

theorem copy_of_zero (copyValue : α → Checked α) (trivial granted : Bool) {rhs : Vector α}
    (hzero : rhs.valuesCount = 0) : rhs.copy copyValue trivial granted = .ok {} := by
  rw [copy, hzero]
  rfl

theorem copy_of_pos (copyValue : α → Checked α) (trivial : Bool) {rhs : Vector α}
    (hpos : 0 < rhs.valuesCount) : rhs.copy copyValue trivial true = .error .access := by
  have hmove : (⟨none, 0, rhs.valuesCount⟩ : Vector α).moveValues trivial
      (List.replicate rhs.valuesCount none) = .error .access := by
    obtain ⟨n, hn⟩ := Nat.exists_eq_succ_of_ne_zero hpos.ne'
    rw [moveValues, hn]
    cases trivial with
    | true => rfl
    | false =>
      rfl
  have hcapacity : (⟨none, 0, rhs.valuesCount⟩ : Vector α).newCapacity rhs.valuesCount =
      rhs.valuesCount := by
    rw [newCapacity, if_pos rfl, if_neg hpos.ne']
  rw [copy, if_neg hpos.ne', ensureCapacity, tryEnsureCapacity, verify_of hpos, ok_bind,
    if_neg (Nat.not_le.2 hpos), if_pos rfl, hcapacity, hmove]
  rfl

end Vector

end LibTC
