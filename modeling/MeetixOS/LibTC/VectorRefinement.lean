import MeetixOS.LibTC.Vector

/-! # The vector as a list

Runs of calls to a `Vector` against the same calls on a list. Each call answers as the list does, or is
refused by the allocator and changes nothing, as long as no call needs a capacity whose growth wraps
around (`growable_runs_refine`); from there on the storage is smaller than what is moved into it. -/

open Slots

namespace LibTC

/-- The calls that a run is made of; sizes are 32-bit words. -/
inductive Call (α : Type)
  | tryInsertAt (index : Nat) (value : α)
  | tryPrepend (value : α)
  | tryAppend (value : α)
  | tryEmplaceFirst (value : α)
  | tryEmplaceLast (value : α)
  | takeAt (index : Nat)
  | eraseAt (index : Nat)
  | eraseFirstOf (value : α)
  | eraseAllMatches (matcher : α → Bool)
  | tryResize (newCount : UInt32)
  | tryEnsureCapacity (capacity : UInt32)
  | clear (keep : Bool)

/-- What a call returns when it does not return an error. -/
inductive Answer (α : Type)
  | done
  | value (x : α)
  | erased (count : Nat)
  deriving DecidableEq

variable {α : Type}

/-! ## The list -/

/-- What a call does to the list. -/
def Call.onList [BEq α] [Inhabited α] (c : Call α) (xs : List α) :
    Checked (Except Error (Answer α) × List α) :=
  match c with
  | .tryInsertAt index value =>
    if index ≤ xs.length then .ok (.ok .done, xs.take index ++ value :: xs.drop index)
    else .ok (.error .einval, xs)
  | .tryPrepend value => .ok (.ok .done, value :: xs)
  | .tryAppend value => .ok (.ok .done, xs ++ [value])
  | .tryEmplaceFirst value => .ok (.ok .done, value :: xs)
  | .tryEmplaceLast value => .ok (.ok .done, xs ++ [value])
  | .takeAt index =>
    match xs[index]? with
    | some x => .ok (.ok (.value x), xs.eraseIdx index)
    | none => .error .verify
  | .eraseAt index =>
    if index < xs.length then .ok (.ok .done, xs.eraseIdx index) else .ok (.error .einval, xs)
  | .eraseFirstOf value =>
    if xs.any (· == value) then .ok (.ok .done, xs.eraseP (· == value)) else .ok (.error .enoent, xs)
  | .eraseAllMatches matcher =>
    if xs.any matcher then
      .ok (.ok (.erased (xs.countP matcher)), xs.filter fun x => !matcher x)
    else
      .ok (.error .enoent, xs)
  | .tryResize newCount =>
    .ok (.ok .done,
      xs.take newCount.toNat ++ List.replicate (newCount.toNat - xs.length) default)
  | .tryEnsureCapacity capacity => if 0 < capacity.toNat then .ok (.ok .done, xs) else .error .verify
  | .clear _ => .ok (.ok .done, [])

/-- The calls that may ask for memory. -/
def Call.Allocates : Call α → Prop
  | .takeAt _ | .eraseAt _ | .eraseFirstOf _ | .eraseAllMatches _ | .clear _ => False
  | _ => True

/-- The list's answer, or that of an allocator that has no memory. -/
def Answers [BEq α] [Inhabited α] (granted : Bool) (c : Call α) (xs : List α)
    (answer : Except Error (Answer α)) (xs' : List α) : Prop :=
  c.onList xs = .ok (answer, xs') ∨
    c.Allocates ∧ granted = false ∧ answer = .error .enomem ∧ xs' = xs

theorem Answers.eq_of_error [BEq α] [Inhabited α] {granted : Bool} {c : Call α} {xs xs' : List α}
    {e : Error} (h : Answers granted c xs (.error e) xs') : xs' = xs := by
  obtain h | ⟨-, -, -, h⟩ := h
  · unfold Call.onList at h
    split at h
    all_goals first
      | cases h
      | split at h <;> cases h <;> rfl
  · exact h

/-! ## The vector -/

namespace Vector

/-- A call, with what it returns. -/
def call [BEq α] [Inhabited α] (trivial granted : Bool) (c : Call α) (v : Vector α) :
    Checked (Outcome α (Answer α)) :=
  let done (o : Outcome α Unit) : Outcome α (Answer α) := (o.1.map fun _ => .done, o.2)
  match c with
  | .tryInsertAt index value => (v.tryInsertAt trivial granted index value).map done
  | .tryPrepend value => (v.tryPrepend trivial granted value).map done
  | .tryAppend value => (v.tryAppend trivial granted value).map done
  | .tryEmplaceFirst value => (v.tryEmplaceFirst trivial granted value).map done
  | .tryEmplaceLast value => (v.tryEmplaceLast trivial granted value).map done
  | .takeAt index => (v.takeAt trivial index).map fun o => (o.1.map .value, o.2)
  | .eraseAt index => (v.eraseAt trivial index).map done
  | .eraseFirstOf value => (v.eraseFirstOf trivial value).map done
  | .eraseAllMatches matcher =>
    (v.eraseAllMatches trivial matcher).map fun o => (o.1.map .erased, o.2)
  | .tryResize newCount => (v.tryResize trivial granted newCount.toNat).map done
  | .tryEnsureCapacity capacity => (v.tryEnsureCapacity trivial granted capacity.toNat).map done
  | .clear keep => (v.clear trivial keep).map fun v => (.ok .done, v)

/-- The capacity that a call asks for. -/
def needs (v : Vector α) : Call α → Nat
  | .tryInsertAt index _ => if index ≤ v.valuesCount then v.valuesCount + 1 else 0
  | .tryPrepend _ => v.valuesCount + 1
  | .tryAppend _ => v.valuesCount + 1
  | .tryEmplaceFirst _ => v.valuesCount + 1
  | .tryEmplaceLast _ => v.valuesCount + 1
  | .tryResize newCount => newCount.toNat
  | .tryEnsureCapacity capacity => capacity.toNat
  | _ => 0

variable [BEq α] [Inhabited α] {v v' : Vector α} {xs : List α} {c : Call α}
  {trivial granted : Bool}

/-- A call is made, and the vector goes on with what the list makes of it. -/
def Refines (trivial granted : Bool) (c : Call α) (v : Vector α) (xs : List α) : Prop :=
  (c.onList xs = .error .verify ∧ v.call trivial granted c = .error .verify) ∨
    ∃ answer v' xs', v.call trivial granted c = .ok (answer, v') ∧ Answers granted c xs answer xs' ∧
      v'.Holds xs'

theorem refines_of_ok {answer : Except Error (Answer α)} {xs' : List α}
    (hcall : v.call trivial granted c = .ok (answer, v')) (hlist : c.onList xs = .ok (answer, xs'))
    (h : v'.Holds xs') : Refines trivial granted c v xs :=
  .inr ⟨answer, v', xs', hcall, .inl hlist, h⟩

theorem refines_of_inserted {r : Checked (Outcome α Unit)} {xs' : List α} (hc : c.Allocates)
    (h : v.Holds xs)
    (hcall : v.call trivial granted c = r.map fun o => (o.1.map fun _ => .done, o.2))
    (hlist : c.onList xs = .ok (.ok .done, xs'))
    (hr : (∃ v', r = .ok (.ok (), v') ∧ v'.Holds xs') ∨
      granted = false ∧ r = .ok (.error .enomem, v)) : Refines trivial granted c v xs := by
  rcases hr with ⟨v', rfl, h'⟩ | ⟨hrefused, rfl⟩
  · exact refines_of_ok hcall hlist h'
  · exact .inr ⟨.error .enomem, v, xs, hcall, .inr ⟨hc, hrefused, rfl, rfl⟩, h⟩

omit [BEq α] [Inhabited α] in
theorem take_append_getElem_drop {index : Nat} (hlt : index < xs.length) :
    xs.take index ++ xs[index] :: xs.drop (index + 1) = xs := by
  rw [← List.drop_eq_getElem_cons hlt, List.take_append_drop]

theorem Holds.call (h : v.Holds xs) (trivial granted : Bool) (c : Call α)
    (hgrow : v.Growable (v.needs c)) : Refines trivial granted c v xs := by
  cases c with
  | tryInsertAt index value =>
    by_cases hindex : index ≤ xs.length
    · have hlist : (Call.tryInsertAt index value).onList xs =
          .ok (.ok .done, xs.take index ++ value :: xs.drop index) := if_pos hindex
      refine refines_of_inserted True.intro h rfl hlist ?_
      have htake : (xs.take index).length = index := by
        rw [List.length_take]
        omega
      have hsplit := h
      rw [← List.take_append_drop index xs] at hsplit
      rw [needs, if_pos (by rw [h.count]; exact hindex), h.count] at hgrow
      have hinsert := hsplit.tryInsertAt trivial granted value (by rwa [List.take_append_drop])
      rwa [htake] at hinsert
    · have hlist : (Call.tryInsertAt index value).onList xs = .ok (.error .einval, xs) :=
        if_neg hindex
      refine refines_of_ok ?_ hlist h
      rw [Vector.call, Vector.tryInsertAt, if_pos (by rw [h.count]; omega)]
      rfl
  | tryPrepend value =>
    rw [needs, h.count] at hgrow
    exact refines_of_inserted True.intro h rfl rfl (h.tryPrepend trivial granted value hgrow)
  | tryAppend value =>
    rw [needs, h.count] at hgrow
    exact refines_of_inserted True.intro h rfl rfl (h.tryAppend trivial granted value hgrow)
  | tryEmplaceFirst value =>
    rw [needs, h.count] at hgrow
    exact refines_of_inserted True.intro h rfl rfl (h.tryEmplaceFirst trivial granted value hgrow)
  | tryEmplaceLast value =>
    rw [needs, h.count] at hgrow
    exact refines_of_inserted True.intro h rfl rfl (h.tryEmplaceLast trivial granted value hgrow)
  | takeAt index =>
    by_cases hindex : index < xs.length
    · have hlist : (Call.takeAt index).onList xs =
          .ok (.ok (.value xs[index]), xs.eraseIdx index) := by
        rw [Call.onList, List.getElem?_eq_getElem hindex]
      have hsplit := h
      rw [← take_append_getElem_drop hindex] at hsplit
      obtain ⟨v', htake, h'⟩ := hsplit.takeAt trivial
      rw [List.length_take, Nat.min_eq_left hindex.le] at htake
      refine refines_of_ok ?_ hlist (by rwa [List.eraseIdx_eq_take_drop_succ])
      rw [Vector.call, htake]
      rfl
    · refine .inl ⟨?_, ?_⟩
      · rw [Call.onList, List.getElem?_eq_none (Nat.le_of_not_lt hindex)]
      · rw [Vector.call, Vector.takeAt, h.count, verify, if_neg hindex]
        rfl
  | eraseAt index =>
    by_cases hindex : index < xs.length
    · have hlist : (Call.eraseAt index).onList xs = .ok (.ok .done, xs.eraseIdx index) :=
        if_pos hindex
      have hsplit := h
      rw [← take_append_getElem_drop hindex] at hsplit
      obtain ⟨v', herase, h'⟩ := hsplit.eraseAt trivial
      rw [List.length_take, Nat.min_eq_left hindex.le] at herase
      refine refines_of_ok ?_ hlist (by rwa [List.eraseIdx_eq_take_drop_succ])
      rw [Vector.call, herase]
      rfl
    · have hlist : (Call.eraseAt index).onList xs = .ok (.error .einval, xs) := if_neg hindex
      refine refines_of_ok ?_ hlist h
      rw [Vector.call, Vector.eraseAt, if_pos (by rw [h.count]; omega)]
      rfl
  | eraseFirstOf value =>
    have herase := h.eraseFirstOf trivial value
    by_cases hany : xs.any (· == value) = true
    · rw [if_pos hany] at herase
      obtain ⟨v', herase, h'⟩ := herase
      refine refines_of_ok ?_ (if_pos hany) h'
      rw [Vector.call, herase]
      rfl
    · rw [if_neg hany] at herase
      refine refines_of_ok ?_ (if_neg hany) h
      rw [Vector.call, herase]
      rfl
  | eraseAllMatches matcher =>
    have herase := h.eraseAllMatches trivial matcher
    by_cases hany : xs.any matcher = true
    · rw [if_pos hany] at herase
      obtain ⟨v', herase, h'⟩ := herase
      refine refines_of_ok ?_ (if_pos hany) h'
      rw [Vector.call, herase]
      rfl
    · rw [if_neg hany] at herase
      refine refines_of_ok ?_ (if_neg hany) h
      rw [Vector.call, herase]
      rfl
  | tryResize newCount =>
    refine refines_of_inserted True.intro h rfl rfl ?_
    rcases h.tryResize trivial granted newCount.toNat_lt (fun _ => hgrow) with
      hdone | ⟨hrefused, -, hresize⟩
    · exact .inl hdone
    · exact .inr ⟨hrefused, hresize⟩
  | tryEnsureCapacity capacity =>
    by_cases hpos : 0 < capacity.toNat
    · refine refines_of_inserted True.intro h rfl (if_pos hpos) ?_
      rcases h.tryEnsureCapacity trivial granted hpos hgrow (fun _ => capacity.toNat_lt) with
        ⟨v', hensure, h', -⟩ | hrefused
      · exact .inl ⟨v', hensure, h'⟩
      · exact .inr hrefused
    · refine .inl ⟨if_neg hpos, ?_⟩
      rw [Vector.call, Vector.tryEnsureCapacity, verify, if_neg hpos]
      rfl
  | clear keep =>
    obtain ⟨v', hclear, h', -⟩ := h.clear trivial keep
    refine refines_of_ok ?_ rfl h'
    rw [Vector.call, hclear]
    rfl

/-! ## Runs -/

/-- A run of calls that ask for no capacity whose growth wraps around, with the allocator's answers and
those of the calls. -/
inductive CleanRun (trivial : Bool) :
    Vector α → List (Call α × Bool × Except Error (Answer α)) → Vector α → Prop
  | nil (v : Vector α) : CleanRun trivial v [] v
  | cons {v v' v'' : Vector α} {c : Call α} {granted : Bool} {answer : Except Error (Answer α)}
      {rest : List (Call α × Bool × Except Error (Answer α))} (hgrow : v.Growable (v.needs c))
      (hcall : v.call trivial granted c = .ok (answer, v')) (hrest : CleanRun trivial v' rest v'') :
      CleanRun trivial v ((c, granted, answer) :: rest) v''

/-- The same calls with the same answers on a list. -/
inductive ListRun : List α → List (Call α × Bool × Except Error (Answer α)) → List α → Prop
  | nil (xs : List α) : ListRun xs [] xs
  | cons {xs xs' xs'' : List α} {c : Call α} {granted : Bool} {answer : Except Error (Answer α)}
      {rest : List (Call α × Bool × Except Error (Answer α))}
      (hcall : Answers granted c xs answer xs') (hrest : ListRun xs' rest xs'') :
      ListRun xs ((c, granted, answer) :: rest) xs''

theorem Holds.run (h : v.Holds xs) {trace : List (Call α × Bool × Except Error (Answer α))}
    (hrun : CleanRun trivial v trace v') : ∃ xs', ListRun xs trace xs' ∧ v'.Holds xs' := by
  induction hrun generalizing xs with
  | nil v => exact ⟨xs, .nil xs, h⟩
  | @cons v v' v'' c granted answer rest hgrow hcall hrest ih =>
    rcases h.call trivial granted c hgrow with ⟨-, hverify⟩ | ⟨answer', w, xs', hcall', hanswers, h'⟩
    · rw [hverify] at hcall
      cases hcall
    · rw [hcall'] at hcall
      cases hcall
      obtain ⟨xs'', hlist, h''⟩ := ih h'
      exact ⟨xs'', .cons hanswers hlist, h''⟩

/-- In every state of such a run the vector holds the list of the same run, with the count below the
capacity, and every such call from there answers as the list does, inside the storage; where it returns
an error it changes nothing. -/
theorem growable_runs_refine (trivial : Bool) (h : v.Holds xs)
    {trace : List (Call α × Bool × Except Error (Answer α))} (hrun : CleanRun trivial v trace v') :
    ∃ xs', ListRun xs trace xs' ∧ v'.Holds xs' ∧ v'.valuesCount ≤ v'.dataCapacity ∧
      ∀ granted c, v'.Growable (v'.needs c) →
        (c.onList xs' = .error .verify ∧ v'.call trivial granted c = .error .verify) ∨
          ∃ answer v'' xs'', v'.call trivial granted c = .ok (answer, v'') ∧
            Answers granted c xs' answer xs'' ∧ v''.Holds xs'' ∧
            ∀ e, answer = .error e → xs'' = xs' ∧ v''.valuesCount = v'.valuesCount := by
  obtain ⟨xs', hlist, h'⟩ := h.run hrun
  refine ⟨xs', hlist, h', h'.count_le, ?_⟩
  intro granted c hgrow
  rcases h'.call trivial granted c hgrow with hverify | ⟨answer, v'', xs'', hcall, hanswers, h''⟩
  · exact .inl hverify
  · refine .inr ⟨answer, v'', xs'', hcall, hanswers, h'', ?_⟩
    rintro e rfl
    have hsame := hanswers.eq_of_error
    exact ⟨hsame, by rw [h''.count, hsame, h'.count]⟩

/-- A storage of two slots that are full grows. -/
theorem growable_run_growing : ∃ xs',
    ListRun [(7 : Nat), 8] [(.tryAppend 9, true, .ok .done), (.takeAt 0, true, .ok (.value 7))] xs' ∧
      (⟨some [some 8, some 9, none], 3, 2⟩ : Vector Nat).Holds xs' := by
  have hrun : CleanRun false (⟨some [some 7, some 8], 2, 2⟩ : Vector Nat)
      [(.tryAppend 9, true, .ok .done), (.takeAt 0, true, .ok (.value 7))]
      ⟨some [some 8, some 9, none], 3, 2⟩ :=
    .cons (fun _ _ => by decide) (by with_unfolding_all rfl)
      (.cons (fun _ hlt => absurd hlt (Nat.not_lt_zero _)) (by with_unfolding_all rfl) (.nil _))
  have hstart : (⟨some [some 7, some 8], 2, 2⟩ : Vector Nat).Holds [7, 8] :=
    ⟨⟨[], rfl⟩, rfl, rfl, by decide⟩
  obtain ⟨xs', hlist, hholds, -⟩ := growable_runs_refine false hstart hrun
  exact ⟨xs', hlist, hholds⟩

/-- For 3435973837 bytes of capacity, the next one is computed as zero; the byte is written behind
the new storage. -/
theorem capacity_wraps_around :
    ¬ ∀ (v : Vector UInt8) (xs : List UInt8) (trivial granted : Bool) (capacity : UInt32), v.Holds xs →
      0 < capacity.toNat → v.call trivial granted (.tryEnsureCapacity capacity) ≠ .error .access := by
  intro h
  refine h ⟨some [some 7], 1, 1⟩ [7] true true 3435973837 ⟨⟨[], rfl⟩, rfl, rfl, by decide⟩
    (by decide) ?_
  have hwrap : Vector.newCapacity (⟨some [some 7], 1, 1⟩ : Vector UInt8) 3435973837 = 0 := by
    rw [Vector.newCapacity, if_neg (by decide), MeetixOS.Kernel.u32]
    rfl
  rw [Vector.call, Vector.tryEnsureCapacity, verify_of (by decide), ok_bind, if_neg (by decide),
    if_pos rfl, show (3435973837 : UInt32).toNat = 3435973837 from rfl, hwrap]
  rfl

end Vector

end LibTC
