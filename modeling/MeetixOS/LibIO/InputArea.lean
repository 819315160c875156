import Mathlib.Data.Fin.VecNotation
import MeetixOS.Kernel.Tasking.AtomicWait

/-! # The shared area of the input driver

`handleKeyboardData` and `handleMouseData` of the input driver, `Keyboard::read` and `Mouse::read` of LibIO,
and the two flags in shared memory between them. Each access is one step; the driver and the one reader
take theirs in any order. `sent` and `received` record what went in and came out. A record has `last + 1`
fields: one for the keyboard, three for the mouse. -/

open Function (update)

namespace MeetixOS.LibIO

open Lib

/-! ## Blocking on an atom -/

/-- `s_atomic_block`, which is `__atomic_lock(atom, nullptr, true, false)`: `none` while the caller has
to wait, otherwise the atom as it is left. -/
def sAtomicBlock (atom : Bool) : Option Bool :=
  match Kernel.atomicWait { atom1 := 0 } fun _ => atom with
  | (atoms, .passes) => some (atoms 0)
  | _ => none

theorem sAtomicBlock_eq (atom : Bool) : sAtomicBlock atom = if atom then none else some true := by
  cases atom <;> rfl

/-! ## The two sides -/

/-- The fields that are transferred. -/
abbrev Fields (last : Nat) := Fin (last + 1) → Int

/-- Where the driver is: before the next byte, blocked, at a field, or before one of its two changes
of the atoms. -/
inductive DriverAt (last : Nat)
  | idle
  | blocked (d : Fields last)
  | writing (d : Fields last) (i : Fin (last + 1))
  | queue (d : Fields last)
  | mark

/-- Where the reader is: outside of `read`, blocked, at a field, or before one of its two changes of
the atoms. -/
inductive ReaderAt (last : Nat)
  | idle
  | blocked
  | reading (got : Fields last) (i : Fin (last + 1))
  | release (got : Fields last)
  | clear (got : Fields last)

/-- What a device makes of the bytes that come in: its state, and a record when it is complete. -/
structure Device (κ : Type) (last : Nat) where
  reset : κ
  assemble : κ → UInt8 → κ × Option (Fields last)

/-- `handleKeyboardData`: each byte is a record. -/
def keyboardDevice : Device Unit 0 where
  reset := ()
  assemble _ b := ((), some fun _ => b.toNat)

/-- `mousePacketNumber` and `mousePacketBuffer`. -/
structure MousePacket where
  number : Nat
  flags : UInt8
  valX : UInt8

/-- `handleMouseData`: three bytes are a record, unless the flags tell that a value has overflown. -/
def mouseDevice : Device MousePacket 2 where
  reset := ⟨0, 0, 0⟩
  assemble p b :=
    match p.number with
    | 0 => ({ p with flags := b, number := if b &&& 8 = 0 then 0 else 1 }, none)
    | 1 => ({ p with valX := b, number := 2 }, none)
    | _ =>
      let p' := { p with number := 0 }
      if p.flags &&& 64 ≠ 0 ∨ p.flags &&& 128 ≠ 0 then (p', none)
      else
        let offX : Int := p.valX.toNat - (p.flags.toNat <<< 4 &&& 0x100 : Nat)
        let offY : Int := b.toNat - (p.flags.toNat <<< 3 &&& 0x100 : Nat)
        (p', some ![offX, offY, p.flags.toNat])

/-! ## Steps -/

/-- One device's part of `Input::SharedArea`, and both sides. -/
structure InputArea (κ : Type) (last : Nat) where
  atomNothingQueued : Bool
  atomUnhandled : Bool
  data : Fields last
  packet : κ
  driver : DriverAt last
  reader : ReaderAt last
  sent : List (Fields last)
  received : List (Fields last)

/-- A byte comes in while the driver waits for one, the driver goes on, `read` is called, the reader
goes on. -/
inductive InputStep
  | byte (b : UInt8)
  | driver
  | read
  | reader
  deriving DecidableEq

variable {κ : Type} {last : Nat}

/-- The next field, or what comes behind the last one. -/
def afterField {α : Type} (i : Fin (last + 1)) (more : Fin (last + 1) → α) (done : α) : α :=
  if h : i.val + 1 < last + 1 then more ⟨i.val + 1, h⟩ else done

namespace InputArea

/-- The area as the driver sets it up. -/
def initial (device : Device κ last) : InputArea κ last where
  atomNothingQueued := true
  atomUnhandled := false
  data _ := 0
  packet := device.reset
  driver := .idle
  reader := .idle
  sent := []
  received := []

/-- The driver's next access. -/
def driverStep (s : InputArea κ last) : Option (InputArea κ last) :=
  match s.driver with
  | .idle => none
  | .blocked d =>
    (sAtomicBlock s.atomUnhandled).map fun atom =>
      { s with atomUnhandled := atom, driver := .writing d 0 }
  | .writing d i =>
    some { s with data := update s.data i (d i)
                  driver := afterField i (.writing d) (.queue d) }
  | .queue _ => some { s with atomNothingQueued := false, driver := .mark }
  | .mark => some { s with atomUnhandled := true, driver := .idle }

/-- The reader's next access. -/
def readerStep (s : InputArea κ last) : Option (InputArea κ last) :=
  match s.reader with
  | .idle => none
  | .blocked =>
    (sAtomicBlock s.atomNothingQueued).map fun atom =>
      { s with atomNothingQueued := atom, reader := .reading (fun _ => 0) 0 }
  | .reading got i =>
    let got := update got i (s.data i)
    some { s with reader := afterField i (.reading got) (.release got) }
  | .release got => some { s with atomNothingQueued := true, reader := .clear got }
  | .clear got =>
    some { s with atomUnhandled := false, reader := .idle, received := s.received ++ [got] }

def step (device : Device κ last) (s : InputArea κ last) : InputStep → Option (InputArea κ last)
  | .byte b =>
    match s.driver with
    | .idle =>
      match device.assemble s.packet b with
      | (packet, none) => some { s with packet }
      | (packet, some d) =>
        some { s with packet, driver := .blocked d, sent := s.sent ++ [d] }
    | _ => none
  | .driver => s.driverStep
  | .read =>
    match s.reader with
    | .idle => some { s with reader := .blocked }
    | _ => none
  | .reader => s.readerStep

end InputArea

/-- The driver and the reader of a device. -/
def inputSystem (device : Device κ last) : System (InputArea κ last) InputStep where
  init s := s = InputArea.initial device
  step := InputArea.step device

namespace InputArea

/-- The driver is before setting `m_atom_unhandled`. -/
def marking (s : InputArea κ last) : Bool :=
  match s.driver with
  | .mark => true
  | _ => false

/-- The reader is before clearing `m_atom_unhandled`. -/
def clearing (s : InputArea κ last) : Bool :=
  match s.reader with
  | .clear _ => true
  | _ => false

/-- The reader does not clear `m_atom_unhandled` while the driver is before setting it. -/
def Ordered (s : InputArea κ last) (a : InputStep) : Prop :=
  a = .reader → s.clearing = true → s.marking = false

instance (s : InputArea κ last) (a : InputStep) : Decidable (s.Ordered a) :=
  inferInstanceAs (Decidable (a = .reader → s.clearing = true → s.marking = false))

/-- The records that the driver has and has not queued. -/
def held (s : InputArea κ last) : List (Fields last) :=
  match s.driver with
  | .blocked d => [d]
  | .writing d _ => [d]
  | .queue d => [d]
  | _ => []

/-- The driver is in the middle of a record and has not queued it. -/
def filling (s : InputArea κ last) : Bool :=
  match s.driver with
  | .writing _ _ => true
  | .queue _ => true
  | _ => false

/-- The reader is in the middle of a record. -/
def fetching (s : InputArea κ last) : Bool :=
  match s.reader with
  | .idle => false
  | .blocked => false
  | _ => true

/-- Both sides wait, or would wait, for the other one. -/
def Deadlocked (s : InputArea κ last) : Prop :=
  s.atomUnhandled = true ∧ s.atomNothingQueued = true ∧ s.filling = false ∧ s.driver ≠ .mark ∧
    s.fetching = false

/-! ## The invariant -/

/-- Nothing is queued: the driver has written what it has of the next record. -/
structure Vacant (s : InputArea κ last) : Prop where
  nothingQueued : s.atomNothingQueued = true
  unhandled : s.atomUnhandled = s.filling
  reader : s.fetching = false
  driver : s.driver ≠ .mark
  written : ∀ d i, s.driver = .writing d i → ∀ j < i, s.data j = d j
  whole : ∀ d, s.driver = .queue d → s.data = d
  sent : s.sent = s.received ++ s.held

/-- A record is queued or being read. -/
structure Occupied (c : Fields last) (s : InputArea κ last) : Prop where
  unhandled : s.atomUnhandled = true
  nothingQueued : s.atomNothingQueued = s.fetching
  driver : s.filling = false
  data : s.data = c
  reading : ∀ got i, s.reader = .reading got i → ∀ j < i, got j = c j
  release : ∀ got, s.reader = .release got → got = c
  clear : ∀ got, s.reader = .clear got → got = c
  sent : s.sent = s.received ++ c :: s.held

/-- The area holds at most one record. -/
def Consistent (s : InputArea κ last) : Prop := s.Vacant ∨ ∃ c, s.Occupied c

theorem afterField_cases {α : Type} (i : Fin (last + 1)) (more : Fin (last + 1) → α) (done : α) :
    (∃ next : Fin (last + 1), afterField i more done = more next ∧ next.val = i.val + 1) ∨
      afterField i more done = done ∧ i.val = last := by
  unfold afterField
  split
  next h => exact Or.inl ⟨⟨i.val + 1, h⟩, rfl, rfl⟩
  next h => exact Or.inr ⟨rfl, by omega⟩

theorem update_agrees {a b : Fields last} {i : Fin (last + 1)} (h : ∀ j < i, a j = b j)
    {j : Fin (last + 1)} (hj : j ≤ i) : update a i (b i) j = b j := by
  by_cases heq : j = i
  · rw [heq, Function.update_self]
  · rw [Function.update_of_ne heq]
    exact h j (lt_of_le_of_ne hj heq)

variable {s s' : InputArea κ last} {c : Fields last}

theorem Vacant.driverStep (h : s.Vacant) (hstep : s.driverStep = some s') : s'.Consistent := by
  have hunhandled := h.unhandled
  have hsent := h.sent
  unfold InputArea.driverStep at hstep
  split at hstep
  next => cases hstep
  next d hd =>
    obtain ⟨atom, hatom, rfl⟩ := Option.map_eq_some_iff.mp hstep
    have hfree : s.atomUnhandled = false := by simpa [filling, hd] using hunhandled
    rw [hfree, sAtomicBlock_eq] at hatom
    cases hatom
    refine Or.inl ⟨h.nothingQueued, rfl, h.reader, by simp, ?_, by simp, ?_⟩
    · intro d' i hi j hj
      cases hi
      exact absurd hj (Nat.not_lt_zero _)
    · simpa [held, hd] using hsent
  next d i hd =>
    cases hstep
    have hwritten := h.written d i hd
    have hkeep : s.atomUnhandled = true := by simpa [filling, hd] using hunhandled
    rcases afterField_cases i (DriverAt.writing d) (.queue d) with ⟨next, heq, hnext⟩ | ⟨heq, hlast⟩
    · refine Or.inl ⟨h.nothingQueued, ?_, h.reader, by simp [heq], ?_, by simp [heq], ?_⟩
      · simpa [filling, heq] using hkeep
      · intro d' i' hi j hj
        simp only [heq] at hi
        cases hi
        exact update_agrees hwritten (by omega)
      · simpa [held, hd, heq] using hsent
    · refine Or.inl ⟨h.nothingQueued, ?_, h.reader, by simp [heq], by simp [heq], ?_, ?_⟩
      · simpa [filling, heq] using hkeep
      · intro d' hd'
        simp only [heq] at hd'
        cases hd'
        exact funext fun j => update_agrees hwritten (by omega)
      · simpa [held, hd, heq] using hsent
  next d hd =>
    cases hstep
    have hkeep : s.atomUnhandled = true := by simpa [filling, hd] using hunhandled
    have hreader := h.reader
    refine Or.inr ⟨d, hkeep, hreader.symm, rfl, h.whole d hd, ?_, ?_, ?_, ?_⟩
    · intro got i (hgot : s.reader = _)
      simp [fetching, hgot] at hreader
    · intro got (hgot : s.reader = _)
      simp [fetching, hgot] at hreader
    · intro got (hgot : s.reader = _)
      simp [fetching, hgot] at hreader
    · simpa [held, hd] using hsent
  next hd => exact absurd hd h.driver

theorem Occupied.driverStep (h : s.Occupied c) (hstep : s.driverStep = some s') :
    s'.Occupied c := by
  have hfilling := h.driver
  have hsent := h.sent
  unfold InputArea.driverStep at hstep
  split at hstep
  next => cases hstep
  next d hd =>
    rw [h.unhandled, sAtomicBlock_eq] at hstep
    cases hstep
  next d i hd => simp [filling, hd] at hfilling
  next d hd => simp [filling, hd] at hfilling
  next hd =>
    cases hstep
    refine ⟨rfl, h.nothingQueued, rfl, h.data, h.reading, h.release, h.clear, ?_⟩
    simpa [held, hd] using hsent

theorem Vacant.readerStep (h : s.Vacant) : s.readerStep = none := by
  have hreader := h.reader
  unfold InputArea.readerStep
  split
  next => rfl
  next => rw [h.nothingQueued, sAtomicBlock_eq, if_pos rfl, Option.map_none]
  next hr => simp [fetching, hr] at hreader
  next hr => simp [fetching, hr] at hreader
  next hr => simp [fetching, hr] at hreader

theorem Occupied.readerStep (h : s.Occupied c) (hok : s.Ordered .reader)
    (hstep : s.readerStep = some s') : s'.Consistent := by
  have hqueued := h.nothingQueued
  have hsent := h.sent
  have hdata := h.data
  unfold InputArea.readerStep at hstep
  split at hstep
  next => cases hstep
  next hr =>
    obtain ⟨atom, hatom, rfl⟩ := Option.map_eq_some_iff.mp hstep
    have hfree : s.atomNothingQueued = false := by simpa [fetching, hr] using hqueued
    rw [hfree, sAtomicBlock_eq] at hatom
    cases hatom
    refine Or.inr ⟨c, h.unhandled, rfl, h.driver, hdata, ?_, by simp, by simp, hsent⟩
    intro got i hi j hj
    cases hi
    exact absurd hj (Nat.not_lt_zero _)
  next got i hr =>
    cases hstep
    have hreading := h.reading got i hr
    have hkeep : s.atomNothingQueued = true := by simpa [fetching, hr] using hqueued
    rw [hdata]
    rcases afterField_cases i (ReaderAt.reading (update got i (c i)))
      (.release (update got i (c i))) with ⟨next, heq, hnext⟩ | ⟨heq, hlast⟩
    · refine Or.inr ⟨c, h.unhandled, ?_, h.driver, rfl, ?_, by simp [heq], by simp [heq], hsent⟩
      · simpa [fetching, heq] using hkeep
      · intro got' i' hi j hj
        simp only [heq] at hi
        cases hi
        exact update_agrees hreading (by omega)
    · refine Or.inr ⟨c, h.unhandled, ?_, h.driver, rfl, by simp [heq], ?_, by simp [heq], hsent⟩
      · simpa [fetching, heq] using hkeep
      · intro got' hgot
        simp only [heq] at hgot
        cases hgot
        exact funext fun j => update_agrees hreading (by omega)
  next got hr =>
    cases hstep
    refine Or.inr ⟨c, h.unhandled, rfl, h.driver, hdata, by simp, by simp, ?_, hsent⟩
    intro got' hgot
    cases hgot
    exact h.release got hr
  next got hr =>
    cases hstep
    have hkeep : s.atomNothingQueued = true := by simpa [fetching, hr] using hqueued
    have hmark : s.driver ≠ .mark := by
      intro hd
      have hmarking := hok rfl (by simp [clearing, hr])
      simp [marking, hd] at hmarking
    have hfilling := h.driver
    refine Or.inl ⟨hkeep, hfilling.symm, rfl, hmark, ?_, ?_, ?_⟩
    · intro d i (hd : s.driver = _)
      simp [filling, hd] at hfilling
    · intro d (hd : s.driver = _)
      simp [filling, hd] at hfilling
    · rw [h.clear got hr, hsent]
      simp [held]

theorem Consistent.byte {device : Device κ last} {b : UInt8} (h : s.Consistent)
    (hstep : s.step device (.byte b) = some s') : s'.Consistent := by
  simp only [step] at hstep
  split at hstep
  next hd =>
    have hnothing : ∀ packet, ({ s with packet } : InputArea κ last).Consistent := by
      intro packet
      rcases h with h | ⟨c, h⟩
      · exact Or.inl ⟨h.nothingQueued, h.unhandled, h.reader, h.driver, h.written, h.whole, h.sent⟩
      · exact Or.inr ⟨c, h.unhandled, h.nothingQueued, h.driver, h.data, h.reading, h.release,
          h.clear, h.sent⟩
    split at hstep
    next packet _ =>
      cases hstep
      exact hnothing packet
    next packet d _ =>
      cases hstep
      rcases h with h | ⟨c, h⟩
      · have hsent := h.sent
        have hunhandled := h.unhandled
        refine Or.inl ⟨h.nothingQueued, ?_, h.reader, by simp, by simp, by simp, ?_⟩
        · simpa [filling, hd] using hunhandled
        · simp only [held, hd, List.append_nil] at hsent ⊢
          rw [hsent]
      · have hsent := h.sent
        refine Or.inr ⟨c, h.unhandled, h.nothingQueued, rfl, h.data, h.reading, h.release, h.clear,
          ?_⟩
        simp only [held, hd] at hsent ⊢
        rw [hsent, List.append_assoc, List.singleton_append]
  next => cases hstep

theorem Consistent.read (h : s.Consistent) (hidle : s.reader = .idle) :
    ({ s with reader := .blocked } : InputArea κ last).Consistent := by
  rcases h with h | ⟨c, h⟩
  · exact Or.inl ⟨h.nothingQueued, h.unhandled, rfl, h.driver, h.written, h.whole, h.sent⟩
  · have hqueued := h.nothingQueued
    refine Or.inr ⟨c, h.unhandled, ?_, h.driver, h.data, by simp, by simp, by simp, h.sent⟩
    simpa [fetching, hidle] using hqueued

theorem Consistent.step {device : Device κ last} {a : InputStep} (h : s.Consistent)
    (hok : s.Ordered a) (hstep : s.step device a = some s') : s'.Consistent := by
  cases a with
  | byte b => exact h.byte hstep
  | driver =>
    rcases h with h | ⟨c, h⟩
    · exact h.driverStep hstep
    · exact Or.inr ⟨c, h.driverStep hstep⟩
  | read =>
    simp only [InputArea.step] at hstep
    split at hstep
    next hidle =>
      cases hstep
      exact h.read hidle
    next => cases hstep
  | reader =>
    rcases h with h | ⟨c, h⟩
    · exact absurd (h.readerStep.symm.trans hstep) (by simp)
    · exact h.readerStep hok hstep

theorem consistent_initial (device : Device κ last) : (initial device).Consistent :=
  Or.inl ⟨rfl, rfl, rfl, by simp [initial], by simp [initial], by simp [initial], rfl⟩

theorem Consistent.not_deadlocked (h : s.Consistent) : ¬ s.Deadlocked := by
  rintro ⟨hunhandled, hqueued, hfilling, -, hfetching⟩
  rcases h with h | ⟨c, h⟩
  · have := h.unhandled
    rw [hunhandled, hfilling] at this
    cases this
  · have := h.nothingQueued
    rw [hqueued, hfetching] at this
    cases this

/-! ## Everything arrives -/

/-- How far the driver is from waiting for a byte. -/
def driverRank (s : InputArea κ last) : Nat :=
  match s.driver with
  | .idle => 0
  | .mark => 1
  | .queue _ => 2
  | .writing _ i => 3 + (last - i)
  | .blocked _ => 4 + last

/-- How far the reader is from returning. -/
def readerRank (s : InputArea κ last) : Nat :=
  match s.reader with
  | .idle => 0
  | .clear _ => 1
  | .release _ => 2
  | .reading _ i => 3 + (last - i)
  | .blocked => 4 + last

theorem driverStep_rank (hstep : s.driverStep = some s') :
    s'.driverRank < s.driverRank ∧ s'.readerRank = s.readerRank := by
  unfold driverStep at hstep
  split at hstep
  next => cases hstep
  next d hd =>
    obtain ⟨atom, -, rfl⟩ := Option.map_eq_some_iff.mp hstep
    exact ⟨by simp [driverRank, hd], rfl⟩
  next d i hd =>
    cases hstep
    refine ⟨?_, rfl⟩
    rcases afterField_cases i (DriverAt.writing d) (.queue d) with ⟨next, heq, hnext⟩ | ⟨heq, hlast⟩
    · simp only [driverRank, heq, hd]
      omega
    · simp only [driverRank, heq, hd]
      omega
  next d hd =>
    cases hstep
    exact ⟨by simp [driverRank, hd], rfl⟩
  next hd =>
    cases hstep
    exact ⟨by simp [driverRank, hd], rfl⟩

theorem readerStep_rank (hstep : s.readerStep = some s') :
    s'.readerRank < s.readerRank ∧ s'.driverRank = s.driverRank := by
  unfold readerStep at hstep
  split at hstep
  next => cases hstep
  next hr =>
    obtain ⟨atom, -, rfl⟩ := Option.map_eq_some_iff.mp hstep
    exact ⟨by simp [readerRank, hr], rfl⟩
  next got i hr =>
    cases hstep
    refine ⟨?_, rfl⟩
    rcases afterField_cases i (ReaderAt.reading (update got i (s.data i)))
      (.release (update got i (s.data i))) with ⟨next, heq, hnext⟩ | ⟨heq, hlast⟩
    · simp only [readerRank, heq, hr]
      omega
    · simp only [readerRank, heq, hr]
      omega
  next got hr =>
    cases hstep
    exact ⟨by simp [readerRank, hr], rfl⟩
  next got hr =>
    cases hstep
    exact ⟨by simp [readerRank, hr], rfl⟩

theorem settles (device : Device κ last) (s : InputArea κ last) :
    (inputSystem device).Settles (fun a => a = .driver ∨ a = .reader) s := by
  refine System.settles_of_rank (I := fun _ => True) (fun s => s.driverRank + s.readerRank) ?_
    trivial
  intro s a s' _ ha hstep
  refine ⟨trivial, ?_⟩
  rcases ha with rfl | rfl
  · have := driverStep_rank hstep
    omega
  · have := readerStep_rank hstep
    omega

/-- Neither side can take a step of its own. -/
def Resting (s : InputArea κ last) : Prop :=
  s.driverStep = none ∧ (s.Ordered .reader → s.readerStep = none)

theorem Consistent.received_all (h : s.Consistent) (hrest : s.Resting) (hread : s.reader ≠ .idle) :
    s.received = s.sent := by
  obtain ⟨hdriver, hreader⟩ := hrest
  unfold driverStep at hdriver
  rcases h with h | ⟨c, h⟩
  · have hsent := h.sent
    have hunhandled := h.unhandled
    split at hdriver
    next hd => simpa [held, hd] using hsent.symm
    next d hd =>
      simp only [filling, hd] at hunhandled
      rw [hunhandled, sAtomicBlock_eq] at hdriver
      cases hdriver
    all_goals cases hdriver
  · have hqueued := h.nothingQueued
    have hmark : s.driver ≠ .mark := by
      intro hd
      simp [hd] at hdriver
    have hok : s.Ordered .reader := by
      intro _ _
      unfold marking
      split
      next hd => exact absurd hd hmark
      next => rfl
    have hnone := hreader hok
    unfold readerStep at hnone
    split at hnone
    next hr => exact absurd hr hread
    next hr =>
      simp only [fetching, hr] at hqueued
      rw [hqueued, sAtomicBlock_eq] at hnone
      cases hnone
    all_goals cases hnone

theorem Consistent.received_first (h : s.Consistent) :
    s.received <+: s.sent ∧ s.sent.length ≤ s.received.length + 2 := by
  have hheld : s.held.length ≤ 1 := by
    unfold held
    split <;> simp
  rcases h with h | ⟨c, h⟩
  · rw [h.sent]
    exact ⟨List.prefix_append _ _, by simp only [List.length_append]; omega⟩
  · rw [h.sent]
    exact ⟨List.prefix_append _ _, by simp only [List.length_append, List.length_cons]; omega⟩

end InputArea

/-- In every interleaving in which the reader does not clear `m_atom_unhandled` between the driver's two
last accesses, the records are received in order and once, the sides never wait for each other, and when
both rest under a `read` nothing is left over. -/
theorem records_received_in_order (device : Device κ last) (s : InputArea κ last)
    (hs : (inputSystem device).Reachable InputArea.Ordered s) :
    s.received <+: s.sent ∧ s.sent.length ≤ s.received.length + 2 ∧ ¬ s.Deadlocked ∧
      (inputSystem device).Settles (fun a => a = .driver ∨ a = .reader) s ∧
      (s.Resting → s.reader ≠ .idle → s.received = s.sent) := by
  have h : s.Consistent := by
    refine System.Reachable.invariant (I := InputArea.Consistent) ?_ ?_ hs
    · rintro s rfl
      exact InputArea.consistent_initial device
    · exact fun s a s' h hok hstep => h.step hok hstep
  exact ⟨h.received_first.1, h.received_first.2, h.not_deadlocked, InputArea.settles device s, h.received_all⟩

theorem records_received_in_order_mouse :
    ∃ s, (inputSystem mouseDevice).Reachable InputArea.Ordered s ∧
      s.received.map List.ofFn = [[5, -254, 0x28]] ∧ s.sent.length = 2 ∧
      s.received <+: s.sent ∧ ¬ s.Deadlocked := by
  obtain ⟨s, hs, hreceived, hsent⟩ :
      ∃ s ∈ (inputSystem mouseDevice).runGuarded InputArea.Ordered (InputArea.initial mouseDevice)
          (List.flatten (α := InputStep) [[.byte 0x28, .byte 5, .byte 2], List.replicate 6 .driver, [.read],
            List.replicate 6 .reader, [.byte 8, .byte 1, .byte 1, .read], List.replicate 6 .driver,
            List.replicate 2 .reader]),
        s.received.map List.ofFn = [[5, -254, 0x28]] ∧ s.sent.length = 2 := by
    decide
  have hreach := System.Reachable.of_runGuarded (.init rfl) hs
  obtain ⟨hfirst, -, hdeadlock, -⟩ := records_received_in_order mouseDevice s hreach
  exact ⟨s, hreach, hreceived, hsent, hfirst, hdeadlock⟩

/-- The reader takes the record while the driver is between clearing `m_atom_nothing_queued` and setting
`m_atom_unhandled`: both atoms stay set, with nothing queued and the next byte blocked. -/
theorem reader_overtakes_driver :
    ∃ s, (inputSystem keyboardDevice).Reachable (fun _ _ => True) s ∧
      s.Deadlocked ∧ s.received.length = 1 ∧ s.sent.length = 2 ∧
      s.driverStep = none ∧ s.readerStep = none := by
  obtain ⟨s, hs, hreceived, hsent, hunhandled, hqueued, hfilling, hmarking, hfetching, hdriver, hreader⟩ :
      ∃ s ∈ (inputSystem keyboardDevice).run (InputArea.initial keyboardDevice)
          (List.flatten (α := InputStep) [[.byte 30, .driver, .driver, .driver, .read],
            List.replicate 4 .reader, [.driver, .byte 158, .read]]),
        s.received.length = 1 ∧ s.sent.length = 2 ∧ s.atomUnhandled = true ∧ s.atomNothingQueued = true ∧
          s.filling = false ∧ s.marking = false ∧ s.fetching = false ∧ s.driverStep = none ∧
          s.readerStep = none := by
    decide
  have hmark : s.driver ≠ .mark := by
    intro hd
    simp [InputArea.marking, hd] at hmarking
  exact ⟨s, System.reachable_of_run rfl hs, ⟨hunhandled, hqueued, hfilling, hmark, hfetching⟩,
    hreceived, hsent, hdriver, hreader⟩

end MeetixOS.LibIO
