import MeetixOS.Lib.Runs

/-! # The stack of addresses

`AddressStack` keeps its addresses in frames of 128 that are linked both ways. The frame on top always has
room: a frame that gets full has an empty one put on top of it at once, and an empty one is deleted when
the next address is taken from the frame below. A null pointer is 0; following another pointer that leads
to no frame, and an index outside of a frame, give `none`. -/

open Option (bind_eq_bind bind_some map_some)

namespace MeetixOS.Kernel

open Lib

def addressStackFrameEntries : Nat := 128

structure AddressStackFrame where
  next : Nat
  previous : Nat
  entries : List Nat

/-- `AddressStack`, with the frames in the heap. -/
structure AddressStack where
  frames : Nat → Option AddressStackFrame
  current : Nat
  position : Nat

namespace AddressStack

/-- The constructor. -/
def empty : AddressStack := ⟨fun _ => none, 0, 0⟩

/-- What `new AddressStackFrame()` gives: the address, and what is in the entries. -/
abbrev NewFrame := Nat × List Nat

def putFrame (s : AddressStack) (a : Nat) (frame : Option AddressStackFrame) : AddressStack :=
  { s with frames := Function.update s.frames a frame }

/-- `delete` of a frame. -/
def deleteFrame (a : Nat) (s : AddressStack) : Option AddressStack :=
  if a = 0 then some s else (s.frames a).map fun _ => s.putFrame a none

/-- `AddressStack::push`; `new` is the frame that is created, if one is. -/
def push (address : Nat) (new : NewFrame) (s : AddressStack) : Option AddressStack := do
  let s := if s.current = 0 then { s.putFrame new.1 (some ⟨0, 0, new.2⟩) with current := new.1 } else s
  let frame ← s.frames s.current
  if addressStackFrameEntries ≤ s.position then none
  else
    let frame := { frame with entries := frame.entries.set s.position address }
    let s := { s.putFrame s.current (some frame) with position := s.position + 1 }
    if s.position = addressStackFrameEntries then
      some { (s.putFrame s.current (some { frame with next := new.1 })).putFrame new.1
        (some ⟨0, s.current, new.2⟩) with current := new.1, position := 0 }
    else some s

/-- The end of `pop`: the entry below the position. -/
def takeEntry (s : AddressStack) : Option (Nat × AddressStack) := do
  let frame ← s.frames s.current
  let address ← frame.entries[s.position - 1]?
  some (address, { s with position := s.position - 1 })

def pop (s : AddressStack) : Option (Nat × AddressStack) :=
  if s.current = 0 then some (0, s)
  else do
    let frame ← s.frames s.current
    if s.position = 0 then
      if frame.previous = 0 then some (0, s)
      else do
        let s := { s with current := frame.previous }
        let s ← deleteFrame (← s.frames s.current).next s
        let frame ← s.frames s.current
        takeEntry { s.putFrame s.current (some { frame with next := 0 }) with
          position := addressStackFrameEntries }
    else takeEntry s

/-! ## Calls -/

inductive Call
  | push (address : Nat) (new : NewFrame)
  | pop

/-- A call with its result: the address, where it is not 0. -/
def call (s : AddressStack) : Call → Option (AddressStack × Option Nat)
  | .push address new => (s.push address new).map fun s => (s, none)
  | .pop => s.pop.map fun r => (r.2, if r.1 = 0 then none else some r.1)

/-- The call on a stack of addresses. -/
def stackCall (stack : List Nat) : Call → List Nat × Option Nat
  | .push address _ => (address :: stack, none)
  | .pop => (stack.tail, stack.head?)

/-- The address is not 0, and `new` gives memory that is not in use. -/
def CallFits (s : AddressStack) : Call → Prop
  | .push address new =>
      address ≠ 0 ∧ new.1 ≠ 0 ∧ s.frames new.1 = none ∧ new.2.length = addressStackFrameEntries
  | .pop => True

/-! ## The stack in the frames -/

/-- The full frames, from the one at `p` down, with the frame on top of it. -/
def Below (frames : Nat → Option AddressStackFrame) : (front p : Nat) → List (Nat × List Nat) → Prop
  | _, p, [] => p = 0
  | front, p, (a, entries) :: rest =>
      p = a ∧ a ≠ 0 ∧ entries.length = addressStackFrameEntries ∧
        ∃ previous, frames a = some ⟨front, previous, entries⟩ ∧ Below frames a previous rest

/-- The stack is in a frame with room and the full ones below it. -/
structure OnTop (s : AddressStack) (entries : List Nat) (previous : Nat) (below : List (Nat × List Nat))
    (stack : List Nat) : Prop where
  nonnull : s.current ≠ 0
  frame : s.frames s.current = some ⟨0, previous, entries⟩
  length : entries.length = addressStackFrameEntries
  room : s.position < addressStackFrameEntries
  linked : Below s.frames s.current previous below
  apart : s.current ∉ below.map Prod.fst
  nodup : (below.map Prod.fst).Nodup
  stack_eq : stack = (entries.take s.position).reverse ++ below.flatMap fun f => f.2.reverse

/-- The addresses on the stack, the last one first; none of them is 0. -/
def Represents (s : AddressStack) (stack : List Nat) : Prop :=
  (∀ a ∈ stack, a ≠ 0) ∧
    ((s.current = 0 ∧ s.position = 0 ∧ stack = []) ∨
      ∃ entries previous below, s.OnTop entries previous below stack)

variable {s : AddressStack} {frames frames' : Nat → Option AddressStackFrame} {entries stack : List Nat}
  {previous : Nat} {below : List (Nat × List Nat)}

theorem Below.congr {front p : Nat} (h : Below frames front p below)
    (hsame : ∀ a ∈ below.map Prod.fst, frames' a = frames a) : Below frames' front p below := by
  induction below generalizing front p with
  | nil => exact h
  | cons f rest ih =>
    obtain ⟨hp, hnonnull, hlength, previous, hframe, hrest⟩ := h
    refine ⟨hp, hnonnull, hlength, previous, ?_, ?_⟩
    · rw [hsame f.1 (by simp), hframe]
    · exact ih hrest fun a ha => hsame a (List.mem_cons_of_mem _ ha)

theorem Below.frames_ne_none {front p a : Nat} (h : Below frames front p below)
    (ha : a ∈ below.map Prod.fst) : frames a ≠ none := by
  induction below generalizing front p with
  | nil => exact absurd ha List.not_mem_nil
  | cons f rest ih =>
    obtain ⟨-, -, -, previous, hframe, hrest⟩ := h
    rcases List.mem_cons.1 ha with rfl | ha
    · simp [hframe]
    · exact ih hrest ha

theorem OnTop.push (h : s.OnTop entries previous below stack) {address : Nat} {new : NewFrame}
    (hnonnull : new.1 ≠ 0) (hfresh : s.frames new.1 = none)
    (hlength : new.2.length = addressStackFrameEntries) :
    ∃ s' entries' previous' below', s.push address new = some s' ∧
      s'.OnTop entries' previous' below' (address :: stack) := by
  have hnew : new.1 ≠ s.current := by
    intro heq
    rw [heq, h.frame] at hfresh
    cases hfresh
  have hnewBelow : new.1 ∉ below.map Prod.fst := fun hmem => h.linked.frames_ne_none hmem hfresh
  have hset : (entries.set s.position address).length = addressStackFrameEntries := by
    rw [List.length_set, h.length]
  have htake : (entries.set s.position address).take (s.position + 1) =
      entries.take s.position ++ [address] := by
    have hlt : s.position < entries.length := by rw [h.length]; exact h.room
    rw [List.take_add_one, List.take_set_of_le (Nat.le_refl _)]
    simp [hlt]
  unfold AddressStack.push
  simp only [if_neg h.nonnull, h.frame, bind_eq_bind, bind_some,
    if_neg (Nat.not_le.2 h.room), putFrame]
  by_cases hfull : s.position + 1 = addressStackFrameEntries
  · -- the frame is full, and an empty one is put on top of it
    rw [if_pos hfull]
    refine ⟨_, new.2, s.current, (s.current, entries.set s.position address) :: below, rfl, ?_⟩
    constructor
    · exact hnonnull
    · simp
    · exact hlength
    · simp [addressStackFrameEntries]
    · refine ⟨rfl, h.nonnull, hset, previous, ?_, h.linked.congr ?_⟩
      · simp [hnew.symm]
      · intro a ha
        have hne : a ≠ new.1 := fun heq => hnewBelow (heq ▸ ha)
        have hne' : a ≠ s.current := fun heq => h.apart (heq ▸ ha)
        simp [hne, hne']
    · simp [hnew, hnewBelow]
    · exact List.nodup_cons.2 ⟨h.apart, h.nodup⟩
    · rw [h.stack_eq, List.flatMap_cons, List.take_zero, List.reverse_nil, List.nil_append]
      rw [hfull, List.take_of_length_le (Nat.le_of_eq hset)] at htake
      rw [htake, List.reverse_append]
      rfl
  · rw [if_neg hfull]
    have hroom := h.room
    refine ⟨_, entries.set s.position address, previous, below, rfl, ?_⟩
    constructor
    · exact h.nonnull
    · simp
    · exact hset
    · show s.position + 1 < addressStackFrameEntries
      omega
    · refine h.linked.congr fun a ha => ?_
      have hne : a ≠ s.current := fun heq => h.apart (heq ▸ ha)
      simp [hne]
    · exact h.apart
    · exact h.nodup
    · rw [h.stack_eq, htake, List.reverse_append]
      rfl

theorem push_first {address : Nat} {new : NewFrame} (hcurrent : s.current = 0) (hposition : s.position = 0)
    (hnonnull : new.1 ≠ 0) (hlength : new.2.length = addressStackFrameEntries) :
    ∃ s' entries' previous' below', s.push address new = some s' ∧
      s'.OnTop entries' previous' below' [address] := by
  unfold AddressStack.push
  have hroom : ¬addressStackFrameEntries ≤ 0 := by simp [addressStackFrameEntries]
  have hfull : ¬0 + 1 = addressStackFrameEntries := by simp [addressStackFrameEntries]
  simp only [if_pos hcurrent, putFrame, Function.update_self, bind_eq_bind, bind_some,
    hposition, if_neg hroom, if_neg hfull]
  refine ⟨_, new.2.set 0 address, 0, [], rfl, ?_⟩
  constructor
  · exact hnonnull
  · simp
  · simpa using hlength
  · simp [addressStackFrameEntries]
  · rfl
  · simp
  · simp
  · obtain ⟨x, rest, hrest⟩ := List.exists_cons_of_length_pos (show 0 < new.2.length by
      rw [hlength]; simp [addressStackFrameEntries])
    simp [hrest]

theorem OnTop.takeEntry {position : Nat}
    (h : OnTop { s with position := position } entries previous below stack)
    {a : Nat} (ha : entries[position]? = some a) :
    ∃ s', AddressStack.takeEntry { s with position := position + 1 } = some (a, s') ∧
      s'.OnTop entries previous below stack := by
  refine ⟨{ s with position := position }, ?_, h⟩
  have hframe := h.frame
  simp only at hframe
  simp [AddressStack.takeEntry, hframe, ha]

theorem reverse_take_succ {i a : Nat} (ha : entries[i]? = some a) :
    (entries.take (i + 1)).reverse = a :: (entries.take i).reverse := by
  rw [List.take_add_one, ha]
  simp

theorem OnTop.pop (h : s.OnTop entries previous below stack) (hne : ∀ a ∈ stack, a ≠ 0) :
    ∃ r s', s.pop = some (r, s') ∧ (if r = 0 then none else some r) = stack.head? ∧
      s'.Represents stack.tail := by
  have htail : ∀ a ∈ stack.tail, a ≠ 0 := fun a ha => hne a (List.mem_of_mem_tail ha)
  unfold AddressStack.pop
  simp only [if_neg h.nonnull, h.frame, bind_eq_bind, bind_some]
  have hstack := h.stack_eq
  cases hposition : s.position with
  | zero =>
    rw [hposition, List.take_zero, List.reverse_nil, List.nil_append] at hstack
    cases below with
    | nil =>
      obtain rfl : previous = 0 := h.linked
      obtain rfl : stack = [] := hstack
      exact ⟨0, s, rfl, rfl, htail, Or.inr ⟨entries, 0, [], h⟩⟩
    | cons f rest =>
      obtain ⟨b, full⟩ := f
      obtain ⟨rfl, hnonnull, hlength, previous', hframe, hrest⟩ := h.linked
      have hlast : 127 < full.length := by rw [hlength]; decide
      have ha : full[127]? = some full[127] := List.getElem?_eq_getElem hlast
      have hall : (full.take (127 + 1)).reverse = full.reverse := by
        rw [List.take_of_length_le (show full.length ≤ 127 + 1 from Nat.le_of_eq hlength)]
      rw [List.flatMap_cons, ← hall, reverse_take_succ ha, List.cons_append] at hstack
      obtain ⟨hb, hnodup⟩ := List.nodup_cons.1 h.nodup
      have hcurrent : s.current ∉ rest.map Prod.fst := fun hmem => h.apart (List.mem_cons_of_mem _ hmem)
      have hprevious : previous ≠ s.current := fun heq => h.apart (by simp [heq])
      have hdelete : deleteFrame s.current { s with current := previous, position := 0 } =
          some (putFrame { s with current := previous, position := 0 } s.current none) := by
        rw [deleteFrame, if_neg h.nonnull, h.frame, map_some]
      have hkept : Function.update s.frames s.current none previous = some ⟨s.current, previous', full⟩ := by
        rw [← hframe]
        exact Function.update_of_ne hprevious _ _
      rw [if_neg hnonnull, hframe, bind_some, hdelete, bind_some]
      simp only [putFrame]
      rw [hkept, bind_some]
      have hbelow : OnTop { (s.putFrame s.current none).putFrame previous
          (some ⟨0, previous', full⟩) with current := previous, position := 127 }
          full previous' rest stack.tail := by
        constructor
        · exact hnonnull
        · simp [putFrame]
        · exact hlength
        · simp [addressStackFrameEntries]
        · refine hrest.congr fun a ha => ?_
          have hne : a ≠ previous := fun heq => hb (heq ▸ ha)
          have hne' : a ≠ s.current := fun heq => hcurrent (heq ▸ ha)
          simp [putFrame, hne, hne']
        · exact hb
        · exact hnodup
        · rw [hstack]
          rfl
      obtain ⟨s', htake, h'⟩ := OnTop.takeEntry (s := { (s.putFrame s.current none).putFrame previous
        (some ⟨0, previous', full⟩) with current := previous }) hbelow ha
      refine ⟨full[127], s', htake, ?_, htail, Or.inr ⟨_, _, _, h'⟩⟩
      have hne := hne full[127] (by simp [hstack])
      rw [if_neg hne, hstack]
      rfl
  | succ i =>
    have hroom := h.room
    have hlt : i < entries.length := by rw [h.length]; omega
    have ha : entries[i]? = some entries[i] := List.getElem?_eq_getElem hlt
    rw [hposition, reverse_take_succ ha, List.cons_append] at hstack
    have hbelow : OnTop { s with position := i } entries previous below stack.tail := by
      refine { h with room := ?_, stack_eq := ?_ }
      · show i < addressStackFrameEntries
        omega
      · rw [hstack]
        rfl
    obtain ⟨s', htake, h'⟩ := OnTop.takeEntry hbelow ha
    rw [← hposition] at htake
    refine ⟨entries[i], s', htake, ?_, htail, Or.inr ⟨_, _, _, h'⟩⟩
    have hne := hne entries[i] (by simp [hstack])
    rw [if_neg hne, hstack]
    rfl

theorem call_simulates (h : s.Represents stack) (c : Call) (hfits : s.CallFits c) :
    ∃ b s' stack', s.call c = some (s', b) ∧ some (stackCall stack c) = some (stack', b) ∧
      s'.Represents stack' := by
  obtain ⟨hne, h⟩ := h
  cases c with
  | push address new =>
    obtain ⟨hzero, hnonnull, hfresh, hlength⟩ := hfits
    have hne' : ∀ a ∈ address :: stack, a ≠ 0 := List.forall_mem_cons.2 ⟨hzero, hne⟩
    have hpush : ∃ s' entries' previous' below', s.push address new = some s' ∧
        s'.OnTop entries' previous' below' (address :: stack) := by
      rcases h with ⟨hcurrent, hposition, rfl⟩ | ⟨entries, previous, below, h⟩
      · exact push_first hcurrent hposition hnonnull hlength
      · exact h.push hnonnull hfresh hlength
    obtain ⟨s', entries', previous', below', hpush, h'⟩ := hpush
    refine ⟨none, s', address :: stack, ?_, rfl, hne', Or.inr ⟨_, _, _, h'⟩⟩
    rw [call, hpush, map_some]
  | pop =>
    rcases h with ⟨hcurrent, hposition, rfl⟩ | ⟨entries, previous, below, h⟩
    · refine ⟨none, s, [], ?_, rfl, hne, Or.inl ⟨hcurrent, hposition, rfl⟩⟩
      simp [call, AddressStack.pop, if_pos hcurrent]
    · obtain ⟨r, s', hpop, hr, h'⟩ := h.pop hne
      refine ⟨_, s', stack.tail, ?_, rfl, h'⟩
      rw [call, hpop, map_some, hr]

/-- Any sequence of calls on a new `AddressStack` returns what a stack of addresses does. -/
theorem addressStack_behaves_as_stack (calls : List Call) (hfits : GuardedRun call CallFits empty calls) :
    ∃ results s stack, runResults call empty calls = some (s, results) ∧
      runResults (fun stack c => some (stackCall stack c)) [] calls = some (stack, results) ∧
        s.Represents stack :=
  runResults_simulates (R := Represents) (fun _ _ c h hc => call_simulates h c hc)
    ⟨by simp, Or.inl ⟨rfl, rfl, rfl⟩⟩ hfits

/-- One address more than a frame has room for. -/
theorem addressStack_behaves_as_stack_two :
    let calls : List Call := (List.range 129).map
      (fun i => .push (i + 1) (16 * (i + 1), List.replicate 128 0)) ++ [.pop, .pop]
    ∃ results s stack, runResults call empty calls = some (s, results) ∧
      runResults (fun stack c => some (stackCall stack c)) [] calls = some (stack, results) ∧
        s.Represents stack := by
  intro calls
  refine addressStack_behaves_as_stack calls (GuardedRun.of_checkRun (fun s c =>
    match c with
    | .push address new => address != 0 && new.1 != 0 && (s.frames new.1).isNone &&
        new.2.length == addressStackFrameEntries
    | .pop => true) ?_ ?_)
  · intro s c hc
    cases c with
    | push address new => simpa [CallFits, and_assoc] using hc
    | pop => trivial
  · decide +kernel

end AddressStack

end MeetixOS.Kernel
