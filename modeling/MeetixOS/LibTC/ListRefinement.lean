import MeetixOS.LibTC.LinkedList

/-! # Lists are sequences

Several lists in one memory, and what a program does with them. An iterator belongs to a list while it
stands on a node of it (`IteratorAt`), whenever and however it was made. The purpose of the lists is
stated by `Specified`: each list is a sequence, and an operation changes the sequences as its name
says. -/

open Function (update update_apply update_of_ne update_self)
open Slots MeetixOS.Lib

namespace LibTC

open ListIterator

/-- The nodes and the lists in memory. -/
structure ListMemory (α : Type) where
  nodes : ListNodes α := fun _ => none
  lists : Nat → Option LinkedList := fun _ => none

variable {α : Type}

/-! ## Operations -/

namespace ListMemory

def object (memory : ListMemory α) (place : Nat) : Checked LinkedList :=
  match memory.lists place with
  | some list => .ok list
  | none => .error .access

/-- A list is changed, and with it the nodes. -/
def put (memory : ListMemory α) (place : Nat) (list : LinkedList) (nodes : ListNodes α) : ListMemory α :=
  ⟨nodes, update memory.lists place (some list)⟩

def tryAppend (memory : ListMemory α) (place : Nat) (value : α) (granted : Option Nat) :
    Checked (Bool × ListMemory α) := do
  let list ← memory.object place
  let (success, list, nodes) ← list.tryAppend memory.nodes value granted
  return (success, memory.put place list nodes)

def tryPrepend (memory : ListMemory α) (place : Nat) (value : α) (granted : Option Nat) :
    Checked (Bool × ListMemory α) := do
  let list ← memory.object place
  let (success, list, nodes) ← list.tryPrepend memory.nodes value granted
  return (success, memory.put place list nodes)

/-- `erase`; the iterator becomes an end. -/
def erase (memory : ListMemory α) (place : Nat) (iterator : ListIterator) :
    Checked (ListIterator × ListMemory α) := do
  let list ← memory.object place
  let (list, nodes, iterator) ← list.erase memory.nodes iterator
  return (iterator, memory.put place list nodes)

end ListMemory

namespace ListIterator

def isEnd (iterator : ListIterator) : Bool := iterator.currentNode.isNone

/-- `operator++`. -/
def increment (iterator : ListIterator) (memory : ListMemory α) : Checked ListIterator :=
  match iterator.currentNode with
  | none => .ok iterator
  | some node => do return { iterator with currentNode := (← memory.nodes.load node).nextNode }

/-- `operator*`. -/
def deref (iterator : ListIterator) (memory : ListMemory α) : Checked α :=
  match iterator.currentNode with
  | none => .error .verify
  | some node => do return (← memory.nodes.load node).value

/-- `erase`: the iterator behind. -/
def erase (iterator : ListIterator) (memory : ListMemory α) : Checked (ListIterator × ListMemory α) := do
  let it ← iterator.increment memory
  let (_, memory) ← memory.erase iterator.collection iterator
  return (it, memory)

end ListIterator

namespace ListMemory

def atBegin (memory : ListMemory α) (place : Nat) : Checked ListIterator := do
  return ⟨place, (← memory.object place).headNode⟩

/-- The loop of `erase_if`, with at most `fuel` rounds. -/
def eraseIfFrom (callback : α → Bool) : (fuel : Nat) → ListIterator → ListMemory α →
    Checked (Option (ListMemory α))
  | 0, it, memory => return if it.isEnd then some memory else none
  | fuel + 1, it, memory =>
    if it.isEnd then
      return some memory
    else do
      if callback (← it.deref memory) then
        let (it, memory) ← it.erase memory
        eraseIfFrom callback fuel it memory
      else
        eraseIfFrom callback fuel (← it.increment memory) memory

def eraseIf (memory : ListMemory α) (fuel place : Nat) (callback : α → Bool) :
    Checked (Option (ListMemory α)) := do
  eraseIfFrom callback fuel (← memory.atBegin place) memory

def clear (memory : ListMemory α) (fuel place : Nat) : Checked (Option (ListMemory α)) := do
  let cleared ← LinkedList.clear memory.nodes fuel (← memory.object place)
  return cleared.map fun (list, nodes) => memory.put place list nodes

/-- `swap`, field by field. -/
def swap (memory : ListMemory α) (place other : Nat) : Checked (ListMemory α) := do
  let list ← memory.object place
  let rhs ← memory.object other
  return (memory.put place rhs memory.nodes).put other list memory.nodes

/-- The constructor that moves; `rhs` is left empty. -/
def moveConstruct (memory : ListMemory α) (place rhs : Nat) : Checked (ListMemory α) := do
  let list ← memory.object rhs
  return (memory.put rhs {} memory.nodes).put place list memory.nodes

/-- The assignment that moves: what `rhs` has is taken, swapped with this list and destroyed. -/
def moveAssign (memory : ListMemory α) (fuel place rhs : Nat) : Checked (Option (ListMemory α)) := do
  let taken ← memory.object rhs
  let memory := memory.put rhs {} memory.nodes
  let old ← memory.object place
  let memory := memory.put place taken memory.nodes
  let cleared ← LinkedList.clear memory.nodes fuel old
  return cleared.map fun (_, nodes) => { memory with nodes }

/-- `~List`. -/
def destroy (memory : ListMemory α) (fuel place : Nat) : Checked (Option (ListMemory α)) := do
  let cleared ← LinkedList.clear memory.nodes fuel (← memory.object place)
  return cleared.map fun (_, nodes) => ⟨nodes, update memory.lists place none⟩

end ListMemory

/-! ## What the operations are for -/

/-- `n` times `operator++`. -/
def ListIterator.advance (memory : ListMemory α) : (n : Nat) → ListIterator → Checked ListIterator
  | 0, it => return it
  | n + 1, it => do advance memory n (← it.increment memory)

/-- The iterator stands on the node of a list that a new iterator reaches with `i` increments. -/
def IteratorAt (memory : ListMemory α) (place i : Nat) (iterator : ListIterator) : Prop :=
  ∃ first it, memory.atBegin place = .ok first ∧ advance memory i first = .ok it ∧
    it.currentNode = iterator.currentNode ∧ iterator.isEnd = false

/-- What a program does with its lists; what `new` answers is part of the event. -/
inductive ListEvent (α : Type)
  | construct (place : Nat)
  | tryAppend (place : Nat) (value : α) (granted : Option Nat)
  | tryPrepend (place : Nat) (value : α) (granted : Option Nat)
  | erase (place : Nat) (iterator : ListIterator)
  | iteratorErase (iterator : ListIterator)
  | eraseIf (place : Nat) (callback : α → Bool)
  | clear (place : Nat)
  | moveConstruct (place rhs : Nat)
  | moveAssign (place rhs : Nat)
  | swap (place other : Nat)
  | destroy (place : Nat)

/-- The event takes place in memory; `none` where the fuel is not enough. -/
def ListMemory.perform (fuel : Nat) (memory : ListMemory α) : ListEvent α → Checked (Option (ListMemory α))
  | .construct place => return some (memory.put place {} memory.nodes)
  | .tryAppend place value granted => do return some (← memory.tryAppend place value granted).2
  | .tryPrepend place value granted => do return some (← memory.tryPrepend place value granted).2
  | .erase place iterator => do return some (← memory.erase place iterator).2
  | .iteratorErase iterator => do return some (← iterator.erase memory).2
  | .eraseIf place callback => memory.eraseIf fuel place callback
  | .clear place => memory.clear fuel place
  | .moveConstruct place rhs => do return some (← memory.moveConstruct place rhs)
  | .moveAssign place rhs => memory.moveAssign fuel place rhs
  | .swap place other => do return some (← memory.swap place other)
  | .destroy place => memory.destroy fuel place

open ListMemory (eraseIfFrom object perform)
/-- The lists that exist, each as the sequence of its values. -/
abbrev Sequences (α : Type) := Nat → Option (List α)

/-- What the event makes of the sequences. The lists have to exist, or not to exist where one is
constructed, and an iterator has to stand on a node of the list. -/
def Specified (memory : ListMemory α) : ListEvent α → (before after : Sequences α) → Prop
  | .construct place, before, after =>
    before place = none ∧ after = update before place (some [])
  | .tryAppend place value granted, before, after => ∃ values, before place = some values ∧
      after = update before place
        (some (if granted.isSome then values ++ [value] else values))
  | .tryPrepend place value granted, before, after => ∃ values, before place = some values ∧
      after = update before place
        (some (if granted.isSome then value :: values else values))
  | .erase place iterator, before, after => ∃ values i, before place = some values ∧
      IteratorAt memory place i iterator ∧
      after = update before place (some (values.eraseIdx i))
  | .iteratorErase iterator, before, after => ∃ values i, before iterator.collection = some values ∧
      IteratorAt memory iterator.collection i iterator ∧
      after = update before iterator.collection (some (values.eraseIdx i))
  | .eraseIf place callback, before, after => ∃ values, before place = some values ∧
      after = update before place (some (values.filter fun value => !callback value))
  | .clear place, before, after => before place ≠ none ∧ after = update before place (some [])
  | .moveConstruct place rhs, before, after => ∃ values, before place = none ∧
      before rhs = some values ∧
      after = update (update before rhs (some [])) place (some values)
  | .moveAssign place rhs, before, after => ∃ values, before place ≠ none ∧
      before rhs = some values ∧
      after = update (update before rhs (some [])) place (some values)
  | .swap place other, before, after => ∃ values others, before place = some values ∧
      before other = some others ∧
      after = update (update before place (some others)) other (some values)
  | .destroy place, before, after => before place ≠ none ∧ after = update before place none

/-- What `new` returns is null or the address of memory that is free. -/
def ListEvent.Granted (memory : ListMemory α) : ListEvent α → Prop
  | .tryAppend _ _ granted | .tryPrepend _ _ granted =>
    ∀ address, granted = some address →
      memory.nodes address = none ∧ 0 < address ∧ address < 2 ^ 32
  | _ => True

/-- The runs, with the sequences next to the memory. -/
inductive ListRun : ListMemory α → Sequences α → Prop
  | start : ListRun {} fun _ => none
  | step {memory memory' : ListMemory α} {before after : Sequences α} (event : ListEvent α) (fuel : Nat)
      (hrun : ListRun memory before) (hspecified : Specified memory event before after)
      (hgranted : event.Granted memory) (hperform : memory.perform fuel event = .ok (some memory')) :
      ListRun memory' after

/-! ## The invariant -/

/-- The lists in memory are linked over nodes of their own. -/
structure Represents (memory : ListMemory α) (sequences : Sequences α) (entries : Nat → List (Nat × α)) :
    Prop where
  absent : ∀ place, sequences place = none → memory.lists place = none ∧ entries place = []
  held : ∀ place values, sequences place = some values → ∃ list, memory.lists place = some list ∧
    list.Holds memory.nodes (entries place) ∧ (entries place).map Prod.snd = values
  own : ∀ place other a, a ∈ addresses (entries place) → a ∈ addresses (entries other) → place = other

section

variable {memory : ListMemory α} {sequences : Sequences α} {entries : Nat → List (Nat × α)}
  {place other : Nat} {list : LinkedList} {nodes : ListNodes α} {values : List α}

section

variable (h : Represents memory sequences entries)
include h

theorem Represents.holds (hplace : sequences place = some values) :
    ∃ list, memory.object place = .ok list ∧ list.Holds memory.nodes (entries place) ∧
      (entries place).map Prod.snd = values := by
  obtain ⟨list, hlist, hholds, hvalues⟩ := h.held place values hplace
  refine ⟨list, ?_, hholds, hvalues⟩
  rw [object, hlist]

theorem Represents.nodes_ne_none {a : Nat} (ha : a ∈ addresses (entries place)) :
    memory.nodes a ≠ none := by
  cases hplace : sequences place with
  | none =>
    rw [(h.absent place hplace).2] at ha
    exact absurd ha List.not_mem_nil
  | some values =>
    obtain ⟨list, -, hholds, -⟩ := h.held place values hplace
    exact fun hnone => hholds.not_mem hnone ha

theorem Represents.others {memory' : ListMemory α} (changed : List Nat)
    (hlists : ∀ other ∉ changed, memory'.lists other = memory.lists other)
    (hframe : ∀ a, (∀ place ∈ changed, a ∉ addresses (entries place)) → memory.nodes a ≠ none →
      memory'.nodes a = memory.nodes a)
    (hother : other ∉ changed) (hvalues : sequences other = some values) :
    ∃ list, memory'.lists other = some list ∧ list.Holds memory'.nodes (entries other) ∧
      (entries other).map Prod.snd = values := by
  obtain ⟨list, hlist, hholds, hmap⟩ := h.held other values hvalues
  refine ⟨list, (hlists other hother).trans hlist, hholds.frame fun a ha => ?_, hmap⟩
  refine hframe a (fun place hplace hmem => ?_) (h.nodes_ne_none ha)
  exact hother (h.own place other a hmem ha ▸ hplace)

theorem Represents.put (place : Nat) {own : List (Nat × α)} (hholds : list.Holds nodes own)
    (hown : ∀ a ∈ addresses own, a ∈ addresses (entries place) ∨ memory.nodes a = none)
    (hframe : ∀ a ∉ addresses (entries place), memory.nodes a ≠ none → nodes a = memory.nodes a) :
    Represents (memory.put place list nodes)
      (update sequences place (some (own.map Prod.snd)))
      (update entries place own) := by
  have hlists : ∀ other ∉ [place], (memory.put place list nodes).lists other = memory.lists other := by
    intro other hother
    exact update_of_ne (List.mem_singleton.not.1 hother) ..
  refine ⟨fun other hother => ?_, fun other values hother => ?_, fun p q a hp hq => ?_⟩
  · by_cases heq : other = place
    · simp [heq] at hother
    · rw [update_of_ne heq] at hother
      simpa [ListMemory.put, heq] using h.absent other hother
  · by_cases heq : other = place
    · subst heq
      rw [update_self] at hother ⊢
      exact ⟨list, update_self .., hholds, Option.some.inj hother⟩
    · rw [update_of_ne heq] at hother ⊢
      have hplace := List.mem_singleton_self place
      exact h.others [place] hlists (fun a ha hnode => hframe a (ha place hplace) hnode)
        (List.mem_singleton.not.2 heq) hother
  · -- a node of the new list is one that the list had, or none that another has
    have hnew : ∀ q, q ≠ place → a ∈ addresses own → a ∉ addresses (entries q) := by
      intro q hq ha hmem
      rcases hown a ha with hplace | hnone
      · exact hq (h.own q place a hmem hplace)
      · exact h.nodes_ne_none hmem hnone
    by_cases hp' : p = place
    · by_cases hq' : q = place
      · rw [hp', hq']
      · rw [hp', update_self] at hp
        rw [update_of_ne hq'] at hq
        exact absurd hq (hnew q hq' hp)
    · rw [update_of_ne hp'] at hp
      by_cases hq' : q = place
      · rw [hq', update_self] at hq
        exact absurd hp (hnew p hp' hq)
      · rw [update_of_ne hq'] at hq
        exact h.own p q a hp hq

end

/-! ## One list -/

variable {front rest : List (Nat × α)} {e : Nat × α} {fresh : Nat}

section

variable (h : Represents memory sequences entries) (hplace : sequences place = some values)
include h hplace

theorem Represents.append (x : α) (hfresh : memory.nodes fresh = none)
    (hrange : 0 < fresh ∧ fresh < 2 ^ 32) :
    ∃ memory' entries', memory.tryAppend place x (some fresh) = .ok (true, memory') ∧
      Represents memory' (update sequences place (some (values ++ [x]))) entries' := by
  obtain ⟨list, hlist, hholds, rfl⟩ := h.holds hplace
  obtain ⟨list', nodes', hrun, hholds', hframe⟩ := hholds.tryAppend x hfresh hrange
  have hput := h.put place hholds'
    (fun a ha => by
      simp only [addresses_append, List.mem_append] at ha
      exact ha.imp_right fun ha => by simpa [List.mem_singleton.1 ha] using hfresh)
    (fun a ha hnode => hframe a (by
      simp only [addresses_append, List.mem_append, not_or]
      refine ⟨ha, fun hmem => hnode ?_⟩
      simpa [List.mem_singleton.1 hmem] using hfresh))
  refine ⟨_, _, ?_, by simpa using hput⟩
  rw [ListMemory.tryAppend, hlist, ok_bind, hrun]
  rfl

theorem Represents.prepend (x : α) (hfresh : memory.nodes fresh = none)
    (hrange : 0 < fresh ∧ fresh < 2 ^ 32) :
    ∃ memory' entries', memory.tryPrepend place x (some fresh) = .ok (true, memory') ∧
      Represents memory' (update sequences place (some (x :: values))) entries' := by
  obtain ⟨list, hlist, hholds, rfl⟩ := h.holds hplace
  obtain ⟨list', nodes', hrun, hholds', hframe⟩ := hholds.tryPrepend x hfresh hrange
  have hput := h.put place hholds'
    (fun a ha => by
      rw [addresses_cons, List.mem_cons] at ha
      exact ha.symm.imp_right fun ha => by simpa [ha] using hfresh)
    (fun a ha hnode => hframe a (by
      rw [addresses_cons, List.mem_cons, not_or]
      refine ⟨?_, ha⟩
      rintro rfl
      exact hnode hfresh))
  refine ⟨_, _, ?_, hput⟩
  rw [ListMemory.tryPrepend, hlist, ok_bind, hrun]
  rfl

theorem Represents.unchanged (hlist : memory.object place = .ok list) :
    Represents (memory.put place list memory.nodes)
      (update sequences place (some values)) entries := by
  obtain ⟨list', hlist', hholds, rfl⟩ := h.holds hplace
  obtain rfl := Except.ok.inj (hlist.symm.trans hlist')
  have hput := h.put place hholds (fun a ha => .inl ha) fun _ _ _ => rfl
  rwa [Function.update_eq_self] at hput

theorem Represents.eraseNode (hentries : entries place = front ++ e :: rest) (collection : Nat) :
    ∃ memory', memory.erase place ⟨collection, some e.1⟩ = .ok (⟨collection, none⟩, memory') ∧
      Represents memory' (update sequences place (some ((front ++ rest).map Prod.snd)))
        (update entries place (front ++ rest)) := by
  obtain ⟨list, hlist, hholds, -⟩ := h.holds hplace
  rw [hentries] at hholds
  obtain ⟨list', nodes', hrun, hholds', hframe⟩ := hholds.erase collection
  refine ⟨_, ?_, h.put place hholds' (fun a ha => .inl ?_) fun a ha _ => hframe a (by rwa [← hentries])⟩
  · rw [ListMemory.erase, hlist, ok_bind, hrun]
    rfl
  · rw [hentries]
    simp only [addresses_append, addresses_cons, List.mem_append, List.mem_cons] at ha ⊢
    tauto

end

theorem increment_eq (hholds : list.Holds memory.nodes (front ++ e :: rest)) (collection : Nat) :
    increment ⟨collection, some e.1⟩ memory =
      .ok ⟨collection, (addresses rest).head?⟩ := by
  have hlinked := hholds.linked
  rw [addresses_append, addresses_cons] at hlinked
  show (memory.nodes.load e.1 >>= _) = _
  rw [ListNodes.load_of_valueOf (hholds.valueOf_eq e (by simp)), hlinked.pointers.2]
  rfl

theorem advance_eq (front : List (Nat × α)) (hholds : list.Holds memory.nodes (front ++ rest))
    (collection n : Nat) :
    advance memory n ⟨collection, (addresses rest).head?⟩ =
      .ok ⟨collection, (addresses (rest.drop n)).head?⟩ := by
  induction n generalizing front rest with
  | zero => rfl
  | succ n ih =>
    cases rest with
    | nil =>
      have hnil := ih front hholds
      rwa [List.drop_nil] at hnil
    | cons e rest =>
      have hrest := ih (front ++ [e]) (by simpa using hholds)
      rw [addresses_cons, List.head?_cons, advance, increment_eq hholds, ok_bind, hrest,
        List.drop_succ_cons]

theorem IteratorAt.split {i : Nat} {iterator : ListIterator} (hat : IteratorAt memory place i iterator)
    (hlist : memory.object place = .ok list) (hholds : list.Holds memory.nodes (entries place)) :
    ∃ front e rest, entries place = front ++ e :: rest ∧ front.length = i ∧
      iterator.currentNode = some e.1 := by
  obtain ⟨first, it, hfirst, hadvance, hnode, hend⟩ := hat
  rw [ListMemory.atBegin, hlist, ok_bind, hholds.headNode_eq] at hfirst
  cases hfirst
  rw [advance_eq [] hholds] at hadvance
  cases hadvance
  cases hdrop : (entries place).drop i with
  | nil =>
    rw [hdrop] at hnode
    rw [isEnd, ← hnode] at hend
    cases hend
  | cons e rest =>
    have hlt : i < (entries place).length := by
      by_contra hge
      rw [List.drop_of_length_le (by omega)] at hdrop
      cases hdrop
    refine ⟨(entries place).take i, e, rest, ?_, ?_, ?_⟩
    · rw [← hdrop, List.take_append_drop]
    · rw [List.length_take, Nat.min_eq_left (by omega)]
    · rw [hdrop] at hnode
      exact hnode.symm

section

variable (h : Represents memory sequences entries)
include h

theorem Represents.eraseAt {i : Nat} {iterator : ListIterator}
    (hplace : sequences place = some values) (hat : IteratorAt memory place i iterator) :
    ∃ memory' entries', memory.erase place iterator = .ok (⟨iterator.collection, none⟩, memory') ∧
      Represents memory' (update sequences place (some (values.eraseIdx i))) entries' := by
  obtain ⟨list, hlist, hholds, rfl⟩ := h.holds hplace
  obtain ⟨front, e, rest, hentries, rfl, hnode⟩ := hat.split hlist hholds
  obtain ⟨memory', hrun, hrep⟩ := h.eraseNode hplace hentries iterator.collection
  refine ⟨memory', update entries place (front ++ rest), ?_, ?_⟩
  · rw [← hrun, ← hnode]
  · have hvalues : ((entries place).map Prod.snd).eraseIdx front.length =
        (front ++ rest).map Prod.snd := by
      rw [hentries, List.map_append, List.map_cons,
        List.eraseIdx_append_of_length_le (by simp)]
      simp
    rw [hvalues]
    exact hrep

theorem Represents.iteratorErase (hplace : sequences place = some values)
    (hentries : entries place = front ++ e :: rest) :
    ∃ memory', erase ⟨place, some e.1⟩ memory =
        .ok (⟨place, (addresses rest).head?⟩, memory') ∧
      Represents memory' (update sequences place (some ((front ++ rest).map Prod.snd)))
        (update entries place (front ++ rest)) := by
  obtain ⟨list, -, hholds, -⟩ := h.holds hplace
  rw [hentries] at hholds
  obtain ⟨memory', hrun, hrep⟩ := h.eraseNode hplace hentries place
  refine ⟨memory', ?_, hrep⟩
  rw [erase, increment_eq hholds, ok_bind, hrun]
  rfl

theorem Represents.eraseIfFrom (front : List (Nat × α)) (hplace : sequences place = some values)
    (hentries : entries place = front ++ rest) (callback : α → Bool) :
    ∃ memory' entries',
      eraseIfFrom callback rest.length ⟨place, (addresses rest).head?⟩ memory =
        .ok (some memory') ∧
      Represents memory' (update sequences place
        (some (front.map Prod.snd ++ (rest.map Prod.snd).filter fun value => !callback value)))
        entries' := by
  induction rest generalizing front memory sequences entries values with
  | nil =>
    obtain ⟨-, -, -, hvalues⟩ := h.holds hplace
    refine ⟨memory, entries, rfl, ?_⟩
    have hsame : some (front.map Prod.snd) = sequences place := by
      rw [hplace, ← hvalues, hentries, List.append_nil]
    rw [List.map_nil, List.filter_nil, List.append_nil, hsame, Function.update_eq_self]
    exact h
  | cons e rest ih =>
    obtain ⟨list, -, hholds, -⟩ := h.holds hplace
    rw [hentries] at hholds
    have hderef : deref ⟨place, some e.1⟩ memory = .ok e.2 := by
      show (memory.nodes.load e.1 >>= _) = _
      rw [ListNodes.load_of_valueOf (hholds.valueOf_eq e (by simp))]
      rfl
    have hround : eraseIfFrom callback (rest.length + 1) ⟨place, some e.1⟩ memory =
        if callback e.2 = true then
          erase ⟨place, some e.1⟩ memory >>= fun r =>
            eraseIfFrom callback rest.length r.1 r.2
        else
          eraseIfFrom callback rest.length ⟨place, (addresses rest).head?⟩ memory := by
      rw [eraseIfFrom, if_neg (by simp [isEnd]), hderef, ok_bind,
        increment_eq hholds, ok_bind]
    rw [addresses_cons, List.head?_cons, List.length_cons, hround, List.map_cons]
    by_cases hcallback : callback e.2 = true
    · obtain ⟨memory₁, hrun, hrep⟩ := h.iteratorErase hplace hentries
      obtain ⟨memory', entries', hrest, hrep'⟩ := ih hrep front (update_self ..)
        (update_self ..)
      refine ⟨memory', entries', ?_, ?_⟩
      · rw [if_pos hcallback, hrun, ok_bind, hrest]
      · rw [Function.update_idem] at hrep'
        rw [List.filter_cons_of_neg (by simp [hcallback])]
        exact hrep'
    · obtain ⟨memory', entries', hrest, hrep'⟩ := ih h (front ++ [e]) hplace
        (by simpa using hentries)
      refine ⟨memory', entries', ?_, ?_⟩
      · rw [if_neg hcallback, hrest]
      · rw [List.filter_cons_of_pos (by simpa using hcallback)]
        simpa using hrep'

theorem Represents.eraseIf (hplace : sequences place = some values) (callback : α → Bool) :
    ∃ fuel memory' entries', memory.eraseIf fuel place callback = .ok (some memory') ∧
      Represents memory' (update sequences place
        (some (values.filter fun value => !callback value))) entries' := by
  obtain ⟨list, hlist, hholds, rfl⟩ := h.holds hplace
  obtain ⟨memory', entries', hrun, hrep⟩ := h.eraseIfFrom [] hplace rfl callback
  refine ⟨(entries place).length, memory', entries', ?_, hrep⟩
  simp only [ListMemory.eraseIf, ListMemory.atBegin, hlist, ok_bind, pure_eq_ok, hholds.headNode_eq]
  exact hrun

theorem Represents.clear (hplace : sequences place = some values) :
    ∃ fuel memory' entries', memory.clear fuel place = .ok (some memory') ∧
      Represents memory' (update sequences place (some [])) entries' := by
  obtain ⟨list, hlist, hholds, -⟩ := h.holds hplace
  obtain ⟨fuel, nodes', hrun, hframe⟩ := hholds.clear
  have hput := h.put place (LinkedList.holds_empty nodes') (by simp) fun a ha _ => hframe a ha
  refine ⟨fuel, _, _, ?_, hput⟩
  rw [ListMemory.clear, hlist, ok_bind, hrun]
  rfl

end

/-! ## Two lists -/

section

variable (h : Represents memory sequences entries)
include h

theorem Represents.moved {rhs : Nat} (hne : place ≠ rhs) (hrhs : sequences rhs = some values)
    (hlist : memory.lists rhs = some list)
    (hframe : ∀ a ∉ addresses (entries place), nodes a = memory.nodes a) :
    Represents ⟨nodes, update (update memory.lists rhs (some {})) place (some list)⟩
      (update (update sequences rhs (some [])) place (some values))
      (update (update entries rhs []) place (entries rhs)) := by
  refine ⟨fun p hp => ?_, fun p moved hp => ?_, fun p q a hp hq => ?_⟩
  · by_cases hplace : p = place
    · simp [hplace] at hp
    · by_cases heq : p = rhs
      · simp [heq, Ne.symm hne] at hp
      · simp only [update_of_ne hplace, update_of_ne heq] at hp ⊢
        exact h.absent p hp
  · by_cases hplace : p = place
    · subst hplace
      rw [update_self] at hp ⊢
      obtain rfl := Option.some.inj hp
      obtain ⟨list', hlist', hholds, hvalues⟩ := h.held rhs values hrhs
      obtain rfl := Option.mem_unique hlist hlist'
      refine ⟨list, update_self .., hholds.frame fun a ha => hframe a fun hmem => ?_, hvalues⟩
      exact hne (h.own p rhs a hmem ha)
    · rw [update_of_ne hplace] at hp ⊢
      by_cases heq : p = rhs
      · subst heq
        rw [update_self] at hp ⊢
        obtain rfl := Option.some.inj hp
        exact ⟨{}, by simp [hplace], LinkedList.holds_empty nodes, rfl⟩
      · rw [update_of_ne heq] at hp ⊢
        refine h.others [place, rhs] (fun other hother => ?_)
          (fun a ha _ => hframe a (ha place (by simp))) (by simp [hplace, heq]) hp
        simp only [List.mem_cons, List.not_mem_nil, or_false, not_or] at hother
        simp [hother.1, hother.2]
  · -- what the place had is gone, and what the other had is there now
    simp only [update_apply] at hp hq
    have hown := h.own
    split_ifs at hp hq <;> grind [addresses_nil]

theorem Represents.swapped {others : List α} {rhs : LinkedList}
    (hplace : sequences place = some values) (hother : sequences other = some others)
    (hlist : memory.lists place = some list) (hrhs : memory.lists other = some rhs) :
    Represents ⟨memory.nodes,
        update (update memory.lists place (some rhs)) other (some list)⟩
      (update (update sequences place (some others)) other (some values))
      (update (update entries place (entries other)) other (entries place)) := by
  refine ⟨fun p hp => ?_, fun p swapped hp => ?_, fun p q a hp hq => ?_⟩
  · simp only [update_apply] at hp ⊢
    split_ifs at hp ⊢
    exact h.absent p hp
  · obtain ⟨list', hlist', hholds, hvalues⟩ := h.held place values hplace
    obtain rfl := Option.mem_unique hlist hlist'
    obtain ⟨rhs', hrhs', hholds', hothers⟩ := h.held other others hother
    obtain rfl := Option.mem_unique hrhs hrhs'
    simp only [update_apply] at hp ⊢
    split_ifs at hp ⊢
    · obtain rfl := Option.some.inj hp
      exact ⟨list, rfl, hholds, hvalues⟩
    · obtain rfl := Option.some.inj hp
      exact ⟨rhs, rfl, hholds', hothers⟩
    · exact h.held p swapped hp
  · simp only [update_apply] at hp hq
    have hown := h.own
    split_ifs at hp hq <;> grind

theorem Represents.moveAssign {rhs : Nat} (hplace : sequences place ≠ none)
    (hrhs : sequences rhs = some values) :
    ∃ fuel memory' entries', memory.moveAssign fuel place rhs = .ok (some memory') ∧
      Represents memory'
        (update (update sequences rhs (some [])) place (some values)) entries' := by
  obtain ⟨list, hlist, -, -⟩ := h.held rhs values hrhs
  have htaken : memory.object rhs = .ok list := by rw [object, hlist]
  by_cases heq : place = rhs
  · -- the list is taken and comes back; what is destroyed is empty
    subst heq
    have hobject : (memory.put place {} memory.nodes).object place = .ok {} := by
      simp [object, ListMemory.put]
    refine ⟨0, memory.put place list memory.nodes, entries, ?_, ?_⟩
    · rw [ListMemory.moveAssign, htaken, ok_bind]
      show ((memory.put place {} memory.nodes).object place >>= _) = _
      rw [hobject, ok_bind]
      simp [ListMemory.put, LinkedList.clear, LinkedList.deleteFrom]
    · rw [Function.update_idem]
      exact h.unchanged hrhs htaken
  · obtain ⟨others, hothers⟩ := Option.ne_none_iff_exists'.1 hplace
    obtain ⟨old, hold, hholds, -⟩ := h.held place others hothers
    obtain ⟨fuel, nodes', hrun, hframe⟩ := hholds.clear
    refine ⟨fuel, _, _, ?_, h.moved heq hrhs hlist hframe⟩
    have hobject : (memory.put rhs {} memory.nodes).object place = .ok old := by
      simp [object, ListMemory.put, heq, hold]
    rw [ListMemory.moveAssign, htaken, ok_bind]
    show ((memory.put rhs {} memory.nodes).object place >>= _) = _
    rw [hobject, ok_bind]
    show (LinkedList.clear memory.nodes fuel old >>= _) = _
    rw [hrun]
    rfl

theorem Represents.destroy (hplace : sequences place ≠ none) :
    ∃ fuel memory' entries', memory.destroy fuel place = .ok (some memory') ∧
      Represents memory' (update sequences place none) entries' := by
  obtain ⟨values, hvalues⟩ := Option.ne_none_iff_exists'.1 hplace
  obtain ⟨list, hlist, hholds, -⟩ := h.holds hvalues
  obtain ⟨fuel, nodes', hrun, hframe⟩ := hholds.clear
  refine ⟨fuel, _, update entries place [],
    by rw [ListMemory.destroy, hlist, ok_bind, hrun]; rfl, ?_, ?_, ?_⟩
  · intro other hother
    by_cases heq : other = place
    · simp [heq]
    · rw [update_of_ne heq] at hother
      simpa [heq] using h.absent other hother
  · intro other others hother
    by_cases heq : other = place
    · simp [heq] at hother
    · rw [update_of_ne heq] at hother ⊢
      refine h.others [place] (fun q hq => ?_)
        (fun a ha _ => hframe a (ha place (List.mem_singleton_self _))) (by simpa using heq) hother
      exact update_of_ne (List.mem_singleton.not.1 hq) ..
  · intro p q a hp hq
    simp only [update_apply] at hp hq
    have hown := h.own
    split_ifs at hp hq <;> grind [addresses_nil]

end

end

/-! ## Runs -/

section

variable {memory memory' : ListMemory α} {before after : Sequences α} {entries : Nat → List (Nat × α)}
  {event : ListEvent α} {fuel more : Nat}

theorem ok_of_bind {β γ : Type} {x : Checked β} {f : β → Checked γ} {c : γ} (h : (x >>= f) = .ok c) :
    ∃ b, x = .ok b ∧ f b = .ok c := by
  cases x with
  | error fault => cases h
  | ok b => exact ⟨b, rfl, h⟩

section

variable (hle : fuel ≤ more)
include hle

theorem deleteFrom_mono {nodes nodes' : ListNodes α} {node : Option Nat}
    (h : LinkedList.deleteFrom nodes fuel node = .ok (some nodes')) :
    LinkedList.deleteFrom nodes more node = .ok (some nodes') := by
  induction fuel generalizing nodes node more with
  | zero =>
    cases node with
    | none => cases more <;> exact h
    | some node => cases h
  | succ fuel ih =>
    obtain ⟨more, rfl⟩ := Nat.exists_eq_succ_of_ne_zero (Nat.ne_zero_of_lt hle)
    cases node with
    | none => exact h
    | some node =>
      rw [LinkedList.deleteFrom] at h ⊢
      obtain ⟨current, hload, h⟩ := ok_of_bind h
      obtain ⟨rest, hdelete, h⟩ := ok_of_bind h
      rw [hload, ok_bind, hdelete, ok_bind]
      exact ih (Nat.le_of_succ_le_succ hle) h

theorem eraseIfFrom_mono {callback : α → Bool} {it : ListIterator}
    (h : eraseIfFrom callback fuel it memory = .ok (some memory')) :
    eraseIfFrom callback more it memory = .ok (some memory') := by
  induction fuel generalizing memory it more with
  | zero =>
    cases hend : it.isEnd with
    | false =>
      rw [eraseIfFrom, hend] at h
      cases h
    | true =>
      rw [eraseIfFrom, hend] at h
      cases more with
      | zero | succ more => rwa [eraseIfFrom, hend]
  | succ fuel ih =>
    obtain ⟨more, rfl⟩ := Nat.exists_eq_succ_of_ne_zero (Nat.ne_zero_of_lt hle)
    have hle' := Nat.le_of_succ_le_succ hle
    rw [eraseIfFrom] at h ⊢
    cases hend : it.isEnd with
    | true => rwa [hend] at h
    | false =>
      rw [hend, if_neg Bool.false_ne_true] at h
      obtain ⟨value, hderef, h⟩ := ok_of_bind h
      rw [hderef, ok_bind]
      by_cases hcallback : callback value = true
      · rw [if_pos hcallback] at h ⊢
        obtain ⟨r, herase, h⟩ := ok_of_bind h
        rw [herase, ok_bind]
        exact ih hle' h
      · rw [if_neg hcallback] at h ⊢
        obtain ⟨next, hnext, h⟩ := ok_of_bind h
        rw [hnext, ok_bind]
        exact ih hle' h

theorem clear_mono {nodes : ListNodes α} {list : LinkedList} {r : LinkedList × ListNodes α}
    (h : LinkedList.clear nodes fuel list = .ok (some r)) :
    LinkedList.clear nodes more list = .ok (some r) := by
  obtain ⟨cleared, hrun, h⟩ := ok_of_bind h
  cases cleared with
  | none => cases h
  | some nodes' =>
    rw [LinkedList.clear, deleteFrom_mono hle hrun]
    exact h

theorem perform_mono (h : memory.perform fuel event = .ok (some memory')) :
    memory.perform more event = .ok (some memory') := by
  cases event with
  | construct | tryAppend | tryPrepend | erase | iteratorErase | moveConstruct | swap => exact h
  | eraseIf place callback =>
    obtain ⟨it, hbegin, h⟩ := ok_of_bind h
    show (memory.atBegin place >>= _) = _
    rw [hbegin]
    exact eraseIfFrom_mono hle h
  | clear place | destroy place =>
    obtain ⟨list, hlist, h⟩ := ok_of_bind h
    obtain ⟨cleared, hclear, h⟩ := ok_of_bind h
    cases cleared with
    | none => cases h
    | some r =>
      show (memory.object place >>= _) = _
      rw [hlist, ok_bind, clear_mono hle hclear]
      exact h
  | moveAssign place rhs =>
    obtain ⟨taken, htaken, h⟩ := ok_of_bind h
    obtain ⟨old, hold, h⟩ := ok_of_bind h
    obtain ⟨cleared, hclear, h⟩ := ok_of_bind h
    cases cleared with
    | none => cases h
    | some r =>
      show (memory.object rhs >>= _) = _
      rw [htaken, ok_bind]
      show ((memory.put rhs {} memory.nodes).object place >>= _) = _
      rw [hold, ok_bind]
      have hmore : LinkedList.clear memory.nodes more old = .ok (some r) := clear_mono hle hclear
      show (LinkedList.clear memory.nodes more old >>= _) = _
      rw [hmore]
      exact h

end

theorem perform_unique {memory₁ memory₂ : ListMemory α}
    (h₁ : memory.perform fuel event = .ok (some memory₁))
    (h₂ : memory.perform more event = .ok (some memory₂)) : memory₁ = memory₂ := by
  have hboth := perform_mono (Nat.le_max_left fuel more) h₁
  rw [perform_mono (Nat.le_max_right fuel more) h₂] at hboth
  exact (Option.some.inj (Except.ok.inj hboth)).symm

theorem Represents.step (h : Represents memory before entries)
    (hspecified : Specified memory event before after) (hgranted : event.Granted memory) :
    ∃ fuel memory' entries', memory.perform fuel event = .ok (some memory') ∧
      Represents memory' after entries' := by
  cases event with
  | construct place =>
    obtain ⟨hplace, rfl⟩ := hspecified
    have hput := h.put place (LinkedList.holds_empty memory.nodes) (by simp) fun _ _ _ => rfl
    exact ⟨0, _, _, rfl, hput⟩
  | tryAppend place value granted =>
    obtain ⟨values, hplace, rfl⟩ := hspecified
    cases granted with
    | none =>
      obtain ⟨list, hlist, -, -⟩ := h.holds hplace
      refine ⟨0, _, _, ?_, h.unchanged hplace hlist⟩
      rw [perform, ListMemory.tryAppend, hlist]
      rfl
    | some fresh =>
      obtain ⟨hfresh, hrange⟩ := hgranted fresh rfl
      obtain ⟨memory', entries', hrun, hrep⟩ := h.append hplace value hfresh hrange
      refine ⟨0, memory', entries', ?_, hrep⟩
      rw [perform, hrun]
      rfl
  | tryPrepend place value granted =>
    obtain ⟨values, hplace, rfl⟩ := hspecified
    cases granted with
    | none =>
      obtain ⟨list, hlist, -, -⟩ := h.holds hplace
      refine ⟨0, _, _, ?_, h.unchanged hplace hlist⟩
      rw [perform, ListMemory.tryPrepend, hlist]
      rfl
    | some fresh =>
      obtain ⟨hfresh, hrange⟩ := hgranted fresh rfl
      obtain ⟨memory', entries', hrun, hrep⟩ := h.prepend hplace value hfresh hrange
      refine ⟨0, memory', entries', ?_, hrep⟩
      rw [perform, hrun]
      rfl
  | erase place iterator =>
    obtain ⟨values, i, hplace, hat, rfl⟩ := hspecified
    obtain ⟨memory', entries', hrun, hrep⟩ := h.eraseAt hplace hat
    refine ⟨0, memory', entries', ?_, hrep⟩
    rw [perform, hrun]
    rfl
  | iteratorErase iterator =>
    obtain ⟨values, i, hplace, hat, rfl⟩ := hspecified
    obtain ⟨list, hlist, hholds, -⟩ := h.holds hplace
    obtain ⟨front, e, rest, hentries, -, hnode⟩ := hat.split hlist hholds
    obtain ⟨memory', entries', hrun, hrep⟩ := h.eraseAt hplace hat
    refine ⟨0, memory', entries', ?_, hrep⟩
    rw [hentries] at hholds
    have hnext := increment_eq hholds iterator.collection
    rw [← hnode] at hnext
    rw [perform, erase, hnext, ok_bind, hrun]
    rfl
  | eraseIf place callback =>
    obtain ⟨values, hplace, rfl⟩ := hspecified
    exact h.eraseIf hplace callback
  | clear place =>
    obtain ⟨hplace, rfl⟩ := hspecified
    obtain ⟨values, hvalues⟩ := Option.ne_none_iff_exists'.1 hplace
    exact h.clear hvalues
  | moveConstruct place rhs =>
    obtain ⟨values, hplace, hrhs, rfl⟩ := hspecified
    obtain ⟨list, hlist, -, -⟩ := h.held rhs values hrhs
    have hne : place ≠ rhs := by
      rintro rfl
      rw [hplace] at hrhs
      cases hrhs
    refine ⟨0, _, _, ?_, h.moved hne hrhs hlist fun _ _ => rfl⟩
    rw [perform, ListMemory.moveConstruct, object, hlist]
    rfl
  | moveAssign place rhs =>
    obtain ⟨values, hplace, hrhs, rfl⟩ := hspecified
    exact h.moveAssign hplace hrhs
  | swap place other =>
    obtain ⟨values, others, hplace, hother, rfl⟩ := hspecified
    obtain ⟨list, hlist, -, -⟩ := h.held place values hplace
    obtain ⟨rhs, hrhs, -, -⟩ := h.held other others hother
    refine ⟨0, _, _, ?_, h.swapped hplace hother hlist hrhs⟩
    rw [perform, ListMemory.swap, object, object, hlist, hrhs]
    rfl
  | destroy place =>
    obtain ⟨hplace, rfl⟩ := hspecified
    exact h.destroy hplace

theorem ListRun.represents (h : ListRun memory before) :
    ∃ entries, Represents memory before entries := by
  induction h with
  | start =>
    exact ⟨fun _ => [], fun _ _ => ⟨rfl, rfl⟩, fun _ _ hnone => (by cases hnone),
      fun _ _ _ hmem => absurd hmem List.not_mem_nil⟩
  | step event fuel hrun hspecified hgranted hperform ih =>
    obtain ⟨entries, hrep⟩ := ih
    obtain ⟨fuel', memory', entries', hrun', hrep'⟩ := hrep.step hspecified hgranted
    rw [perform_unique hperform hrun']
    exact ⟨entries', hrep'⟩

/-- After every run each list shows the values of its sequence, and every event that can be next takes
place. -/
theorem lists_refine (h : ListRun memory before) :
    (∀ place values, before place = some values →
      ∃ list, memory.object place = .ok list ∧ list.Shows memory.nodes values) ∧
    ∀ event after, Specified memory event before after → event.Granted memory →
      ∃ fuel memory', memory.perform fuel event = .ok (some memory') ∧ ListRun memory' after := by
  obtain ⟨entries, hrep⟩ := h.represents
  constructor
  · intro place values hplace
    obtain ⟨list, hlist, hholds, rfl⟩ := hrep.holds hplace
    exact ⟨list, hlist, hholds.shows⟩
  · intro event after hspecified hgranted
    obtain ⟨fuel, memory', -, hperform, -⟩ := hrep.step hspecified hgranted
    exact ⟨fuel, memory', hperform, .step event fuel h hspecified hgranted hperform⟩

theorem appended_erased_shown : ∃ (memory : ListMemory Nat) (list : LinkedList),
    memory.object 0 = .ok list ∧ list.Shows memory.nodes [8] := by
  have h₁ := ListRun.step (ListEvent.construct (α := Nat) 0) 0 .start ⟨rfl, rfl⟩ trivial rfl
  have h₂ := ListRun.step (.tryAppend 0 7 (some 4096)) 0 h₁ ⟨[], rfl, rfl⟩
    (by rintro _ ⟨⟩; exact ⟨rfl, by decide, by decide⟩) rfl
  have h₃ := ListRun.step (.tryAppend 0 8 (some 8192)) 0 h₂ ⟨[7], rfl, rfl⟩
    (by rintro _ ⟨⟩; exact ⟨rfl, by decide, by decide⟩) rfl
  have h₄ := ListRun.step (.iteratorErase ⟨0, some 4096⟩) 0 h₃
    ⟨[7, 8], 0, rfl, ⟨_, _, rfl, rfl, rfl, rfl⟩, rfl⟩ trivial rfl
  obtain ⟨list, hlist, hshows⟩ := (lists_refine h₄).1 0 [8] rfl
  exact ⟨_, list, hlist, hshows⟩

end

end LibTC
