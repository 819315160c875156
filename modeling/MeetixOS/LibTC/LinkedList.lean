import MeetixOS.Kernel.Types
import MeetixOS.Lib.Links
import MeetixOS.Lib.Slots
import Mathlib.Order.Interval.Finset.Nat

/-! # `List`

The doubly linked list of LibTC. The nodes are objects of their own in memory: a pointer to a node is
its address, `none` being null, and the access to a node that is not there, or not there any more, is a
fault. What `new` answers is an argument, `granted`.

`Holds entries` says that the list is linked over the nodes of `entries` and has their values; every
operation keeps it, and leaves the nodes of other lists alone. -/

open Function (update update_of_ne)
open Slots MeetixOS.Lib
open MeetixOS.Kernel (u32 u32_of_lt u32_sub)

namespace LibTC

/-- `Details::ListNode`. -/
structure ListNode (α : Type) where
  value : α
  nextNode : Option Nat := none
  prevNode : Option Nat := none
  deriving DecidableEq, Repr

/-- The nodes that are not deleted, by their addresses. -/
abbrev ListNodes (α : Type) := Nat → Option (ListNode α)

/-- The fields of a `List`. -/
structure LinkedList where
  headNode : Option Nat := none
  tailNode : Option Nat := none
  valuesCount : Nat := 0
  deriving DecidableEq, Repr

/-- `m_collection`, as the place of the list in memory, and `m_current_node`. -/
structure ListIterator where
  collection : Nat
  currentNode : Option Nat := none
  deriving DecidableEq, Repr

variable {α : Type}

namespace ListNodes

def load (nodes : ListNodes α) (address : Nat) : Checked (ListNode α) :=
  match nodes address with
  | some node => .ok node
  | none => .error .access

/-- `m_next_node` of a node is written. -/
def setNext (nodes : ListNodes α) (address : Nat) (next : Option Nat) : Checked (ListNodes α) := do
  let node ← nodes.load address
  return update nodes address (some { node with nextNode := next })

/-- `m_prev_node` of a node is written. -/
def setPrev (nodes : ListNodes α) (address : Nat) (prev : Option Nat) : Checked (ListNodes α) := do
  let node ← nodes.load address
  return update nodes address (some { node with prevNode := prev })

/-- `m_next_node` of the node that a pointer points to, if it is not null. -/
def setNextAt (nodes : ListNodes α) : (pointer next : Option Nat) → Checked (ListNodes α)
  | none, _ => .ok nodes
  | some address, next => nodes.setNext address next

def setPrevAt (nodes : ListNodes α) : (pointer prev : Option Nat) → Checked (ListNodes α)
  | none, _ => .ok nodes
  | some address, prev => nodes.setPrev address prev

def delete (nodes : ListNodes α) (address : Nat) : Checked (ListNodes α) := do
  let _ ← nodes.load address
  return update nodes address none

/-- A traversal with at most `n` nodes: the values from a node on, where `link` is the pointer it
follows. -/
def walk (nodes : ListNodes α) (link : ListNode α → Option Nat) :
    (n : Nat) → (current : Option Nat) → Checked (Option (List α))
  | _, none => return some []
  | 0, some _ => return none
  | n + 1, some current => do
      let node ← nodes.load current
      let rest ← nodes.walk link n (link node)
      return rest.map (node.value :: ·)

end ListNodes

namespace LinkedList

/-! ## Operations of one list -/

/-- `try_append`, with whether it returns no error. -/
def tryAppend (list : LinkedList) (nodes : ListNodes α) (value : α) :
    (granted : Option Nat) → Checked (Bool × LinkedList × ListNodes α)
  | none => return (false, list, nodes)
  | some newNode => do
      let nodes : ListNodes α := update nodes newNode (some { value })
      let (list, nodes) ← match list.tailNode with
        | none => pure ({ list with headNode := some newNode }, nodes)
        | some tail => do
            let nodes ← nodes.setNext tail (some newNode)
            let nodes ← nodes.setPrev newNode (some tail)
            pure (list, nodes)
      return (true, { list with tailNode := some newNode, valuesCount := u32 (list.valuesCount + 1) },
        nodes)

/-- `try_prepend`, with whether it returns no error. -/
def tryPrepend (list : LinkedList) (nodes : ListNodes α) (value : α) :
    (granted : Option Nat) → Checked (Bool × LinkedList × ListNodes α)
  | none => return (false, list, nodes)
  | some newNode => do
      let nodes : ListNodes α := update nodes newNode (some { value })
      let (list, nodes) ← match list.headNode with
        | none => pure ({ list with tailNode := some newNode }, nodes)
        | some head => do
            let nodes ← nodes.setPrev head (some newNode)
            let nodes ← nodes.setNext newNode (some head)
            pure (list, nodes)
      return (true, { list with headNode := some newNode, valuesCount := u32 (list.valuesCount + 1) },
        nodes)

/-- `erase`; the iterator becomes an end. -/
def erase (list : LinkedList) (nodes : ListNodes α) (iterator : ListIterator) :
    Checked (LinkedList × ListNodes α × ListIterator) :=
  match iterator.currentNode with
  | none => .error .verify
  | some nodeToErase => do
      let node ← nodes.load nodeToErase
      let list :=
        if list.headNode = some nodeToErase then { list with headNode := node.nextNode } else list
      let list :=
        if list.tailNode = some nodeToErase then { list with tailNode := node.prevNode } else list
      let nodes ← nodes.setNextAt node.prevNode node.nextNode
      let node ← nodes.load nodeToErase
      let nodes ← nodes.setPrevAt node.nextNode node.prevNode
      let nodes ← nodes.delete nodeToErase
      return ({ list with valuesCount := u32 (list.valuesCount + 2 ^ 32 - 1) }, nodes,
        { iterator with currentNode := none })

/-- The loop of `clear`, with at most `n` rounds. -/
def deleteFrom (nodes : ListNodes α) : (n : Nat) → (node : Option Nat) → Checked (Option (ListNodes α))
  | _, none => return some nodes
  | 0, some _ => return none
  | n + 1, some current => do
      let node ← nodes.load current
      let nodes ← nodes.delete current
      deleteFrom nodes n node.nextNode

def clear (nodes : ListNodes α) (fuel : Nat) (list : LinkedList) :
    Checked (Option (LinkedList × ListNodes α)) := do
  let nodes ← deleteFrom nodes fuel list.headNode
  return nodes.map fun nodes => ({}, nodes)

def first (list : LinkedList) (nodes : ListNodes α) : Checked α :=
  match list.headNode with
  | none => .error .verify
  | some head => do return (← nodes.load head).value

def last (list : LinkedList) (nodes : ListNodes α) : Checked α :=
  match list.tailNode with
  | none => .error .verify
  | some tail => do return (← nodes.load tail).value

end LinkedList

/-! ## What the pointers are -/

namespace ListNodes

def prevOf (nodes : ListNodes α) (address : Nat) : Option Nat := (nodes address).bind (·.prevNode)

def nextOf (nodes : ListNodes α) (address : Nat) : Option Nat := (nodes address).bind (·.nextNode)

def valueOf (nodes : ListNodes α) (address : Nat) : Option α := (nodes address).map (·.value)

variable {nodes : ListNodes α} {address : Nat} {node : ListNode α}

theorem load_of_valueOf {x : α} (h : nodes.valueOf address = some x) :
    nodes.load address = .ok ⟨x, nodes.nextOf address, nodes.prevOf address⟩ := by
  obtain ⟨node, hnode, rfl⟩ := Option.map_eq_some_iff.1 h
  rw [load, nextOf, prevOf, hnode]
  rfl

section

variable (b : Nat) (slot : Option (ListNode α))

@[simp] theorem prevOf_update :
    prevOf (update nodes b slot) = update nodes.prevOf b (slot.bind (·.prevNode)) := by
  funext a
  by_cases h : a = b
  · simp [prevOf, h]
  · simp [prevOf, h]

@[simp] theorem nextOf_update :
    nextOf (update nodes b slot) = update nodes.nextOf b (slot.bind (·.nextNode)) := by
  funext a
  by_cases h : a = b
  · simp [nextOf, h]
  · simp [nextOf, h]

@[simp] theorem valueOf_update :
    valueOf (update nodes b slot) = update nodes.valueOf b (slot.map (·.value)) := by
  funext a
  by_cases h : a = b
  · simp [valueOf, h]
  · simp [valueOf, h]

end

/-- The nodes differ in nothing but links of some of them. -/
structure Relinked (nodes nodes' : ListNodes α) (prev next : Nat → Option Nat) (touched : List Nat) :
    Prop where
  prevOf_eq : nodes'.prevOf = prev
  nextOf_eq : nodes'.nextOf = next
  valueOf_eq : nodes'.valueOf = nodes.valueOf
  untouched : ∀ a ∉ touched, nodes' a = nodes a

theorem setNext_spec {x : α} (h : nodes.valueOf address = some x) (next : Option Nat) :
    ∃ nodes', nodes.setNext address next = .ok nodes' ∧
      Relinked nodes nodes' nodes.prevOf (setAt nodes.nextOf (some address) next) [address] := by
  refine ⟨_, by rw [setNext, load_of_valueOf h, ok_bind]; rfl, ?_, ?_, ?_, ?_⟩
  · simp
  · simp [setAt]
  · simp [← h]
  · intro a ha
    simp [List.mem_singleton.not.1 ha]

theorem setPrev_spec {x : α} (h : nodes.valueOf address = some x) (prev : Option Nat) :
    ∃ nodes', nodes.setPrev address prev = .ok nodes' ∧
      Relinked nodes nodes' (setAt nodes.prevOf (some address) prev) nodes.nextOf [address] := by
  refine ⟨_, by rw [setPrev, load_of_valueOf h, ok_bind]; rfl, ?_, ?_, ?_, ?_⟩
  · simp [setAt]
  · simp
  · simp [← h]
  · intro a ha
    simp [List.mem_singleton.not.1 ha]

theorem setNextAt_spec {pointer : Option Nat} (next : Option Nat)
    (h : ∀ a, pointer = some a → ∃ x, nodes.valueOf a = some x) :
    ∃ nodes', nodes.setNextAt pointer next = .ok nodes' ∧
      Relinked nodes nodes' nodes.prevOf (setAt nodes.nextOf pointer next) pointer.toList := by
  cases pointer with
  | none => exact ⟨nodes, rfl, rfl, rfl, rfl, fun _ _ => rfl⟩
  | some address =>
    obtain ⟨x, hx⟩ := h address rfl
    exact setNext_spec hx next

theorem setPrevAt_spec {pointer : Option Nat} (prev : Option Nat)
    (h : ∀ a, pointer = some a → ∃ x, nodes.valueOf a = some x) :
    ∃ nodes', nodes.setPrevAt pointer prev = .ok nodes' ∧
      Relinked nodes nodes' (setAt nodes.prevOf pointer prev) nodes.nextOf pointer.toList := by
  cases pointer with
  | none => exact ⟨nodes, rfl, rfl, rfl, rfl, fun _ _ => rfl⟩
  | some address =>
    obtain ⟨x, hx⟩ := h address rfl
    exact setPrev_spec hx prev

theorem delete_eq {x : α} (h : nodes.valueOf address = some x) :
    nodes.delete address = .ok (update nodes address none) := by
  rw [delete, load_of_valueOf h]
  rfl

end ListNodes

/-! ## Lists that are linked -/

/-- The addresses of the nodes of a list. -/
def addresses (entries : List (Nat × α)) : List Nat := entries.map Prod.fst

/-- The list is linked over the nodes of `entries`, which hold its values. -/
structure LinkedList.Holds (list : LinkedList) (nodes : ListNodes α) (entries : List (Nat × α)) :
    Prop where
  headNode_eq : list.headNode = (addresses entries).head?
  tailNode_eq : list.tailNode = (addresses entries).getLast?
  valuesCount_eq : list.valuesCount = entries.length
  linked : Linked nodes.prevOf nodes.nextOf (addresses entries)
  valueOf_eq : ∀ e ∈ entries, nodes.valueOf e.1 = some e.2
  nodup : (addresses entries).Nodup
  placed : ∀ a ∈ addresses entries, 0 < a ∧ a < 2 ^ 32

section

variable {entries front rest : List (Nat × α)} {e : Nat × α}

@[simp] theorem addresses_append : addresses (front ++ rest) = addresses front ++ addresses rest :=
  List.map_append

@[simp] theorem addresses_cons : addresses (e :: rest) = e.1 :: addresses rest := rfl

@[simp] theorem addresses_nil : addresses ([] : List (Nat × α)) = [] := rfl

theorem mem_addresses (h : e ∈ entries) : e.1 ∈ addresses entries := List.mem_map_of_mem h

end

namespace LinkedList

open ListNodes

variable {list : LinkedList} {nodes nodes' : ListNodes α} {entries front rest : List (Nat × α)}
  {e : Nat × α} {x : α} {fresh : Nat}

section

variable (h : list.Holds nodes entries)
include h

theorem Holds.length_lt : entries.length < 2 ^ 32 := by
  have hsub : (addresses entries).toFinset ⊆ Finset.Ioo 0 (2 ^ 32) := by
    intro a ha
    exact Finset.mem_Ioo.2 (h.placed a (List.mem_toFinset.1 ha))
  have hcard := Finset.card_le_card hsub
  rw [List.toFinset_card_of_nodup h.nodup, Nat.card_Ioo, addresses, List.length_map] at hcard
  omega

theorem Holds.frame (hsame : ∀ a ∈ addresses entries, nodes' a = nodes a) :
    list.Holds nodes' entries where
  headNode_eq := h.headNode_eq
  tailNode_eq := h.tailNode_eq
  valuesCount_eq := h.valuesCount_eq
  linked := h.linked.congr fun a ha => by simp [prevOf, nextOf, hsame a ha]
  valueOf_eq e he := by
    rw [← h.valueOf_eq e he, valueOf, valueOf, hsame _ (mem_addresses he)]
  nodup := h.nodup
  placed := h.placed

theorem Holds.not_mem (hfresh : nodes fresh = none) : fresh ∉ addresses entries := by
  intro hmem
  obtain ⟨e, he, rfl⟩ := List.mem_map.1 hmem
  have hvalue := h.valueOf_eq e he
  rw [valueOf, hfresh] at hvalue
  cases hvalue

theorem Holds.grown (hfresh : fresh ∉ addresses entries) (hplace : 0 < fresh ∧ fresh < 2 ^ 32)
    {entries' : List (Nat × α)} (hperm : entries'.Perm ((fresh, x) :: entries))
    (hlinked : Linked nodes'.prevOf nodes'.nextOf (addresses entries'))
    (hvalue : nodes'.valueOf = update nodes.valueOf fresh (some x)) :
    Holds ⟨(addresses entries').head?, (addresses entries').getLast?, u32 (list.valuesCount + 1)⟩ nodes'
      entries' := by
  have haddresses : (addresses entries').Perm (fresh :: addresses entries) := hperm.map _
  have hnodup : (addresses entries').Nodup :=
    haddresses.nodup_iff.2 (List.nodup_cons.2 ⟨hfresh, h.nodup⟩)
  have hplaced : ∀ a ∈ addresses entries', 0 < a ∧ a < 2 ^ 32 := by
    intro a ha
    rcases List.mem_cons.1 (haddresses.mem_iff.1 ha) with rfl | ha
    · exact hplace
    · exact h.placed a ha
  have hvalues : ∀ e ∈ entries', nodes'.valueOf e.1 = some e.2 := by
    intro e he
    rw [hvalue]
    rcases List.mem_cons.1 (hperm.mem_iff.1 he) with rfl | he
    · exact Function.update_self ..
    · rw [update_of_ne (ne_of_mem_of_not_mem (mem_addresses he) hfresh), h.valueOf_eq e he]
  -- the count does not wrap: the addresses of so many nodes are used up
  have hheld : Holds ⟨(addresses entries').head?, (addresses entries').getLast?, entries'.length⟩ nodes'
      entries' := ⟨rfl, rfl, rfl, hlinked, hvalues, hnodup, hplaced⟩
  have hlength := hheld.length_lt
  refine ⟨rfl, rfl, ?_, hlinked, hvalues, hnodup, hplaced⟩
  have hcount := hperm.length_eq
  rw [List.length_cons] at hcount
  rw [h.valuesCount_eq, ← hcount, u32_of_lt hlength]

theorem Holds.tryAppend (x : α) (hfresh : nodes fresh = none) (hplace : 0 < fresh ∧ fresh < 2 ^ 32) :
    ∃ list' nodes', list.tryAppend nodes x (some fresh) = .ok (true, list', nodes') ∧
      list'.Holds nodes' (entries ++ [(fresh, x)]) ∧
      ∀ a ∉ addresses (entries ++ [(fresh, x)]), nodes' a = nodes a := by
  have hnot := h.not_mem hfresh
  have hperm : (entries ++ [(fresh, x)]).Perm ((fresh, x) :: entries) := List.perm_append_singleton _ _
  have hnodup : (addresses entries ++ [fresh]).Nodup := by
    rw [(List.perm_append_singleton fresh _).nodup_iff]
    exact List.nodup_cons.2 ⟨hnot, h.nodup⟩
  have hlinked := h.linked.append hnodup
  rw [show addresses entries ++ [fresh] = addresses (entries ++ [(fresh, x)]) by simp] at hlinked
  have hnew : ListNodes.valueOf (update nodes fresh (some { value := x })) =
      update nodes.valueOf fresh (some x) := by simp
  rcases List.eq_nil_or_concat entries with rfl | ⟨init, ⟨t, y⟩, rfl⟩
  · have hrun : list.tryAppend nodes x (some fresh) = .ok (true,
        ⟨some fresh, some fresh, u32 (list.valuesCount + 1)⟩,
        update nodes fresh (some { value := x })) := by
      rw [LinkedList.tryAppend, show list.tailNode = none from h.tailNode_eq]
      rfl
    refine ⟨_, _, hrun, h.grown hnot hplace hperm ?_ hnew, ?_⟩
    · simpa [setAt] using hlinked
    · intro a ha
      exact update_of_ne (by simpa using ha) ..
  · rw [List.concat_eq_append] at *
    have htail : list.tailNode = some t := by simp [h.tailNode_eq]
    have hhead : list.headNode = (addresses (init ++ [(t, y)] ++ [(fresh, x)])).head? := by
      rw [h.headNode_eq]
      cases init <;> rfl
    have ht : t ≠ fresh := by
      rintro rfl
      simp at hnot
    have hty : nodes.valueOf t = some y := h.valueOf_eq (t, y) (by simp)
    have hvalueNew : ListNodes.valueOf (update nodes fresh (some { value := x })) t =
        some y := by simp [ht, hty]
    obtain ⟨nodes₁, hnext, hrel₁⟩ := setNext_spec hvalueNew (some fresh)
    have hvalueFresh : nodes₁.valueOf fresh = some x := by simp [hrel₁.valueOf_eq]
    obtain ⟨nodes₂, hprev, hrel₂⟩ := setPrev_spec hvalueFresh (some t)
    have hrun : list.tryAppend nodes x (some fresh) = .ok (true,
        ⟨list.headNode, some fresh, u32 (list.valuesCount + 1)⟩, nodes₂) := by
      simp [LinkedList.tryAppend, htail, hnext, hprev, pure_eq_ok]
    have hprevOf : nodes₂.prevOf =
        update nodes.prevOf fresh (addresses (init ++ [(t, y)])).getLast? := by
      simp [hrel₂.prevOf_eq, hrel₁.prevOf_eq, setAt]
    have hnextOf : nodes₂.nextOf = update (setAt nodes.nextOf
        (addresses (init ++ [(t, y)])).getLast? (some fresh)) fresh none := by
      simp [hrel₂.nextOf_eq, hrel₁.nextOf_eq, setAt, Function.update_comm ht]
    have hlinked₂ : Linked nodes₂.prevOf nodes₂.nextOf
        (addresses (init ++ [(t, y)] ++ [(fresh, x)])) := by
      rwa [hprevOf, hnextOf]
    refine ⟨_, _, hrun, ?_, ?_⟩
    · rw [hhead]
      have hheld := h.grown hnot hplace hperm hlinked₂ (by rw [hrel₂.valueOf_eq, hrel₁.valueOf_eq, hnew])
      simpa using hheld
    · intro a ha
      rw [hrel₂.untouched a (by simp_all), hrel₁.untouched a (by simp_all)]
      exact update_of_ne (by simp_all) ..

theorem Holds.tryPrepend (x : α) (hfresh : nodes fresh = none) (hplace : 0 < fresh ∧ fresh < 2 ^ 32) :
    ∃ list' nodes', list.tryPrepend nodes x (some fresh) = .ok (true, list', nodes') ∧
      list'.Holds nodes' ((fresh, x) :: entries) ∧
      ∀ a ∉ addresses ((fresh, x) :: entries), nodes' a = nodes a := by
  have hnot := h.not_mem hfresh
  have hlinked := h.linked.prepend (List.nodup_cons.2 ⟨hnot, h.nodup⟩)
  have hnew : ListNodes.valueOf (update nodes fresh (some { value := x })) =
      update nodes.valueOf fresh (some x) := by simp
  cases entries with
  | nil =>
    have hrun : list.tryPrepend nodes x (some fresh) = .ok (true,
        ⟨some fresh, some fresh, u32 (list.valuesCount + 1)⟩,
        update nodes fresh (some { value := x })) := by
      rw [LinkedList.tryPrepend, show list.headNode = none from h.headNode_eq]
      rfl
    refine ⟨_, _, hrun, h.grown hnot hplace (.refl _) ?_ hnew, ?_⟩
    · simpa [setAt] using hlinked
    · intro a ha
      exact update_of_ne (by simpa using ha) ..
  | cons e rest =>
    obtain ⟨t, y⟩ := e
    have hhead : list.headNode = some t := h.headNode_eq
    have htail : list.tailNode = (addresses ((fresh, x) :: (t, y) :: rest)).getLast? := by
      rw [h.tailNode_eq, addresses_cons (e := (fresh, x)), addresses_cons, List.getLast?_cons_cons]
    have ht : t ≠ fresh := by
      rintro rfl
      simp at hnot
    have hty : nodes.valueOf t = some y := h.valueOf_eq (t, y) (by simp)
    have hvalueNew : ListNodes.valueOf (update nodes fresh (some { value := x })) t =
        some y := by simp [ht, hty]
    obtain ⟨nodes₁, hprev, hrel₁⟩ := setPrev_spec hvalueNew (some fresh)
    have hvalueFresh : nodes₁.valueOf fresh = some x := by simp [hrel₁.valueOf_eq]
    obtain ⟨nodes₂, hnext, hrel₂⟩ := setNext_spec hvalueFresh (some t)
    have hrun : list.tryPrepend nodes x (some fresh) = .ok (true,
        ⟨some fresh, list.tailNode, u32 (list.valuesCount + 1)⟩, nodes₂) := by
      simp [LinkedList.tryPrepend, hhead, hnext, hprev, pure_eq_ok]
    have hnextOf : nodes₂.nextOf =
        update nodes.nextOf fresh (addresses ((t, y) :: rest)).head? := by
      simp [hrel₂.nextOf_eq, hrel₁.nextOf_eq, setAt]
    have hprevOf : nodes₂.prevOf = update (setAt nodes.prevOf
        (addresses ((t, y) :: rest)).head? (some fresh)) fresh none := by
      simp [hrel₂.prevOf_eq, hrel₁.prevOf_eq, setAt, Function.update_comm ht]
    have hlinked₂ : Linked nodes₂.prevOf nodes₂.nextOf
        (addresses ((fresh, x) :: (t, y) :: rest)) := by
      rwa [hprevOf, hnextOf]
    refine ⟨_, _, hrun, ?_, ?_⟩
    · rw [htail]
      exact h.grown hnot hplace (.refl _) hlinked₂ (by rw [hrel₂.valueOf_eq, hrel₁.valueOf_eq, hnew])
    · intro a ha
      rw [hrel₂.untouched a (by simp_all), hrel₁.untouched a (by simp_all)]
      exact update_of_ne (by simp_all) ..

end

theorem Holds.erase (h : list.Holds nodes (front ++ e :: rest)) (collection : Nat) :
    ∃ list' nodes', list.erase nodes ⟨collection, some e.1⟩ =
        .ok (list', nodes', ⟨collection, none⟩) ∧
      list'.Holds nodes' (front ++ rest) ∧
      ∀ a ∉ addresses (front ++ e :: rest), nodes' a = nodes a := by
  have hlinked := h.linked
  have hnodup := h.nodup
  rw [addresses_append, addresses_cons] at hlinked hnodup
  obtain ⟨hprevOf, hnextOf⟩ := hlinked.pointers
  have hunlinked := hlinked.unlink hnodup
  have hother : ∀ a ∈ addresses front ++ addresses rest, a ≠ e.1 := by
    rintro a ha rfl
    have hparts := (List.perm_middle.nodup_iff.1 hnodup)
    exact (List.nodup_cons.1 hparts).1 ha
  have hvalues : ∀ a ∈ addresses (front ++ e :: rest), ∃ x, nodes.valueOf a = some x := by
    intro a ha
    obtain ⟨entry, hentry, rfl⟩ := List.mem_map.1 ha
    exact ⟨_, h.valueOf_eq entry hentry⟩
  have he : nodes.valueOf e.1 = some e.2 := h.valueOf_eq e (by simp)
  have hbefore : ∀ a, (addresses front).getLast? = some a → a ∈ addresses front :=
    fun a ha => List.mem_of_mem_getLast? ha
  have hbehind : ∀ a, (addresses rest).head? = some a → a ∈ addresses rest :=
    fun a ha => List.mem_of_mem_head? ha
  have hpointer : ∀ a, (addresses front).getLast? = some a → ∃ x, nodes.valueOf a = some x :=
    fun a ha => hvalues a (by simp [hbefore a ha])
  obtain ⟨nodes₁, hsetNext, hrel₁⟩ := setNextAt_spec (addresses rest).head? hpointer
  have he₁ : nodes₁.valueOf e.1 = some e.2 := by rw [hrel₁.valueOf_eq, he]
  have hnextOf₁ : nodes₁.nextOf e.1 = (addresses rest).head? := by
    rw [hrel₁.nextOf_eq, setAt_of_ne, hnextOf]
    exact fun ha => hother e.1 (List.mem_append_left _ (hbefore _ ha)) rfl
  have hprevOf₁ : nodes₁.prevOf e.1 = (addresses front).getLast? := by rw [hrel₁.prevOf_eq, hprevOf]
  have hpointer₁ : ∀ a, (addresses rest).head? = some a → ∃ x, nodes₁.valueOf a = some x := by
    intro a ha
    rw [hrel₁.valueOf_eq]
    exact hvalues a (by simp [hbehind a ha])
  obtain ⟨nodes₂, hsetPrev, hrel₂⟩ := setPrevAt_spec (addresses front).getLast? hpointer₁
  have he₂ : nodes₂.valueOf e.1 = some e.2 := by rw [hrel₂.valueOf_eq, he₁]
  have hhead : (if list.headNode = some e.1 then (addresses rest).head? else list.headNode) =
      (addresses (front ++ rest)).head? := by
    rw [h.headNode_eq]
    cases front with
    | nil => simp
    | cons f front => simp [show f.1 ≠ e.1 from hother f.1 (by simp)]
  have htail : (if list.tailNode = some e.1 then (addresses front).getLast? else list.tailNode) =
      (addresses (front ++ rest)).getLast? := by
    rw [h.tailNode_eq]
    rcases List.eq_nil_or_concat rest with rfl | ⟨init, t, rfl⟩
    · simp
    · have hlast : (addresses (front ++ e :: init.concat t)).getLast? = some t.1 := by
        rw [show front ++ e :: init.concat t = (front ++ e :: init) ++ [t] by simp, addresses_append]
        exact List.getLast?_concat
      have ht : t.1 ≠ e.1 := hother t.1 (by simp)
      rw [hlast, if_neg (by simpa using ht)]
      simp
  have hrun : list.erase nodes ⟨collection, some e.1⟩ = .ok
      (⟨(addresses (front ++ rest)).head?, (addresses (front ++ rest)).getLast?,
        u32 (list.valuesCount + 2 ^ 32 - 1)⟩, update nodes₂ e.1 none, ⟨collection, none⟩) := by
    simp only [LinkedList.erase, load_of_valueOf he, hprevOf, hnextOf, ok_bind, hsetNext,
      load_of_valueOf he₁, hprevOf₁, hnextOf₁, hsetPrev, delete_eq he₂, pure_eq_ok, ← hhead, ← htail]
    split_ifs <;> rfl
  have hcount : u32 (list.valuesCount + 2 ^ 32 - 1) = (front ++ rest).length := by
    have hlt := h.length_lt
    have hlength : (front ++ e :: rest).length = (front ++ rest).length + 1 := by
      simp
      omega
    rw [h.valuesCount_eq, u32_sub (by omega) hlt, hlength, Nat.add_sub_cancel]
  have hmem : ∀ entry ∈ front ++ rest, entry ∈ front ++ e :: rest := by
    intro entry hentry
    rcases List.mem_append.1 hentry with hentry | hentry
    · simp [hentry]
    · simp [hentry]
  refine ⟨_, _, hrun, ⟨rfl, rfl, hcount, ?_, ?_, ?_, ?_⟩, ?_⟩
  · rw [addresses_append]
    refine hunlinked.congr fun a ha => ?_
    have hne := hother a ha
    rw [prevOf_update, nextOf_update, update_of_ne hne, update_of_ne hne,
      hrel₂.prevOf_eq, hrel₂.nextOf_eq, hrel₁.prevOf_eq, hrel₁.nextOf_eq]
    exact ⟨rfl, rfl⟩
  · intro entry hentry
    have hne := hother entry.1 (by rw [← addresses_append]; exact mem_addresses hentry)
    rw [valueOf_update, update_of_ne hne, hrel₂.valueOf_eq, hrel₁.valueOf_eq]
    exact h.valueOf_eq entry (hmem entry hentry)
  · rw [addresses_append]
    exact (List.nodup_cons.1 (List.perm_middle.nodup_iff.1 hnodup)).2
  · intro a ha
    obtain ⟨entry, hentry, rfl⟩ := List.mem_map.1 ha
    exact h.placed _ (mem_addresses (hmem entry hentry))
  · intro a ha
    have hparts : a ∉ addresses front ∧ a ≠ e.1 ∧ a ∉ addresses rest := by simpa using ha
    rw [update_of_ne hparts.2.1, hrel₂.untouched a, hrel₁.untouched a]
    · intro hlast
      exact hparts.1 (hbefore a (by simpa using hlast))
    · intro hfirst
      exact hparts.2.2 (hbehind a (by simpa using hfirst))

/-! ## Traversals -/

theorem Holds.walk_next (front : List (Nat × α)) (h : list.Holds nodes (front ++ rest))
    {n : Nat} (hn : rest.length ≤ n) :
    nodes.walk (·.nextNode) n (addresses rest).head? = .ok (some (rest.map Prod.snd)) := by
  induction rest generalizing front n with
  | nil => cases n <;> rfl
  | cons e rest ih =>
    obtain ⟨n, rfl⟩ := Nat.exists_eq_succ_of_ne_zero (Nat.ne_zero_of_lt hn)
    have hlinked := h.linked
    rw [addresses_append, addresses_cons] at hlinked
    have hnext := ih (front ++ [e]) (by simpa using h) (Nat.le_of_succ_le_succ hn)
    rw [addresses_cons, List.head?_cons, ListNodes.walk, load_of_valueOf (h.valueOf_eq e (by simp)),
      ok_bind, hlinked.pointers.2, hnext]
    rfl

theorem Holds.walk_prev (rest : List (Nat × α)) (h : list.Holds nodes (front ++ rest))
    {n : Nat} (hn : front.length ≤ n) :
    nodes.walk (·.prevNode) n (addresses front).getLast? = .ok (some (front.map Prod.snd).reverse) := by
  induction front using List.reverseRecOn generalizing rest n with
  | nil => cases n <;> rfl
  | append_singleton front e ih =>
    rw [List.length_append, List.length_singleton] at hn
    obtain ⟨n, rfl⟩ := Nat.exists_eq_succ_of_ne_zero (Nat.ne_zero_of_lt hn)
    have hentries : list.Holds nodes (front ++ e :: rest) := by simpa using h
    have hlinked := hentries.linked
    rw [addresses_append, addresses_cons] at hlinked
    have hprev := ih _ hentries (Nat.le_of_succ_le_succ hn)
    rw [addresses_append, addresses_cons, addresses_nil, List.getLast?_concat, ListNodes.walk,
      load_of_valueOf (h.valueOf_eq e (by simp)), ok_bind, hlinked.pointers.1, hprev]
    simp

/-- What a list shows of its values: both traversals end, with the values in order and the other way
round. -/
structure Shows (list : LinkedList) (nodes : ListNodes α) (values : List α) : Prop where
  forward : ∃ n, nodes.walk (·.nextNode) n list.headNode = .ok (some values)
  backward : ∃ n, nodes.walk (·.prevNode) n list.tailNode = .ok (some values.reverse)
  count : list.valuesCount = values.length
  first_eq : list.first nodes = values.head?.elim (.error .verify) .ok
  last_eq : list.last nodes = values.getLast?.elim (.error .verify) .ok

theorem Holds.shows (h : list.Holds nodes entries) : list.Shows nodes (entries.map Prod.snd) where
  forward := ⟨entries.length, by
    rw [h.headNode_eq]
    exact Holds.walk_next [] h (Nat.le_refl _)⟩
  backward := ⟨entries.length, by
    rw [h.tailNode_eq]
    exact Holds.walk_prev [] (by rwa [List.append_nil]) (Nat.le_refl _)⟩
  count := by rw [h.valuesCount_eq, List.length_map]
  first_eq := by
    rw [first, h.headNode_eq]
    cases entries with
    | nil => rfl
    | cons e rest =>
      show (do return (← nodes.load e.1).value) = _
      rw [load_of_valueOf (h.valueOf_eq e (by simp))]
      rfl
  last_eq := by
    rw [last, h.tailNode_eq]
    rcases List.eq_nil_or_concat entries with rfl | ⟨init, e, rfl⟩
    · rfl
    · have hlast : (addresses (init.concat e)).getLast? = some e.1 := by simp
      have hvalue : ((init.concat e).map Prod.snd).getLast? = some e.2 := by simp
      rw [hlast, hvalue]
      show (do return (← nodes.load e.1).value) = _
      rw [load_of_valueOf (h.valueOf_eq e (by simp))]
      rfl

theorem deleteFrom_spec {p : Option Nat} {n : Nat}
    (hlinked : Segment nodes.prevOf nodes.nextOf p (addresses entries) none)
    (hvalues : ∀ e ∈ entries, nodes.valueOf e.1 = some e.2) (hnodup : (addresses entries).Nodup)
    (hn : entries.length ≤ n) :
    ∃ nodes', deleteFrom nodes n (addresses entries).head? = .ok (some nodes') ∧
      ∀ a ∉ addresses entries, nodes' a = nodes a := by
  induction entries generalizing nodes p n with
  | nil => exact ⟨nodes, by cases n <;> rfl, fun _ _ => rfl⟩
  | cons e rest ih =>
    obtain ⟨n, rfl⟩ := Nat.exists_eq_succ_of_ne_zero (Nat.ne_zero_of_lt hn)
    rw [addresses_cons] at hlinked
    obtain ⟨-, hnext, hrest⟩ := hlinked
    rw [Option.or_none] at hnext
    obtain ⟨hnot, hnodup⟩ := List.nodup_cons.1 hnodup
    have hne : ∀ a ∈ addresses rest, a ≠ e.1 := by
      rintro a ha rfl
      exact hnot ha
    have he : nodes.valueOf e.1 = some e.2 := hvalues e List.mem_cons_self
    have hlinked' : Segment (prevOf (update nodes e.1 none))
        (nextOf (update nodes e.1 none)) (some e.1) (addresses rest) none :=
      hrest.congr fun a ha => by simp [hne a ha]
    have hvalues' : ∀ entry ∈ rest,
        ListNodes.valueOf (update nodes e.1 none) entry.1 = some entry.2 := by
      intro entry hentry
      rw [valueOf_update, update_of_ne (hne _ (mem_addresses hentry))]
      exact hvalues entry (List.mem_cons_of_mem e hentry)
    obtain ⟨nodes', hrun, hframe⟩ := ih hlinked' hvalues' hnodup (Nat.le_of_succ_le_succ hn)
    refine ⟨nodes', ?_, fun a ha => ?_⟩
    · rw [addresses_cons, List.head?_cons, deleteFrom, load_of_valueOf he, ok_bind, delete_eq he,
        ok_bind, hnext, hrun]
    · rw [addresses_cons, List.mem_cons, not_or] at ha
      rw [hframe a ha.2, update_of_ne ha.1]

theorem Holds.clear (h : list.Holds nodes entries) :
    ∃ fuel nodes', LinkedList.clear nodes fuel list = .ok (some ({}, nodes')) ∧
      ∀ a ∉ addresses entries, nodes' a = nodes a := by
  obtain ⟨nodes', hrun, hframe⟩ := deleteFrom_spec h.linked h.valueOf_eq h.nodup (Nat.le_refl _)
  refine ⟨entries.length, nodes', ?_, hframe⟩
  rw [LinkedList.clear, h.headNode_eq, hrun]
  rfl

theorem holds_empty (nodes : ListNodes α) : Holds {} nodes [] :=
  ⟨rfl, rfl, rfl, trivial, by simp, .nil, by simp⟩

end LinkedList

end LibTC
