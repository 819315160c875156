import Mathlib.Data.List.Induction
import MeetixOS.Lib.Links
import MeetixOS.Kernel.Types

/-! # The linked list of the API

`Api/utils/llist.hpp`, the operations that the kernel uses. A pointer to a node is an address, and `memory`
gives the nodes that are not deleted; `none` is a null pointer or the use of a deleted node. What `new`
returns is an argument, `fresh`.

`Holds entries` says that the list is linked over the nodes of `entries` and has their values; what the
first node points back to is left open, since `remove` does not write it. -/

open Function (update update_of_ne update_self)
open Option (bind_eq_bind bind_some map_eq_some_iff map_some)
open List (append_assoc cons_ne_nil getLast?_concat length_cons map_append map_cons mem_cons_of_mem
  mem_cons_self mem_map_of_mem singleton_append)

namespace MeetixOS.Kernel

open MeetixOS.Lib

variable {α : Type}

/-- `llist::Node_t`. -/
structure Node (α : Type) where
  value : α
  next : Option Address := none
  prev : Option Address := none
  deriving DecidableEq

/-- The nodes that are not deleted. -/
abbrev Nodes (α : Type) := Address → Option (Node α)

/-- `llist`: the count, the first and the last node. -/
structure LinkedList where
  size : Nat := 0
  firstNode : Option Address := none
  lastNode : Option Address := none
  deriving DecidableEq

namespace LinkedList

/-! ## Operations -/

/-- `add`: nothing happens if the last node points to another one. -/
def add (list : LinkedList) (memory : Nodes α) (value : α) (fresh : Address) :
    Option (LinkedList × Nodes α) :=
  match list.firstNode with
  | none =>
    some ({ size := list.size + 1, firstNode := some fresh, lastNode := some fresh },
      update memory fresh (some { value }))
  | some _ => do
      let last ← list.lastNode
      let node ← memory last
      match node.next with
      | some _ => some (list, memory)
      | none =>
        let memory := update memory last (some { node with next := some fresh })
        some ({ list with size := list.size + 1, lastNode := some fresh },
          update memory fresh (some { value, prev := some last }))

/-- The loop of `find`, with the number of nodes that may still be looked at. -/
def search [DecidableEq α] (memory : Nodes α) (value : α) :
    Nat → Option Address → Option (Option Address)
  | 0, _ => some none
  | _ + 1, none => some none
  | n + 1, some current => do
      let node ← memory current
      if node.value = value then some (some current) else search memory value n node.next

/-- `find`: nothing is found in a list of one node. -/
def find [DecidableEq α] (list : LinkedList) (memory : Nodes α) (value : α) :
    Option (Option Address) :=
  if 2 ≤ list.size then search memory value list.size list.firstNode else some none

/-- The pointers `remove` writes before it deletes the node. -/
def unlink (list : LinkedList) (memory : Nodes α) (address : Address) (node : Node α) :
    Option (LinkedList × Nodes α) :=
  if some address = list.firstNode then some ({ list with firstNode := node.next }, memory)
  else if some address = list.lastNode then some ({ list with lastNode := node.prev }, memory)
  else do
    let prev ← node.prev
    let next ← node.next
    let before ← memory prev
    let memory := update memory prev (some { before with next := some next })
    let behind ← memory next
    some (list, update memory next (some { behind with prev := some prev }))

def remove (list : LinkedList) (memory : Nodes α) : Option Address → Option (LinkedList × Nodes α)
  | none => some (list, memory)
  | some address => do
      let node ← memory address
      let (list, memory) ← list.unlink memory address node
      some ({ list with size := list.size - 1 }, update memory address none)

/-- `erase`, by value. -/
def erase [DecidableEq α] (list : LinkedList) (memory : Nodes α) (value : α) :
    Option (LinkedList × Nodes α) := do
  list.remove memory (← list.find memory value)

/-- A loop from `begin()` to `end()` that stops at the first value that passes a test. -/
def walk (memory : Nodes α) (test : α → Option Bool) : Nat → Address → Option (Option α)
  | 0, current => do
      let node ← memory current
      if ← test node.value then some (some node.value) else some none
  | n + 1, current => do
      let node ← memory current
      if ← test node.value then some (some node.value)
      else match node.next with
        | none => some none
        | some next => walk memory test n next

/-- The first value that passes a test. -/
def firstWhere (list : LinkedList) (memory : Nodes α) (test : α → Option Bool) :
    Option (Option α) :=
  match list.firstNode with
  | none => some none
  | some first => walk memory test list.size first

/-- The nodes that a walk over the list comes to. -/
inductive Reaches (list : LinkedList) (memory : Nodes α) : Address → Prop
  | first {a : Address} (h : list.firstNode = some a) : Reaches list memory a
  | next {a b : Address} {node : Node α} (ha : Reaches list memory a) (hnode : memory a = some node)
      (h : node.next = some b) : Reaches list memory b

/-! ## Linked lists -/

/-- The `next` pointers of the nodes. -/
def nexts (memory : Nodes α) (a : Address) : Option Address := (memory a).bind Node.next

/-- The `prev` pointers of the nodes. -/
def prevs (memory : Nodes α) (a : Address) : Option Address := (memory a).bind Node.prev

/-- The list is linked over the nodes of `entries`, in this order, and they have these values. -/
structure Holds (list : LinkedList) (memory : Nodes α) (entries : List (Address × α)) : Prop where
  linked : ∃ p, Segment (prevs memory) (nexts memory) p (entries.map Prod.fst) none
  nodup : (entries.map Prod.fst).Nodup
  value : ∀ e ∈ entries, (memory e.1).map Node.value = some e.2
  size : list.size = entries.length
  first : list.firstNode = (entries.map Prod.fst).head?
  last : entries ≠ [] → list.lastNode = (entries.map Prod.fst).getLast?

variable {list : LinkedList} {memory : Nodes α} {entries before behind : List (Address × α)}
  {a : Address} {v : α}

theorem holds_nil : Holds {} memory [] :=
  ⟨⟨none, trivial⟩, List.nodup_nil, fun _ h => absurd h List.not_mem_nil, rfl, rfl,
    fun h => absurd rfl h⟩

theorem Holds.node_eq (before : List (Address × α))
    (h : Holds list memory (before ++ (a, v) :: behind)) :
    ∃ node, memory a = some node ∧ node.value = v ∧ node.next = (behind.map Prod.fst).head? ∧
      (before ≠ [] → node.prev = (before.map Prod.fst).getLast?) := by
  obtain ⟨p, hlinked⟩ := h.linked
  obtain ⟨node, hnode, hvalue⟩ := map_eq_some_iff.1
    (h.value (a, v) (List.mem_append_right _ mem_cons_self))
  rw [map_append, map_cons] at hlinked
  obtain ⟨-, hprev, hnext, -⟩ := segment_append.1 hlinked
  rw [Option.or_none, nexts, hnode] at hnext
  rw [prevs, hnode] at hprev
  refine ⟨node, hnode, hvalue, hnext, fun hne => hprev.trans ?_⟩
  rw [List.getLast?_map, List.getLast?_eq_some_getLast hne]
  rfl

/-! ## Walks -/

theorem search_eq [DecidableEq α] {p : Option Address} (value : α)
    (hlinked : Segment (prevs memory) (nexts memory) p (entries.map Prod.fst) none)
    (hvalue : ∀ e ∈ entries, (memory e.1).map Node.value = some e.2) {n : Nat}
    (hn : entries.length ≤ n) :
    search memory value n (entries.map Prod.fst).head? =
      some ((entries.find? fun e => e.2 = value).map Prod.fst) := by
  induction entries generalizing p n with
  | nil => cases n <;> rfl
  | cons e rest ih =>
    obtain ⟨-, hnext, hlinked⟩ := hlinked
    obtain ⟨node, hnode, hv⟩ := map_eq_some_iff.1 (hvalue e mem_cons_self)
    obtain ⟨k, rfl⟩ : ∃ k, n = k + 1 := ⟨n - 1, by rw [length_cons] at hn; omega⟩
    rw [nexts, hnode, Option.or_none, bind_some] at hnext
    show (memory e.1).bind _ = _
    rw [hnode, bind_some, List.find?_cons, hv]
    by_cases heq : e.2 = value
    · simp [heq]
    · simp only [heq, if_false, decide_false, hnext]
      exact ih hlinked (fun e he => hvalue e (mem_cons_of_mem _ he))
        (Nat.le_of_succ_le_succ hn)

theorem Holds.find_eq [DecidableEq α] (h : Holds list memory entries) (hsize : 2 ≤ entries.length)
    (value : α) :
    list.find memory value = some ((entries.find? fun e => e.2 = value).map Prod.fst) := by
  obtain ⟨p, hlinked⟩ := h.linked
  rw [find, if_pos (h.size ▸ hsize), h.first]
  exact search_eq value hlinked h.value h.size.ge

theorem walk_eq {p : Option Address} {test : α → Option Bool} {e : Address × α}
    (hlinked : Segment (prevs memory) (nexts memory) p ((e :: entries).map Prod.fst) none)
    (hvalue : ∀ e' ∈ e :: entries, (memory e'.1).map Node.value = some e'.2)
    (htest : ∀ e' ∈ e :: entries, (test e'.2).isSome) {n : Nat} (hn : entries.length ≤ n) :
    walk memory test n e.1 =
      some (((e :: entries).find? fun e' => test e'.2 = some true).map Prod.snd) := by
  induction entries generalizing p e n with
  | nil =>
    obtain ⟨-, hnext, -⟩ := hlinked
    obtain ⟨node, hnode, hv⟩ := map_eq_some_iff.1 (hvalue e mem_cons_self)
    obtain ⟨b, hb⟩ := Option.isSome_iff_exists.1 (htest e mem_cons_self)
    rw [nexts, hnode, bind_some] at hnext
    cases n <;> cases b <;> simp [walk, hnode, hv, hb, hnext]
  | cons e' rest ih =>
    obtain ⟨-, hnext, hlinked⟩ := hlinked
    obtain ⟨node, hnode, hv⟩ := map_eq_some_iff.1 (hvalue e mem_cons_self)
    obtain ⟨b, hb⟩ := Option.isSome_iff_exists.1 (htest e mem_cons_self)
    obtain ⟨k, rfl⟩ : ∃ k, n = k + 1 := ⟨n - 1, by rw [length_cons] at hn; omega⟩
    have hrest := ih hlinked (fun e he => hvalue e (mem_cons_of_mem _ he))
      (fun e he => htest e (mem_cons_of_mem _ he)) (Nat.le_of_succ_le_succ hn)
    rw [nexts, hnode, bind_some] at hnext
    cases b with
    | false => simpa [walk, hnode, List.find?_cons, hv, hb, hnext] using hrest
    | true => simp [walk, hnode, hv, hb]

theorem Holds.firstWhere_eq (h : Holds list memory entries) {test : α → Option Bool}
    (htest : ∀ e ∈ entries, (test e.2).isSome) :
    list.firstWhere memory test =
      some ((entries.find? fun e => test e.2 = some true).map Prod.snd) := by
  obtain ⟨p, hlinked⟩ := h.linked
  rw [firstWhere, h.first]
  cases entries with
  | nil => rfl
  | cons e rest =>
    refine walk_eq hlinked h.value htest ?_
    rw [h.size, length_cons]
    omega

theorem Holds.reaches (h : Holds list memory entries) (hreach : Reaches list memory a) :
    ∃ v, (a, v) ∈ entries := by
  induction hreach with
  | first hfirst =>
    rw [h.first] at hfirst
    obtain ⟨⟨a, v⟩, hmem, rfl⟩ := List.mem_map.1 (List.mem_of_mem_head? hfirst)
    exact ⟨v, hmem⟩
  | next _ hnode hnext ih =>
    obtain ⟨v, hmem⟩ := ih
    obtain ⟨before, behind, rfl⟩ := List.append_of_mem hmem
    obtain ⟨node, hnode', -, hnext', -⟩ := Holds.node_eq _ h
    cases hnode.symm.trans hnode'
    rw [hnext'] at hnext
    obtain ⟨⟨b, w⟩, hw, rfl⟩ := List.mem_map.1 (List.mem_of_mem_head? hnext)
    exact ⟨w, List.mem_append_right _ (mem_cons_of_mem _ hw)⟩

theorem Holds.reaches_of_append {e : Address × α} (h : Holds list memory (before ++ e :: behind)) :
    Reaches list memory e.1 := by
  induction before using List.reverseRecOn generalizing e behind with
  | nil => exact .first h.first
  | append_singleton init b ih =>
    rw [append_assoc, singleton_append] at h
    obtain ⟨node, hnode, -, hnext, -⟩ := Holds.node_eq init h
    exact .next (ih h) hnode hnext

theorem Reaches.mono {list' : LinkedList} {memory' : Nodes α} (h : Reaches list memory a)
    (hfirst : list'.firstNode = list.firstNode)
    (hnext : ∀ a b, nexts memory a = some b → nexts memory' a = some b) :
    Reaches list' memory' a := by
  induction h with
  | first h => exact .first (hfirst.trans h)
  | @next a b _ _ hnode h ih =>
    have hb := hnext a b (by rw [nexts, hnode, bind_some, h])
    obtain ⟨node, hnode, h⟩ := Option.bind_eq_some_iff.1 hb
    exact .next ih hnode h

/-! ## Changes -/

theorem nexts_update (node : Node α) :
    nexts (update memory a (some node)) = update (nexts memory) a node.next := by
  funext b
  by_cases hb : b = a
  · subst hb
    rw [nexts, update_self, update_self, bind_some]
  · rw [nexts, update_of_ne hb, update_of_ne hb, nexts]

theorem prevs_update (node : Node α) :
    prevs (update memory a (some node)) = update (prevs memory) a node.prev := by
  funext b
  by_cases hb : b = a
  · subst hb
    rw [prevs, update_self, update_self, bind_some]
  · rw [prevs, update_of_ne hb, update_of_ne hb, prevs]

section

variable {node : Node α} (hnode : memory a = some node)
include hnode

theorem update_prevs_self : update (prevs memory) a node.prev = prevs memory := by
  rw [Function.update_eq_self_iff, prevs, hnode, bind_some]

theorem value_update (next prev : Option Address) (b : Address) :
    (update memory a (some { value := node.value, next, prev }) b).map Node.value =
      (memory b).map Node.value := by
  by_cases hb : b = a
  · subst hb
    rw [update_self, hnode, map_some, map_some]
  · rw [update_of_ne hb]

end

theorem Holds.delete (h : Holds list memory entries) (hnot : a ∉ entries.map Prod.fst) :
    Holds list (update memory a none) entries := by
  have hne : ∀ b ∈ entries.map Prod.fst, b ≠ a := fun b hb heq => hnot (heq ▸ hb)
  refine { h with linked := ?_, value := fun e he => ?_ }
  · obtain ⟨p, hlinked⟩ := h.linked
    refine ⟨p, hlinked.congr fun b hb => ⟨?_, ?_⟩⟩
    · rw [prevs, update_of_ne (hne b hb), prevs]
    · rw [nexts, update_of_ne (hne b hb), nexts]
  · rw [update_of_ne (hne e.1 (mem_map_of_mem he))]
    exact h.value e he

theorem Holds.add_eq (h : Holds list memory entries) {fresh : Address} (value : α)
    (hfresh : fresh ∉ entries.map Prod.fst) : ∃ list' memory',
      list.add memory value fresh = some (list', memory') ∧
        Holds list' memory' (entries ++ [(fresh, value)]) := by
  have hnodup : (entries.map Prod.fst ++ [fresh]).Nodup :=
    List.nodup_append.2 ⟨h.nodup, List.nodup_singleton _, fun b hb c hc heq =>
      hfresh (List.mem_singleton.1 hc ▸ heq ▸ hb)⟩
  rcases List.eq_nil_or_concat entries with rfl | ⟨init, ⟨last, w⟩, rfl⟩
  · refine ⟨_, _, by rw [add, h.first]; rfl, ⟨none, ?_, ?_, trivial⟩, hnodup, fun e he => ?_, ?_,
      rfl, fun _ => rfl⟩
    · rw [prevs_update, update_self]
    · rw [nexts_update, update_self]
      rfl
    · cases List.mem_singleton.1 he
      rw [update_self]
      rfl
    · exact congrArg (· + 1) h.size
  · rw [List.concat_eq_append] at *
    obtain ⟨p, hlinked⟩ := h.linked
    obtain ⟨node, hnode, hv, hnext, -⟩ := Holds.node_eq _ h
    have hmap : (init ++ [(last, w)]).map Prod.fst = init.map Prod.fst ++ [last] :=
      map_append ..
    have hlast := h.last (List.append_ne_nil_of_right_ne_nil _ (cons_ne_nil _ _))
    obtain ⟨first, hfirst⟩ : ∃ first, list.firstNode = some first := by
      rw [h.first, hmap]
      exact ⟨_, List.head?_eq_some_head (List.append_ne_nil_of_right_ne_nil _ (cons_ne_nil _ _))⟩
    rw [hmap, getLast?_concat] at hlast
    refine ⟨{ list with size := list.size + 1, lastNode := some fresh },
      update (update memory last (some { node with next := some fresh })) fresh
        (some { value, prev := some last }), ?_, ⟨p, ?_⟩, ?_, fun e he => ?_, ?_, ?_, fun _ => ?_⟩
    · simp only [add, hfirst, hlast, hnode, bind_eq_bind, bind_some]
      rw [show node.next = none from hnext]
    · have hlinked := hlinked.append hnodup
      rw [hmap, getLast?_concat] at hlinked
      rw [prevs_update, prevs_update, update_prevs_self hnode, nexts_update, nexts_update,
        map_append, hmap]
      exact hlinked
    · rw [map_append]
      exact hnodup
    · rcases List.mem_append.1 he with he | he
      · have hne : e.1 ≠ fresh := fun heq => hfresh (heq ▸ mem_map_of_mem he)
        rw [update_of_ne hne, value_update hnode]
        exact h.value e he
      · cases List.mem_singleton.1 he
        rw [update_self]
        rfl
    · rw [List.length_append, ← h.size]
      rfl
    · rw [map_append, List.head?_append, ← h.first, hfirst]
      rfl
    · rw [map_append, List.map_singleton, getLast?_concat]

theorem Holds.removeFirst_eq (h : Holds list memory ((a, v) :: behind)) : ∃ list' memory',
    list.remove memory (some a) = some (list', memory') ∧ Holds list' memory' behind := by
  obtain ⟨p, -, -, hlinked⟩ := h.linked
  obtain ⟨node, hnode, -, hnext, -⟩ := Holds.node_eq [] h
  have hnot : a ∉ behind.map Prod.fst := (List.nodup_cons.1 h.nodup).1
  have hrest : Holds { list with firstNode := node.next, size := list.size - 1 } memory behind :=
    { linked := ⟨some a, hlinked⟩
      nodup := (List.nodup_cons.1 h.nodup).2
      value := fun e he => h.value e (mem_cons_of_mem _ he)
      size := by
        rw [h.size]
        rfl
      first := hnext
      last := fun hne => by
        rw [h.last (cons_ne_nil _ _), List.getLast?_map, List.getLast?_map,
          List.getLast?_cons_of_ne_nil hne] }
  refine ⟨_, _, ?_, hrest.delete hnot⟩
  simp [remove, unlink, hnode, h.first]

theorem Holds.removeInner_eq {b c : Address × α}
    (h : Holds list memory (before ++ b :: (a, v) :: c :: behind)) : ∃ list' memory',
      list.remove memory (some a) = some (list', memory') ∧
        Holds list' memory' (before ++ b :: c :: behind) := by
  obtain ⟨p, hlinked⟩ := h.linked
  obtain ⟨nodeB, hnodeB, -⟩ := Holds.node_eq _ h
  have hsplit : before ++ b :: (a, v) :: c :: behind = (before ++ [b]) ++ (a, v) :: c :: behind := by
    rw [append_assoc, singleton_append]
  have hsplit' : before ++ b :: c :: behind = (before ++ [b]) ++ c :: behind := by
    rw [append_assoc, singleton_append]
  have hsplitC : before ++ b :: (a, v) :: c :: behind = (before ++ [b, (a, v)]) ++ c :: behind := by
    rw [append_assoc, List.cons_append, singleton_append]
  obtain ⟨node, hnode, -, hnext, hprev⟩ := Holds.node_eq (before ++ [b]) (hsplit ▸ h)
  obtain ⟨nodeC, hnodeC, -⟩ := Holds.node_eq (before ++ [b, (a, v)]) (hsplitC ▸ h)
  have hnext : node.next = some c.1 := hnext
  have hprev : node.prev = some b.1 := by
    rw [hprev (List.append_ne_nil_of_right_ne_nil _ (cons_ne_nil _ _)), map_append,
      List.map_singleton, getLast?_concat]
  have hnodup : ((before ++ [b]).map Prod.fst ++ a :: (c :: behind).map Prod.fst).Nodup := by
    have := h.nodup
    rwa [hsplit, map_append, map_cons] at this
  obtain ⟨-, hnodupA, hdisjoint⟩ := List.nodup_append.1 hnodup
  have hb : b.1 ∈ (before ++ [b]).map Prod.fst :=
    mem_map_of_mem (List.mem_append_right _ (List.mem_singleton_self b))
  have hc : c.1 ∈ a :: (c :: behind).map Prod.fst :=
    mem_cons_of_mem _ (mem_map_of_mem mem_cons_self)
  have hbc : c.1 ≠ b.1 := fun heq => hdisjoint b.1 hb c.1 hc heq.symm
  have hnotBefore : a ∉ (before ++ [b]).map Prod.fst := fun ha =>
    hdisjoint a ha a mem_cons_self rfl
  have hnotBehind : a ∉ (c :: behind).map Prod.fst := (List.nodup_cons.1 hnodupA).1
  -- `a` is neither the first node nor the last, so the pointers of its neighbours are written
  have hfirst : some a ≠ list.firstNode := fun heq => by
    rw [h.first, hsplit, map_append, List.head?_append_of_ne_nil _ (by simp)] at heq
    exact hnotBefore (List.mem_of_mem_head? heq.symm)
  have hlast : some a ≠ list.lastNode := fun heq => by
    rw [h.last (by simp), hsplitC, map_append, List.getLast?_append_of_ne_nil _ (by simp)] at heq
    exact hnotBehind (List.mem_of_mem_getLast? heq.symm)
  set memory' := update (update memory b.1 (some { nodeB with next := some c.1 }))
    c.1 (some { nodeC with prev := some b.1 }) with hmemory'
  have hnodeC' : update memory b.1 (some { nodeB with next := some c.1 }) c.1 = some nodeC := by
    rw [update_of_ne hbc, hnodeC]
  have hrest : Holds { list with size := list.size - 1 } memory' (before ++ b :: c :: behind) := by
    refine ⟨⟨p, ?_⟩, ?_, fun e he => ?_, ?_, ?_, fun _ => ?_⟩
    · rw [hsplit, map_append, map_cons] at hlinked
      have hlinked := hlinked.unlink hnodup
      rw [map_append, List.map_singleton, getLast?_concat] at hlinked
      rw [hmemory', prevs_update, prevs_update, update_prevs_self hnodeB, nexts_update,
        nexts_update, hsplit', map_append, map_append]
      have hnextC : nodeC.next = update (nexts memory) b.1 (some c.1) c.1 := by
        rw [update_of_ne hbc, nexts, hnodeC, bind_some]
      rw [hnextC, Function.update_eq_self]
      exact hlinked
    · rw [hsplit', map_append]
      exact hnodup.sublist (List.Sublist.append_left (List.sublist_cons_self _ _) _)
    · rw [hmemory', value_update hnodeC', value_update hnodeB]
      refine h.value e ?_
      rw [hsplit]
      rw [hsplit'] at he
      exact (List.Sublist.append_left (List.sublist_cons_self _ _) _).subset he
    · show list.size - 1 = _
      rw [h.size]
      simp only [List.length_append, length_cons]
      omega
    · show list.firstNode = _
      rw [h.first]
      cases before <;> rfl
    · show list.lastNode = _
      rw [h.last (by simp)]
      simp [List.getLast?_append]
  have hnot : a ∉ (before ++ b :: c :: behind).map Prod.fst := by
    rw [hsplit', map_append, List.mem_append]
    exact fun hmem => hmem.elim hnotBefore hnotBehind
  refine ⟨_, _, ?_, hrest.delete hnot⟩
  simp only [remove, unlink, hnode, hfirst, hlast, if_false, hnext, hprev, hnodeB, hnodeC',
    bind_eq_bind, bind_some]
  rfl

theorem Holds.find_of_mem [DecidableEq α] (h : Holds list memory (before ++ (a, v) :: behind))
    (hv : v ∉ before.map Prod.snd) (hsize : 2 ≤ (before ++ (a, v) :: behind).length) :
    list.find memory v = some (some a) := by
  rw [h.find_eq hsize,
    List.find?_eq_some_iff_append.2 ⟨by simp, before, behind, rfl, fun e he => ?_⟩]
  · rfl
  · have hne : e.2 ≠ v := fun heq => hv (heq ▸ mem_map_of_mem he)
    simp [hne]

theorem Holds.erase_eq [DecidableEq α] {c : Address × α}
    (h : Holds list memory (before ++ (a, v) :: c :: behind)) (hv : v ∉ before.map Prod.snd) :
    ∃ list' memory', list.erase memory v = some (list', memory') ∧
      Holds list' memory' (before ++ c :: behind) := by
  rw [erase, h.find_of_mem hv (by simp only [List.length_append, length_cons]; omega)]
  rcases List.eq_nil_or_concat before with rfl | ⟨init, b, rfl⟩
  · exact h.removeFirst_eq
  · rw [List.concat_eq_append, append_assoc, singleton_append] at h ⊢
    exact h.removeInner_eq

theorem Holds.erase_single [DecidableEq α] (h : Holds list memory [(a, v)]) (w : α) :
    list.erase memory w = some (list, memory) := by
  rw [erase, find, if_neg (by rw [h.size, List.length_singleton]; decide)]
  rfl

theorem Holds.erase_last [DecidableEq α] {b : Address × α}
    (h : Holds list memory (before ++ b :: [(a, v)])) (hv : v ∉ (before ++ [b]).map Prod.snd) :
    ∃ list' memory', list.erase memory v = some (list', memory') ∧
      Reaches list' memory' a ∧ memory' a = none := by
  have hsplit : before ++ b :: [(a, v)] = (before ++ [b]) ++ [(a, v)] := by
    rw [append_assoc, singleton_append]
  rw [hsplit] at h
  obtain ⟨node, hnode, -, hnext, -⟩ := Holds.node_eq (before ++ [b]) h
  have hreach : Reaches list memory a := h.reaches_of_append
  have hnot : a ∉ (before ++ [b]).map Prod.fst := fun hmem =>
    (List.nodup_append.1 (by simpa using h.nodup)).2.2 a hmem a (List.mem_singleton_self a) rfl
  have hfirst : some a ≠ list.firstNode := fun heq => by
    rw [h.first, map_append, List.head?_append_of_ne_nil _ (by simp)] at heq
    exact hnot (List.mem_of_mem_head? heq.symm)
  have hlast : some a = list.lastNode := by
    rw [h.last (by simp), map_append, List.map_singleton, getLast?_concat]
  refine ⟨{ list with lastNode := node.prev, size := list.size - 1 },
    update memory a none, ?_, ?_, update_self ..⟩
  · rw [erase, h.find_of_mem hv (by simp only [List.length_append, length_cons]; omega)]
    simp only [remove, unlink, hnode, hfirst, ← hlast, if_false, if_true, bind_eq_bind,
      bind_some]
  · refine hreach.mono rfl fun x y hxy => ?_
    have hx : x ≠ a := by
      rintro rfl
      rw [nexts, hnode, bind_some, hnext] at hxy
      cases hxy
    rw [nexts, update_of_ne hx]
    exact hxy

end LinkedList

end MeetixOS.Kernel
