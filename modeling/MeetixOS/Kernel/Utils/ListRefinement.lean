import MeetixOS.Lib.Runs
import MeetixOS.Kernel.Utils.LinkedList

/-! # The linked list as a sequence

`Api/utils/llist.hpp` as a whole: with `addFront`, the iterators, `clear` and the position that `get`
remembers. Most calls that take out a node leave a pointer to it behind, and `addFront` makes a ring of a
list that is not empty. `Clean` says which calls do not, and which calls of `get` start from a right
position. -/

open Function (update update_of_ne)
open Option (bind_eq_bind bind_eq_some_iff bind_some map_some)
open List (getElem?_eq_getElem map_cons mem_map_of_mem)

namespace MeetixOS.Kernel

open MeetixOS.Lib

variable {α : Type}

namespace LinkedList

/-! ## More operations -/

def addFront (list : LinkedList) (memory : Nodes α) (value : α) (fresh : Address) :
    Option (LinkedList × Nodes α) :=
  match list.firstNode with
  | none =>
    some ({ size := list.size + 1, firstNode := some fresh, lastNode := some fresh },
      update memory fresh (some { value }))
  | some first => do
      let memory := update memory fresh
        (some { value, next := some first, prev := list.lastNode })
      let front ← memory first
      let memory := update memory first (some { front with prev := some fresh })
      let last ← list.lastNode
      let back ← memory last
      let memory := update memory last (some { back with next := some fresh })
      some ({ list with size := list.size + 1, firstNode := some fresh }, memory)

def popFront (list : LinkedList) (memory : Nodes α) : Option (LinkedList × Nodes α) :=
  list.remove memory list.firstNode

def popBack (list : LinkedList) (memory : Nodes α) : Option (LinkedList × Nodes α) :=
  list.remove memory list.lastNode

/-- `llist::iterator`; equal iterators have the same current node. -/
structure Iterator where
  current : Option Address := none
  index : Nat := 0

def begin (list : LinkedList) : Iterator := { current := list.firstNode }

def rbegin (list : LinkedList) : Iterator :=
  match list.lastNode with
  | some last => { current := some last, index := list.size }
  | none => {}

/-- `operator++`. -/
def forward (list : LinkedList) (memory : Nodes α) (it : Iterator) : Option Iterator := do
  let node ← memory (← it.current)
  if node.next.isSome ∧ it.index < list.size then
    some { current := node.next, index := it.index + 1 }
  else some { it with current := none }

/-- `operator--`. -/
def backward (memory : Nodes α) (it : Iterator) : Option Iterator := do
  let node ← memory (← it.current)
  if node.prev.isSome ∧ it.index > 0 then some { current := node.prev, index := it.index - 1 }
  else some { it with current := none }

/-- A loop comes by these values until its iterator is equal to `end()`, without reading a node that was
deleted. -/
inductive Visits (memory : Nodes α) (advance : Iterator → Option Iterator) :
    Iterator → List α → Prop
  | done {it : Iterator} (hcurrent : it.current = none) : Visits memory advance it []
  | step {it it' : Iterator} {a : Address} {node : Node α} {values : List α}
      (hcurrent : it.current = some a) (hnode : memory a = some node) (hadvance : advance it = some it')
      (h : Visits memory advance it' values) : Visits memory advance it (node.value :: values)

theorem Visits.uncons {memory : Nodes α} {advance : Iterator → Option Iterator} {it : Iterator}
    {values : List α} (h : Visits memory advance it values) :
    (it.current = none ∧ values = []) ∨
      ∃ it' a node rest, it.current = some a ∧ memory a = some node ∧ advance it = some it' ∧
        values = node.value :: rest ∧ Visits memory advance it' rest := by
  cases h with
  | done hcurrent => exact .inl ⟨hcurrent, rfl⟩
  | step hcurrent hnode hadvance h => exact .inr ⟨_, _, _, _, hcurrent, hnode, hadvance, rfl, h⟩

/-- The loop of `clear` ends, from the node `current` on, and leaves this memory behind. -/
inductive Cleared : Nodes α → Option Address → Nodes α → Prop
  | done (memory : Nodes α) : Cleared memory none memory
  | step {memory memory' : Nodes α} {current : Address} {node : Node α}
      (hnode : memory current = some node)
      (h : Cleared (update memory current none) node.next memory') :
      Cleared memory (some current) memory'

end LinkedList

/-- `llist` with the position that `get` remembers, in the memory of its nodes. -/
structure CachedList (α : Type) where
  list : LinkedList
  memory : Nodes α
  currentNode : Option Address := none
  lastIndex : Nat := 0

/-- The calls that a run is made of; `fresh` is what `new` returns, `it` the current node of an
iterator. -/
inductive ListCall (α : Type)
  | add (value : α) (fresh : Address)
  | addFront (value : α) (fresh : Address)
  | popFront
  | popBack
  | eraseValue (value : α)
  | erase (it : Option Address)
  | get (position : Nat)

namespace CachedList

open LinkedList

/-- The loop of `get`, of `steps` rounds. -/
def seek (memory : Nodes α) (reverse : Bool) : (steps : Nat) → Option Address → Option (Option Address)
  | 0, current => some current
  | steps + 1, none => seek memory reverse steps none
  | steps + 1, some current => do
      let node ← memory current
      if !reverse && node.next.isSome then seek memory reverse steps node.next
      else if node.prev.isSome then seek memory reverse steps node.prev
      else seek memory reverse steps (some current)

/-- `get`; the value is `none` where `Type_t()` is returned. -/
def get (s : CachedList α) (position : Nat) : Option (CachedList α × Option α) :=
  if position = 0 ∧ s.list.firstNode.isSome then do
    let node ← s.memory (← s.list.firstNode)
    some ({ s with currentNode := s.list.firstNode }, some node.value)
  else if position < s.list.size then do
    let start := if position > s.lastIndex then s.lastIndex else position
    let stop := if position > s.lastIndex then position else s.lastIndex
    let reverse := if position > s.lastIndex then false else true
    let current ← seek s.memory reverse (stop - start) s.currentNode
    let node ← s.memory (← current)
    some ({ s with currentNode := current, lastIndex := position }, some node.value)
  else some (s, none)

/-- The list after a change of its nodes. -/
def changed (s : CachedList α) (r : LinkedList × Nodes α) : CachedList α × Option α :=
  ({ s with list := r.1, memory := r.2 }, none)

/-- A call, with the value that it returns. -/
def call [DecidableEq α] (s : CachedList α) : ListCall α → Option (CachedList α × Option α)
  | .add value fresh => (s.list.add s.memory value fresh).map s.changed
  | .addFront value fresh => (s.list.addFront s.memory value fresh).map s.changed
  | .popFront => (s.list.popFront s.memory).map s.changed
  | .popBack => (s.list.popBack s.memory).map s.changed
  | .eraseValue value => (s.list.erase s.memory value).map s.changed
  | .erase it => (s.list.remove s.memory it).map s.changed
  | .get position => s.get position

/-! ## Sequences -/

/-- What a call makes of the sequence. -/
def specCall [DecidableEq α] (entries : List (Address × α)) : ListCall α → List (Address × α)
  | .add value fresh => entries ++ [(fresh, value)]
  | .addFront value fresh => (fresh, value) :: entries
  | .popFront => entries.tail
  | .popBack => entries.dropLast
  | .eraseValue value => entries.eraseP fun e => e.2 = value
  | .erase it => entries.eraseP fun e => some e.1 = it
  | .get _ => entries

/-- What a call returns. -/
def specAnswer (entries : List (Address × α)) : ListCall α → Option α
  | .get position => (entries[position]?).map Prod.snd
  | _ => none

/-- The list is the sequence, in both directions; `count()` is its length, and `clear` deletes its
nodes. -/
structure Represents (s : CachedList α) (entries : List (Address × α)) : Prop where
  forward : Visits s.memory (s.list.forward s.memory) s.list.begin (entries.map Prod.snd)
  backward : Visits s.memory (LinkedList.backward s.memory) s.list.rbegin
    (entries.map Prod.snd).reverse
  count : s.list.size = entries.length
  clear : ∃ memory', Cleared s.memory s.list.firstNode memory' ∧ ∀ e ∈ entries, memory' e.1 = none

/-- The calls leave no pointer to a deleted node and start from no wrong position: a node goes to the
front of an empty list only, only inner nodes are taken out, and `get` looks for the first node, or from
a right remembered position. What `new` returns is not in use. -/
def Clean (s : CachedList α) (entries : List (Address × α)) : ListCall α → Prop
  | .add _ fresh => s.memory fresh = none
  | .addFront _ fresh => s.memory fresh = none ∧ entries = []
  | .popFront => entries = []
  | .popBack => entries = []
  | .eraseValue value => ∀ before e behind, entries = before ++ e :: behind → e.2 = value →
      value ∉ before.map Prod.snd → before ≠ [] ∧ behind ≠ []
  | .erase it => ∀ a, it = some a → ∃ before v behind, entries = before ++ (a, v) :: behind ∧
      before ≠ [] ∧ behind ≠ []
  | .get position => position = 0 ∨ entries.length ≤ position ∨
      ∃ e, entries[s.lastIndex]? = some e ∧ s.currentNode = some e.1

/-- The invariant: the list is linked over the nodes of the sequence, and nothing lies before its first
node. -/
structure Whole (s : CachedList α) (entries : List (Address × α)) : Prop where
  holds : Holds s.list s.memory entries
  head : ∀ e, entries.head? = some e → prevs s.memory e.1 = none
  last : entries = [] → s.list.lastNode = none

variable {s : CachedList α} {entries before behind : List (Address × α)} {e : Address × α}

theorem Whole.node_at (h : s.Whole entries) {i : Nat} (he : entries[i]? = some e) :
    ∃ node, s.memory e.1 = some node ∧ node.value = e.2 ∧
      node.next = (entries[i + 1]?).map Prod.fst ∧
      node.prev = if i = 0 then none else (entries[i - 1]?).map Prod.fst := by
  obtain ⟨hi, rfl⟩ := List.getElem?_eq_some_iff.1 he
  have hsplit : entries = entries.take i ++ entries[i] :: entries.drop (i + 1) := by
    rw [← List.drop_eq_getElem_cons hi, List.take_append_drop]
  obtain ⟨node, hnode, hvalue, hnext, hprev⟩ := Holds.node_eq (a := entries[i].1)
    (entries.take i) (hsplit ▸ h.holds)
  refine ⟨node, hnode, hvalue, ?_, ?_⟩
  · rw [hnext, List.head?_map, List.head?_drop]
  · split
    next hzero =>
      subst hzero
      have hhead := h.head entries[0] (by rw [List.head?_eq_getElem?, he])
      rwa [prevs, hnode, bind_some] at hhead
    next hpos =>
      have hne : entries.take i ≠ [] := List.ne_nil_of_length_pos (by rw [List.length_take]; omega)
      rw [hprev hne, List.getLast?_map, List.getLast?_take, if_neg hpos, getElem?_eq_getElem (by omega)]
      rfl

/-! ## Traversals -/

theorem Whole.visits_forward (h : s.Whole entries) (i : Nat) :
    Visits s.memory (s.list.forward s.memory) ⟨(entries[i]?).map Prod.fst, i⟩
      ((entries.drop i).map Prod.snd) := by
  induction hn : entries.length - i generalizing i with
  | zero =>
    rw [List.getElem?_eq_none (by omega), List.drop_eq_nil_of_le (by omega)]
    exact .done rfl
  | succ n ih =>
    have hi : i < entries.length := by omega
    obtain ⟨node, hnode, hvalue, hnext, -⟩ := h.node_at (getElem?_eq_getElem hi)
    rw [List.drop_eq_getElem_cons hi, map_cons, ← hvalue, getElem?_eq_getElem hi]
    by_cases hlast : i + 1 < entries.length
    · have hrest := ih (i + 1) (by omega)
      refine .step rfl hnode ?_ hrest
      simp only [LinkedList.forward, map_some, bind_eq_bind, bind_some, hnode, hnext,
        getElem?_eq_getElem hlast, Option.isSome_some, true_and]
      rw [if_pos (by rw [h.holds.size]; exact hi)]
    · rw [List.drop_eq_nil_of_le (by omega)]
      refine .step rfl hnode (?_ : _ = some (⟨none, i⟩ : LinkedList.Iterator)) (.done rfl)
      simp [LinkedList.forward, hnode, hnext, List.getElem?_eq_none (Nat.le_of_not_lt hlast)]

theorem Whole.visits_backward (h : s.Whole entries) {i k : Nat} (he : entries[i]? = some e)
    (hk : i < k) : Visits s.memory (LinkedList.backward s.memory) ⟨some e.1, k⟩
      ((entries.take (i + 1)).map Prod.snd).reverse := by
  induction i generalizing e k with
  | zero =>
    obtain ⟨node, hnode, hvalue, -, hprev⟩ := h.node_at he
    rw [List.take_add_one, he, List.take_zero]
    simp only [List.nil_append, Option.toList_some, map_cons, List.map_nil, List.reverse_singleton,
      ← hvalue]
    refine .step rfl hnode (?_ : _ = some (⟨none, k⟩ : LinkedList.Iterator)) (.done rfl)
    simp [LinkedList.backward, hnode, hprev]
  | succ i ih =>
    obtain ⟨hlt, -⟩ := List.getElem?_eq_some_iff.1 he
    obtain ⟨node, hnode, hvalue, -, hprev⟩ := h.node_at he
    have hbefore : entries[i]? = some entries[i] := getElem?_eq_getElem (by omega)
    rw [if_neg (Nat.succ_ne_zero i), Nat.add_sub_cancel, hbefore, map_some] at hprev
    rw [List.take_add_one, he]
    simp only [Option.toList_some, List.map_append, map_cons, List.map_nil, List.reverse_append,
      List.reverse_singleton, List.singleton_append, ← hvalue]
    refine .step rfl hnode (?_ : _ = some (⟨some entries[i].1, k - 1⟩ : LinkedList.Iterator))
      (ih hbefore (by omega))
    have hpos : 0 < k := by omega
    simp [LinkedList.backward, hnode, hprev, hpos]

theorem cleared_of_segment {memory : Nodes α} {p : Option Address}
    (hlinked : Segment (prevs memory) (nexts memory) p (entries.map Prod.fst) none)
    (hnodup : (entries.map Prod.fst).Nodup)
    (hthere : ∀ e ∈ entries, (memory e.1).map Node.value = some e.2) :
    ∃ memory', Cleared memory (entries.map Prod.fst).head? memory' ∧
      (∀ e ∈ entries, memory' e.1 = none) ∧ ∀ a, a ∉ entries.map Prod.fst → memory' a = memory a := by
  induction entries generalizing memory p with
  | nil => exact ⟨memory, .done memory, fun e he => absurd he List.not_mem_nil, fun _ _ => rfl⟩
  | cons e rest ih =>
    obtain ⟨hnot, hrest⟩ := List.nodup_cons.1 hnodup
    obtain ⟨-, hnext, hlinked⟩ := hlinked
    obtain ⟨node, hnode, -⟩ := Option.map_eq_some_iff.1 (hthere e List.mem_cons_self)
    rw [nexts, hnode, Option.or_none, bind_some] at hnext
    have hne : ∀ b ∈ rest.map Prod.fst, b ≠ e.1 := fun b hb heq => hnot (heq ▸ hb)
    have hlinked' : Segment (prevs (update memory e.1 none))
        (nexts (update memory e.1 none)) (some e.1) (rest.map Prod.fst) none := by
      refine hlinked.congr fun b hb => ⟨?_, ?_⟩
      · rw [prevs, update_of_ne (hne b hb), prevs]
      · rw [nexts, update_of_ne (hne b hb), nexts]
    have hthere' : ∀ e' ∈ rest,
        (update memory e.1 none e'.1).map Node.value = some e'.2 := by
      intro e' he'
      rw [update_of_ne (hne e'.1 (mem_map_of_mem he'))]
      exact hthere e' (List.mem_cons_of_mem _ he')
    obtain ⟨memory', hcleared, hdeleted, hsame⟩ := ih hlinked' hrest hthere'
    refine ⟨memory', .step hnode (hnext ▸ hcleared), fun d hd => ?_, fun a ha => ?_⟩
    · rcases List.mem_cons.1 hd with rfl | hd
      · rw [hsame _ hnot, Function.update_self]
      · exact hdeleted d hd
    · rw [map_cons, List.mem_cons, not_or] at ha
      rw [hsame a ha.2, update_of_ne ha.1]

theorem Whole.represents (h : s.Whole entries) : s.Represents entries where
  forward := by
    have hvisits := h.visits_forward 0
    rw [List.drop_zero, ← List.head?_eq_getElem?, ← List.head?_map, ← h.holds.first] at hvisits
    exact hvisits
  backward := by
    rw [rbegin]
    cases hlast : entries.getLast? with
    | none =>
      rw [List.getLast?_eq_none_iff] at hlast
      subst hlast
      rw [h.last rfl]
      exact .done rfl
    | some e =>
      have hne : entries ≠ [] := fun hnil => by rw [hnil] at hlast; cases hlast
      have hpos := List.length_pos_iff.2 hne
      rw [h.holds.last hne, List.getLast?_map, hlast, map_some, h.holds.size]
      rw [List.getLast?_eq_getElem?] at hlast
      have hvisits := h.visits_backward hlast (k := entries.length) (by omega)
      rwa [Nat.sub_add_cancel hpos, List.take_length] at hvisits
  count := h.holds.size
  clear := by
    obtain ⟨p, hlinked⟩ := h.holds.linked
    obtain ⟨memory', hcleared, hdeleted, -⟩ :=
      cleared_of_segment hlinked h.holds.nodup h.holds.value
    exact ⟨memory', h.holds.first ▸ hcleared, hdeleted⟩

/-! ## Calls -/

section

variable (h : s.Whole entries)
include h

theorem Whole.seek_forward {k n : Nat} (hkn : k + n < entries.length) :
    seek s.memory false n ((entries[k]?).map Prod.fst) =
      some ((entries[k + n]?).map Prod.fst) := by
  induction n generalizing k with
  | zero => rfl
  | succ n ih =>
    have hk : k < entries.length := by omega
    obtain ⟨node, hnode, -, hnext, -⟩ := h.node_at (getElem?_eq_getElem hk)
    have hnextSome : node.next.isSome := by
      rw [hnext, getElem?_eq_getElem (by omega)]
      rfl
    rw [getElem?_eq_getElem hk, map_some, seek, hnode, bind_eq_bind,
      bind_some, if_pos (by rw [hnextSome]; rfl), hnext, ih (by omega), Nat.add_right_comm]
    rfl

theorem Whole.seek_backward {k n : Nat} (hn : n ≤ k) (hk : k < entries.length) :
    seek s.memory true n ((entries[k]?).map Prod.fst) =
      some ((entries[k - n]?).map Prod.fst) := by
  induction n generalizing k with
  | zero => rfl
  | succ n ih =>
    obtain ⟨node, hnode, -, -, hprev⟩ := h.node_at (getElem?_eq_getElem hk)
    rw [if_neg (by omega)] at hprev
    have hprevSome : node.prev.isSome := by
      rw [hprev, getElem?_eq_getElem (by omega)]
      rfl
    rw [getElem?_eq_getElem hk, map_some, seek, hnode, bind_eq_bind,
      bind_some, if_neg (by simp), if_pos hprevSome, hprev, ih (by omega) (by omega),
      Nat.sub_sub, Nat.add_comm 1]

theorem Whole.get {position : Nat} (hclean : s.Clean entries (.get position)) :
    ∃ s', s.get position = some (s', (entries[position]?).map Prod.snd) ∧ s'.Whole entries := by
  have hfirst : s.list.firstNode = (entries[0]?).map Prod.fst := by
    rw [h.holds.first, List.head?_map, List.head?_eq_getElem?]
  rw [CachedList.get]
  split
  next hzero =>
    obtain ⟨rfl, hsome⟩ := hzero
    rw [hfirst, Option.isSome_map] at hsome
    obtain ⟨e, he⟩ := Option.isSome_iff_exists.1 hsome
    obtain ⟨node, hnode, hvalue, -⟩ := h.node_at he
    refine ⟨{ s with currentNode := some e.1 }, ?_, ⟨h.holds, h.head, h.last⟩⟩
    rw [hfirst, he]
    simp [hnode, hvalue]
  next hzero =>
    split
    next hlt =>
      rw [h.holds.size] at hlt
      have hpos : position ≠ 0 := by
        rintro rfl
        exact hzero ⟨rfl, by rw [hfirst, getElem?_eq_getElem hlt]; rfl⟩
      obtain ⟨e, hremembered, hcurrent⟩ :=
        (hclean.resolve_left hpos).resolve_left (Nat.not_le.2 hlt)
      obtain ⟨hlast, -⟩ := List.getElem?_eq_some_iff.1 hremembered
      have hcurrent : s.currentNode = (entries[s.lastIndex]?).map Prod.fst := by
        rw [hcurrent, hremembered]
        rfl
      -- the node that is looked for is found from the one that is remembered, in either direction
      have hseek : seek s.memory (if position > s.lastIndex then false else true)
          ((if position > s.lastIndex then position else s.lastIndex) -
            if position > s.lastIndex then s.lastIndex else position) s.currentNode =
            some ((entries[position]?).map Prod.fst) := by
        rw [hcurrent]
        split
        next hgt =>
          rw [h.seek_forward (by omega), Nat.add_sub_cancel' (Nat.le_of_lt hgt)]
        next hle =>
          rw [h.seek_backward (Nat.sub_le _ _) hlast, Nat.sub_sub_self (Nat.le_of_not_lt hle)]
      have hthere := getElem?_eq_getElem hlt
      obtain ⟨node, hnode, hvalue, -⟩ := h.node_at hthere
      refine ⟨{ s with currentNode := some entries[position].1, lastIndex := position }, ?_,
        ⟨h.holds, h.head, h.last⟩⟩
      dsimp only
      rw [hseek, hthere]
      simp [hnode, hvalue]
    next hge =>
      rw [h.holds.size] at hge
      refine ⟨s, ?_, h⟩
      rw [List.getElem?_eq_none (Nat.le_of_not_lt hge)]
      rfl

theorem Whole.not_mem_of_none {fresh : Address} (hfresh : s.memory fresh = none) :
    fresh ∉ entries.map Prod.fst := by
  intro hmem
  obtain ⟨e, he, rfl⟩ := List.mem_map.1 hmem
  have hvalue := h.holds.value e he
  rw [hfresh] at hvalue
  cases hvalue

end

theorem prevs_add {list list' : LinkedList} {memory memory' : Nodes α} {value : α} {fresh : Address}
    (hadd : list.add memory value fresh = some (list', memory')) :
    (list.firstNode = none → prevs memory' fresh = none) ∧
      ∀ a, a ≠ fresh → prevs memory' a = prevs memory a := by
  rw [LinkedList.add] at hadd
  split at hadd
  next =>
    cases hadd
    refine ⟨fun _ => by rw [prevs_update, Function.update_self], fun a ha => ?_⟩
    rw [prevs_update, update_of_ne ha]
  next first hfirst =>
    obtain ⟨last, -, hadd⟩ := bind_eq_some_iff.1 hadd
    obtain ⟨node, hnode, hadd⟩ := bind_eq_some_iff.1 hadd
    refine ⟨fun hnone => absurd (hfirst.symm.trans hnone) (by simp), fun a ha => ?_⟩
    split at hadd
    next =>
      cases hadd
      rfl
    next =>
      cases hadd
      rw [prevs_update, update_of_ne ha, prevs_update, update_prevs_self hnode]

theorem Whole.add (h : s.Whole entries) (value : α) {fresh : Address} (hfresh : s.memory fresh = none) :
    ∃ r, s.list.add s.memory value fresh = some r ∧
      (s.changed r).1.Whole (entries ++ [(fresh, value)]) := by
  have hnot := h.not_mem_of_none hfresh
  obtain ⟨list', memory', hadd, hholds⟩ := h.holds.add_eq value hnot
  obtain ⟨hnew, hold⟩ := prevs_add hadd
  refine ⟨_, hadd, hholds, fun e he => ?_, fun hnil => ?_⟩
  · cases entries with
    | nil =>
      cases he
      exact hnew h.holds.first
    | cons e' rest =>
      cases he
      have hne : e.1 ≠ fresh := fun heq => hnot (heq ▸ mem_map_of_mem List.mem_cons_self)
      exact (hold e.1 hne).trans (h.head e rfl)
  · exact absurd hnil (by simp)

theorem prevs_remove {list list' : LinkedList} {memory memory' : Nodes α} {a x : Address} {node : Node α}
    (hnode : memory a = some node) (hremove : list.remove memory (some a) = some (list', memory'))
    (hx : x ≠ a) (hnext : node.next ≠ some x) : prevs memory' x = prevs memory x := by
  rw [LinkedList.remove, hnode, bind_eq_bind, bind_some] at hremove
  obtain ⟨⟨list1, memory1⟩, hunlink, hremove⟩ := bind_eq_some_iff.1 hremove
  cases hremove
  have hdelete : prevs (update memory1 a none) x = prevs memory1 x := by
    rw [prevs, update_of_ne hx, prevs]
  rw [hdelete]
  rw [unlink] at hunlink
  split at hunlink
  next =>
    cases hunlink
    rfl
  next =>
    split at hunlink
    next =>
      cases hunlink
      rfl
    next =>
      obtain ⟨prev, -, hunlink⟩ := bind_eq_some_iff.1 hunlink
      obtain ⟨next, hnextSome, hunlink⟩ := bind_eq_some_iff.1 hunlink
      obtain ⟨front, hfront, hunlink⟩ := bind_eq_some_iff.1 hunlink
      obtain ⟨back, -, hunlink⟩ := bind_eq_some_iff.1 hunlink
      cases hunlink
      have hne : x ≠ next := fun heq => hnext (heq ▸ hnextSome)
      rw [prevs_update, update_of_ne hne, prevs_update, update_prevs_self hfront]

theorem Whole.remove {a : Address} {v : α} (h : s.Whole (before ++ (a, v) :: behind))
    (hbefore : before ≠ []) (hbehind : behind ≠ []) :
    ∃ r, s.list.remove s.memory (some a) = some r ∧
      (s.changed r).1.Whole (before ++ behind) := by
  obtain ⟨init, b, rfl⟩ := (List.eq_nil_or_concat' before).resolve_left hbefore
  obtain ⟨c, rest, rfl⟩ := List.exists_cons_of_ne_nil hbehind
  have hholds := h.holds
  rw [List.append_assoc, List.singleton_append] at hholds
  obtain ⟨list', memory', hremove, hholds'⟩ := hholds.removeInner_eq
  obtain ⟨node, hnode, -, hnext, -⟩ := Holds.node_eq _ h.holds
  refine ⟨_, hremove, ?_, fun e he => ?_, fun hnil => absurd hnil (by simp)⟩
  · rw [List.append_assoc, List.singleton_append]
    exact hholds'
  · rw [List.head?_append_of_ne_nil _ (by simp)] at he
    have hmem : e ∈ init ++ [b] := List.mem_of_mem_head? he
    have hnodup := h.holds.nodup
    rw [List.map_append, List.nodup_append] at hnodup
    have hapart : ∀ d ∈ (a, v) :: c :: rest, e.1 ≠ d.1 := fun d hd =>
      hnodup.2.2 e.1 (mem_map_of_mem hmem) d.1 (mem_map_of_mem hd)
    have hc : node.next ≠ some e.1 := by
      rw [hnext]
      intro heq
      exact hapart c (by simp) (Option.some.inj heq).symm
    have hsame := prevs_remove hnode hremove (hapart (a, v) (by simp)) hc
    exact hsame.trans (h.head e (by rw [List.head?_append_of_ne_nil _ (by simp), he]))

theorem Whole.eraseValue [DecidableEq α] (h : s.Whole entries) {value : α}
    (hclean : s.Clean entries (.eraseValue value)) :
    ∃ r, s.list.erase s.memory value = some r ∧
      (s.changed r).1.Whole (entries.eraseP fun e => e.2 = value) := by
  have hfind : s.list.find s.memory value =
      some ((entries.find? fun e => e.2 = value).map Prod.fst) := by
    by_cases hsize : 2 ≤ entries.length
    · exact h.holds.find_eq hsize value
    · -- in a list of one node nothing is looked for; its value is another one
      rw [LinkedList.find, if_neg (h.holds.size ▸ hsize)]
      cases entries with
      | nil => rfl
      | cons e rest =>
        obtain rfl : rest = [] := List.length_eq_zero_iff.1 (by
          rw [List.length_cons] at hsize
          omega)
        have hne : e.2 ≠ value := fun heq =>
          (hclean [] e [] rfl heq List.not_mem_nil).1 rfl
        simp [hne]
  rw [LinkedList.erase, hfind, bind_eq_bind, bind_some]
  cases he : entries.find? fun e => e.2 = value with
  | none =>
    have hnone := List.eraseP_of_forall_not fun e hmem => List.find?_eq_none.1 he e hmem
    refine ⟨_, rfl, ?_⟩
    rw [hnone]
    exact ⟨h.holds, h.head, h.last⟩
  | some e =>
    obtain ⟨hvalue, before, behind, rfl, hbefore⟩ := List.find?_eq_some_iff_append.1 he
    have hvalue : e.2 = value := by simpa using hvalue
    have hnot : value ∉ before.map Prod.snd := by
      intro hmem
      obtain ⟨d, hd, hdvalue⟩ := List.mem_map.1 hmem
      have hother := hbefore d hd
      simp [hdvalue] at hother
    obtain ⟨hb, ha⟩ := hclean before e behind rfl hvalue hnot
    rw [List.eraseP_append_right _ (by simpa using hbefore),
      List.eraseP_cons_of_pos (by simpa using hvalue)]
    exact h.remove hb ha

theorem Whole.eraseAt (h : s.Whole entries) {it : Option Address}
    (hclean : s.Clean entries (.erase it)) :
    ∃ r, s.list.remove s.memory it = some r ∧
      (s.changed r).1.Whole (entries.eraseP fun e => some e.1 = it) := by
  cases it with
  | none =>
    refine ⟨_, rfl, ?_⟩
    rw [List.eraseP_of_forall_not (by simp)]
    exact ⟨h.holds, h.head, h.last⟩
  | some a =>
    obtain ⟨before, v, behind, rfl, hbefore, hbehind⟩ := hclean a rfl
    have hnot : ∀ e ∈ before, e.1 ≠ a := by
      intro e he heq
      have hnodup := h.holds.nodup
      rw [List.map_append, List.nodup_append] at hnodup
      exact hnodup.2.2 e.1 (mem_map_of_mem he) a (by simp) heq
    rw [List.eraseP_append_right _ (by simpa using hnot), List.eraseP_cons_of_pos (by simp)]
    exact h.remove hbefore hbehind

variable [DecidableEq α]

theorem Whole.call (h : s.Whole entries) {c : ListCall α} (hclean : s.Clean entries c) :
    ∃ s', s.call c = some (s', specAnswer entries c) ∧ s'.Whole (specCall entries c) := by
  have hchange : ∀ {result : Option (LinkedList × Nodes α)} {entries' : List (Address × α)},
      (∃ r, result = some r ∧ (s.changed r).1.Whole entries') →
        ∃ s', result.map s.changed = some (s', none) ∧ s'.Whole entries' := by
    rintro result entries' ⟨r, rfl, hwhole⟩
    exact ⟨_, rfl, hwhole⟩
  cases c with
  | add value fresh => exact hchange (h.add value hclean)
  | addFront value fresh =>
    obtain ⟨hfresh, rfl⟩ := hclean
    have hadd : s.list.addFront s.memory value fresh = s.list.add s.memory value fresh := by
      rw [addFront, LinkedList.add, h.holds.first]
      rfl
    exact hchange (hadd ▸ h.add value hfresh)
  | popFront =>
    cases hclean
    have hpop : s.list.popFront s.memory = some (s.list, s.memory) := by
      rw [popFront, h.holds.first]
      rfl
    exact hchange ⟨_, hpop, h.holds, h.head, h.last⟩
  | popBack =>
    cases hclean
    have hpop : s.list.popBack s.memory = some (s.list, s.memory) := by
      rw [popBack, h.last rfl]
      rfl
    exact hchange ⟨_, hpop, h.holds, h.head, h.last⟩
  | eraseValue value => exact hchange (h.eraseValue hclean)
  | erase it => exact hchange (h.eraseAt hclean)
  | get position => exact h.get hclean

/-! ## Runs -/

/-- A list and its sequence; a list starts empty, in any memory. -/
def listCalls : System (CachedList α × List (Address × α)) (ListCall α) where
  init s := s.1.list = {} ∧ s.1.currentNode = none ∧ s.1.lastIndex = 0 ∧ s.2 = []
  step s c := (s.1.call c).map fun r => (r.1, specCall s.2 c)

theorem reachable_whole {s : CachedList α × List (Address × α)}
    (h : listCalls.Reachable (fun s c => s.1.Clean s.2 c) s) : s.1.Whole s.2 := by
  refine h.invariant (I := fun s => s.1.Whole s.2) ?_ ?_
  · rintro ⟨s, entries⟩ ⟨hlist, -, -, rfl⟩
    refine ⟨?_, fun e he => (by cases he), fun _ => ?_⟩
    · rw [show s.list = {} from hlist]
      exact holds_nil
    · rw [show s.list = {} from hlist]
  · rintro ⟨s, entries⟩ c s' hwhole hclean hstep
    obtain ⟨s1, hcall, hwhole'⟩ := Whole.call hwhole hclean
    have hnext : listCalls.step (s, entries) c = some (s1, specCall entries c) := by
      show (s.call c).map _ = _
      rw [hcall]
      rfl
    cases hnext.symm.trans hstep
    exact hwhole'

/-- In every run of clean calls the list is the sequence and answers as it does; no deleted node is
met. -/
theorem clean_runs_refine {s : CachedList α × List (Address × α)}
    (h : listCalls.Reachable (fun s c => s.1.Clean s.2 c) s) :
    s.1.Represents s.2 ∧ ∀ c, s.1.Clean s.2 c → ∃ s', s.1.call c = some (s', specAnswer s.2 c) ∧
      s'.Represents (specCall s.2 c) := by
  have hwhole := reachable_whole h
  refine ⟨hwhole.represents, fun c hclean => ?_⟩
  obtain ⟨s', hcall, hwhole'⟩ := hwhole.call hclean
  exact ⟨s', hcall, hwhole'.represents⟩

/-- A list before its first call. -/
def created : CachedList Nat where
  list := {}
  memory _ := none

theorem clean_run_of_three : ∃ s : CachedList Nat, s.Represents [(0, 10), (2, 30)] := by
  have hstart : listCalls.Reachable (fun s c => s.1.Clean s.2 c) (created, []) :=
    .init ⟨rfl, rfl, rfl, rfl⟩
  have hadd := hstart.step (a := ListCall.add 10 0) rfl rfl
  have hadd := hadd.step (a := ListCall.add 20 1) rfl rfl
  have hadd := hadd.step (a := ListCall.add 30 2) rfl rfl
  have herase := hadd.step (a := ListCall.erase (some 1))
    (fun a ha => by cases ha; exact ⟨[(0, 10)], 20, [(2, 30)], rfl, by simp, by simp⟩) rfl
  exact ⟨_, (clean_runs_refine herase).1⟩

/-- What the callers promise: `new` returns memory that is not in use, and an iterator is at a node of
the list or at its end. -/
def Promised {α : Type} (s : CachedList α) (entries : List (Address × α)) : ListCall α → Prop
  | .add _ fresh => s.memory fresh = none
  | .addFront _ fresh => s.memory fresh = none
  | .erase it => ∀ a, it = some a → a ∈ entries.map Prod.fst
  | .popFront | .popBack | .eraseValue _ | .get _ => True

/-- After `popFront`, the node that is the first now points back to the one that was deleted. -/
theorem first_node_points_back :
    ¬ ∀ s : CachedList Nat × List (Address × Nat),
      listCalls.Reachable (fun s c => s.1.Promised s.2 c) s → s.1.Represents s.2 := by
  intro h
  have hstart : listCalls.Reachable (fun s c => s.1.Promised s.2 c) (created, []) :=
    .init ⟨rfl, rfl, rfl, rfl⟩
  have hadd := hstart.step (a := ListCall.add 10 0) rfl rfl
  have hadd := hadd.step (a := ListCall.add 20 1) rfl rfl
  have hpop := hadd.step (a := ListCall.popFront) trivial rfl
  obtain ⟨hcurrent, -⟩ | ⟨it', a, node, rest, -, -, hadvance, hvalues, hrest⟩ :=
    (h _ hpop).backward.uncons
  · cases hcurrent
  · cases hadvance
    have hnone : rest = [] := (List.cons.inj hvalues).2.symm
    obtain ⟨hcurrent, -⟩ | ⟨it', a, node, rest', -, -, -, hmore, -⟩ := hrest.uncons
    · cases hcurrent
    · rw [hnone] at hmore
      cases hmore

end CachedList

end MeetixOS.Kernel
