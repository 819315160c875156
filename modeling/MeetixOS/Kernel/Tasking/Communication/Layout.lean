import MeetixOS.Lib.Links
import MeetixOS.Kernel.Tasking.Communication.MessageController

/-! # Where the blocks of the messages are

Every block is in one place: in the queue of a thread or in a pool. `Layout` says so, together with
the sizes of the blocks and the links of the queues, for a state and the blocks of each queue in
order. -/

open Function (update update_of_ne update_self)
open Option (bind_eq_bind bind_some isSome_iff_exists map_some)

namespace MeetixOS.Kernel

open MeetixOS.Lib

/-- Where a block can be. -/
inductive Place
  | queue (tid : Tid)
  | pool (pool : MessageMemoryPool)
  deriving DecidableEq

/-- A block that is big enough for what it is used for: it has the size of its pool, which for a message
is the one that `release` will choose. -/
def Place.Fits (header : MessageHeader) : Place → Prop
  | .queue _ => ∃ fit, poolFor (sizeofMessageHeader + header.messageLen) = some fit ∧
      sizeofMessageHeader + header.content.length = fit.size
  | .pool own => sizeofMessageHeader + header.content.length = own.size

theorem lt_size_of_poolFor {size : Nat} {pool : MessageMemoryPool} (h : poolFor size = some pool) :
    size < pool.size := by
  unfold poolFor at h
  repeat' split at h
  all_goals first
    | obtain rfl := Option.some.inj h; assumption
    | cases h

/-- A header without its links. -/
def MessageHeader.unlinked (header : MessageHeader) : MessageHeader :=
  { header with previous := none, next := none }

theorem MessageHeader.fields_of_unlinked {header header' : MessageHeader}
    (h : header'.unlinked = header.unlinked) :
    header'.senderTid = header.senderTid ∧ header'.transaction = header.transaction ∧
      header'.messageLen = header.messageLen ∧ header'.content = header.content := by
  simpa [unlinked] using h

theorem MessageHeader.message_of_unlinked {header header' : MessageHeader}
    (h : header'.unlinked = header.unlinked) : header'.message = header.message := by
  obtain ⟨hsender, htransaction, hlen, hcontent⟩ := fields_of_unlinked h
  rw [message, message, hsender, htransaction, hlen, hcontent]

namespace MessageController

variable {heap : KernelHeap} {s s' : MessageController} {queued : Tid → List Address}

/-- The pointer of a block to the one before it. -/
def prev (s : MessageController) (a : Address) : Option Address :=
  (s.memory a).bind fun header => header.previous

/-- The pointer of a block to the one behind it. -/
def next (s : MessageController) (a : Address) : Option Address :=
  (s.memory a).bind fun header => header.next

variable {a : Address} {pool : MessageMemoryPool} {p : Option Address} {tid : Tid}

theorem memory_setHeader_self {header : MessageHeader} :
    (s.setHeader a header).memory a = some header :=
  update_self ..

theorem memory_setHeader_of_ne {a b : Address} {header : MessageHeader} (h : b ≠ a) :
    (s.setHeader a header).memory b = s.memory b :=
  update_of_ne h ..

theorem prev_setHeader (s : MessageController) (a : Address) (header : MessageHeader) :
    (s.setHeader a header).prev = update s.prev a header.previous := by
  funext b
  by_cases hb : b = a
  · rw [hb, prev, memory_setHeader_self, update_self, bind_some]
  · rw [prev, memory_setHeader_of_ne hb, update_of_ne hb, prev]

theorem next_setHeader (s : MessageController) (a : Address) (header : MessageHeader) :
    (s.setHeader a header).next = update s.next a header.next := by
  funext b
  by_cases hb : b = a
  · rw [hb, next, memory_setHeader_self, update_self, bind_some]
  · rw [next, memory_setHeader_of_ne hb, update_of_ne hb, next]

/-- The blocks in a place, for queues with these blocks. -/
def blocksAt (s : MessageController) (queued : Tid → List Address) : Place → List Address
  | .queue tid => queued tid
  | .pool pool => s.pools pool

/-- Each block is in one place and fits there, and the queues are linked. -/
structure Layout (heap : KernelHeap) (s : MessageController) (queued : Tid → List Address) :
    Prop where
  nodup : ∀ place, (s.blocksAt queued place).Nodup
  apart : ∀ {x y : Place} {a : Address}, a ∈ s.blocksAt queued x → a ∈ s.blocksAt queued y → x = y
  block : ∀ {place : Place} {a : Address}, a ∈ s.blocksAt queued place →
    ∃ header, s.memory a = some header ∧ place.Fits header
  allocated : ∀ {a : Address} {header : MessageHeader}, s.memory a = some header →
    ∃ i < s.allocations, heap.address i = some a
  linked : ∀ tid, Linked s.prev s.next (queued tid)

/-- The block is in no place. -/
def Free (s : MessageController) (queued : Tid → List Address) (a : Address) : Prop :=
  ∀ place, a ∉ s.blocksAt queued place

theorem Layout.length_le (hs : Layout heap s queued) (tid : Tid) :
    (queued tid).length ≤ s.allocations := by
  have hsub : (queued tid).map some ⊆ (List.range s.allocations).map heap.address := by
    intro x hx
    obtain ⟨a, ha, rfl⟩ := List.mem_map.1 hx
    obtain ⟨header, hheader, -⟩ := hs.block (show a ∈ s.blocksAt queued (.queue tid) from ha)
    obtain ⟨i, hi, haddress⟩ := hs.allocated hheader
    exact List.mem_map.2 ⟨i, List.mem_range.2 hi, haddress⟩
  have hnodup : ((queued tid).map some).Nodup :=
    (hs.nodup (.queue tid)).map (Option.some_injective _)
  have hle := (List.subperm_of_subset hnodup hsub).length_le
  rwa [List.length_map, List.length_map, List.length_range] at hle

theorem blocksAt_setPool {addresses : List Address} (place : Place) :
    (s.setPool pool addresses).blocksAt queued place =
      if place = .pool pool then addresses else s.blocksAt queued place := by
  cases place with
  | queue tid => rfl
  | pool p => simp [blocksAt, setPool, Function.update_apply, Place.pool.injEq]

theorem Layout.of_memory (hs : Layout heap s queued)
    (hplaces : ∀ place, (s'.blocksAt queued place).Sublist (s.blocksAt queued place))
    (hallocations : s'.allocations = s.allocations)
    (hmemory : ∀ place a, a ∈ s'.blocksAt queued place → s'.memory a = s.memory a)
    (hdomain : ∀ a, (s'.memory a).isSome → (s.memory a).isSome) : Layout heap s' queued := by
  refine ⟨?_, ?_, ?_, ?_, ?_⟩
  · intro place
    exact (hs.nodup place).sublist (hplaces place)
  · intro x y a hx hy
    exact hs.apart ((hplaces x).subset hx) ((hplaces y).subset hy)
  · intro place a ha
    rw [hmemory place a ha]
    exact hs.block ((hplaces place).subset ha)
  · intro a header hheader
    obtain ⟨header0, hheader0⟩ := isSome_iff_exists.1
      (hdomain a (isSome_iff_exists.2 ⟨header, hheader⟩))
    rw [hallocations]
    exact hs.allocated hheader0
  · intro tid
    refine (hs.linked tid).congr fun a ha => ?_
    have hsame : s'.memory a = s.memory a := hmemory (.queue tid) a ha
    exact ⟨by rw [prev, prev, hsame], by rw [next, next, hsame]⟩

/-! ## Pools -/

section

variable (hs : Layout heap s queued)
include hs

theorem Layout.pop (h : s.pop pool = some (a, s')) :
    Layout heap s' queued ∧ s'.Free queued a ∧ s'.memory = s.memory ∧ s'.queues = s.queues ∧
      ∃ header, s'.memory a = some header ∧
        sizeofMessageHeader + header.content.length = pool.size := by
  unfold MessageController.pop at h
  split at h
  next => cases h
  next address rest hpool =>
    obtain ⟨rfl, rfl⟩ := Prod.mk.inj (Option.some.inj h)
    have hat : s.blocksAt queued (.pool pool) = address :: rest := hpool
    have hmem : address ∈ s.blocksAt queued (.pool pool) := by
      rw [hat]
      exact List.mem_cons_self
    have hnodup : (address :: rest).Nodup := hat ▸ hs.nodup (.pool pool)
    refine ⟨?_, ?_, rfl, rfl, hs.block hmem⟩
    · refine hs.of_memory (fun place => ?_) rfl (fun _ _ _ => rfl) fun _ h => h
      rw [blocksAt_setPool]
      split
      next hplace =>
        rw [hplace, hat]
        exact List.sublist_cons_self ..
      next => exact List.Sublist.refl _
    · intro place ha
      rw [blocksAt_setPool] at ha
      split at ha
      next => exact (List.nodup_cons.1 hnodup).1 ha
      next hplace => exact hplace (hs.apart ha hmem)

theorem Layout.push (pool : MessageMemoryPool) (hfree : s.Free queued a) {header : MessageHeader}
    (hheader : s.memory a = some header)
    (hfits : sizeofMessageHeader + header.content.length = pool.size) :
    Layout heap (s.push pool a) queued := by
  have hcases : ∀ {place b}, b ∈ (s.push pool a).blocksAt queued place →
      (b = a ∧ place = .pool pool) ∨ b ∈ s.blocksAt queued place := by
    intro place b hb
    rw [MessageController.push, blocksAt_setPool] at hb
    split at hb
    next hplace =>
      rw [hplace]
      exact (List.mem_cons.1 hb).imp_left (⟨·, rfl⟩)
    next => exact .inr hb
  refine ⟨?_, ?_, ?_, hs.allocated, hs.linked⟩
  · intro place
    rw [MessageController.push, blocksAt_setPool]
    split
    next => exact List.nodup_cons.2 ⟨hfree (.pool pool), hs.nodup (.pool pool)⟩
    next => exact hs.nodup place
  · intro x y b hx hy
    rcases hcases hx with ⟨rfl, rfl⟩ | hx <;> rcases hcases hy with ⟨hb, rfl⟩ | hy
    · rfl
    · exact absurd hy (hfree y)
    · exact absurd (hb ▸ hx) (hfree x)
    · exact hs.apart hx hy
  · intro place b hb
    rcases hcases hb with ⟨rfl, rfl⟩ | hb
    · exact ⟨header, hheader, hfits⟩
    · exact hs.block hb

theorem Layout.newBlock (size : Nat) (ha : heap.address s.allocations = some a) :
    Layout heap (s.newBlock size a) queued ∧ (s.newBlock size a).Free queued a ∧
      ∀ b, (s.memory b).isSome → (s.newBlock size a).memory b = s.memory b := by
  have hnone : s.memory a = none := by
    cases hheader : s.memory a with
    | none => rfl
    | some header =>
      obtain ⟨i, hi, haddress⟩ := hs.allocated hheader
      exact absurd (heap.distinct _ _ a haddress ha) (Nat.ne_of_lt hi)
  have hfree : s.Free queued a := by
    intro place hmem
    obtain ⟨header, hheader, -⟩ := hs.block hmem
    rw [hnone] at hheader
    cases hheader
  have hold : ∀ {b}, b ≠ a → (s.newBlock size a).memory b = s.memory b := fun h =>
    update_of_ne h ..
  have hne : ∀ {place b}, b ∈ s.blocksAt queued place → b ≠ a := fun hb heq =>
    hfree _ (heq ▸ hb)
  refine ⟨⟨hs.nodup, hs.apart, ?_, ?_, ?_⟩, hfree, ?_⟩
  · intro place b hb
    rw [hold (hne hb)]
    exact hs.block hb
  · intro b header hheader
    by_cases hb : b = a
    · exact ⟨s.allocations, Nat.lt_succ_self _, hb ▸ ha⟩
    · rw [hold hb] at hheader
      obtain ⟨i, hi, haddress⟩ := hs.allocated hheader
      exact ⟨i, Nat.lt_succ_of_lt hi, haddress⟩
  · intro tid
    refine (hs.linked tid).congr fun b hb => ?_
    have hsame := hold (hne (show b ∈ s.blocksAt queued (.queue tid) from hb))
    exact ⟨by rw [prev, prev, hsame], by rw [next, next, hsame]⟩
  · intro b hsome
    refine hold fun heq => ?_
    rw [heq, hnone] at hsome
    cases hsome

end

theorem sizeofMessageHeader_le (pool : MessageMemoryPool) : sizeofMessageHeader ≤ pool.size := by
  cases pool <;> decide

theorem Layout.refillLoop (hs : Layout heap s queued) (pool : MessageMemoryPool) (n : Nat) :
    Layout heap (refillLoop heap pool n s) queued ∧
      (MessageController.refillLoop heap pool n s).queues = s.queues ∧
      ∀ b, (s.memory b).isSome →
        (MessageController.refillLoop heap pool n s).memory b = s.memory b := by
  induction n generalizing s with
  | zero => exact ⟨hs, rfl, fun _ _ => rfl⟩
  | succ n ih =>
    unfold MessageController.refillLoop
    split
    next =>
      refine ⟨⟨hs.nodup, hs.apart, hs.block, ?_, hs.linked⟩, rfl, fun _ _ => rfl⟩
      intro a header hheader
      obtain ⟨i, hi, haddress⟩ := hs.allocated hheader
      exact ⟨i, Nat.lt_succ_of_lt hi, haddress⟩
    next a ha =>
      obtain ⟨hnew, hfree, hmemory⟩ := hs.newBlock pool.size ha
      have hheader : (s.newBlock pool.size a).memory a =
          some { content := List.replicate (pool.size - sizeofMessageHeader) 0 } :=
        update_self ..
      have hpush := hnew.push pool hfree hheader (by
        rw [List.length_replicate]
        exact Nat.add_sub_cancel' (sizeofMessageHeader_le pool))
      obtain ⟨hlayout, hqueues, hrest⟩ := ih hpush
      refine ⟨hlayout, hqueues, fun b hb => ?_⟩
      have hb' : (((s.newBlock pool.size a).push pool a).memory b).isSome := by
        rw [show ((s.newBlock pool.size a).push pool a).memory b = s.memory b from hmemory b hb]
        exact hb
      exact (hrest b hb').trans (hmemory b hb)

theorem Layout.getFromPool (hs : Layout heap s queued) (h : s.getFromPool heap pool = some (a, s')) :
    Layout heap s' queued ∧ s'.Free queued a ∧ s'.queues = s.queues ∧
      (∀ b, (s.memory b).isSome → s'.memory b = s.memory b) ∧
      ∃ header, s'.memory a = some header ∧
        sizeofMessageHeader + header.content.length = pool.size := by
  unfold MessageController.getFromPool at h
  split at h
  next result hpop =>
    rw [Option.some.inj h] at hpop
    obtain ⟨hs', hfree, hmemory, hqueues, hheader⟩ := hs.pop hpop
    exact ⟨hs', hfree, hqueues, fun b _ => by rw [hmemory], hheader⟩
  next =>
    obtain ⟨hrefill, hqueues, hmemory⟩ := hs.refillLoop pool messageQueueSize
    obtain ⟨hs', hfree, hmemory', hqueues', hheader⟩ := hrefill.pop h
    exact ⟨hs', hfree, hqueues'.trans hqueues, fun b hb => by rw [hmemory', hmemory b hb], hheader⟩

/-! ## Links -/

/-- `s'` differs from `s` in the links of blocks only. -/
structure Relinked (s s' : MessageController) : Prop where
  queues : s'.queues = s.queues
  pools : s'.pools = s.pools
  allocations : s'.allocations = s.allocations
  memory : ∀ a, (s'.memory a).map MessageHeader.unlinked = (s.memory a).map MessageHeader.unlinked

theorem Relinked.refl (s : MessageController) : Relinked s s := ⟨rfl, rfl, rfl, fun _ => rfl⟩

theorem Relinked.trans {s1 s2 s3 : MessageController} (h : Relinked s1 s2) (h' : Relinked s2 s3) :
    Relinked s1 s3 :=
  ⟨h'.queues.trans h.queues, h'.pools.trans h.pools, h'.allocations.trans h.allocations,
    fun a => (h'.memory a).trans (h.memory a)⟩

theorem Relinked.setHeader {header header' : MessageHeader} (hheader : s.memory a = some header)
    (h : header'.unlinked = header.unlinked) : Relinked s (s.setHeader a header') := by
  refine ⟨rfl, rfl, rfl, fun b => ?_⟩
  by_cases hb : b = a
  · rw [hb, memory_setHeader_self, hheader, map_some, map_some, h]
  · rw [memory_setHeader_of_ne hb]

theorem Relinked.header (h : Relinked s s') {header : MessageHeader}
    (hheader : s.memory a = some header) :
    ∃ header', s'.memory a = some header' ∧ header'.unlinked = header.unlinked := by
  have hmemory := h.memory a
  rw [hheader, map_some, Option.map_eq_some_iff] at hmemory
  exact hmemory

theorem Relinked.isSome (h : Relinked s s') (ha : (s.memory a).isSome) : (s'.memory a).isSome := by
  obtain ⟨header, hheader⟩ := isSome_iff_exists.1 ha
  obtain ⟨header', hheader', -⟩ := h.header hheader
  rw [hheader', Option.isSome_some]

theorem Relinked.symm (h : Relinked s s') : Relinked s' s :=
  ⟨h.queues.symm, h.pools.symm, h.allocations.symm, fun a => (h.memory a).symm⟩

theorem fits_unlinked {header header' : MessageHeader} {place : Place}
    (h : header'.unlinked = header.unlinked) (hfits : place.Fits header) : place.Fits header' := by
  obtain ⟨-, -, hlen, hcontent⟩ := MessageHeader.fields_of_unlinked h
  cases place with
  | queue tid =>
    rw [Place.Fits, hlen, hcontent]
    exact hfits
  | pool pool =>
    rw [Place.Fits, hcontent]
    exact hfits

theorem modifyMessage_eq {header : MessageHeader} {f : MessageHeader → MessageHeader}
    (h : s.memory a = some header) : s.modifyMessage a f = some (s.setHeader a (f header)) := by
  rw [modifyMessage, h, map_some]

theorem modifyIfSome_next (v : Option Address) (hp : ∀ a, p = some a → (s.memory a).isSome) :
    ∃ s', s.modifyIfSome p (fun header => { header with next := v }) = some s' ∧
      Relinked s s' ∧ s'.prev = s.prev ∧ s'.next = setAt s.next p v := by
  cases p with
  | none => exact ⟨s, rfl, .refl s, rfl, rfl⟩
  | some a =>
    obtain ⟨header, hheader⟩ := isSome_iff_exists.1 (hp a rfl)
    refine ⟨_, modifyMessage_eq hheader, .setHeader hheader rfl, ?_, next_setHeader ..⟩
    have hold : header.previous = s.prev a := by rw [prev, hheader, bind_some]
    rw [prev_setHeader]
    exact Function.update_eq_self_iff.2 hold

theorem modifyIfSome_previous (v : Option Address) (hp : ∀ a, p = some a → (s.memory a).isSome) :
    ∃ s', s.modifyIfSome p (fun header => { header with previous := v }) = some s' ∧
      Relinked s s' ∧ s'.prev = setAt s.prev p v ∧ s'.next = s.next := by
  cases p with
  | none => exact ⟨s, rfl, .refl s, rfl, rfl⟩
  | some a =>
    obtain ⟨header, hheader⟩ := isSome_iff_exists.1 (hp a rfl)
    refine ⟨_, modifyMessage_eq hheader, .setHeader hheader rfl, prev_setHeader .., ?_⟩
    have hold : header.next = s.next a := by rw [next, hheader, bind_some]
    rw [next_setHeader]
    exact Function.update_eq_self_iff.2 hold

theorem blocksAt_update {blocks : List Address} (hpools : s'.pools = s.pools)
    (place : Place) : s'.blocksAt (update queued tid blocks) place =
      if place = .queue tid then blocks else s.blocksAt queued place := by
  cases place with
  | queue t => simp [blocksAt, Function.update_apply, Place.queue.injEq]
  | pool pool => simp [blocksAt, hpools]

section

variable (hs : Layout heap s queued)
include hs

theorem Layout.relinked_allocated (h : Relinked s s') {header : MessageHeader}
    (hheader : s'.memory a = some header) : ∃ i < s'.allocations, heap.address i = some a := by
  obtain ⟨header0, hheader0, -⟩ := h.symm.header hheader
  rw [h.allocations]
  exact hs.allocated hheader0

theorem Layout.enqueue (tid : Tid) (hfree : s.Free queued a) {header : MessageHeader}
    (hheader : s.memory a = some header) (hfits : (Place.queue tid).Fits header) (h : Relinked s s')
    (hprev : s'.prev = update s.prev a (queued tid).getLast?)
    (hnext : s'.next = update (setAt s.next (queued tid).getLast? (some a)) a none) :
    Layout heap s' (update queued tid (queued tid ++ [a])) := by
  have hnodup : (queued tid ++ [a]).Nodup := by
    refine List.nodup_append.2 ⟨hs.nodup (.queue tid), List.nodup_singleton a, ?_⟩
    rintro b hb c hc rfl
    exact hfree (.queue tid) (List.mem_singleton.1 hc ▸ hb)
  have hcases : ∀ {place b},
      b ∈ s'.blocksAt (update queued tid (queued tid ++ [a])) place →
      (b = a ∧ place = .queue tid) ∨ b ∈ s.blocksAt queued place := by
    intro place b hb
    rw [blocksAt_update h.pools] at hb
    split at hb
    next hplace =>
      rw [hplace]
      exact (List.mem_append.1 hb).symm.imp_left (⟨List.mem_singleton.1 ·, rfl⟩)
    next => exact .inr hb
  refine ⟨?_, ?_, ?_, fun hb => hs.relinked_allocated h hb, ?_⟩
  · intro place
    rw [blocksAt_update h.pools]
    split
    next => exact hnodup
    next => exact hs.nodup place
  · intro x y b hx hy
    rcases hcases hx with ⟨rfl, rfl⟩ | hx <;> rcases hcases hy with ⟨hb, rfl⟩ | hy
    · rfl
    · exact absurd hy (hfree y)
    · exact absurd (hb ▸ hx) (hfree x)
    · exact hs.apart hx hy
  · intro place b hb
    rcases hcases hb with ⟨rfl, rfl⟩ | hb
    · obtain ⟨header', hheader', hunlinked⟩ := h.header hheader
      exact ⟨header', hheader', fits_unlinked hunlinked hfits⟩
    · obtain ⟨old, hold, hfit⟩ := hs.block hb
      obtain ⟨header', hheader', hunlinked⟩ := h.header hold
      exact ⟨header', hheader', fits_unlinked hunlinked hfit⟩
  · intro t
    by_cases ht : t = tid
    · subst ht
      rw [update_self, hprev, hnext]
      exact (hs.linked t).append hnodup
    · rw [update_of_ne ht]
      refine (hs.linked t).congr fun b hb => ?_
      have hba : b ≠ a := fun heq => hfree (.queue t) (heq ▸ hb)
      have hlast : (queued tid).getLast? ≠ some b := by
        intro heq
        have hmem := List.mem_of_mem_getLast? heq
        exact ht (Place.queue.inj (hs.apart (show b ∈ s.blocksAt queued (.queue t) from hb) hmem))
      rw [hprev, hnext, update_of_ne hba, update_of_ne hba, setAt_of_ne hlast]
      exact ⟨rfl, rfl⟩

theorem Layout.dequeue {before behind : List Address} (hqueue : queued tid = before ++ a :: behind)
    (h : Relinked s s') (hprev : s'.prev = setAt s.prev behind.head? before.getLast?)
    (hnext : s'.next = setAt s.next before.getLast? behind.head?) :
    Layout heap s' (update queued tid (before ++ behind)) ∧
      s'.Free (update queued tid (before ++ behind)) a := by
  have hnodup : (before ++ a :: behind).Nodup := hqueue ▸ hs.nodup (.queue tid)
  have hmem : a ∈ s.blocksAt queued (.queue tid) := by
    rw [blocksAt, hqueue]
    exact List.mem_append_right _ List.mem_cons_self
  have hsub : ∀ place, (s'.blocksAt (update queued tid (before ++ behind)) place).Sublist
      (s.blocksAt queued place) := by
    intro place
    rw [blocksAt_update h.pools]
    split
    next hplace =>
      rw [hplace, blocksAt, hqueue]
      exact (List.sublist_cons_self a behind).append_left before
    next => exact List.Sublist.refl _
  refine ⟨⟨?_, ?_, ?_, fun hb => hs.relinked_allocated h hb, ?_⟩, ?_⟩
  · intro place
    exact (hs.nodup place).sublist (hsub place)
  · intro x y b hx hy
    exact hs.apart ((hsub x).subset hx) ((hsub y).subset hy)
  · intro place b hb
    obtain ⟨old, hold, hfit⟩ := hs.block ((hsub place).subset hb)
    obtain ⟨header', hheader', hunlinked⟩ := h.header hold
    exact ⟨header', hheader', fits_unlinked hunlinked hfit⟩
  · intro t
    by_cases ht : t = tid
    · subst ht
      rw [update_self, hprev, hnext]
      exact Linked.unlink (hqueue ▸ hs.linked t) hnodup
    · rw [update_of_ne ht]
      refine (hs.linked t).congr fun b hb => ?_
      have hnot : b ∉ queued tid := fun hmem' =>
        ht (Place.queue.inj (hs.apart (show b ∈ s.blocksAt queued (.queue t) from hb)
          (show b ∈ s.blocksAt queued (.queue tid) from hmem')))
      rw [hqueue, List.mem_append, List.mem_cons, not_or, not_or] at hnot
      rw [hprev, hnext, setAt_of_ne fun heq => hnot.2.2 (List.mem_of_mem_head? heq),
        setAt_of_ne fun heq => hnot.1 (List.mem_of_mem_getLast? heq)]
      exact ⟨rfl, rfl⟩
  · intro place hb
    have hplace := hs.apart ((hsub place).subset hb) hmem
    rw [hplace, blocksAt_update h.pools, if_pos rfl] at hb
    obtain ⟨-, hbehind, hdisj⟩ := List.nodup_append.1 hnodup
    rcases List.mem_append.1 hb with hb | hb
    · exact hdisj a hb a List.mem_cons_self rfl
    · exact (List.nodup_cons.1 hbehind).1 hb

end

/-! ## The operations on a queue -/

section

variable (hs : Layout heap s queued)
include hs

theorem Layout.isSome_of_mem (ha : a ∈ queued tid) : (s.memory a).isSome := by
  obtain ⟨header, hheader, -⟩ := hs.block (show a ∈ s.blocksAt queued (.queue tid) from ha)
  exact isSome_iff_exists.2 ⟨header, hheader⟩

theorem Layout.setFree (hfree : s.Free queued a) (hsome : (s.memory a).isSome)
    (header : MessageHeader) : Layout heap (s.setHeader a header) queued := by
  refine hs.of_memory (fun _ => List.Sublist.refl _) rfl (fun place b hb => ?_) fun b hb => ?_
  · refine memory_setHeader_of_ne fun heq => ?_
    rw [heq] at hb
    exact hfree place hb
  · by_cases heq : b = a
    · rw [heq]
      exact hsome
    · rwa [memory_setHeader_of_ne heq] at hb

theorem Layout.append {queue : MessageQueueHead} (hsome : (s.memory a).isSome)
    (hlast : queue.last = (queued tid).getLast?) :
    ∃ s', s.append queue a =
        some (s', { queue with first := queue.first.or (some a), last := some a }) ∧
      Relinked s s' ∧ s'.prev = update s.prev a (queued tid).getLast? ∧
      s'.next = update (setAt s.next (queued tid).getLast? (some a)) a none := by
  have hp : ∀ b, queue.last = some b → (s.memory b).isSome := fun b hb =>
    hs.isSome_of_mem (List.mem_of_mem_getLast? (hlast ▸ hb))
  obtain ⟨s1, hs1, hrelinked, hprev, hnext⟩ := modifyIfSome_next (some a) hp
  obtain ⟨header, hheader⟩ := isSome_iff_exists.1 hsome
  obtain ⟨header1, hheader1, -⟩ := hrelinked.header hheader
  refine ⟨s1.setHeader a { header1 with previous := queue.last, next := none }, ?_,
    hrelinked.trans (.setHeader hheader1 rfl), ?_, ?_⟩
  · simp [MessageController.append, hs1, modifyMessage_eq hheader1]
  · rw [prev_setHeader, hprev, hlast]
  · rw [next_setHeader, hnext, hlast]

end

theorem unlink_eq {header : MessageHeader} (queue : MessageQueueHead)
    (hheader : s.memory a = some header)
    (hprevious : ∀ b, header.previous = some b → (s.memory b).isSome)
    (hnext : ∀ b, header.next = some b → (s.memory b).isSome) :
    ∃ s', s.unlink queue a = some (s', { queue with
        first := if header.previous.isNone then header.next else queue.first
        last := if header.next.isNone then header.previous else queue.last }) ∧
      Relinked s s' ∧ s'.prev = setAt s.prev header.next header.previous ∧
      s'.next = setAt s.next header.previous header.next := by
  obtain ⟨s1, hs1, hrelinked1, hprev1, hnext1⟩ := modifyIfSome_previous header.previous hnext
  obtain ⟨s2, hs2, hrelinked2, hprev2, hnext2⟩ := modifyIfSome_next header.next hprevious
  obtain ⟨s3, hs3, hrelinked3, hprev3, hnext3⟩ :=
    modifyIfSome_next header.next fun b hb => hrelinked1.isSome (hprevious b hb)
  simp only [MessageController.unlink, hheader, bind_eq_bind, bind_some]
  cases hN : header.next with
  | none =>
    rw [hN] at hs2 hnext2
    cases hP : header.previous with
    | none => exact ⟨s, rfl, .refl s, rfl, rfl⟩
    | some p =>
      rw [hP] at hs2 hnext2
      -- the block before it is written twice
      obtain ⟨s4, hs4, hrelinked4, hprev4, hnext4⟩ := modifyIfSome_next (none : Option Address)
        fun b hb => hrelinked2.isSome (hprevious b (hP.trans hb))
      refine ⟨s4, ?_, hrelinked2.trans hrelinked4, hprev4.trans hprev2, ?_⟩
      · dsimp only
        rw [hs2]
        simp only [map_some, bind_some]
        rw [show s2.modifyMessage p _ = some s4 from hs4]
        rfl
      · rw [hnext4, hnext2, setAt_setAt]
  | some n =>
    rw [hN] at hs1 hprev1 hs3 hnext3
    cases hP : header.previous with
    | none =>
      rw [hP] at hs1 hprev1
      -- the block behind it is written twice
      obtain ⟨s4, hs4, hrelinked4, hprev4, hnext4⟩ :=
        modifyIfSome_previous (none : Option Address)
          fun b hb => hrelinked1.isSome (hnext b (hN.trans hb))
      refine ⟨s4, ?_, hrelinked1.trans hrelinked4, ?_, hnext4.trans hnext1⟩
      · dsimp only
        rw [show s.modifyMessage n _ = some s1 from hs1]
        simp only [map_some, bind_some]
        rw [hs4]
        rfl
      · rw [hprev4, hprev1, setAt_setAt]
    | some p =>
      rw [hP] at hs1 hprev1 hs3 hnext3
      refine ⟨s3, ?_, hrelinked1.trans hrelinked3, hprev3.trans hprev1, ?_⟩
      · dsimp only
        rw [show s.modifyMessage n _ = some s1 from hs1]
        simp only [map_some, bind_some]
        rw [show s1.modifyMessage p _ = some s3 from hs3]
        rfl
      · rw [hnext3, hnext1]

theorem Layout.unlink (hs : Layout heap s queued) {before behind : List Address}
    (hqueue : queued tid = before ++ a :: behind) {queue : MessageQueueHead}
    (hfirst : queue.first = (queued tid).head?) (hlast : queue.last = (queued tid).getLast?) :
    ∃ s', s.unlink queue a = some (s', { queue with
        first := (before ++ behind).head?
        last := (before ++ behind).getLast? }) ∧
      Relinked s s' ∧ s'.prev = setAt s.prev behind.head? before.getLast? ∧
      s'.next = setAt s.next before.getLast? behind.head? := by
  have hmem : a ∈ queued tid := by
    rw [hqueue]
    exact List.mem_append_right _ List.mem_cons_self
  obtain ⟨header, hheader⟩ := isSome_iff_exists.1 (hs.isSome_of_mem hmem)
  obtain ⟨hprevious, hnext⟩ := Linked.pointers (hqueue ▸ hs.linked tid)
  rw [prev, hheader, bind_some] at hprevious
  rw [next, hheader, bind_some] at hnext
  obtain ⟨s', hs', hrelinked, hprev', hnext'⟩ := unlink_eq queue hheader
    (fun b hb => hs.isSome_of_mem (hqueue ▸ List.mem_append_left _
      (List.mem_of_mem_getLast? (hprevious ▸ hb))))
    (fun b hb => hs.isSome_of_mem (hqueue ▸ List.mem_append_right _
      (List.mem_cons_of_mem _ (List.mem_of_mem_head? (hnext ▸ hb)))))
  rw [hprevious, hnext] at hs' hprev' hnext'
  refine ⟨s', ?_, hrelinked, hprev', hnext'⟩
  have hhead : (if before.getLast?.isNone then behind.head? else queue.first) =
      (before ++ behind).head? := by
    rw [hfirst, hqueue]
    cases before <;> simp
  have hend : (if behind.head?.isNone then before.getLast? else queue.last) =
      (before ++ behind).getLast? := by
    rw [hlast, hqueue]
    cases behind <;> simp
  rw [hs', hhead, hend]

/-! ## Clearing a queue -/

theorem Layout.drop (hs : Layout heap s queued) (tid : Tid) :
    Layout heap s (update queued tid []) ∧
      ∀ a ∈ queued tid, s.Free (update queued tid []) a := by
  have hsub : ∀ place, (s.blocksAt (update queued tid []) place).Sublist
      (s.blocksAt queued place) := by
    intro place
    rw [blocksAt_update rfl]
    split
    next => exact List.nil_sublist _
    next => exact List.Sublist.refl _
  refine ⟨⟨?_, ?_, ?_, hs.allocated, ?_⟩, ?_⟩
  · intro place
    exact (hs.nodup place).sublist (hsub place)
  · intro x y a hx hy
    exact hs.apart ((hsub x).subset hx) ((hsub y).subset hy)
  · intro place a ha
    exact hs.block ((hsub place).subset ha)
  · intro t
    by_cases ht : t = tid
    · rw [ht, update_self]
      trivial
    · rw [update_of_ne ht]
      exact hs.linked t
  · intro a ha place hplace
    have hqueue := hs.apart ((hsub place).subset hplace)
      (show a ∈ s.blocksAt queued (.queue tid) from ha)
    rw [hqueue, blocksAt_update rfl, if_pos rfl] at hplace
    exact List.not_mem_nil hplace

theorem free_push {a b : Address} (hne : b ≠ a)
    (hfree : s.Free queued b) : (s.push pool a).Free queued b := by
  intro place hb
  rw [MessageController.push, blocksAt_setPool] at hb
  split at hb
  next => exact hfree (.pool pool) ((List.mem_cons.1 hb).resolve_left hne)
  next => exact hfree place hb

/-- The loop of `clear` releases all blocks of a list. The links that it follows are still there in
released blocks. -/
theorem Layout.releaseAll (hs : Layout heap s queued)
    {blocks : List Address} (hlinked : Segment s.prev s.next p blocks none) (hnodup : blocks.Nodup)
    (hfree : ∀ a ∈ blocks, s.Free queued a)
    (hfits : ∀ a ∈ blocks, ∃ header, s.memory a = some header ∧ (Place.queue tid).Fits header)
    {fuel : Nat} (hfuel : blocks.length ≤ fuel) :
    ∃ s', releaseAll fuel s blocks.head? = some s' ∧ Layout heap s' queued ∧
      s'.memory = s.memory ∧ s'.queues = s.queues := by
  induction blocks generalizing s p fuel with
  | nil => exact ⟨s, by cases fuel <;> rfl, hs, rfl, rfl⟩
  | cons a rest ih =>
    obtain ⟨fuel, rfl⟩ : ∃ n, fuel = n + 1 :=
      Nat.exists_eq_add_one_of_ne_zero fun h => (by simp [h] at hfuel)
    obtain ⟨header, hheader, fit, hpool, hsize⟩ := hfits a List.mem_cons_self
    obtain ⟨hnotin, hrest⟩ := List.nodup_cons.1 hnodup
    obtain ⟨-, hnext, hlinked⟩ := hlinked
    rw [next, hheader, bind_some, Option.or_none] at hnext
    have hrelease : s.release a = some (s.push fit a) := by
      rw [release, hheader, bind_eq_bind, bind_some, hpool]
    have hpush := hs.push fit (hfree a List.mem_cons_self) hheader hsize
    obtain ⟨s', hs', hlayout, hmemory, hqueues⟩ := ih hpush hlinked hrest
      (fun b hb => free_push (fun heq => hnotin (heq ▸ hb)) (hfree b (List.mem_cons_of_mem _ hb)))
      (fun b hb => hfits b (List.mem_cons_of_mem _ hb)) (Nat.le_of_succ_le_succ hfuel)
    refine ⟨s', ?_, hlayout, hmemory, hqueues⟩
    rw [List.head?_cons, MessageController.releaseAll, hheader, bind_eq_bind,
      bind_some, hrelease, bind_eq_bind, bind_some, hnext, hs']

theorem Layout.clear (hs : Layout heap s queued) (tid : Tid) :
    ∃ s', MessageController.releaseAll s.allocations s (queued tid).head? = some s' ∧
      Layout heap s' (update queued tid []) ∧ s'.memory = s.memory ∧
      s'.queues = s.queues := by
  obtain ⟨hdrop, hfree⟩ := hs.drop tid
  exact hdrop.releaseAll (hs.linked tid) (hs.nodup (.queue tid)) hfree
    (fun a ha => hs.block (show a ∈ s.blocksAt queued (.queue tid) from ha)) (hs.length_le tid)

end MessageController

end MeetixOS.Kernel
