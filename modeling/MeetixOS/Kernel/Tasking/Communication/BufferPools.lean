import MeetixOS.Kernel.Tasking.Communication.Mailbox

/-! # The pools of message buffers

A buffer has one size for ever (`call_keepsSizes`), lies in one place, and in a pool only in the one of
its size (`BuffersSorted`). With memory left a message that is not too long and has room in the queue is
sent if and only if there is a pool for its size together with the header. -/

open Option (bind_eq_some_iff map_eq_some_iff)

namespace MeetixOS.Kernel

open MeetixOS.Lib MessageController

namespace MessageController

variable {heap : KernelHeap} {s s' : MessageController} {queued : Tid → List Address}

/-! ## Sizes -/

/-- Every block is still there, with the same size. -/
def KeepsSizes (s s' : MessageController) : Prop :=
  ∀ a header, s.memory a = some header →
    ∃ header', s'.memory a = some header' ∧ header'.content.length = header.content.length

theorem KeepsSizes.of_memory (h : s'.memory = s.memory) : s.KeepsSizes s' := by
  intro a header hheader
  exact ⟨header, by rw [h, hheader], rfl⟩

theorem KeepsSizes.trans {s1 s2 s3 : MessageController} (h : s1.KeepsSizes s2)
    (h' : s2.KeepsSizes s3) : s1.KeepsSizes s3 := by
  intro a header hheader
  obtain ⟨header2, hheader2, hlength⟩ := h a header hheader
  obtain ⟨header3, hheader3, hlength'⟩ := h' a header2 hheader2
  exact ⟨header3, hheader3, hlength'.trans hlength⟩

variable {a : Address} {content : List UInt8} {tx : MessageTransaction}

variable {f : MessageHeader → MessageHeader} {source target : Tid} {queue queue' : MessageQueueHead}
  {mail : Tid → Mailbox}

theorem modifyMessage_keepsSizes
    (hf : ∀ header, s.memory a = some header → (f header).content.length = header.content.length)
    (h : s.modifyMessage a f = some s') : s.KeepsSizes s' := by
  obtain ⟨old, hold, rfl⟩ := map_eq_some_iff.1 h
  intro b header hheader
  by_cases hb : b = a
  · subst hb
    obtain rfl : old = header := Option.mem_unique hold hheader
    exact ⟨_, memory_setHeader_self, hf old hold⟩
  · exact ⟨header, by rw [memory_setHeader_of_ne hb, hheader], rfl⟩

theorem modifyIfSome_keepsSizes {a : Option Address}
    (hf : ∀ header, (f header).content.length = header.content.length)
    (h : s.modifyIfSome a f = some s') : s.KeepsSizes s' := by
  cases a with
  | none =>
    cases h
    exact .of_memory rfl
  | some a => exact modifyMessage_keepsSizes (fun header _ => hf header) h

theorem writeMessage_keepsSizes (h : s.writeMessage a source content tx = some s') :
    s.KeepsSizes s' := by
  obtain ⟨header, hheader, h⟩ := bind_eq_some_iff.1 h
  split at h
  next hfits =>
    refine modifyMessage_keepsSizes (fun old hold => ?_) h
    obtain rfl : header = old := Option.mem_unique hheader hold
    rw [List.length_append, List.length_drop]
    omega
  · cases h

theorem append_keepsSizes
    (h : s.append queue a = some (s', queue')) : s.KeepsSizes s' := by
  obtain ⟨s1, h1, h⟩ := bind_eq_some_iff.1 h
  obtain ⟨s2, h2, h⟩ := bind_eq_some_iff.1 h
  cases h
  exact (modifyIfSome_keepsSizes (by exact fun _ => rfl) h1).trans
    (modifyMessage_keepsSizes (by exact fun _ _ => rfl) h2)

theorem unlink_keepsSizes
    (h : s.unlink queue a = some (s', queue')) : s.KeepsSizes s' := by
  obtain ⟨header, -, h⟩ := bind_eq_some_iff.1 h
  dsimp only at h
  -- the block behind it, or the head, and then the block before it, or the head
  have hprevious : ∀ {s1 : MessageController} {queue1 : MessageQueueHead} {previous : Address},
      (s1.modifyMessage previous fun h => { h with next := header.next }).map (·, queue1) =
        some (s', queue') → s1.KeepsSizes s' := by
    intro s1 queue1 previous h
    obtain ⟨s2, h2, heq⟩ := map_eq_some_iff.1 h
    cases heq
    exact modifyMessage_keepsSizes (by exact fun _ _ => rfl) h2
  have hfirst : ∀ {s1 : MessageController} {queue1 : MessageQueueHead},
      (s1.modifyIfSome header.next fun h => { h with previous := none }).map
        (·, { queue1 with first := header.next }) = some (s', queue') → s1.KeepsSizes s' := by
    intro s1 queue1 h
    obtain ⟨s2, h2, heq⟩ := map_eq_some_iff.1 h
    cases heq
    exact modifyIfSome_keepsSizes (by exact fun _ => rfl) h2
  split at h
  · obtain ⟨⟨s1, queue1⟩, h1, h⟩ := bind_eq_some_iff.1 h
    obtain ⟨s2, h2, heq⟩ := map_eq_some_iff.1 h1
    cases heq
    refine (modifyMessage_keepsSizes (by exact fun _ _ => rfl) h2).trans ?_
    split at h
    · exact hprevious h
    · exact hfirst h
  · obtain ⟨⟨s1, queue1⟩, h1, h⟩ := bind_eq_some_iff.1 h
    obtain ⟨s2, h2, heq⟩ := map_eq_some_iff.1 h1
    cases heq
    refine (modifyIfSome_keepsSizes (by exact fun _ => rfl) h2).trans ?_
    split at h
    · exact hprevious h
    · exact hfirst h

theorem release_memory (h : s.release a = some s') : s'.memory = s.memory := by
  obtain ⟨header, -, h⟩ := bind_eq_some_iff.1 h
  split at h
  · cases h
    rfl
  · cases h
    rfl

theorem releaseAll_memory {fuel : Nat} {a : Option Address} (h : releaseAll fuel s a = some s') :
    s'.memory = s.memory := by
  induction fuel generalizing s a with
  | zero =>
    cases a with
    | none =>
      cases h
      rfl
    | some a => cases h
  | succ fuel ih =>
    cases a with
    | none =>
      cases h
      rfl
    | some a =>
      obtain ⟨header, -, h⟩ := bind_eq_some_iff.1 h
      obtain ⟨s1, hrelease, h⟩ := bind_eq_some_iff.1 h
      exact (ih h).trans (release_memory hrelease)

theorem sendMessage_keepsSizes (hs : Layout heap s queued) {status : MessageSendStatus}
    (h : s.sendMessage heap target source content tx = some (s', status)) : s.KeepsSizes s' := by
  unfold sendMessage at h
  dsimp only at h
  split at h
  · cases h
    exact .of_memory rfl
  · split at h
    · cases h
      exact .of_memory rfl
    · split at h
      · cases h
        exact .of_memory rfl
      · obtain ⟨⟨a, s1⟩, htaken, h⟩ := bind_eq_some_iff.1 h
        obtain ⟨s2, hwrite, h⟩ := bind_eq_some_iff.1 h
        obtain ⟨⟨s3, queue⟩, happend, h⟩ := bind_eq_some_iff.1 h
        cases h
        -- a new block has an address that no block had before
        obtain ⟨-, -, -, hmemory, -⟩ := (hs.setQueues _).getFromPool htaken
        have hfirst : s.KeepsSizes s1 := by
          intro b header hheader
          exact ⟨header, by rw [hmemory b (Option.isSome_iff_exists.2 ⟨header, hheader⟩)]; exact hheader,
            rfl⟩
        have hlast : s2.KeepsSizes s3 := append_keepsSizes happend
        exact hfirst.trans ((writeMessage_keepsSizes hwrite).trans hlast)

theorem receiveMessage_keepsSizes {max : Nat}
    {result : MessageReceiveStatus × Option Message}
    (h : s.receiveMessage target max tx = some (s', result)) : s.KeepsSizes s' := by
  unfold receiveMessage at h
  split at h
  · obtain ⟨wanted, -, h⟩ := bind_eq_some_iff.1 h
    split at h
    · cases h
      exact .of_memory rfl
    · obtain ⟨header, -, h⟩ := bind_eq_some_iff.1 h
      split at h
      · cases h
        exact .of_memory rfl
      · obtain ⟨⟨s1, queue⟩, hunlink, h⟩ := bind_eq_some_iff.1 h
        obtain ⟨s2, hrelease, h⟩ := bind_eq_some_iff.1 h
        cases h
        have hlast : s2.memory = s1.memory := release_memory hrelease
        exact (unlink_keepsSizes hunlink).trans (.of_memory hlast)
  · cases h
    exact .of_memory rfl

theorem call_keepsSizes (hs : Layout heap s queued) {call : MessageCall} {result : MessageResult}
    (h : s.call heap call = some (s', result)) : s.KeepsSizes s' := by
  cases call with
  | sendMessage target source content tx =>
    obtain ⟨⟨s1, status⟩, hsend, heq⟩ := map_eq_some_iff.1 h
    cases heq
    exact sendMessage_keepsSizes hs hsend
  | receiveMessage target max tx =>
    obtain ⟨⟨s1, r⟩, hreceive, heq⟩ := map_eq_some_iff.1 h
    cases heq
    exact receiveMessage_keepsSizes hreceive
  | clear tid =>
    obtain ⟨s1, hclear, heq⟩ := map_eq_some_iff.1 h
    cases heq
    unfold clear at hclear
    split at hclear
    · obtain ⟨s2, hreleased, hclear⟩ := bind_eq_some_iff.1 hclear
      cases hclear
      have hsame : s2.memory = s.memory := releaseAll_memory hreleased
      exact .of_memory hsame
    · cases hclear
      exact .of_memory rfl

/-! ## Places -/

/-- `queued` are the blocks of the queues, from head to end. -/
def AreQueued (s : MessageController) (queued : Tid → List Address) : Prop :=
  ∀ tid, Linked s.prev s.next (queued tid) ∧ (s.headOf tid).first = (queued tid).head? ∧
    (s.headOf tid).last = (queued tid).getLast?

/-- In a pool a buffer has the pool's size; in a queue it has the size of the pool that `release` will
choose, and room for header and content. -/
structure BuffersSorted (s : MessageController) (queued : Tid → List Address) : Prop where
  nodup : ∀ place, (s.blocksAt queued place).Nodup
  apart : ∀ {x y : Place} {a : Address}, a ∈ s.blocksAt queued x → a ∈ s.blocksAt queued y → x = y
  pool : ∀ pool, ∀ a ∈ s.pools pool, ∃ header, s.memory a = some header ∧
    sizeofMessageHeader + header.content.length = pool.size
  queue : ∀ tid, ∀ a ∈ queued tid, ∃ header pool, s.memory a = some header ∧
    poolFor (sizeofMessageHeader + header.messageLen) = some pool ∧
    sizeofMessageHeader + header.content.length = pool.size ∧
    header.messageLen ≤ header.content.length

theorem Layout.buffersSorted (hs : Layout heap s queued) : s.BuffersSorted queued := by
  refine ⟨hs.nodup, hs.apart, ?_, ?_⟩
  · intro pool a ha
    exact hs.block (show a ∈ s.blocksAt queued (.pool pool) from ha)
  · intro tid a ha
    obtain ⟨header, hheader, pool, hpool, hsize⟩ :=
      hs.block (show a ∈ s.blocksAt queued (.queue tid) from ha)
    have hfits := lt_size_of_poolFor hpool
    exact ⟨header, pool, hheader, hpool, hsize, by omega⟩

theorem Delivers.areQueued (h : Delivers heap s queued mail) :
    s.AreQueued queued := by
  intro tid
  rw [h.head tid]
  exact ⟨h.layout.linked tid, rfl, rfl⟩

/-! ## Sending -/

theorem Delivers.send_successful_iff (h : Delivers heap s queued mail)
    (hheap : ∀ i, (heap.address i).isSome) (target source : Tid)
    (tx : MessageTransaction) (hlength : content.length ≤ messageMaximumLength)
    (hroom : (s.headOf target).total + content.length ≤ messageMaximumQueueContent) :
    (∃ s', s.sendMessage heap target source content tx = some (s', .successful)) ↔
      sizeofMessageHeader + content.length < 8192 := by
  rw [h.head target] at hroom
  rcases h.sendMessage target source content tx with ⟨s', queued', hsend, -⟩ | ⟨-, pool, hnone⟩
  · rw [hsend, Mailbox.send, if_neg (by exact Nat.not_lt.2 hlength),
      if_neg (by exact Nat.not_lt.2 hroom)]
    by_cases hfits : sizeofMessageHeader + content.length < 8192
    · rw [if_neg (by exact Nat.not_le.2 hfits)]
      exact iff_of_true ⟨s', rfl⟩ hfits
    · rw [if_pos (by exact Nat.not_lt.1 hfits)]
      refine iff_of_false ?_ hfits
      rintro ⟨s1, h1⟩
      cases h1
  · have hsome := getFromPool_isSome hheap { s with queues := some (s.ensureQueue target) } pool
    rw [hnone] at hsome
    cases hsome

/-- With memory left every run returns, every buffer is in one place and in the pool of its size, the
next call changes no buffer's size, and a message that is not too long and has room is sent if and only
if its content has at most 8171 bytes. -/
theorem buffers_sorted_and_sent_iff (heap : KernelHeap) (hheap : ∀ i, (heap.address i).isSome)
    (calls : List MessageCall) :
    ∃ s results queued, runResults (call heap) {} calls = some (s, results) ∧
      s.AreQueued queued ∧ s.BuffersSorted queued ∧
      (∀ call s' result, s.call heap call = some (s', result) → s.KeepsSizes s') ∧
      ∀ target source content tx, content.length ≤ messageMaximumLength →
        (s.headOf target).total + content.length ≤ messageMaximumQueueContent →
        ((∃ s', s.sendMessage heap target source content tx = some (s', .successful)) ↔
          content.length ≤ 8171) := by
  obtain ⟨⟨s, results⟩, hrun⟩ := Option.isSome_iff_exists.1 (run_returns hheap calls)
  obtain ⟨-, queued, hdelivers⟩ := run_delivers hrun
  refine ⟨s, results, queued, hrun, hdelivers.areQueued, hdelivers.layout.buffersSorted,
    fun call s' result hcall => call_keepsSizes hdelivers.layout hcall, ?_⟩
  intro target source content tx hlength hroom
  rw [hdelivers.send_successful_iff hheap target source tx hlength hroom, sizeofMessageHeader]
  omega

/-- A heap that is never full. -/
def sampleHeap : KernelHeap :=
  ⟨fun n => some (n + 1), fun _ _ _ hi hj => Nat.succ.inj (Option.some.inj (hi.trans hj.symm))⟩

theorem buffers_sorted_and_sent_iff_two_sent :
    ∃ s results queued, runResults (call sampleHeap) {}
        [.sendMessage 7 1 [10, 11] 0, .sendMessage 7 2 [20] 5] = some (s, results) ∧
      s.BuffersSorted queued ∧
      ∃ s', s.sendMessage sampleHeap 7 3 [30, 31, 32] 0 = some (s', .successful) := by
  obtain ⟨s, results, queued, hrun, -, hsorted, -, hsent⟩ :=
    buffers_sorted_and_sent_iff sampleHeap (fun _ => rfl)
      [.sendMessage 7 1 [10, 11] 0, .sendMessage 7 2 [20] 5]
  have htotal : (runResults (call sampleHeap) {}
      [.sendMessage 7 1 [10, 11] 0, .sendMessage 7 2 [20] 5]).map
        (fun r => (r.1.headOf 7).total) = some 3 := by decide +kernel
  rw [hrun, Option.map_some, Option.some.injEq] at htotal
  refine ⟨s, results, queued, hrun, hsorted, (hsent 7 3 [30, 31, 32] 0 (by decide) ?_).2 (by decide)⟩
  rw [htotal]
  decide

/-- A message of 8172 bytes to a thread without messages is not sent. -/
theorem longest_message_fails : ¬ ∀ (heap : KernelHeap), (∀ i, (heap.address i).isSome) →
    ∀ calls s results, runResults (call heap) {} calls = some (s, results) →
      ∀ target source content tx, content.length ≤ messageMaximumLength →
        (s.headOf target).total + content.length ≤ messageMaximumQueueContent →
        ∃ s', s.sendMessage heap target source content tx = some (s', .successful) := by
  intro hall
  have hlength : (List.replicate 8172 (0 : UInt8)).length = 8172 := List.length_replicate
  have hmax : (List.replicate 8172 (0 : UInt8)).length ≤ messageMaximumLength := by
    rw [hlength]
    decide
  have hroom : (headOf {} 7).total + (List.replicate 8172 (0 : UInt8)).length ≤
      messageMaximumQueueContent := by
    rw [hlength]
    decide
  have hsent := hall sampleHeap (fun _ => rfl) [] {} [] rfl 7 1 _ 0 hmax hroom
  rw [(Delivers.empty sampleHeap).send_successful_iff (fun _ => rfl) 7 1 0 hmax hroom, hlength] at hsent
  exact absurd hsent (by decide)

end MessageController

end MeetixOS.Kernel
