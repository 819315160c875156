import MeetixOS.Kernel.Tasking.Communication.Layout

/-! # Message queues as lists

What the controller is for: every thread has a mailbox, a list of messages. `Mailbox` also keeps the history
of what was sent, received and cleared, and says what each call returns. `Delivers` relates the controller
to the mailboxes. -/

open Option (bind_eq_bind bind_some getD_some isSome_iff_exists map_none map_some)
open Function (update_of_ne update_self)

namespace MeetixOS.Kernel

open MeetixOS.Lib

/-! ## Mailboxes -/

/-- The messages in the mailbox of a thread, and all that were ever sent to it, received and
cleared. -/
structure Mailbox where
  queued : List Message := []
  sent : List Message := []
  received : List Message := []
  cleared : List Message := []

/-- A message that a receiver asks for: any one, or one of a transaction. -/
def Message.wanted (tx : MessageTransaction) (message : Message) : Bool :=
  tx = messageTransactionNone || message.transaction = tx

namespace Mailbox

/-- The length of all messages together. -/
def total (m : Mailbox) : Nat := (m.queued.map Message.length).sum

/-- A message is put behind the others. -/
def append (m : Mailbox) (message : Message) : Mailbox :=
  { m with queued := m.queued ++ [message], sent := m.sent ++ [message] }

/-- A message is appended, if it is not too long and there is room for it. -/
def send (m : Mailbox) (message : Message) : Mailbox × MessageSendStatus :=
  if message.length > messageMaximumLength then (m, .exceedsMaximum)
  else if m.total + message.length > messageMaximumQueueContent then (m, .queueFull)
  else if sizeofMessageHeader + message.length ≥ 8192 then (m, .failed)
  else (m.append message, .successful)

/-- The first message that is wanted is taken out, if the buffer can hold it. -/
def receive (m : Mailbox) (max : Nat) (tx : MessageTransaction) :
    Mailbox × MessageReceiveStatus × Option Message :=
  match m.queued.find? (·.wanted tx) with
  | none => (m, .queueEmpty, none)
  | some message =>
    if sizeofMessageHeader + message.length > max then (m, .exceedsBufferSize, none)
    else
      ({ m with
         queued := m.queued.eraseP (·.wanted tx)
         received := m.received ++ [message] }, .successful, some message)

/-- All messages are dropped. -/
def clear (m : Mailbox) : Mailbox := { m with queued := [], cleared := m.cleared ++ m.queued }

/-- What was sent was received once, or cleared, or is still there. -/
def Conserves (m : Mailbox) : Prop := m.sent.Perm (m.received ++ m.cleared ++ m.queued)

variable {m : Mailbox}

theorem Conserves.send (h : m.Conserves) (message : Message) : (m.send message).1.Conserves := by
  unfold Mailbox.send
  split
  next => exact h
  next =>
    split
    next => exact h
    next =>
      split
      next => exact h
      next =>
        rw [Conserves, append, ← List.append_assoc]
        exact List.Perm.append_right _ h

theorem find?_split {p : Message → Bool} {l : List Message} {message : Message}
    (h : l.find? p = some message) :
    ∃ before behind, l = before ++ message :: behind ∧ l.eraseP p = before ++ behind := by
  obtain ⟨hp, before, behind, rfl, hbefore⟩ := List.find?_eq_some_iff_append.1 h
  refine ⟨before, behind, rfl, ?_⟩
  rw [List.eraseP_append_right _ fun b hb => by simpa using hbefore b hb,
    List.eraseP_cons_of_pos hp]

theorem Conserves.receive (h : m.Conserves) (max : Nat) (tx : MessageTransaction) :
    (m.receive max tx).1.Conserves := by
  unfold Mailbox.receive
  split
  next => exact h
  next message hfind =>
    split
    next => exact h
    next =>
      obtain ⟨before, behind, hqueued, herase⟩ := find?_split hfind
      have hmiddle : (before ++ message :: behind).Perm (message :: (before ++ behind)) :=
        List.perm_middle
      rw [Conserves, hqueued] at h
      rw [Conserves, herase]
      refine h.trans ?_
      simp only [List.append_assoc]
      refine List.Perm.append_left _ ?_
      exact (List.Perm.append_left _ hmiddle).trans List.perm_middle

theorem Conserves.clear (h : m.Conserves) : m.clear.Conserves := by
  rw [Conserves, Mailbox.clear, List.append_nil, ← List.append_assoc]
  exact h

theorem conserves_empty : ({} : Mailbox).Conserves := List.Perm.refl _

end Mailbox

/-- The mailboxes of all threads, and what a call returns. -/
def mailboxCall (mail : Tid → Mailbox) : MessageCall → (Tid → Mailbox) × MessageResult
  | .sendMessage target source content tx =>
    let r := (mail target).send
      { sender := source, transaction := tx, length := content.length, content }
    (Function.update mail target r.1, .sent r.2)
  | .receiveMessage target max tx =>
    let r := (mail target).receive max tx
    (Function.update mail target r.1, .received r.2.1 r.2.2)
  | .clear tid => (Function.update mail tid (mail tid).clear, .cleared)

/-- The thread whose mailbox a call is about. -/
def MessageCall.thread : MessageCall → Tid
  | .sendMessage target _ _ _ => target
  | .receiveMessage target _ _ => target
  | .clear tid => tid

theorem mailboxCall_conserves {mail : Tid → Mailbox} (h : ∀ tid, (mail tid).Conserves)
    (call : MessageCall) (tid : Tid) : ((mailboxCall mail call).1 tid).Conserves := by
  have hupdate : ∀ {target : Tid} {m : Mailbox}, m.Conserves →
      (Function.update mail target m tid).Conserves := by
    intro target m hm
    rw [Function.update_apply]
    split
    next => exact hm
    next => exact h tid
  cases call with
  | sendMessage target source content tx => exact hupdate ((h target).send _)
  | receiveMessage target max tx => exact hupdate ((h target).receive max tx)
  | clear tid => exact hupdate (h tid).clear

theorem runSpec_conserves {mail : Tid → Mailbox} (h : ∀ tid, (mail tid).Conserves)
    (calls : List MessageCall) (tid : Tid) :
    ((runSpec mailboxCall mail calls).1 tid).Conserves := by
  induction calls generalizing mail with
  | nil => exact h tid
  | cons call calls ih => exact ih (mailboxCall_conserves h call)

/-! ## What callers see -/

/-- The message that a call has sent to a thread. -/
def sentTo (tid : Tid) : MessageCall × MessageResult → Option Message
  | (.sendMessage target source content tx, .sent .successful) =>
    if target = tid then
      some { sender := source, transaction := tx, length := content.length, content }
    else none
  | _ => none

/-- The message that a call has received for a thread. -/
def receivedBy (tid : Tid) : MessageCall × MessageResult → Option Message
  | (.receiveMessage target _ _, .received .successful message) =>
    if target = tid then message else none
  | _ => none

variable {tid : Tid}

theorem sentTo_of_ne {call : MessageCall} (h : call.thread ≠ tid)
    (result : MessageResult) : sentTo tid (call, result) = none := by
  unfold sentTo
  split
  next heq =>
    cases heq
    exact if_neg h
  next => rfl

theorem receivedBy_of_ne {call : MessageCall} (h : call.thread ≠ tid)
    (result : MessageResult) : receivedBy tid (call, result) = none := by
  unfold receivedBy
  split
  next heq =>
    cases heq
    exact if_neg h
  next => rfl

theorem mailboxCall_of_ne (mail : Tid → Mailbox) {call : MessageCall}
    (h : call.thread ≠ tid) : (mailboxCall mail call).1 tid = mail tid := by
  cases call <;> exact update_of_ne (Ne.symm h) ..

theorem mailboxCall_history (mail : Tid → Mailbox) (call : MessageCall) (tid : Tid) :
    ((mailboxCall mail call).1 tid).sent =
        (mail tid).sent ++ (sentTo tid (call, (mailboxCall mail call).2)).toList ∧
      ((mailboxCall mail call).1 tid).received =
        (mail tid).received ++ (receivedBy tid (call, (mailboxCall mail call).2)).toList ∧
      (call ≠ .clear tid → ((mailboxCall mail call).1 tid).cleared = (mail tid).cleared) := by
  by_cases h : call.thread = tid
  · subst h
    cases call with
    | sendMessage target source content tx =>
      simp only [mailboxCall, MessageCall.thread, update_self, Mailbox.send]
      split_ifs <;> simp [sentTo, receivedBy, Mailbox.append]
    | receiveMessage target max tx =>
      simp only [mailboxCall, MessageCall.thread, update_self, Mailbox.receive]
      split
      next => simp [sentTo, receivedBy]
      next =>
        split_ifs <;> simp [sentTo, receivedBy]
    | clear tid =>
      simp [mailboxCall, MessageCall.thread, Mailbox.clear, sentTo, receivedBy]
  · rw [mailboxCall_of_ne mail h, sentTo_of_ne h, receivedBy_of_ne h]
    simp

theorem filterMap_cons_toList {α β : Type} (f : α → Option β) (a : α) (l : List α) :
    (a :: l).filterMap f = (f a).toList ++ l.filterMap f := by
  rw [List.filterMap_eq_flatMap_toList, List.flatMap_cons, List.filterMap_eq_flatMap_toList]

theorem runSpec_history (mail : Tid → Mailbox) (calls : List MessageCall) (tid : Tid) :
    ((runSpec mailboxCall mail calls).1 tid).sent = (mail tid).sent ++
        (calls.zip (runSpec mailboxCall mail calls).2).filterMap (sentTo tid) ∧
      ((runSpec mailboxCall mail calls).1 tid).received = (mail tid).received ++
        (calls.zip (runSpec mailboxCall mail calls).2).filterMap (receivedBy tid) ∧
      (.clear tid ∉ calls →
        ((runSpec mailboxCall mail calls).1 tid).cleared = (mail tid).cleared) := by
  induction calls generalizing mail with
  | nil => simp [runSpec]
  | cons call calls ih =>
    obtain ⟨hsent, hreceived, hcleared⟩ := mailboxCall_history mail call tid
    obtain ⟨ihsent, ihreceived, ihcleared⟩ := ih (mailboxCall mail call).1
    refine ⟨?_, ?_, ?_⟩
    · rw [runSpec, ihsent, hsent, List.zip_cons_cons, filterMap_cons_toList, List.append_assoc]
    · rw [runSpec, ihreceived, hreceived, List.zip_cons_cons, filterMap_cons_toList,
        List.append_assoc]
    · intro hnot
      rw [List.mem_cons, not_or] at hnot
      rw [runSpec, ihcleared hnot.2, hcleared fun heq => hnot.1 heq.symm]

namespace MessageController

variable {heap : KernelHeap} {s s' : MessageController} {queued : Tid → List Address}
  {mail : Tid → Mailbox}

/-! ## The controller and the mailboxes -/

/-- The message in a block. -/
def messageOf (s : MessageController) (a : Address) : Message :=
  ((s.memory a).getD { content := [] }).message

/-- The head of the queue of a thread; without one it is as good as an empty one. -/
def headOf (s : MessageController) (tid : Tid) : MessageQueueHead :=
  (s.queues.bind fun queues => queues.get tid).getD {}

/-- The blocks of each queue hold the messages of the mailbox, and the heads fit. -/
structure Delivers (heap : KernelHeap) (s : MessageController) (queued : Tid → List Address)
    (mail : Tid → Mailbox) : Prop where
  layout : Layout heap s queued
  messages : ∀ tid, (mail tid).queued = (queued tid).map s.messageOf
  head : ∀ tid, s.headOf tid =
    { first := (queued tid).head?, last := (queued tid).getLast?, total := (mail tid).total }
  total_le : ∀ tid, (mail tid).total ≤ messageMaximumQueueContent

variable {a : Address} {target : Tid}

theorem messageOf_eq {header : MessageHeader} (h : s.memory a = some header) :
    s.messageOf a = header.message := by
  rw [messageOf, h, getD_some]

theorem Relinked.messageOf_eq (h : Relinked s s') (a : Address) :
    s'.messageOf a = s.messageOf a := by
  have hmemory := h.memory a
  cases hs : s.memory a with
  | none =>
    rw [hs, map_none, Option.map_eq_none_iff] at hmemory
    rw [messageOf, messageOf, hs, hmemory]
  | some header =>
    obtain ⟨header', hheader', hunlinked⟩ := h.header hs
    rw [MessageController.messageOf_eq hs, MessageController.messageOf_eq hheader']
    exact MessageHeader.message_of_unlinked hunlinked

theorem Layout.setQueues (hs : Layout heap s queued)
    (queues : Option (HashMap Tid MessageQueueHead)) : Layout heap { s with queues } queued :=
  ⟨hs.nodup, hs.apart, hs.block, hs.allocated, hs.linked⟩

theorem Delivers.setQueues (h : Delivers heap s queued mail)
    {queues : Option (HashMap Tid MessageQueueHead)}
    (hhead : ∀ tid, ({ s with queues } : MessageController).headOf tid = s.headOf tid) :
    Delivers heap { s with queues } queued mail :=
  ⟨h.layout.setQueues queues, h.messages, fun tid => (hhead tid).trans (h.head tid), h.total_le⟩

theorem poolFor_eq_none_iff {size : Nat} : poolFor size = none ↔ size ≥ 8192 := by
  unfold poolFor
  repeat' split
  all_goals simp only [reduceCtorEq, false_iff, true_iff]
  all_goals omega

theorem Delivers.update (h : Delivers heap s queued mail) {blocks : List Address}
    (queues : HashMap Tid MessageQueueHead) {mailbox : Mailbox}
    (hlayout : Layout heap s' (Function.update queued target blocks))
    (hsame : ∀ tid, tid ≠ target → ∀ b ∈ queued tid, s'.messageOf b = s.messageOf b)
    (hmessages : mailbox.queued = blocks.map s'.messageOf)
    (htotal : mailbox.total ≤ messageMaximumQueueContent)
    (hhead : (queues.get target).getD {} =
      { first := blocks.head?, last := blocks.getLast?, total := mailbox.total })
    (hothers : ∀ tid, tid ≠ target → (queues.get tid).getD {} = s.headOf tid) :
    Delivers heap { s' with queues := some queues } (Function.update queued target blocks)
      (Function.update mail target mailbox) := by
  refine ⟨hlayout.setQueues _, ?_, ?_, ?_⟩
  · intro tid
    by_cases ht : tid = target
    · subst ht
      rw [update_self, update_self]
      exact hmessages
    · rw [update_of_ne ht, update_of_ne ht, h.messages tid]
      exact (List.map_congr_left fun b hb => hsame tid ht b hb).symm
  · intro tid
    by_cases ht : tid = target
    · subst ht
      rw [update_self, update_self]
      exact hhead
    · rw [update_of_ne ht, update_of_ne ht, ← h.head tid]
      exact hothers tid ht
  · intro tid
    by_cases ht : tid = target
    · subst ht
      rw [update_self]
      exact htotal
    · rw [update_of_ne ht]
      exact h.total_le tid

/-! ## Sending -/

theorem get_getD_empty (tid : Tid) : ((s.queues.getD .empty).get tid).getD {} = s.headOf tid := by
  cases hs : s.queues with
  | none => rw [Option.getD_none, HashMap.get_empty, headOf, hs, Option.bind_none]
  | some queues => rw [getD_some, headOf, hs, bind_some]

theorem get_ensureQueue (target tid : Tid) :
    ((s.ensureQueue target).get tid).getD {} = s.headOf tid := by
  unfold ensureQueue
  dsimp only
  split
  next hnone =>
    rw [HashMap.get_add, ← get_getD_empty]
    split
    next ht => rw [ht, Option.isNone_iff_eq_none.1 hnone, Option.getD_none, getD_some]
    next => rfl
  next => exact get_getD_empty tid

theorem ensureQueue_isSome (target : Tid) : ((s.ensureQueue target).get target).isSome := by
  unfold ensureQueue
  dsimp only
  split
  next hnone => rw [HashMap.get_add, if_pos rfl, Option.isSome_some]
  next hsome => exact Option.isSome_iff_ne_none.2 fun h => hsome (by rw [h]; rfl)

theorem Delivers.store (h : Delivers heap s queued mail) (source : Tid)
    {content : List UInt8} (tx : MessageTransaction) {pool : MessageMemoryPool}
    {s1 : MessageController} (mailbox : Mailbox)
    (hpool : poolFor (sizeofMessageHeader + content.length) = some pool)
    (hroom : (mail target).total + content.length ≤ messageMaximumQueueContent)
    (hget : ({ s with queues := some (s.ensureQueue target) } : MessageController).getFromPool heap
      pool = some (a, s1))
    (hmailbox : mailbox.queued = (mail target).queued ++
      [{ sender := source, transaction := tx, length := content.length, content }]) :
    ∃ s2 s3 queue, s1.writeMessage a source content tx = some s2 ∧
      s2.append (s.headOf target) a = some (s3, queue) ∧
      ∃ queued', Delivers heap
        { s3 with
          queues := some ((s.ensureQueue target).update target
            { queue with total := u32 (queue.total + content.length) }) }
        queued' (Function.update mail target mailbox) := by
  obtain ⟨hlayout1, hfree, -, hmemory, header, hheader, hsize⟩ :=
    (h.layout.setQueues (some (s.ensureQueue target))).getFromPool hget
  have hlt := lt_size_of_poolFor hpool
  have hfit : content.length ≤ header.content.length := by omega
  -- the block with the message written to it
  obtain ⟨header2, hheader2⟩ : ∃ header2 : MessageHeader, header2 = { header with
      transaction := tx
      senderTid := source
      messageLen := content.length
      content := content ++ header.content.drop content.length } := ⟨_, rfl⟩
  have hwrite : s1.writeMessage a source content tx = some (s1.setHeader a header2) := by
    rw [writeMessage, hheader, hheader2]
    simp [if_pos hfit, modifyMessage_eq hheader]
  have hlayout2 := hlayout1.setFree hfree (isSome_iff_exists.2 ⟨header, hheader⟩) header2
  have hlast : (s.headOf target).last = (queued target).getLast? := by rw [h.head]
  obtain ⟨s3, hs3, hrelinked, hprev, hnext⟩ := hlayout2.append
    (isSome_iff_exists.2 ⟨header2, memory_setHeader_self⟩) hlast
  have hfits : (Place.queue target).Fits header2 := by
    refine ⟨pool, by rw [hheader2]; exact hpool, ?_⟩
    rw [hheader2, List.length_append, List.length_drop]
    omega
  have hmessage : header2.message =
      { sender := source, transaction := tx, length := content.length, content } := by
    rw [hheader2, MessageHeader.message, List.take_left]
  have hlayout3 := hlayout2.enqueue target hfree memory_setHeader_self hfits hrelinked hprev hnext
  have hold : ∀ tid, ∀ b ∈ queued tid, s3.messageOf b = s.messageOf b := by
    intro tid b hb
    have hne : b ≠ a := fun heq => hfree (.queue tid) (heq ▸ hb)
    rw [hrelinked.messageOf_eq, messageOf, memory_setHeader_of_ne hne,
      hmemory b (h.layout.isSome_of_mem hb), messageOf]
  have htotal : mailbox.total = (mail target).total + content.length := by
    rw [Mailbox.total, hmailbox, List.map_append, List.sum_append, List.map_singleton,
      List.sum_singleton]
    rfl
  have hu32 : u32 ((mail target).total + content.length) = (mail target).total + content.length := by
    refine u32_of_lt (Nat.lt_of_le_of_lt hroom ?_)
    decide
  refine ⟨_, s3, _, hwrite, hs3, _, h.update _ hlayout3 (fun tid _ => hold tid) ?_ ?_ ?_ ?_⟩
  · rw [hmailbox, List.map_append, h.messages target, List.map_singleton,
      hrelinked.messageOf_eq, messageOf_eq memory_setHeader_self, hmessage]
    congr 1
    exact List.map_congr_left fun b hb => (hold target b hb).symm
  · rw [htotal]
    exact hroom
  · obtain ⟨old, hold⟩ := isSome_iff_exists.1 (s.ensureQueue_isSome target)
    rw [HashMap.get_update, if_pos rfl, hold, map_some, getD_some, h.head, htotal, hu32]
    simp [List.head?_append]
  · intro tid ht
    rw [HashMap.get_update, if_neg ht, get_ensureQueue]

theorem Delivers.ensure (h : Delivers heap s queued mail) (target : Tid) :
    Delivers heap { s with queues := some (s.ensureQueue target) } queued mail :=
  h.setQueues fun tid => get_ensureQueue target tid

theorem update_self (mail : Tid → Mailbox) (tid : Tid) :
    Function.update mail tid (mail tid) = mail :=
  Function.update_eq_self ..

theorem Delivers.sendMessage (h : Delivers heap s queued mail) (target source : Tid)
    (content : List UInt8) (tx : MessageTransaction) :
    (∃ s' queued', s.sendMessage heap target source content tx =
        some (s', ((mail target).send
          { sender := source, transaction := tx, length := content.length, content }).2) ∧
      Delivers heap s' queued' (Function.update mail target ((mail target).send
        { sender := source, transaction := tx, length := content.length, content }).1)) ∨
    (s.sendMessage heap target source content tx = none ∧ ∃ pool,
      ({ s with queues := some (s.ensureQueue target) } : MessageController).getFromPool heap pool =
        none) := by
  have hhead : ((s.ensureQueue target).get target).getD {} = s.headOf target :=
    get_ensureQueue target target
  have htotal : (s.headOf target).total = (mail target).total := by rw [h.head]
  unfold MessageController.sendMessage Mailbox.send
  dsimp only
  by_cases hlong : content.length > messageMaximumLength
  · rw [if_pos hlong, if_pos hlong, update_self]
    exact .inl ⟨_, queued, rfl, h.setQueues get_getD_empty⟩
  · have hu32 : u32 ((mail target).total + content.length) =
        (mail target).total + content.length := by
      have hle := h.total_le target
      rw [messageMaximumLength] at hlong
      rw [messageMaximumQueueContent] at hle
      exact u32_of_lt (by omega)
    have hensure : ({ s with queues := some (s.queues.getD .empty) } :
        MessageController).ensureQueue target = s.ensureQueue target := rfl
    rw [if_neg hlong, if_neg hlong, hensure, hhead, htotal, hu32]
    by_cases hfull : (mail target).total + content.length > messageMaximumQueueContent
    · rw [if_pos hfull, if_pos hfull, update_self]
      exact .inl ⟨_, queued, rfl, h.ensure target⟩
    · rw [if_neg hfull, if_neg hfull]
      cases hpool : poolFor (sizeofMessageHeader + content.length) with
      | none =>
        rw [if_pos (poolFor_eq_none_iff.1 hpool), update_self]
        exact .inl ⟨_, queued, rfl, h.ensure target⟩
      | some pool =>
        have hsmall : ¬ sizeofMessageHeader + content.length ≥ 8192 := by
          rw [← poolFor_eq_none_iff, hpool]
          exact Option.some_ne_none pool
        rw [if_neg hsmall]
        cases hget : ({ s with queues := some (s.ensureQueue target) } :
            MessageController).getFromPool heap pool with
        | none =>
          refine .inr ⟨?_, pool, hget⟩
          simp [hget]
        | some result =>
          obtain ⟨s2, s3, queue, hwrite, happend, queued', hdelivers⟩ :=
            h.store source tx ((mail target).append _) hpool (Nat.le_of_not_gt hfull) hget rfl
          refine .inl ⟨_, queued', ?_, hdelivers⟩
          simp [hget, hwrite, happend]

/-! ## Receiving -/

theorem Layout.findMessage (hs : Layout heap s queued) {tid : Tid} (tx : MessageTransaction)
    {before rest : List Address} (hqueue : queued tid = before ++ rest) {fuel : Nat}
    (hfuel : rest.length ≤ fuel) :
    s.findMessage tx fuel rest.head? =
      some (rest.find? fun a => (s.messageOf a).transaction = tx) := by
  induction rest generalizing before fuel with
  | nil => cases fuel <;> rfl
  | cons a rest ih =>
    obtain ⟨fuel, rfl⟩ : ∃ n, fuel = n + 1 :=
      Nat.exists_eq_add_one_of_ne_zero fun h => (by simp [h] at hfuel)
    have hmem : a ∈ queued tid := by
      rw [hqueue]
      exact List.mem_append_right _ List.mem_cons_self
    obtain ⟨header, hheader⟩ := isSome_iff_exists.1 (hs.isSome_of_mem hmem)
    have hnext : header.next = rest.head? := by
      have h := (Linked.pointers (hqueue ▸ hs.linked tid)).2
      rwa [next, hheader, bind_some] at h
    have htransaction : (s.messageOf a).transaction = header.transaction := by
      rw [messageOf_eq hheader]
      rfl
    rw [List.head?_cons, MessageController.findMessage, hheader]
    simp only [bind_eq_bind, bind_some, hnext]
    by_cases htx : header.transaction = tx
    · rw [if_pos htx, List.find?_cons_of_pos (by rw [htransaction]; exact decide_eq_true htx)]
    · rw [if_neg htx, List.find?_cons_of_neg (by rw [htransaction]; simpa using htx)]
      have hrest : queued tid = (before ++ [a]) ++ rest := by
        rw [hqueue, List.append_assoc, List.singleton_append]
      exact ih hrest (Nat.le_of_succ_le_succ hfuel)

section

variable (h : Delivers heap s queued mail)
include h

theorem Delivers.wantedMessage (target : Tid) (tx : MessageTransaction) :
    s.wantedMessage (s.headOf target) tx =
      some ((queued target).find? fun a => (s.messageOf a).wanted tx) := by
  rw [MessageController.wantedMessage, h.head]
  by_cases htx : tx = messageTransactionNone
  · rw [if_pos htx]
    congr 1
    cases queued target with
    | nil => rfl
    | cons a rest =>
      rw [List.find?_cons_of_pos (by rw [Message.wanted, decide_eq_true htx, Bool.true_or]),
        List.head?_cons]
  · rw [if_neg htx, h.layout.findMessage tx (List.nil_append _).symm (h.layout.length_le target)]
    simp [Message.wanted, decide_eq_false htx]

theorem Delivers.remove {before behind : List Address}
    (hqueue : queued target = before ++ a :: behind) {queues : HashMap Tid MessageQueueHead}
    (hqueues : s.queues = some queues) (hsome : (queues.get target).isSome) (mailbox : Mailbox)
    (hmailbox : mailbox.queued = (before ++ behind).map s.messageOf) :
    ∃ s1 s2 queue, s.unlink (s.headOf target) a = some (s1, queue) ∧ s1.release a = some s2 ∧
      Delivers heap
        { s2 with
          queues := some (queues.update target
            { queue with total := u32 (queue.total + 2 ^ 32 - (s.messageOf a).length) }) }
        (Function.update queued target (before ++ behind)) (Function.update mail target mailbox) := by
  have hfirst : (s.headOf target).first = (queued target).head? := by rw [h.head]
  have hlast : (s.headOf target).last = (queued target).getLast? := by rw [h.head]
  obtain ⟨s1, hs1, hrelinked, hprev, hnext⟩ := h.layout.unlink hqueue hfirst hlast
  obtain ⟨hlayout1, hfree⟩ := h.layout.dequeue hqueue hrelinked hprev hnext
  have hmem : a ∈ s.blocksAt queued (.queue target) := by
    rw [blocksAt, hqueue]
    exact List.mem_append_right _ List.mem_cons_self
  obtain ⟨header, hheader, fit, hpool, hsize⟩ := h.layout.block hmem
  obtain ⟨header1, hheader1, hunlinked⟩ := hrelinked.header hheader
  obtain ⟨-, -, hlen, hcontent⟩ := MessageHeader.fields_of_unlinked hunlinked
  have hrelease : s1.release a = some (s1.push fit a) := by
    rw [release, hheader1, bind_eq_bind, bind_some, hlen, hpool]
  have hlayout2 := hlayout1.push fit hfree hheader1 (by rw [hcontent]; exact hsize)
  have htotal : (mail target).total = mailbox.total + (s.messageOf a).length := by
    rw [Mailbox.total, Mailbox.total, h.messages target, hqueue, hmailbox]
    simp only [List.map_append, List.map_cons, List.sum_append, List.sum_cons]
    omega
  have hle := h.total_le target
  have hu32 : u32 ((mail target).total + 2 ^ 32 - (s.messageOf a).length) = mailbox.total := by
    rw [messageMaximumQueueContent] at hle
    rw [u32_sub (by omega) (by omega)]
    omega
  have hsame := hrelinked.messageOf_eq
  refine ⟨s1, s1.push fit a, _, hs1, hrelease, h.update _ hlayout2 (fun _ _ b _ => hsame b) ?_ ?_ ?_ ?_⟩
  · rw [hmailbox]
    exact List.map_congr_left fun b _ => (hsame b).symm
  · omega
  · obtain ⟨old, hold⟩ := isSome_iff_exists.1 hsome
    rw [HashMap.get_update, if_pos rfl, hold, map_some, getD_some, h.head, hu32]
  · intro tid ht
    rw [HashMap.get_update, if_neg ht, headOf, hqueues, bind_some]

theorem Delivers.receiveMessage (target : Tid) (max : Nat) (tx : MessageTransaction) :
    ∃ s' queued', s.receiveMessage target max tx = some (s', ((mail target).receive max tx).2) ∧
      Delivers heap s' queued' (Function.update mail target ((mail target).receive max tx).1) := by
  have hfind : (mail target).queued.find? (·.wanted tx) =
      ((queued target).find? fun a => (s.messageOf a).wanted tx).map s.messageOf := by
    rw [h.messages target, List.find?_map]
    rfl
  cases hqueue : s.queues.bind fun queues => queues.get target with
  | none =>
    have hnil : queued target = [] := by
      have hfirst := congrArg MessageQueueHead.first (h.head target)
      rw [headOf, hqueue] at hfirst
      exact List.head?_eq_none_iff.1 hfirst.symm
    rw [hnil, List.find?_nil, map_none] at hfind
    refine ⟨s, queued, ?_, ?_⟩
    · simp [MessageController.receiveMessage, hqueue, Mailbox.receive, hfind]
    · simp only [Mailbox.receive, hfind, update_self]
      exact h
  | some queue =>
    obtain ⟨queues, hqueues, hget⟩ := Option.bind_eq_some_iff.1 hqueue
    have hhead : s.headOf target = queue := by rw [headOf, hqueue, getD_some]
    have hwanted := h.wantedMessage target tx
    rw [hhead] at hwanted
    cases hblock : (queued target).find? fun a => (s.messageOf a).wanted tx with
    | none =>
      rw [hblock, map_none] at hfind
      refine ⟨s, queued, ?_, ?_⟩
      · simp only [MessageController.receiveMessage, hqueues, hget, hwanted, hblock,
          bind_eq_bind, bind_some, Mailbox.receive, hfind]
      · simp only [Mailbox.receive, hfind, update_self]
        exact h
    | some a =>
      rw [hblock, map_some] at hfind
      obtain ⟨hp, before, behind, hsplit, hbefore⟩ := List.find?_eq_some_iff_append.1 hblock
      obtain ⟨header, hheader⟩ := isSome_iff_exists.1
        (h.layout.isSome_of_mem (List.mem_of_find?_eq_some hblock))
      have hmessage := messageOf_eq hheader
      by_cases hmax : sizeofMessageHeader + header.messageLen > max
      · refine ⟨s, queued, ?_, ?_⟩
        · simp only [MessageController.receiveMessage, hqueues, hget, hwanted, hblock, hheader,
            bind_eq_bind, bind_some, Mailbox.receive, hfind, hmessage,
            MessageHeader.message, if_pos hmax]
        · simp only [Mailbox.receive, hfind, hmessage, MessageHeader.message, if_pos hmax,
            update_self]
          exact h
      · have herase : (mail target).queued.eraseP (·.wanted tx) =
            (before ++ behind).map s.messageOf := by
          rw [h.messages target, hsplit, List.map_append, List.map_append, List.map_cons,
            List.eraseP_append_right _ ?_, List.eraseP_cons_of_pos hp]
          intro message hmem
          obtain ⟨b, hb, rfl⟩ := List.mem_map.1 hmem
          simpa using hbefore b hb
        obtain ⟨mailbox, hmailbox⟩ : ∃ mailbox : Mailbox, mailbox = { mail target with
            queued := (mail target).queued.eraseP (·.wanted tx)
            received := (mail target).received ++ [header.message] } := ⟨_, rfl⟩
        obtain ⟨s1, s2, queue', hunlink, hrelease, hdelivers⟩ :=
          h.remove hsplit hqueues (by rw [hget]; rfl) mailbox (by rw [hmailbox]; exact herase)
        rw [hhead] at hunlink
        have hreceive : (mail target).receive max tx =
            (mailbox, .successful, some header.message) := by
          simp [Mailbox.receive, hfind, hmessage, MessageHeader.message, if_neg hmax, hmailbox]
        rw [hreceive]
        refine ⟨_, _, ?_, hdelivers⟩
        simp only [MessageController.receiveMessage, hqueues, hget, hwanted, hblock, hheader,
          bind_eq_bind, bind_some, if_neg hmax, hunlink, hrelease, hmessage]
        rfl

end

/-! ## Clearing -/

theorem Delivers.clear (h : Delivers heap s queued mail) (tid : Tid) :
    ∃ s' queued', s.clear tid = some s' ∧
      Delivers heap s' queued' (Function.update mail tid (mail tid).clear) := by
  obtain ⟨s1, hs1, hlayout, hmemory, -⟩ := h.layout.clear tid
  have hsame : ∀ b, s1.messageOf b = s.messageOf b := fun b => by rw [messageOf, messageOf, hmemory]
  cases hqueue : s.queues.bind fun queues => queues.get tid with
  | none =>
    have hhead := h.head tid
    rw [headOf, hqueue] at hhead
    have hnil : queued tid = [] :=
      List.head?_eq_none_iff.1 (congrArg MessageQueueHead.first hhead).symm
    have hempty : (mail tid).queued = [] := by rw [h.messages tid, hnil, List.map_nil]
    have hclear : (mail tid).clear = mail tid := by
      rw [Mailbox.clear, hempty, List.append_nil, ← hempty]
    refine ⟨s, queued, ?_, ?_⟩
    · simp [MessageController.clear, hqueue]
    · rw [hclear, update_self]
      exact h
  | some queue =>
    obtain ⟨queues, hqueues, hget⟩ := Option.bind_eq_some_iff.1 hqueue
    have hfirst : queue.first = (queued tid).head? := by
      have hhead := h.head tid
      rw [headOf, hqueue, getD_some] at hhead
      rw [hhead]
    rw [← hfirst] at hs1
    refine ⟨_, _, ?_, h.update (queues.erase tid) hlayout (fun _ _ b _ => hsame b) rfl
      (Nat.zero_le _) ?_ ?_⟩
    · simp [MessageController.clear, hqueues, hget, hs1]
    · rw [HashMap.get_erase, if_pos rfl]
      rfl
    · intro other hother
      rw [HashMap.get_erase, if_neg hother, headOf, hqueues, bind_some]

/-! ## Whole runs -/

theorem Delivers.empty (heap : KernelHeap) : Delivers heap {} (fun _ => []) fun _ => {} := by
  refine ⟨⟨?_, ?_, ?_, ?_, fun _ => trivial⟩, fun _ => rfl, fun _ => rfl, fun _ => Nat.zero_le _⟩
  · intro place
    cases place <;> exact List.nodup_nil
  · intro x y a hx
    cases x <;> exact absurd hx List.not_mem_nil
  · intro place a ha
    cases place <;> exact absurd ha List.not_mem_nil
  · intro a header hheader
    cases hheader

theorem refillLoop_pools_ne_nil (hheap : ∀ i, (heap.address i).isSome) {pool : MessageMemoryPool}
    {n : Nat} (h : s.pools pool ≠ [] ∨ 0 < n) : (refillLoop heap pool n s).pools pool ≠ [] := by
  induction n generalizing s with
  | zero => exact h.resolve_right (Nat.lt_irrefl 0)
  | succ n ih =>
    obtain ⟨a, ha⟩ := isSome_iff_exists.1 (hheap s.allocations)
    rw [refillLoop, ha]
    refine ih (.inl ?_)
    simp [push, setPool]

theorem getFromPool_isSome (hheap : ∀ i, (heap.address i).isSome) (s : MessageController)
    (pool : MessageMemoryPool) : (s.getFromPool heap pool).isSome := by
  unfold getFromPool
  split
  next => rfl
  next =>
    have hfull : (s.refill heap pool).pools pool ≠ [] :=
      refillLoop_pools_ne_nil hheap (.inr (by decide))
    unfold pop
    split
    next hnil => exact absurd hnil hfull
    next => rfl

section

variable (h : Delivers heap s queued mail)
include h

theorem Delivers.call (call : MessageCall) :
    (∃ s' queued', s.call heap call = some (s', (mailboxCall mail call).2) ∧
      Delivers heap s' queued' (mailboxCall mail call).1) ∨
    (s.call heap call = none ∧ ∃ i, heap.address i = none) := by
  cases call with
  | sendMessage target source content tx =>
    rcases h.sendMessage target source content tx with ⟨s', queued', hcall, hdelivers⟩ |
      ⟨hcall, pool, hpool⟩
    · refine .inl ⟨s', queued', ?_, hdelivers⟩
      rw [MessageController.call, hcall, map_some]
      rfl
    · refine .inr ⟨by rw [MessageController.call, hcall, map_none], ?_⟩
      by_contra hnone
      have hheap : ∀ i, (heap.address i).isSome := fun i =>
        Option.isSome_iff_ne_none.2 fun hi => hnone ⟨i, hi⟩
      have hsome := getFromPool_isSome hheap { s with queues := some (s.ensureQueue target) } pool
      rw [hpool] at hsome
      cases hsome
  | receiveMessage target max tx =>
    obtain ⟨s', queued', hcall, hdelivers⟩ := h.receiveMessage target max tx
    refine .inl ⟨s', queued', ?_, hdelivers⟩
    rw [MessageController.call, hcall, map_some]
    rfl
  | clear tid =>
    obtain ⟨s', queued', hcall, hdelivers⟩ := h.clear tid
    refine .inl ⟨s', queued', ?_, hdelivers⟩
    rw [MessageController.call, hcall, map_some]
    rfl

theorem Delivers.call_eq {call : MessageCall} {result : MessageResult}
    (hcall : s.call heap call = some (s', result)) :
    result = (mailboxCall mail call).2 ∧
      ∃ queued', Delivers heap s' queued' (mailboxCall mail call).1 := by
  rcases h.call call with ⟨s1, queued', hs1, hdelivers'⟩ | ⟨hnone, -⟩
  · rw [hs1] at hcall
    obtain ⟨rfl, rfl⟩ := Prod.mk.inj (Option.some.inj hcall)
    exact ⟨rfl, queued', hdelivers'⟩
  · rw [hnone] at hcall
    cases hcall

theorem Delivers.call_returns (hheap : ∀ i, (heap.address i).isSome) (call : MessageCall) :
    ∃ s' result, s.call heap call = some (s', result) ∧
      ∃ queued', Delivers heap s' queued' (mailboxCall mail call).1 := by
  rcases h.call call with ⟨s1, queued', hs1, hdelivers'⟩ | ⟨-, i, hnone⟩
  · exact ⟨s1, _, hs1, queued', hdelivers'⟩
  · have hsome := hheap i
    rw [hnone] at hsome
    cases hsome

end

theorem run_delivers {calls : List MessageCall} {results : List MessageResult}
    (hrun : runResults (MessageController.call heap) {} calls = some (s, results)) :
    results = (runSpec mailboxCall (fun _ => {}) calls).2 ∧
      ∃ queued, Delivers heap s queued (runSpec mailboxCall (fun _ => {}) calls).1 := by
  have hstep : ∀ s mail call s' result, (∃ queued, Delivers heap s queued mail) →
      MessageController.call heap s call = some (s', result) →
        result = (mailboxCall mail call).2 ∧ ∃ queued, Delivers heap s' queued (mailboxCall mail call).1 :=
    fun _ _ _ _ _ ⟨_, hdelivers⟩ hcall => hdelivers.call_eq hcall
  exact runResults_refines hstep
    ⟨_, Delivers.empty heap⟩ hrun

theorem run_returns (hheap : ∀ i, (heap.address i).isSome) (calls : List MessageCall) :
    (runResults (MessageController.call heap) {} calls).isSome := by
  have hstep : ∀ s mail call, (∃ queued, Delivers heap s queued mail) →
      ∃ s' result, MessageController.call heap s call = some (s', result) ∧
        ∃ queued, Delivers heap s' queued (mailboxCall mail call).1 :=
    fun _ _ call ⟨_, hdelivers⟩ => hdelivers.call_returns hheap call
  exact runResults_isSome hstep
    ⟨_, Delivers.empty heap⟩ calls

/-- The queue of a thread is a doubly linked list of distinct blocks that hold these messages, with
ends and length. -/
def Holds (s : MessageController) (tid : Tid) (messages : List Message) : Prop :=
  ∃ blocks : List Address, blocks.Nodup ∧ Linked s.prev s.next blocks ∧
    blocks.map s.messageOf = messages ∧
    s.headOf tid =
      { first := blocks.head?, last := blocks.getLast?, total := (messages.map Message.length).sum }

theorem Delivers.holds (h : Delivers heap s queued mail) (tid : Tid) :
    s.Holds tid (mail tid).queued :=
  ⟨queued tid, h.layout.nodup (.queue tid), h.layout.linked tid, (h.messages tid).symm, h.head tid⟩

/-- In every run the calls return what the mailboxes say, and each queue is a consistent list of its
mailbox's messages: each one sent to a thread was received once, was cleared with it, or is still
queued. With memory left every run returns. -/
theorem messages_refine_mailboxes (heap : KernelHeap) (calls : List MessageCall) :
    (∀ s results, runResults (MessageController.call heap) {} calls = some (s, results) →
      results = (runSpec mailboxCall (fun _ => {}) calls).2 ∧
      ∀ tid mailbox, mailbox = (runSpec mailboxCall (fun _ => {}) calls).1 tid →
        s.Holds tid mailbox.queued ∧
        ((calls.zip results).filterMap (sentTo tid)).Perm
          ((calls.zip results).filterMap (receivedBy tid) ++ mailbox.cleared ++ mailbox.queued) ∧
        (.clear tid ∉ calls → mailbox.cleared = [])) ∧
    ((∀ i, (heap.address i).isSome) →
      (runResults (MessageController.call heap) {} calls).isSome) := by
  refine ⟨?_, fun hheap => run_returns hheap calls⟩
  intro s results hrun
  obtain ⟨hresults, queued, hdelivers⟩ := run_delivers hrun
  refine ⟨hresults, ?_⟩
  rintro tid mailbox rfl
  obtain ⟨hsent, hreceived, hcleared⟩ := runSpec_history (fun _ => {}) calls tid
  have hconserves := runSpec_conserves (fun _ => Mailbox.conserves_empty) calls tid
  rw [Mailbox.Conserves, hsent, hreceived, ← hresults] at hconserves
  exact ⟨hdelivers.holds tid, hconserves, hcleared⟩

/-- Two senders, a receiver that asks for the second message first, and the same block used again. -/
def exampleCalls : List MessageCall :=
  [.sendMessage 7 1 [10, 11] 0, .sendMessage 7 2 [20] 5, .receiveMessage 7 64 5,
    .sendMessage 7 1 [30] 0, .receiveMessage 7 64 0, .receiveMessage 7 21 5]

theorem messages_refine_mailboxes_two_senders :
    ∃ s results,
      runResults (MessageController.call ⟨fun n => some (n + 1), fun _ _ _ hi hj =>
        Nat.succ.inj (Option.some.inj (hi.trans hj.symm))⟩) {} exampleCalls = some (s, results) ∧
      results =
        [.sent .successful, .sent .successful,
          .received .successful (some { sender := 2, transaction := 5, length := 1, content := [20] }),
          .sent .successful,
          .received .successful
            (some { sender := 1, transaction := 0, length := 2, content := [10, 11] }),
          .received .queueEmpty none] ∧
      s.Holds 7 [{ sender := 1, transaction := 0, length := 1, content := [30] }] := by
  obtain ⟨hrefines, hreturns⟩ := messages_refine_mailboxes ⟨fun n => some (n + 1), fun _ _ _ hi hj =>
    Nat.succ.inj (Option.some.inj (hi.trans hj.symm))⟩ exampleCalls
  obtain ⟨⟨s, results⟩, hrun⟩ := isSome_iff_exists.1 (hreturns fun _ => rfl)
  obtain ⟨hresults, hmail⟩ := hrefines s results hrun
  obtain ⟨hholds, -, -⟩ := hmail 7 _ rfl
  refine ⟨s, results, hrun, ?_, ?_⟩
  · rw [hresults]
    decide
  · exact hholds

end MessageController

end MeetixOS.Kernel
