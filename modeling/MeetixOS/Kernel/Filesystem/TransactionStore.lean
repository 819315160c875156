import MeetixOS.Kernel.Utils.HashMap

/-! # Checks of a waiting transaction

`WaiterFsTransaction::isTransactionWaiting` (`tasking/wait/WaiterFsTransaction.hpp`) with the
`FsTransactionStore` and the handlers that it starts and finishes (`FsTransactionHandler*`). `Surroundings`
is what is decided outside: the nodes, their delegates and what these answer, each of which sets the status
of its own transaction only.

Where a transaction cannot be repeated, the status is written as the key of the entry, so the check
changes the transaction with that number. -/

open Option (isSome_map map_eq_some_iff)

namespace MeetixOS.Kernel

/-! ## The store -/

def fsTransactionNoRepeatID : FsTransactionID := -1

/-- The number behind a status. `fsSetTransactionStatus` stores whatever number it is given. -/
def FsTransactionStatus.code : FsTransactionStatus → Int
  | .waiting => 0
  | .finished => 1
  | .repeat => 2

open FsTransactionStatus (finished)

namespace WaiterFsTransaction

/-- `store` and `nextTransactionID`, with the number of times that the code outside was asked. -/
structure FsTransactionStore where
  store : HashMap FsTransactionID Int
  nextTransactionID : Int
  asked : Nat

namespace FsTransactionStore

/-- The entry of a transaction. -/
def get (s : FsTransactionStore) (id : FsTransactionID) : Option Int := s.store.get id

/-- `FsTransactionStore::getStatus`; a transaction without an entry is finished. -/
def getStatus (s : FsTransactionStore) (id : FsTransactionID) : Int :=
  (s.get id).getD finished.code

def setStatus (s : FsTransactionStore) (id : FsTransactionID) (result : Int) : FsTransactionStore :=
  { s with store := s.store.add id result }

def removeTransaction (s : FsTransactionStore) (id : FsTransactionID) : FsTransactionStore :=
  { s with store := s.store.erase id }

theorem get_setStatus (s : FsTransactionStore) (id : FsTransactionID) (result : Int)
    (j : FsTransactionID) : (s.setStatus id result).get j = if j = id then some result else s.get j :=
  s.store.get_add id j result

end FsTransactionStore

/-! ## Handlers -/

/-- The classes of handlers. `FsTransactionHandlerGetLength` is the one of `fsLength` and of `fsSeek`. -/
inductive FsTransactionHandlerKind
  | read
  | write
  | open
  | close
  | getLength
  | directoryRefresh
  | readDirectory
  | discoveryOpen
  | discoveryGetLength
  | discoveryOpenDirectory
  | discoverySetCwd
  deriving DecidableEq, Repr

/-- The handlers of type `FsTransactionHandlerDiscovery`. -/
def FsTransactionHandlerKind.isDiscovery : FsTransactionHandlerKind → Bool
  | .discoveryOpen | .discoveryGetLength | .discoveryOpenDirectory | .discoverySetCwd => true
  | _ => false

inductive FsTransactionHandlerStartStatus
  | failed
  | immediateFinish
  | withWaiter
  deriving DecidableEq, Repr

inductive FsTransactionHandlerFinishStatus
  | done
  | repeatWithSameHandler
  | keepWaitingWithNewHandler
  deriving DecidableEq, Repr

/-- `FsTransactionHandler`, with the fields that decide what it does to the store. `delegate` says
whether the node of the handler has one; `status` and `allNodesDiscovered` are those of a discovery. -/
structure FsTransactionHandler where
  kind : FsTransactionHandlerKind
  delegate : Bool
  repeatTransaction : FsTransactionID := fsTransactionNoRepeatID
  status : FsDiscoveryStatus := .error
  allNodesDiscovered : Bool := false
  deriving DecidableEq

namespace FsTransactionHandler

def wantsRepeatTransaction (handler : FsTransactionHandler) : Bool :=
  handler.repeatTransaction ≠ fsTransactionNoRepeatID

def prepareTransactionRepeat (handler : FsTransactionHandler) (id : FsTransactionID) :
    FsTransactionHandler :=
  { handler with repeatTransaction := id }

end FsTransactionHandler

/-- What the code outside says of a handler: whether `findExisting` finds the node, whether that node or
its last parent has a delegate, and the statuses that the delegate gives the transaction and the
handler. -/
structure Answer where
  child : Bool
  delegate : Bool
  transactionStatus : Option Int
  discoveryStatus : Option FsDiscoveryStatus

/-- The answers, by handler and by how often the code outside was asked before. -/
abbrev Surroundings : Type := FsTransactionHandlerKind → Nat → Answer

namespace FsTransactionStore

/-- The next question to the code outside. -/
def ask (s : FsTransactionStore) : FsTransactionStore := { s with asked := s.asked + 1 }

/-- A delegate sets the status of the transaction it works on, if it comes so far. -/
def answered (s : FsTransactionStore) (id : FsTransactionID) (answer : Answer) : FsTransactionStore :=
  match answer.transactionStatus with
  | some status => s.ask.setStatus id status
  | none => s.ask

/-- A request under a new number, `FsTransactionStore::nextTransaction`. -/
def request (s : FsTransactionStore) (answer : Answer) : FsTransactionStore :=
  { s with nextTransactionID := s.nextTransactionID + 1 }.answered s.nextTransactionID answer

end FsTransactionStore

/-- `requestDiscovery` and `finishDiscovery` set the status of the handler. -/
def FsTransactionHandler.discovered (handler : FsTransactionHandler) (answer : Answer) :
    FsTransactionHandler :=
  { handler with status := answer.discoveryStatus.getD handler.status }

/-! ## Starting, finishing and checking -/

mutual

/-- `startTransaction` of each handler. -/
def startTransaction (w : Surroundings) :
    Nat → FsTransactionHandler → FsTransactionStore →
      Option (FsTransactionHandlerStartStatus × FsTransactionHandler × FsTransactionStore)
  | 0, _, _ => none
  | fuel + 1, handler, s =>
    let answer := w handler.kind s.asked
    match handler.kind with
    | .read | .write =>
      if !handler.delegate then some (.failed, handler, s)
      else if handler.wantsRepeatTransaction then
        -- the waiter is still on the requester's task
        some (.withWaiter, handler, s.answered handler.repeatTransaction answer)
      else
        (isTransactionWaiting w fuel handler s.nextTransactionID (s.request answer)).map
          fun (waiting, handler, s) =>
            (if waiting then .withWaiter else .immediateFinish, handler, s)
    | .open | .close =>
      if !handler.delegate then some (.failed, handler, s)
      else
        (isTransactionWaiting w fuel handler s.nextTransactionID (s.request answer)).map
          fun (waiting, handler, s) =>
            (if waiting then .withWaiter else .immediateFinish, handler, s)
    | .getLength | .directoryRefresh =>
      if !handler.delegate then some (.failed, handler, s)
      else some (.withWaiter, handler, s.request answer)
    | .readDirectory => some (.immediateFinish, handler, s)
    | .discoveryOpen | .discoveryGetLength | .discoveryOpenDirectory | .discoverySetCwd =>
      if answer.child then
        let handler :=
          { handler with
            status := .successful
            delegate := answer.delegate
            allNodesDiscovered := true }
        (finishTransaction w fuel handler s.ask).map
          fun (_, handler, s) => (.immediateFinish, handler, s)
      else if !answer.delegate then
        let handler := { handler with status := .error, allNodesDiscovered := true }
        (finishTransaction w fuel handler s.ask).map fun (_, handler, s) => (.failed, handler, s)
      else
        some (.withWaiter, { handler with delegate := true }.discovered answer, s.request answer)

/-- `finishTransaction` of each handler. The one of a directory refresh goes on to read the directory. -/
def finishTransaction (w : Surroundings) :
    Nat → FsTransactionHandler → FsTransactionStore →
      Option (FsTransactionHandlerFinishStatus × FsTransactionHandler × FsTransactionStore)
  | 0, _, _ => none
  | fuel + 1, handler, s =>
    if !handler.kind.isDiscovery then some (.done, handler, s)
    else if handler.allNodesDiscovered then afterFinishTransaction w fuel handler s
    else
      let handler := handler.discovered (w handler.kind s.asked)
      if handler.status = .successful then
        match startTransaction w fuel handler s.ask with
        | none => none
        | some (.failed, handler, s) => some (.done, handler, s)
        | some (_, handler, s) =>
          if !handler.allNodesDiscovered then some (.repeatWithSameHandler, handler, s)
          else afterFinishTransaction w fuel handler s
      else afterFinishTransaction w fuel handler s.ask

/-- `afterFinishTransaction` of each discovery. -/
def afterFinishTransaction (w : Surroundings) :
    Nat → FsTransactionHandler → FsTransactionStore →
      Option (FsTransactionHandlerFinishStatus × FsTransactionHandler × FsTransactionStore)
  | 0, _, _ => none
  | fuel + 1, handler, s =>
    if handler.kind = .discoveryOpen ∧ (handler.status = .successful ∨ handler.status = .notFound) then
      (startTransaction w fuel { kind := .open, delegate := handler.delegate } s).map
        fun (startStatus, _, s) =>
          (if startStatus = .withWaiter then .keepWaitingWithNewHandler else .done, handler, s)
    else if handler.kind = .discoveryGetLength ∧ handler.status = .successful then
      (startTransaction w fuel { kind := .getLength, delegate := handler.delegate } s).map
        fun (startStatus, _, s) =>
          (if startStatus = .withWaiter then .keepWaitingWithNewHandler else .done, handler, s)
    else some (.done, handler, s)

/-- `WaiterFsTransaction::isTransactionWaiting`, with the handler as it is left. -/
def isTransactionWaiting (w : Surroundings) :
    Nat → FsTransactionHandler → FsTransactionID → FsTransactionStore →
      Option (Bool × FsTransactionHandler × FsTransactionStore)
  | 0, _, _, _ => none
  | fuel + 1, handler, transactionID, s =>
    let status := s.getStatus transactionID
    if status = FsTransactionStatus.waiting.code then some (true, handler, s)
    else if status = FsTransactionStatus.repeat.code then
      match startTransaction w fuel (handler.prepareTransactionRepeat transactionID) s with
      | none => none
      | some (.failed, handler, s) =>
        -- the status stands where the number of the transaction belongs
        some (true, handler, s.setStatus status finished.code)
      | some (_, handler, s) => some (true, handler, s)
    else if status = finished.code then
      -- no handler returns an unknown finish status
      (finishTransaction w fuel handler s).map fun (stat, handler, s) =>
        (stat ≠ .done, handler, s.removeTransaction transactionID)
    else some (false, handler, s.removeTransaction transactionID)

end

/-! ## Starts that fail -/

/-- Nothing can be requested: the node, or the last parent that a discovery finds, has no delegate. -/
def FsTransactionHandler.cannotStart (handler : FsTransactionHandler) (answer : Answer) : Bool :=
  match handler.kind with
  | .read | .write | .open | .close | .getLength | .directoryRefresh => !handler.delegate
  | .readDirectory => false
  | .discoveryOpen | .discoveryGetLength | .discoveryOpenDirectory | .discoverySetCwd =>
    !answer.child && !answer.delegate

/-- The handlers that check their request before they leave a waiter. -/
def FsTransactionHandlerKind.checksRequest : FsTransactionHandlerKind → Bool
  | .read | .write | .open | .close => true
  | _ => false

/-- The request goes under the number of the transaction that is repeated. -/
def FsTransactionHandler.repeats (handler : FsTransactionHandler) : Bool :=
  match handler.kind with
  | .read | .write => handler.wantsRepeatTransaction
  | _ => false

/-- What a start with `fuel + 1` does. -/
inductive Starts (w : Surroundings) (fuel : Nat) (handler : FsTransactionHandler)
    (s : FsTransactionStore) :
    FsTransactionHandlerStartStatus → FsTransactionHandler → FsTransactionStore → Prop
  | noDelegate (hkind : handler.kind.isDiscovery = false)
      (hfails : handler.cannotStart (w handler.kind s.asked) = true) :
      Starts w fuel handler s .failed handler s
  | noParent (s' : FsTransactionStore) (handler' : FsTransactionHandler)
      (finishStatus : FsTransactionHandlerFinishStatus) (hkind : handler.kind.isDiscovery = true)
      (hfails : handler.cannotStart (w handler.kind s.asked) = true)
      (hfinish : finishTransaction w fuel
        { handler with status := .error, allNodesDiscovered := true } s.ask =
          some (finishStatus, handler', s')) :
      Starts w fuel handler s .failed handler' s'
  | nothing (hfails : handler.cannotStart (w handler.kind s.asked) = false) :
      Starts w fuel handler s .immediateFinish handler s
  | repeated (hfails : handler.cannotStart (w handler.kind s.asked) = false)
      (hrepeats : handler.repeats = true) :
      Starts w fuel handler s .withWaiter handler
        (s.answered handler.repeatTransaction (w handler.kind s.asked))
  | checked (s' : FsTransactionStore) (handler' : FsTransactionHandler) (waiting : Bool)
      (hfails : ∀ answer, handler.cannotStart answer = false) (hopens : handler.kind.checksRequest = true)
      (hcheck : isTransactionWaiting w fuel handler s.nextTransactionID
        (s.request (w handler.kind s.asked)) = some (waiting, handler', s')) :
      Starts w fuel handler s (if waiting then .withWaiter else .immediateFinish) handler' s'
  | requested (handler' : FsTransactionHandler)
      (hfails : handler.cannotStart (w handler.kind s.asked) = false) :
      Starts w fuel handler s .withWaiter handler' (s.request (w handler.kind s.asked))
  | existing (s' : FsTransactionStore) (handler' : FsTransactionHandler)
      (finishStatus : FsTransactionHandlerFinishStatus)
      (hfails : handler.cannotStart (w handler.kind s.asked) = false)
      (hfinish : finishTransaction w fuel
        { handler with
          status := .successful
          delegate := (w handler.kind s.asked).delegate
          allNodesDiscovered := true } s.ask = some (finishStatus, handler', s')) :
      Starts w fuel handler s .immediateFinish handler' s'

variable {startStatus : FsTransactionHandlerStartStatus} {w : Surroundings} {fuel : Nat}

variable {handler handler' : FsTransactionHandler} {s s' : FsTransactionStore}

theorem startTransaction_starts
    (h : startTransaction w (fuel + 1) handler s = some (startStatus, handler', s')) :
    Starts w fuel handler s startStatus handler' s' := by
  obtain ⟨kind, delegate, repeatTransaction, status, allNodesDiscovered⟩ := handler
  cases kind
  case read | write =>
    simp only [startTransaction] at h
    cases delegate with
    | false =>
      cases h
      exact .noDelegate rfl rfl
    | true =>
      split at h
      next hdelegate => cases hdelegate
      split at h
      next hrepeats =>
        cases h
        exact .repeated rfl hrepeats
      next =>
        obtain ⟨⟨waiting, handler1, s1⟩, hcheck, hr⟩ := map_eq_some_iff.1 h
        cases hr
        exact .checked _ _ _ (fun _ => rfl) rfl hcheck
  case «open» | close =>
    simp only [startTransaction] at h
    cases delegate with
    | false =>
      cases h
      exact .noDelegate rfl rfl
    | true =>
      split at h
      next hdelegate => cases hdelegate
      obtain ⟨⟨waiting, handler1, s1⟩, hcheck, hr⟩ := map_eq_some_iff.1 h
      cases hr
      exact .checked _ _ _ (fun _ => rfl) rfl hcheck
  case getLength | directoryRefresh =>
    cases delegate with
    | false =>
      cases h
      exact .noDelegate rfl rfl
    | true =>
      cases h
      exact .requested _ rfl
  case readDirectory =>
    cases h
    exact .nothing rfl
  case discoveryOpen | discoveryGetLength | discoveryOpenDirectory | discoverySetCwd =>
    simp only [startTransaction] at h
    split at h
    next hchild =>
      obtain ⟨⟨finishStatus, handler1, s1⟩, hfinish, hr⟩ := map_eq_some_iff.1 h
      cases hr
      exact .existing _ _ _ (by simp only [FsTransactionHandler.cannotStart, hchild]; rfl) hfinish
    next hchild =>
      split at h
      next hdelegate =>
        obtain ⟨⟨finishStatus, handler1, s1⟩, hfinish, hr⟩ := map_eq_some_iff.1 h
        cases hr
        exact .noParent _ _ _ rfl
          (by simpa [FsTransactionHandler.cannotStart, hchild] using hdelegate) hfinish
      next hdelegate =>
        cases h
        exact .requested _ (by simpa [FsTransactionHandler.cannotStart, hchild] using hdelegate)

theorem Starts.failed_iff
    (h : Starts w fuel handler s startStatus handler' s') :
    startStatus = .failed ↔ handler.cannotStart (w handler.kind s.asked) = true := by
  cases h with
  | noDelegate _ hfails | noParent _ _ _ _ hfails => exact ⟨fun _ => hfails, fun _ => rfl⟩
  | nothing hfails | repeated hfails | requested _ hfails | existing _ _ _ hfails =>
    rw [hfails]
    exact ⟨nofun, nofun⟩
  | checked _ _ waiting hfails =>
    rw [hfails]
    cases waiting <;> exact ⟨nofun, nofun⟩

theorem startTransaction_failed_iff
    (h : startTransaction w fuel handler s = some (startStatus, handler', s')) :
    startStatus = .failed ↔ handler.cannotStart (w handler.kind s.asked) = true := by
  cases fuel with
  | zero =>
    cases h
  | succ fuel => exact (startTransaction_starts h).failed_iff

/-- The handler does nothing more when it is finished. -/
def FsTransactionHandler.Spent (handler : FsTransactionHandler) : Prop :=
  handler.kind.isDiscovery = true → handler.allNodesDiscovered = true ∧ handler.status = .error

theorem finishTransaction_spent (w : Surroundings) (fuel : Nat) {handler : FsTransactionHandler}
    (hspent : handler.Spent) (s : FsTransactionStore) :
    finishTransaction w (fuel + 2) handler s = some (.done, handler, s) := by
  rw [finishTransaction]
  cases hkind : handler.kind.isDiscovery with
  | false => rfl
  | true =>
    obtain ⟨hall, hstatus⟩ := hspent hkind
    rw [if_neg (by decide), if_pos hall, afterFinishTransaction, hstatus, if_neg, if_neg]
    · exact fun h => nomatch h.2
    · exact fun h => nomatch h.2

theorem startTransaction_failed
    (h : startTransaction w fuel handler s = some (.failed, handler', s')) :
    s'.get = s.get ∧ s'.nextTransactionID = s.nextTransactionID ∧ handler'.Spent := by
  cases fuel with
  | zero =>
    cases h
  | succ fuel =>
    generalize hfailed : FsTransactionHandlerStartStatus.failed = startStatus at h
    cases startTransaction_starts h with
    | noDelegate hkind =>
      refine ⟨rfl, rfl, fun h => ?_⟩
      rw [hkind] at h
      cases h
    | noParent _ _ _ hkind _ hfinish =>
      have hspent : FsTransactionHandler.Spent
          { handler with status := .error, allNodesDiscovered := true } := fun _ => ⟨rfl, rfl⟩
      -- two levels of calls are left, or the finish would not return
      match fuel, hfinish with
      | 0, hfinish =>
        cases hfinish
      | 1, hfinish =>
        rw [finishTransaction, if_neg (by simpa using hkind), if_pos rfl,
          afterFinishTransaction] at hfinish
        cases hfinish
      | fuel + 2, hfinish =>
        rw [finishTransaction_spent w fuel hspent] at hfinish
        cases hfinish
        exact ⟨rfl, rfl, hspent⟩
    | nothing | repeated | requested | existing => cases hfailed
    | checked _ _ waiting => cases waiting <;> cases hfailed

/-! ## Which entries a call leaves alone -/

/-- Between `s` and `s'` only the entries of `touched` change, and those of transactions that were begun
in between. -/
structure Framed (touched : Int → Prop) (s s' : FsTransactionStore) : Prop where
  next_le : s.nextTransactionID ≤ s'.nextTransactionID
  get_eq : ∀ id, ¬ touched id → ¬ (s.nextTransactionID ≤ id ∧ id < s'.nextTransactionID) →
    s'.get id = s.get id

namespace Framed

variable {touched touched' : Int → Prop} {s s' s'' : FsTransactionStore}

theorem refl (touched : Int → Prop) (s : FsTransactionStore) : Framed touched s s :=
  ⟨Int.le_refl _, fun _ _ _ => rfl⟩

theorem ask (touched : Int → Prop) (s : FsTransactionStore) : Framed touched s s.ask :=
  ⟨Int.le_refl _, fun _ _ _ => rfl⟩

theorem trans (h : Framed touched s s') (h' : Framed touched s' s'') : Framed touched s s'' := by
  refine ⟨Int.le_trans h.next_le h'.next_le, fun id hid hnew => ?_⟩
  have hle := h.next_le
  have hle' := h'.next_le
  rw [h'.get_eq id hid (by omega), h.get_eq id hid (by omega)]

theorem mono (h : Framed touched s s') (hsub : ∀ id, touched id → touched' id) : Framed touched' s s' :=
  ⟨h.next_le, fun id hid => h.get_eq id fun hmem => hid (hsub id hmem)⟩

theorem of_begun (h : Framed (fun id => id = s.nextTransactionID) s s')
    (hbegun : s.nextTransactionID < s'.nextTransactionID) : Framed touched s s' := by
  refine ⟨h.next_le, fun id _ hnew => h.get_eq id (fun heq => hnew ?_) hnew⟩
  omega

section

variable (s : FsTransactionStore) (id : FsTransactionID)

theorem setStatus (status : Int) : Framed (fun j => j = id) s (s.setStatus id status) :=
  ⟨Int.le_refl _, fun j hj _ => by rw [s.get_setStatus, if_neg hj]⟩

theorem removeTransaction : Framed (fun j => j = id) s (s.removeTransaction id) :=
  ⟨Int.le_refl _, fun j hj _ => (s.store.get_erase id j).trans (if_neg hj)⟩

theorem answered (answer : Answer) : Framed (fun j => j = id) s (s.answered id answer) := by
  unfold FsTransactionStore.answered
  cases answer.transactionStatus with
  | none => exact ask _ s
  | some status => exact (ask _ s).trans (setStatus s.ask id status)

end

end Framed

theorem nextTransactionID_request (s : FsTransactionStore) (answer : Answer) :
    (s.request answer).nextTransactionID = s.nextTransactionID + 1 := by
  unfold FsTransactionStore.request FsTransactionStore.answered
  cases answer.transactionStatus <;> rfl

theorem Framed.request (touched : Int → Prop) (s : FsTransactionStore) (answer : Answer) :
    Framed touched s (s.request answer) := by
  have hnext := nextTransactionID_request s answer
  have hcounted : Framed (fun id => id = s.nextTransactionID) s
      { s with nextTransactionID := s.nextTransactionID + 1 } := by
    refine ⟨?_, fun _ _ _ => rfl⟩
    show s.nextTransactionID ≤ s.nextTransactionID + 1
    omega
  exact (hcounted.trans (Framed.answered _ s.nextTransactionID answer)).of_begun (by
    unfold FsTransactionStore.request at hnext
    omega)

/-- What the four functions leave alone when they run with `fuel`. -/
structure FramedCalls (w : Surroundings) (fuel : Nat) : Prop where
  start : ∀ handler s startStatus handler' s',
    startTransaction w fuel handler s = some (startStatus, handler', s') →
      Framed (fun id => handler.repeats = true ∧ id = handler.repeatTransaction) s s'
  finish : ∀ handler s finishStatus handler' s',
    finishTransaction w fuel handler s = some (finishStatus, handler', s') →
      Framed (fun _ => False) s s'
  afterFinish : ∀ handler s finishStatus handler' s',
    afterFinishTransaction w fuel handler s = some (finishStatus, handler', s') →
      Framed (fun _ => False) s s'
  check : ∀ handler id s waiting handler' s',
    isTransactionWaiting w fuel handler id s = some (waiting, handler', s') →
      (s.getStatus id = FsTransactionStatus.repeat.code →
        handler.cannotStart (w handler.kind s.asked) = false) →
      Framed (fun j => j = id) s s'

namespace FramedCalls

variable {w : Surroundings} {fuel : Nat}

section

variable (ih : FramedCalls w fuel)
include ih

theorem start_succ
    {startStatus : FsTransactionHandlerStartStatus}
    (h : startTransaction w (fuel + 1) handler s = some (startStatus, handler', s')) :
    Framed (fun id => handler.repeats = true ∧ id = handler.repeatTransaction) s s' := by
  cases startTransaction_starts h with
  | noDelegate | nothing => exact Framed.refl _ s
  | noParent _ _ _ _ _ hfinish | existing _ _ _ _ hfinish =>
    exact (Framed.ask _ s).trans ((ih.finish _ _ _ _ _ hfinish).mono fun _ => False.elim)
  | repeated _ hrepeats => exact (Framed.answered s _ _).mono fun _ hid => ⟨hrepeats, hid⟩
  | requested => exact Framed.request _ s _
  | checked _ _ _ hfails _ hcheck =>
    -- the check may change the transaction that the request began
    have hnext := nextTransactionID_request s (w handler.kind s.asked)
    have hframed := ih.check _ _ _ _ _ _ hcheck fun _ => hfails _
    have hle := hframed.next_le
    exact ((Framed.request _ s _).trans hframed).of_begun (by omega)

theorem finish_succ
    {finishStatus : FsTransactionHandlerFinishStatus}
    (h : finishTransaction w (fuel + 1) handler s = some (finishStatus, handler', s')) :
    Framed (fun _ => False) s s' := by
  rw [finishTransaction] at h
  split at h
  next =>
    cases h
    exact Framed.refl _ s
  next hkind =>
    split at h
    next => exact ih.afterFinish _ _ _ _ _ h
    next =>
      dsimp only at h
      split at h
      next =>
        -- a discovery repeats no transaction of its own
        have hrepeats : (handler.discovered (w handler.kind s.asked)).repeats = false := by
          obtain ⟨kind, _⟩ := handler
          cases kind <;> first | rfl | exact absurd rfl hkind
        have hstart : ∀ {startStatus handler1 s1},
            startTransaction w fuel (handler.discovered (w handler.kind s.asked)) s.ask =
              some (startStatus, handler1, s1) → Framed (fun _ => False) s s1 := fun hs =>
          (Framed.ask _ s).trans ((ih.start _ _ _ _ _ hs).mono fun _ hid => by
            rw [hrepeats] at hid
            exact Bool.false_ne_true hid.1)
        split at h
        next => cases h
        next hs =>
          cases h
          exact hstart hs
        next hs =>
          split at h
          next =>
            cases h
            exact hstart hs
          next => exact (hstart hs).trans (ih.afterFinish _ _ _ _ _ h)
      next => exact (Framed.ask _ s).trans (ih.afterFinish _ _ _ _ _ h)

theorem afterFinish_succ
    {finishStatus : FsTransactionHandlerFinishStatus}
    (h : afterFinishTransaction w (fuel + 1) handler s = some (finishStatus, handler', s')) :
    Framed (fun _ => False) s s' := by
  rw [afterFinishTransaction] at h
  split at h
  next =>
    obtain ⟨⟨startStatus, handler1, s1⟩, hstart, hr⟩ := map_eq_some_iff.1 h
    cases hr
    exact (ih.start _ _ _ _ _ hstart).mono fun _ hid => Bool.false_ne_true hid.1
  next =>
    split at h
    next =>
      obtain ⟨⟨startStatus, handler1, s1⟩, hstart, hr⟩ := map_eq_some_iff.1 h
      cases hr
      exact (ih.start _ _ _ _ _ hstart).mono fun _ hid => Bool.false_ne_true hid.1
    next =>
      cases h
      exact Framed.refl _ s

theorem check_succ {id : FsTransactionID}
    {waiting : Bool}
    (h : isTransactionWaiting w (fuel + 1) handler id s = some (waiting, handler', s'))
    (hstarts : s.getStatus id = FsTransactionStatus.repeat.code →
      handler.cannotStart (w handler.kind s.asked) = false) :
    Framed (fun j => j = id) s s' := by
  rw [isTransactionWaiting] at h
  split at h
  next =>
    cases h
    exact Framed.refl _ s
  next =>
    split at h
    next hrepeat =>
      split at h
      next => cases h
      next hs =>
        have hfails := (startTransaction_failed_iff hs).1 rfl
        cases hfails.symm.trans (hstarts hrepeat)
      next hs =>
        cases h
        exact (ih.start _ _ _ _ _ hs).mono fun _ hid => hid.2
    next =>
      split at h
      next =>
        obtain ⟨⟨finishStatus, handler1, s1⟩, hfinish, hr⟩ := map_eq_some_iff.1 h
        cases hr
        exact ((ih.finish _ _ _ _ _ hfinish).mono fun _ => False.elim).trans
          (Framed.removeTransaction s1 id)
      next =>
        cases h
        exact Framed.removeTransaction s id

end

end FramedCalls

theorem framedCalls (w : Surroundings) (fuel : Nat) : FramedCalls w fuel := by
  induction fuel with
  | zero =>
    refine ⟨?_, ?_, ?_, ?_⟩
    · intro handler s startStatus handler' s' h
      cases h
    · intro handler s finishStatus handler' s' h
      cases h
    · intro handler s finishStatus handler' s' h
      cases h
    · intro handler id s waiting handler' s' h
      cases h
  | succ fuel ih =>
    exact ⟨fun _ _ _ _ _ => ih.start_succ, fun _ _ _ _ _ => ih.finish_succ,
      fun _ _ _ _ _ => ih.afterFinish_succ, fun _ _ _ _ _ _ => ih.check_succ⟩

/-! ## Every check returns

Only pipes ask for a repetition, and only of reads and writes, which then take the number of the
transaction that they repeat. -/

/-- An open or a close is answered, and not with a repetition. -/
def Surroundings.AnswersOpens (w : Surroundings) : Prop :=
  ∀ kind asked, kind = .open ∨ kind = .close →
    ∃ status, (w kind asked).transactionStatus = some status ∧
      status ≠ FsTransactionStatus.repeat.code

theorem getStatus_request {s : FsTransactionStore} {answer : Answer} {status : Int}
    (h : answer.transactionStatus = some status) :
    (s.request answer).getStatus s.nextTransactionID = status := by
  unfold FsTransactionStore.request FsTransactionStore.answered FsTransactionStore.getStatus
  rw [h]
  rw [FsTransactionStore.get_setStatus, if_pos rfl, Option.getD_some]

section

variable {w : Surroundings} (hw : w.AnswersOpens) (fuel : Nat) (handler : FsTransactionHandler)
  (s : FsTransactionStore)

theorem isTransactionWaiting_isSome_of_ne_repeat (hkind : handler.kind.isDiscovery = false)
    {id : FsTransactionID} (hstatus : s.getStatus id ≠ FsTransactionStatus.repeat.code) :
    (isTransactionWaiting w (fuel + 2) handler id s).isSome := by
  rw [isTransactionWaiting]
  rw [if_neg hstatus, finishTransaction, hkind]
  split
  · rfl
  · split <;> rfl

include hw

theorem startTransaction_isSome_of_not_discovery (hkind : handler.kind.isDiscovery = false)
    (hrepeats : handler.kind = .read ∨ handler.kind = .write → handler.wantsRepeatTransaction = true) :
    (startTransaction w (fuel + 3) handler s).isSome := by
  obtain ⟨kind, delegate, repeatTransaction, status, allNodesDiscovered⟩ := handler
  have hopens := hw kind s.asked
  cases kind
  case read | write =>
    have hwants := hrepeats (by simp)
    simp only [startTransaction, hwants, if_true]
    split <;> rfl
  case «open» | close =>
    simp only [startTransaction]
    split
    · rfl
    · obtain ⟨status, hstatus, hne⟩ := hopens (by simp)
      rw [isSome_map]
      refine isTransactionWaiting_isSome_of_ne_repeat fuel _ _ rfl ?_
      rwa [getStatus_request hstatus]
  case getLength | directoryRefresh =>
    simp only [startTransaction]
    split <;> rfl
  case readDirectory => rfl
  case discoveryOpen | discoveryGetLength | discoveryOpenDirectory | discoverySetCwd => cases hkind

theorem afterFinishTransaction_isSome : (afterFinishTransaction w (fuel + 4) handler s).isSome := by
  rw [afterFinishTransaction]
  split
  · rw [isSome_map]
    exact startTransaction_isSome_of_not_discovery hw fuel _ _ rfl (by simp)
  · split
    · rw [isSome_map]
      exact startTransaction_isSome_of_not_discovery hw fuel _ _ rfl (by simp)
    · rfl

theorem finishTransaction_isSome_of_all (hall : handler.allNodesDiscovered = true) :
    (finishTransaction w (fuel + 5) handler s).isSome := by
  rw [finishTransaction, if_pos hall]
  split
  · rfl
  · exact afterFinishTransaction_isSome hw fuel handler s

theorem startTransaction_isSome_of_discovery (hkind : handler.kind.isDiscovery = true) :
    (startTransaction w (fuel + 6) handler s).isSome := by
  obtain ⟨kind, delegate, repeatTransaction, status, allNodesDiscovered⟩ := handler
  cases kind
  case discoveryOpen | discoveryGetLength | discoveryOpenDirectory | discoverySetCwd =>
    simp only [startTransaction]
    split
    · rw [isSome_map]
      exact finishTransaction_isSome_of_all hw fuel _ _ rfl
    · split
      · rw [isSome_map]
        exact finishTransaction_isSome_of_all hw fuel _ _ rfl
      · rfl
  all_goals cases hkind

theorem finishTransaction_isSome : (finishTransaction w (fuel + 7) handler s).isSome := by
  rw [finishTransaction]
  split
  · rfl
  next hkind =>
    split
    · exact afterFinishTransaction_isSome hw (fuel + 2) _ _
    · dsimp only
      split
      · have hstart := startTransaction_isSome_of_discovery hw fuel
          (handler.discovered (w handler.kind s.asked)) s.ask
          (by simpa [FsTransactionHandler.discovered] using hkind)
        obtain ⟨⟨startStatus, handler1, s1⟩, hstart⟩ := Option.isSome_iff_exists.1 hstart
        rw [hstart]
        split
        next h => cases h
        next => rfl
        next =>
          split
          · rfl
          · exact afterFinishTransaction_isSome hw (fuel + 2) _ _
      · exact afterFinishTransaction_isSome hw (fuel + 2) _ _

/-- Every check of a transaction returns, whatever has to be started again or begun anew in it: the calls
are nested at most eight deep. -/
theorem isTransactionWaiting_total {own : FsTransactionID} (hown : own ≠ fsTransactionNoRepeatID) :
    (isTransactionWaiting w (fuel + 8) handler own s).isSome := by
  rw [isTransactionWaiting]
  split
  · rfl
  · split
    · have hstart : (startTransaction w (fuel + 7) (handler.prepareTransactionRepeat own) s).isSome := by
        cases hkind : handler.kind.isDiscovery with
        | true => exact startTransaction_isSome_of_discovery hw (fuel + 1) _ _ hkind
        | false =>
          refine startTransaction_isSome_of_not_discovery hw (fuel + 4) _ _ hkind fun _ => ?_
          exact decide_eq_true hown
      obtain ⟨⟨startStatus, handler1, s1⟩, hstart⟩ := Option.isSome_iff_exists.1 hstart
      rw [hstart]
      split
      next h => cases h
      next => rfl
      next => rfl
    · split
      · rw [isSome_map]
        exact finishTransaction_isSome hw fuel handler s
      · rfl

end

theorem isTransactionWaiting_total_repeated :
    (isTransactionWaiting (fun _ _ => ⟨true, true, some finished.code, none⟩) 8
      ⟨.discoveryOpen, true, fsTransactionNoRepeatID, .error, false⟩ 5
      ⟨HashMap.empty.add 5 FsTransactionStatus.repeat.code, 6, 0⟩).isSome :=
  isTransactionWaiting_total (fun _ _ _ => ⟨_, rfl, by decide⟩) 0 _ _ (by decide)

/-! ## Checks -/

/-- The next check of the transaction `own` ends it. -/
def FsTransactionHandler.Completes (handler : FsTransactionHandler) (own : FsTransactionID) : Prop :=
  ∀ (w : Surroundings) (s : FsTransactionStore), s.get own = some finished.code →
    ∃ fuel, isTransactionWaiting w fuel handler own s = some (false, handler, s.removeTransaction own)

/-- A check changes its own transaction only, and finishes it if it cannot be restarted. New ones
are not counted. -/
structure ChangesOwn (w : Surroundings) (handler : FsTransactionHandler) (own : FsTransactionID)
    (s : FsTransactionStore) (handler' : FsTransactionHandler) (s' : FsTransactionStore) : Prop where
  others : ∀ id, id ≠ own → ¬ (s.nextTransactionID ≤ id ∧ id < s'.nextTransactionID) →
    s'.get id = s.get id
  notRestarted : s.getStatus own = FsTransactionStatus.repeat.code →
    ∀ fuel handler1 s1,
      startTransaction w fuel (handler.prepareTransactionRepeat own) s = some (.failed, handler1, s1) →
      s'.get own = some finished.code ∧ handler'.Completes own

theorem FsTransactionHandler.Spent.completes {handler : FsTransactionHandler} (hspent : handler.Spent)
    (own : FsTransactionID) : handler.Completes own := by
  intro w s hown
  refine ⟨3, ?_⟩
  have hstatus : s.getStatus own = finished.code := by
    rw [FsTransactionStore.getStatus, hown, Option.getD_some]
  rw [isTransactionWaiting]
  simp only [hstatus, finishTransaction_spent w 0 hspent]
  rfl

theorem isTransactionWaiting_notRestarted
    {own : FsTransactionID}
    {waiting : Bool} (h : isTransactionWaiting w fuel handler own s = some (waiting, handler', s'))
    (hrepeat : s.getStatus own = FsTransactionStatus.repeat.code)
    (hfails : handler.cannotStart (w handler.kind s.asked) = true) :
    ∃ startFuel s1,
      startTransaction w startFuel (handler.prepareTransactionRepeat own) s =
        some (.failed, handler', s1) ∧
      s' = s1.setStatus FsTransactionStatus.repeat.code finished.code := by
  cases fuel with
  | zero =>
    cases h
  | succ fuel =>
    rw [isTransactionWaiting] at h
    rw [hrepeat, if_neg (by decide), if_pos rfl] at h
    split at h
    next => cases h
    next hs =>
      cases h
      exact ⟨fuel, _, hs, rfl⟩
    next hne hs =>
      exact absurd ((startTransaction_failed_iff hs).2 hfails) hne

/-- Exactly one kind of check goes wrong: the transaction is repeated, its handler cannot be started,
and its number is not that of the status. -/
theorem isTransactionWaiting_changes_own_iff (w : Surroundings) (fuel : Nat)
    (handler : FsTransactionHandler) (own : FsTransactionID) (s : FsTransactionStore)
    (waiting : Bool) (handler' : FsTransactionHandler) (s' : FsTransactionStore)
    (h : isTransactionWaiting w fuel handler own s = some (waiting, handler', s')) :
    ChangesOwn w handler own s handler' s' ↔
      ¬ (s.getStatus own = FsTransactionStatus.repeat.code ∧
        handler.cannotStart (w handler.kind s.asked) = true ∧
        own ≠ FsTransactionStatus.repeat.code) := by
  by_cases hwrong : s.getStatus own = FsTransactionStatus.repeat.code ∧
      handler.cannotStart (w handler.kind s.asked) = true
  · obtain ⟨hrepeat, hfails⟩ := hwrong
    obtain ⟨startFuel, s1, hstart, rfl⟩ := isTransactionWaiting_notRestarted h hrepeat hfails
    obtain ⟨hget, hnext, hspent⟩ := startTransaction_failed hstart
    by_cases hown : own = FsTransactionStatus.repeat.code
    · refine ⟨fun _ hall => hall.2.2 hown, fun _ => ⟨fun id hid _ => ?_, fun _ _ _ _ _ => ?_⟩⟩
      · rw [FsTransactionStore.get_setStatus, if_neg (hown ▸ hid), hget]
      · refine ⟨?_, hspent.completes own⟩
        rw [FsTransactionStore.get_setStatus, if_pos hown]
    · refine ⟨fun hchanges => ?_, fun hnot => absurd ⟨hrepeat, hfails, hown⟩ hnot⟩
      -- the entry of the transaction still says that it is to be repeated
      have hmarked := (hchanges.notRestarted hrepeat _ _ _ hstart).1
      rw [FsTransactionStore.get_setStatus, if_neg hown, hget] at hmarked
      rw [FsTransactionStore.getStatus, hmarked] at hrepeat
      exact absurd hrepeat (by decide)
  · have hframed := (framedCalls w fuel).check _ _ _ _ _ _ h fun hrepeat => by
      rw [← Bool.not_eq_true]
      exact fun hfails => hwrong ⟨hrepeat, hfails⟩
    refine ⟨fun _ hall => hwrong ⟨hall.1, hall.2.1⟩, fun _ => ⟨hframed.get_eq, ?_⟩⟩
    intro hrepeat startFuel handler1 s1 hstart
    have hfails := (startTransaction_failed_iff hstart).1 rfl
    exact absurd ⟨hrepeat, hfails⟩ hwrong

/-- Two transactions wait for a delegate, under the numbers 2 and 5. -/
def twoWaiting : FsTransactionStore where
  store := (HashMap.empty.add 2 FsTransactionStatus.waiting.code).add 5 FsTransactionStatus.waiting.code
  nextTransactionID := 6
  asked := 0

/-- No node is found and no delegate answers. -/
def noAnswers : Surroundings := fun _ _ => ⟨false, false, none, none⟩

theorem isTransactionWaiting_changes_own_finished :
    ChangesOwn noAnswers ⟨.write, true, fsTransactionNoRepeatID, .error, false⟩ 5
      (twoWaiting.setStatus 5 finished.code)
      ⟨.write, true, fsTransactionNoRepeatID, .error, false⟩
      ((twoWaiting.setStatus 5 finished.code).removeTransaction 5) :=
  (isTransactionWaiting_changes_own_iff noAnswers 2 _ 5 _ false _ _ rfl).2
    fun h => absurd h.1 (by decide)

/-- A read under the number 5 is repeated on a node without a delegate. The transaction 2 is
finished instead of it. -/
theorem isTransactionWaiting_finishes_another :
    ¬ ∀ (w : Surroundings) (fuel : Nat) (handler : FsTransactionHandler) (own : FsTransactionID)
      (s : FsTransactionStore) (waiting : Bool) (handler' : FsTransactionHandler)
      (s' : FsTransactionStore),
      isTransactionWaiting w fuel handler own s = some (waiting, handler', s') →
        ChangesOwn w handler own s handler' s' := by
  intro hall
  have hchanges := hall noAnswers 2 ⟨.read, false, fsTransactionNoRepeatID, .error, false⟩ 5
    (twoWaiting.setStatus 5 FsTransactionStatus.repeat.code) true _ _ rfl
  exact absurd (hchanges.others 2 (by decide) (by decide)) (by decide)

end WaiterFsTransaction

end MeetixOS.Kernel
