import MeetixOS.Userspace.ZipNET.EventQueues

/-! # What the queues of the window server deliver

The buffers are emptied from the back. In every run in which the main loop finds at most one key event
and at most one command of each client when it takes the locks, key events and the commands of
each client are processed in the order they were buffered in, nothing is lost or processed twice,
and every response is sent once, to its requester. -/

open Option (map_eq_some_iff)

namespace MeetixOS.ZipNET

open Lib Kernel MainLoop

variable {σ ρ κ μ : Type}

/-! ## Where the main loop is -/

namespace MainLoop

/-- The main loop has yet to empty the buffer of key events. -/
def BeforeKeys : MainLoop μ → Prop
  | .start => True
  | .lockKeys => True
  | .keys => True
  | _ => False

/-- The main loop is emptying the buffer of command messages. -/
def TakesCommands : MainLoop μ → Prop
  | .commands => True
  | .lockResponses _ => True
  | .pushResponse _ => True
  | .wakeResponder => True
  | .unlockResponses => True
  | _ => False

/-- The main loop holds the lock of the responses. -/
def HoldsResponses : MainLoop μ → Prop
  | .pushResponse _ => True
  | .wakeResponder => True
  | .unlockResponses => True
  | _ => False

/-- The main loop is in `sendResponse`. -/
def Responds : MainLoop μ → Prop
  | .lockResponses _ => True
  | .pushResponse _ => True
  | .wakeResponder => True
  | .unlockResponses => True
  | _ => False

/-- The response that is generated and not yet in the buffer. -/
def pending : MainLoop μ → List (CommandMessageResponse μ)
  | .lockResponses response => [response]
  | .pushResponse response => [response]
  | _ => []

end MainLoop

namespace Server

/-! ## The invariant -/

/-- The client that a command message came from. -/
def client (clientOf : Tid → Pid) (message : CommandMessage ρ) : Pid := clientOf message.senderTid

/-- The responses: who holds their lock, that none is lost, and that each belongs to a command that
was processed. -/
structure Responding (s : Server σ ρ κ μ) : Prop where
  main_iff : s.responseBuffer.lock = some .main ↔ s.mainLoop.HoldsResponses
  responder_iff : s.responseBuffer.lock = some .responder ↔ s.responder = .sending
  only : ∀ t, s.responseBuffer.lock = some t → t = .main ∨ t = .responder
  seen : s.responseBuffer.items ≠ [] →
    s.bufferEmptyLock = false ∨ s.responder ≠ .waiting ∨ s.mainLoop = .wakeResponder
  conserved : s.responseBuffer.Conserved
  generated : s.answers.map Prod.snd = s.responseBuffer.pushed ++ s.mainLoop.pending
  answered : (s.answers.map Prod.fst).Sublist s.commandMessageBuffer.taken
  requester : ∀ answer ∈ s.answers,
    answer.2.target = answer.1.senderTid ∧ answer.2.transaction = answer.1.transaction

/-- The three buffers together. -/
structure Inv (clientOf : Tid → Pid) (s : Server σ ρ κ μ) : Prop where
  keys : Channel (fun _ => ()) .keyReceiver (s.mainLoop = .keys) s.mainLoop.BeforeKeys s.renderAtom
    s.keyInfoBuffer s.keyReceivers
  commands : Channel (client clientOf) .receiver s.mainLoop.TakesCommands (s.mainLoop ≠ .render)
    s.renderAtom s.commandMessageBuffer s.receivers
  responses : s.Responding

/-- The main loop takes the locks of buffers with at most one key event, and at most one command of each
client. -/
def InTurn (clientOf : Tid → Pid) (s : Server σ ρ κ μ) : Action ρ κ → Prop
  | .mainLoop =>
    (s.mainLoop = .lockKeys → s.keyInfoBuffer.items.length ≤ 1) ∧
      (s.mainLoop = .lockCommands →
        (s.commandMessageBuffer.items.map (client clientOf)).Nodup)
  | _ => True

variable {clientOf : Tid → Pid} {h : Handlers σ ρ κ μ} {s s' : Server σ ρ κ μ}

theorem nodup_unit {α : Type} {l : List α} (hl : l.length ≤ 1) : (l.map fun _ => ()).Nodup := by
  match l, hl with
  | [], _ => simp
  | [a], _ => simp

theorem Initial.inv (hs : s.Initial) : s.Inv clientOf := by
  obtain ⟨hkeys, hcommands, hresponses, hkeyIdle, hidle, hempty, hmain, hresponder, -, hanswers⟩ := hs
  refine ⟨?_, ?_, ?_⟩
  · rw [hkeys]
    exact Channel.start hkeyIdle (by simp [hmain])
  · rw [hcommands]
    exact Channel.start hidle (by simp [hmain, TakesCommands])
  · exact
      { main_iff := by simp [hresponses, hmain, LockedBuffer.empty, HoldsResponses]
        responder_iff := by simp [hresponses, hresponder, LockedBuffer.empty]
        only := by simp [hresponses, LockedBuffer.empty]
        seen := by simp [hresponses, LockedBuffer.empty]
        conserved := by
          rw [hresponses]
          exact List.Perm.refl _
        generated := by simp [hresponses, hmain, hanswers, LockedBuffer.empty, pending]
        answered := by simp [hanswers]
        requester := by simp [hanswers] }

/-! ## The steps -/

theorem receiver_ne_main (n : Nat) : Thread.receiver n ≠ .main := by simp

theorem keyReceiver_ne_main (n : Nat) : Thread.keyReceiver n ≠ .main := by simp

section

variable (hr : s.Responding) (hbuffer : s'.responseBuffer = s.responseBuffer)
  (hempty : s'.bufferEmptyLock = s.bufferEmptyLock) (hresponder : s'.responder = s.responder)
include hr hbuffer hempty hresponder

theorem Responding.frame (hholds : s'.mainLoop.HoldsResponses ↔ s.mainLoop.HoldsResponses)
    (hpending : s'.mainLoop.pending = s.mainLoop.pending)
    (hwake : s.mainLoop ≠ .wakeResponder ∨ s'.mainLoop = .wakeResponder)
    (hanswers : s'.answers = s.answers)
    (htaken : s.commandMessageBuffer.taken.Sublist s'.commandMessageBuffer.taken) :
    s'.Responding where
  main_iff := by rw [hbuffer, hholds, hr.main_iff]
  responder_iff := by rw [hbuffer, hresponder, hr.responder_iff]
  only := by rw [hbuffer]; exact hr.only
  seen := by
    rw [hbuffer, hempty, hresponder]
    intro hne
    rcases hr.seen hne with hseen | hseen | hseen
    · exact Or.inl hseen
    · exact Or.inr (Or.inl hseen)
    · exact Or.inr (Or.inr (hwake.resolve_left fun hne => hne hseen))
  conserved := by rw [hbuffer]; exact hr.conserved
  generated := by rw [hbuffer, hanswers, hpending]; exact hr.generated
  answered := by rw [hanswers]; exact hr.answered.trans htaken
  requester := by rw [hanswers]; exact hr.requester

theorem Responding.outside (hmain : ¬ s.mainLoop.Responds) (hmain' : ¬ s'.mainLoop.Responds)
    (hanswers : s'.answers = s.answers)
    (htaken : s.commandMessageBuffer.taken.Sublist s'.commandMessageBuffer.taken) :
    s'.Responding := by
  have holds : ∀ l : MainLoop μ, ¬ l.Responds → ¬ l.HoldsResponses ∧ l.pending = [] := by
    intro l hl
    cases l with
    | start | lockKeys | keys | lockCommands | commands | render => exact ⟨fun h => h, rfl⟩
    | lockResponses r | pushResponse r | wakeResponder | unlockResponses => exact absurd trivial hl
  obtain ⟨hholds, hpending⟩ := holds _ hmain
  obtain ⟨hholds', hpending'⟩ := holds _ hmain'
  refine hr.frame hbuffer hempty hresponder (iff_of_false hholds' hholds) ?_ ?_ hanswers htaken
  · rw [hpending, hpending']
  · refine Or.inl fun heq => hmain ?_
    rw [heq]
    trivial

theorem Responding.same (hmain : s'.mainLoop = s.mainLoop) (hanswers : s'.answers = s.answers)
    (htaken : s'.commandMessageBuffer.taken = s.commandMessageBuffer.taken) : s'.Responding := by
  refine hr.frame hbuffer hempty hresponder (by rw [hmain]) (by rw [hmain]) ?_ hanswers ?_
  · rw [hmain]
    exact (eq_or_ne s.mainLoop .wakeResponder).symm
  · rw [htaken]

end

section

variable (hinv : s.Inv clientOf)
include hinv

theorem Inv.receive {n : Nat} {message : CommandMessage ρ}
    (hstep : s.step h (.receive n message) = some s') : s'.Inv clientOf := by
  simp only [step] at hstep
  split at hstep
  next hidle =>
    cases hstep
    exact ⟨hinv.keys, hinv.commands.receive hidle message, hinv.responses.same rfl rfl rfl rfl rfl rfl⟩
  next => cases hstep

theorem Inv.readKey {n : Nat} {info : κ} (hstep : s.step h (.readKey n info) = some s') :
    s'.Inv clientOf := by
  simp only [step] at hstep
  split at hstep
  next hidle =>
    cases hstep
    exact ⟨hinv.keys.receive hidle info, hinv.commands, hinv.responses.same rfl rfl rfl rfl rfl rfl⟩
  next => cases hstep

theorem Inv.readMouse (hstep : s.step h .readMouse = some s') : s'.Inv clientOf := by
  cases hstep
  exact ⟨hinv.keys.setAtom (Or.inl rfl), hinv.commands.setAtom (Or.inl rfl),
    hinv.responses.same rfl rfl rfl rfl rfl rfl⟩

theorem Inv.receiver {n : Nat} (hstep : s.step h (.receiver n) = some s') : s'.Inv clientOf := by
  simp only [step, map_eq_some_iff] at hstep
  obtain ⟨⟨buffer, producer, trigger⟩, hproduce, rfl⟩ := hstep
  exact ⟨hinv.keys.trigger trigger, hinv.commands.produce (fun _ _ heq => by simpa using heq)
    receiver_ne_main hproduce, hinv.responses.same rfl rfl rfl rfl rfl (produce_taken hproduce)⟩

theorem Inv.keyReceiver {n : Nat} (hstep : s.step h (.keyReceiver n) = some s') :
    s'.Inv clientOf := by
  simp only [step, map_eq_some_iff] at hstep
  obtain ⟨⟨buffer, producer, trigger⟩, hproduce, rfl⟩ := hstep
  exact ⟨hinv.keys.produce (fun _ _ heq => by simpa using heq) keyReceiver_ne_main hproduce,
    hinv.commands.trigger trigger, hinv.responses.same rfl rfl rfl rfl rfl rfl⟩

end

/-! ## The main loop -/

section

variable (hinv : s.Inv clientOf)
include hinv

theorem Inv.beginRound (hmain : s.mainLoop = .start ∨ s.mainLoop = .render) (r : σ × List Tid) :
    Inv clientOf { s.handled r with renderAtom := true, mainLoop := .lockKeys } := by
  have hkeys : s.mainLoop ≠ .keys := by rcases hmain with h | h <;> simp [h]
  have htakes : ¬ s.mainLoop.TakesCommands := by
    rcases hmain with h | h <;> simp [h, TakesCommands]
  have hawake : lockKeys ≠ (render : MainLoop μ) := by simp
  refine ⟨?_, ?_, ?_⟩
  · exact (hinv.keys.mono (iff_of_false hkeys (by simp)) fun _ => trivial).setAtom (Or.inr trivial)
  · exact (hinv.commands.mono (iff_of_false htakes fun h => h) fun _ => hawake).setAtom
      (Or.inr hawake)
  · refine hinv.responses.outside rfl rfl rfl ?_ (fun h => h) rfl (List.Sublist.refl _)
    rcases hmain with h | h <;> simp [h, Responds]

theorem Inv.lockKeys (hmain : s.mainLoop = .lockKeys) (hturn : s.keyInfoBuffer.items.length ≤ 1)
    {buffer : LockedBuffer κ Thread} (hacquire : s.keyInfoBuffer.acquire .main = some buffer) :
    Inv clientOf { s with keyInfoBuffer := buffer, mainLoop := .keys } := by
  refine ⟨?_, ?_, ?_⟩
  · exact hinv.keys.acquire keyReceiver_ne_main (nodup_unit hturn) hacquire rfl fun _ => trivial
  · refine hinv.commands.mono ?_ fun _ => by simp
    simp [hmain, TakesCommands]
  · exact hinv.responses.outside rfl rfl rfl (by simp [hmain, Responds]) (fun h => h) rfl
      (List.Sublist.refl _)

theorem Inv.takeKey (hmain : s.mainLoop = .keys) {info : κ} {buffer : LockedBuffer κ Thread}
    (htake : s.keyInfoBuffer.takeBack = some (info, buffer)) (r : σ × List Tid) :
    Inv clientOf { s.handled r with keyInfoBuffer := buffer } :=
  ⟨hinv.keys.takeBack hmain htake, hinv.commands, hinv.responses.same rfl rfl rfl rfl rfl rfl⟩

theorem Inv.unlockKeys (hmain : s.mainLoop = .keys) (hempty : s.keyInfoBuffer.items = []) :
    Inv clientOf { s with
      keyInfoBuffer := s.keyInfoBuffer.release, mainLoop := .lockCommands } := by
  refine ⟨?_, ?_, ?_⟩
  · exact hinv.keys.release keyReceiver_ne_main hmain hempty (by simp)
  · refine hinv.commands.mono ?_ fun _ => by simp
    simp [hmain, TakesCommands]
  · exact hinv.responses.outside rfl rfl rfl (by simp [hmain, Responds]) (fun h => h) rfl
      (List.Sublist.refl _)

theorem Inv.lockCommands (hmain : s.mainLoop = .lockCommands)
    (hturn : (s.commandMessageBuffer.items.map (client clientOf)).Nodup)
    {buffer : LockedBuffer (CommandMessage ρ) Thread}
    (hacquire : s.commandMessageBuffer.acquire .main = some buffer) :
    Inv clientOf { s with commandMessageBuffer := buffer, mainLoop := .commands } := by
  have htaken : buffer.taken = s.commandMessageBuffer.taken := by
    rw [(LockedBuffer.acquire_eq_some_iff.mp hacquire).2]
  refine ⟨?_, ?_, ?_⟩
  · exact hinv.keys.mono (by simp [hmain]) (by simp [hmain, BeforeKeys])
  · exact hinv.commands.acquire receiver_ne_main hturn hacquire trivial fun _ => by simp
  · exact hinv.responses.outside rfl rfl rfl (by simp [hmain, Responds]) (fun h => h) rfl
      (by rw [htaken])

theorem Inv.unlockCommands (hmain : s.mainLoop = .commands)
    (hempty : s.commandMessageBuffer.items = []) (r : σ × List Tid) :
    Inv clientOf { s.handled r with
      commandMessageBuffer := s.commandMessageBuffer.release, mainLoop := .render } := by
  refine ⟨?_, ?_, ?_⟩
  · exact hinv.keys.mono (by simp [hmain]) (by simp [hmain, BeforeKeys])
  · exact hinv.commands.release receiver_ne_main (by simp [hmain, TakesCommands]) hempty
      (by simp [TakesCommands])
  · exact hinv.responses.outside rfl rfl rfl (by simp [hmain, Responds]) (fun h => h) rfl
      (List.Sublist.refl _)

theorem Inv.processMessage (hmain : s.mainLoop = .commands) (hstep : s.processMessage h = some s') :
    s'.Inv clientOf := by
  obtain ⟨⟨message, buffer⟩, htake, hs'⟩ := map_eq_some_iff.mp hstep
  have hconsuming : s.mainLoop.TakesCommands := by rw [hmain]; trivial
  have hcommands := hinv.commands.takeBack hconsuming htake
  have htaken : buffer.taken = s.commandMessageBuffer.taken ++ [message] := by
    obtain ⟨front, -, rfl⟩ := LockedBuffer.takeBack_eq_some_iff.mp htake
    rfl
  have hmore : s.commandMessageBuffer.taken.Sublist buffer.taken := by
    rw [htaken]
    exact List.sublist_append_left _ _
  simp only [handled] at hs'
  split at hs'
  next =>
    subst hs'
    refine ⟨hinv.keys, hcommands, ?_⟩
    exact hinv.responses.outside rfl rfl rfl (by simp [hmain, Responds])
      (by simp [hmain, Responds]) rfl hmore
  next m hm =>
    subst hs'
    refine ⟨?_, ?_, ?_⟩
    · exact hinv.keys.mono (by simp [hmain]) (by simp [hmain, BeforeKeys])
    · exact hcommands.mono (iff_of_true hconsuming trivial) fun _ => by simp
    · have hr := hinv.responses
      exact
        { main_iff := by
            rw [hr.main_iff, hmain]
            rfl
          responder_iff := hr.responder_iff
          only := hr.only
          seen := by
            intro hne
            simpa [hmain] using hr.seen hne
          conserved := hr.conserved
          generated := by
            have hgenerated := hr.generated
            simp only [hmain, pending, List.append_nil] at hgenerated
            simp [hgenerated, pending]
          answered := by
            rw [List.map_append, htaken]
            exact hr.answered.append_right [message]
          requester := by
            intro answer hanswer
            rcases List.mem_append.mp hanswer with hold | hnew
            · exact hr.requester answer hold
            · obtain rfl := List.mem_singleton.mp hnew
              exact ⟨rfl, rfl⟩ }

end

variable {response : CommandMessageResponse μ}

theorem Responding.lock (hr : s.Responding)
    (hmain : s.mainLoop = .lockResponses response)
    {buffer : LockedBuffer (CommandMessageResponse μ) Thread}
    (hacquire : s.responseBuffer.acquire .main = some buffer) :
    Responding { s with responseBuffer := buffer, mainLoop := .pushResponse response } := by
  obtain ⟨hfree, rfl⟩ := LockedBuffer.acquire_eq_some_iff.mp hacquire
  exact
    { main_iff := iff_of_true rfl trivial
      responder_iff := by
        have hnot := hr.responder_iff
        rw [hfree] at hnot
        simpa using hnot
      only := fun t ht => Or.inl (Option.some.inj ht).symm
      seen := fun hne => by simpa [hmain] using hr.seen hne
      conserved := hr.conserved
      generated := by simpa [hmain, pending] using hr.generated
      answered := hr.answered
      requester := hr.requester }

theorem Responding.push (hr : s.Responding)
    (hmain : s.mainLoop = .pushResponse response) :
    Responding { s with
      responseBuffer := s.responseBuffer.push response, mainLoop := .wakeResponder } where
  main_iff := iff_of_true (hr.main_iff.mpr (by rw [hmain]; trivial)) trivial
  responder_iff := hr.responder_iff
  only := hr.only
  seen _ := Or.inr (Or.inr rfl)
  conserved := hr.conserved.push response
  generated := by
    simpa [hmain, pending, LockedBuffer.push] using hr.generated
  answered := hr.answered
  requester := hr.requester

theorem Responding.wake (hr : s.Responding) (hmain : s.mainLoop = .wakeResponder) :
    Responding { s with bufferEmptyLock := false, mainLoop := .unlockResponses } where
  main_iff := iff_of_true (hr.main_iff.mpr (by rw [hmain]; trivial)) trivial
  responder_iff := hr.responder_iff
  only := hr.only
  seen _ := Or.inl rfl
  conserved := hr.conserved
  generated := by simpa [hmain, pending] using hr.generated
  answered := hr.answered
  requester := hr.requester

theorem Responding.unlock (hr : s.Responding) (hmain : s.mainLoop = .unlockResponses) :
    Responding { s with
      responseBuffer := s.responseBuffer.release, mainLoop := .commands } where
  main_iff := iff_of_false (by simp [LockedBuffer.release]) fun h => h
  responder_iff := by
    have hnot := hr.responder_iff
    rw [hr.main_iff.mpr (by rw [hmain]; trivial)] at hnot
    simpa [LockedBuffer.release] using hnot
  only := by simp [LockedBuffer.release]
  seen hne := by simpa [hmain] using hr.seen hne
  conserved := hr.conserved
  generated := by simpa [hmain, pending, LockedBuffer.release] using hr.generated
  answered := hr.answered
  requester := hr.requester

theorem Inv.sendResponse (hinv : s.Inv clientOf) (hmain : s.mainLoop.Responds) {next : MainLoop μ}
    (hnext : next.TakesCommands) (buffer : LockedBuffer (CommandMessageResponse μ) Thread)
    (empty : Bool)
    (hr : Responding { s with
      responseBuffer := buffer, bufferEmptyLock := empty, mainLoop := next }) :
    Inv clientOf { s with
      responseBuffer := buffer, bufferEmptyLock := empty, mainLoop := next } := by
  have hkeys : ∀ l : MainLoop μ, l.TakesCommands → l ≠ .keys ∧ ¬ l.BeforeKeys ∧ l ≠ .render := by
    intro l hl
    cases l with
    | start | lockKeys | keys | lockCommands | render => exact absurd hl fun h => h
    | commands | lockResponses r | pushResponse r | wakeResponder | unlockResponses =>
      simp [BeforeKeys]
  have htakes : s.mainLoop.TakesCommands := by
    cases hm : s.mainLoop with
    | start | lockKeys | keys | lockCommands | commands | render => simp [hm, Responds] at hmain
    | lockResponses r | pushResponse r | wakeResponder | unlockResponses => trivial
  refine ⟨?_, ?_, hr⟩
  · exact hinv.keys.mono (iff_of_false (hkeys _ htakes).1 (hkeys _ hnext).1)
      fun h => absurd h (hkeys _ htakes).2.1
  · exact hinv.commands.mono (iff_of_true htakes hnext) fun _ => (hkeys _ hnext).2.2

theorem Inv.advanceMain (hinv : s.Inv clientOf) (hturn : s.InTurn clientOf (.mainLoop : Action ρ κ))
    (hstep : s.advanceMain h = some s') : s'.Inv clientOf := by
  have hr := hinv.responses
  unfold Server.advanceMain at hstep
  cases hm : s.mainLoop with
  | start =>
    simp only [hm, Option.some.injEq] at hstep
    subst hstep
    exact hinv.beginRound (Or.inl hm) _
  | lockKeys =>
    simp only [hm, map_eq_some_iff] at hstep
    obtain ⟨buffer, hacquire, rfl⟩ := hstep
    exact hinv.lockKeys hm (hturn.1 hm) hacquire
  | keys =>
    simp only [hm] at hstep
    split at hstep
    next info buffer htake =>
      cases hstep
      exact hinv.takeKey hm htake _
    next hnone =>
      cases hstep
      exact hinv.unlockKeys hm (LockedBuffer.takeBack_eq_none_iff.mp hnone)
  | lockCommands =>
    simp only [hm, map_eq_some_iff] at hstep
    obtain ⟨buffer, hacquire, rfl⟩ := hstep
    exact hinv.lockCommands hm (hturn.2 hm) hacquire
  | commands =>
    simp only [hm] at hstep
    split at hstep
    next s1 hprocess =>
      cases hstep
      exact hinv.processMessage hm hprocess
    next hnone =>
      cases hstep
      refine hinv.unlockCommands hm (LockedBuffer.takeBack_eq_none_iff.mp ?_) _
      simpa [Server.processMessage] using hnone
  | lockResponses response =>
    simp only [hm, map_eq_some_iff] at hstep
    obtain ⟨buffer, hacquire, rfl⟩ := hstep
    exact hinv.sendResponse (by rw [hm]; trivial) (by trivial) _ _ (hr.lock hm hacquire)
  | pushResponse response =>
    simp only [hm, Option.some.injEq] at hstep
    subst hstep
    exact hinv.sendResponse (by rw [hm]; trivial) (by trivial) _ _ (hr.push hm)
  | wakeResponder =>
    simp only [hm, Option.some.injEq] at hstep
    subst hstep
    exact hinv.sendResponse (by rw [hm]; trivial) (by trivial) _ _ (hr.wake hm)
  | unlockResponses =>
    simp only [hm, Option.some.injEq] at hstep
    subst hstep
    exact hinv.sendResponse (by rw [hm]; trivial) (by trivial) _ _ (hr.unlock hm)
  | render =>
    simp only [hm] at hstep
    split at hstep
    next => cases hstep
    next =>
      cases hstep
      exact hinv.beginRound (Or.inr hm) _

theorem Inv.stepMain (hinv : s.Inv clientOf) (hturn : s.InTurn clientOf (.mainLoop : Action ρ κ))
    (hstep : s.stepMain h = some s') : s'.Inv clientOf := by
  unfold Server.stepMain at hstep
  split at hstep
  · exact hinv.advanceMain hturn hstep
  · split at hstep
    · cases hstep
    · cases hstep
      exact ⟨hinv.keys, hinv.commands, hinv.responses.same rfl rfl rfl rfl rfl rfl⟩

/-! ## The responder -/

theorem Responding.takeBack (hr : s.Responding) (hsending : s.responder = .sending)
    {buffer : LockedBuffer (CommandMessageResponse μ) Thread}
    (htake : s.responseBuffer.takeBack = some (response, buffer)) :
    Responding { s with responseBuffer := buffer } := by
  have hconserved := hr.conserved.takeBack htake
  obtain ⟨front, hfront, rfl⟩ := LockedBuffer.takeBack_eq_some_iff.mp htake
  exact
    { main_iff := hr.main_iff
      responder_iff := hr.responder_iff
      only := hr.only
      seen := fun _ => Or.inr (Or.inl (by simp [hsending]))
      conserved := hconserved
      generated := hr.generated
      answered := hr.answered
      requester := hr.requester }

theorem Responding.stepResponder (hr : s.Responding) (hstep : s.stepResponder = some s') :
    s'.Responding := by
  unfold Server.stepResponder at hstep
  cases hresponder : s.responder with
  | waiting =>
    simp only [hresponder] at hstep
    split at hstep
    next => cases hstep
    next =>
      cases hstep
      have hnot := hr.responder_iff
      rw [hresponder] at hnot
      exact
        { main_iff := hr.main_iff
          responder_iff := by simpa using hnot
          only := hr.only
          seen := fun _ => Or.inr (Or.inl (by simp))
          conserved := hr.conserved
          generated := hr.generated
          answered := hr.answered
          requester := hr.requester }
  | lockResponses =>
    simp only [hresponder, map_eq_some_iff] at hstep
    obtain ⟨buffer, hacquire, rfl⟩ := hstep
    obtain ⟨hfree, rfl⟩ := LockedBuffer.acquire_eq_some_iff.mp hacquire
    have hnot := hr.main_iff
    rw [hfree] at hnot
    exact
      { main_iff := by simpa using hnot
        responder_iff := iff_of_true rfl rfl
        only := fun t ht => Or.inr (Option.some.inj ht).symm
        seen := fun _ => Or.inr (Or.inl (by simp))
        conserved := hr.conserved
        generated := hr.generated
        answered := hr.answered
        requester := hr.requester }
  | sending =>
    simp only [hresponder] at hstep
    split at hstep
    next response buffer htake =>
      split at hstep
      · cases hstep
      · cases hstep
        have := hr.takeBack hresponder htake
        rwa [hresponder] at this
    next hnone =>
      cases hstep
      have hempty := LockedBuffer.takeBack_eq_none_iff.mp hnone
      have hnot := hr.main_iff
      rw [hr.responder_iff.mpr hresponder] at hnot
      exact
        { main_iff := by simpa [LockedBuffer.release] using hnot
          responder_iff := by simp [LockedBuffer.release]
          only := by simp [LockedBuffer.release]
          seen := fun hne => absurd hempty hne
          conserved := hr.conserved
          generated := hr.generated
          answered := hr.answered
          requester := hr.requester }

theorem Inv.stepResponder (hinv : s.Inv clientOf) (hstep : s.stepResponder = some s') :
    s'.Inv clientOf := by
  have hr := hinv.responses.stepResponder hstep
  have hsame : s'.keyInfoBuffer = s.keyInfoBuffer ∧ s'.keyReceivers = s.keyReceivers ∧
      s'.commandMessageBuffer = s.commandMessageBuffer ∧ s'.receivers = s.receivers ∧
      s'.renderAtom = s.renderAtom ∧ s'.mainLoop = s.mainLoop := by
    unfold Server.stepResponder at hstep
    split at hstep
    · split at hstep
      · cases hstep
      · cases hstep
        simp
    · obtain ⟨buffer, -, rfl⟩ := map_eq_some_iff.mp hstep
      simp
    · split at hstep
      · split at hstep
        · cases hstep
        · cases hstep
          simp
      · cases hstep
        simp
  obtain ⟨hkeyBuffer, hkeyReceivers, hbuffer, hreceivers, hatom, hmain⟩ := hsame
  refine ⟨?_, ?_, hr⟩
  · rw [hkeyBuffer, hkeyReceivers, hatom, hmain]
    exact hinv.keys
  · rw [hbuffer, hreceivers, hatom, hmain]
    exact hinv.commands

theorem Inv.step (hinv : s.Inv clientOf) {a : Action ρ κ} (hturn : s.InTurn clientOf a)
    (hstep : s.step h a = some s') : s'.Inv clientOf := by
  cases a with
  | receive n message => exact hinv.receive hstep
  | readKey n info => exact hinv.readKey hstep
  | readMouse => exact hinv.readMouse hstep
  | messageQueue tid full =>
    cases hstep
    exact ⟨hinv.keys, hinv.commands, hinv.responses.same rfl rfl rfl rfl rfl rfl⟩
  | receiver n => exact hinv.receiver hstep
  | keyReceiver n => exact hinv.keyReceiver hstep
  | mainLoop => exact hinv.stepMain hturn hstep
  | responder => exact hinv.stepResponder hstep

theorem inv_of_reachable (hs : (system h).Reachable (InTurn clientOf) s) : s.Inv clientOf :=
  hs.invariant (fun _ hs => Initial.inv hs) fun _ _ _ hinv hturn hstep => Inv.step hinv hturn hstep

end Server

end MeetixOS.ZipNET
