import MeetixOS.Kernel.Types
import MeetixOS.Lib.LockedBuffer
import MeetixOS.Lib.Runs

/-! # The queues of the window server

Receiver threads buffer command messages and key events and trigger a rendering; the main loop takes them
out in `EventProcessor::process` and hands the responses to the responder thread. Each of the three buffers
has a lock of its own; the render atom and `m_buffer_empty_lock` wake the two consumers. What they send
waits while the message queue of the receiving thread is full. A step is one action of one thread. -/

open Function (update update_of_ne)

namespace MeetixOS.ZipNET

open Lib Kernel

/-! ## Messages -/

/-- A command message, as the receiver thread copied it. -/
structure CommandMessage (ρ : Type) where
  senderTid : Tid
  transaction : Nat
  content : ρ
  deriving DecidableEq

/-- `CommandMessageResponse_t`; the message stands with its length. -/
structure CommandMessageResponse (μ : Type) where
  target : Tid
  transaction : Nat
  message : μ
  deriving DecidableEq

/-- What the events and the rest of the round do to the components, with the threads that they send events
to, one after the other, and the response that a command may generate. -/
structure Handlers (σ ρ κ μ : Type) where
  processMouseState : σ → σ × List Tid
  translateKeyEvent : κ → σ → σ × List Tid
  processCommand : Tid → ρ → σ → (σ × List Tid) × Option μ
  resolveRequirements : σ → σ × List Tid

/-! ## The threads -/

/-- The threads that take locks. -/
inductive Thread where
  | main
  | responder
  | keyReceiver (n : Nat)
  | receiver (n : Nat)
  deriving DecidableEq

/-- A thread that buffers what it received: it takes the lock, pushes, gives the lock back, and triggers
the rendering. -/
inductive Producer (α : Type) where
  | idle
  | holding (a : α)
  | locked (a : α)
  | pushed
  | released

/-- The main loop: the start, the halves of `process`, `sendResponse`, and the wait for the atom. -/
inductive MainLoop (μ : Type) where
  | start
  | lockKeys
  | keys
  | lockCommands
  | commands
  | lockResponses (response : CommandMessageResponse μ)
  | pushResponse (response : CommandMessageResponse μ)
  | wakeResponder
  | unlockResponses
  | render
  deriving DecidableEq

/-- The responder: it waits for `m_buffer_empty_lock`, takes the lock, and sends. -/
inductive Responder where
  | waiting
  | lockResponses
  | sending
  deriving DecidableEq

/-- The buffers of `EventProcessor` and `CommandMessageResponderThread`, the two atoms, where the
threads are, the events that the main loop is about to send, whose message queue is full, and the
components. `answers` records the generated responses, each with its command. -/
structure Server (σ ρ κ μ : Type) where
  keyInfoBuffer : LockedBuffer κ Thread
  keyReceivers : Nat → Producer κ
  commandMessageBuffer : LockedBuffer (CommandMessage ρ) Thread
  receivers : Nat → Producer (CommandMessage ρ)
  responseBuffer : LockedBuffer (CommandMessageResponse μ) Thread
  bufferEmptyLock : Bool
  renderAtom : Bool
  mainLoop : MainLoop μ
  responder : Responder
  outgoing : List Tid
  full : Tid → Bool
  components : σ
  answers : List (CommandMessage ρ × CommandMessageResponse μ)

/-- What can happen next: a receiver gets something, the mouse moves, the message queue of a thread fills
up or is taken from, or a thread takes a step. -/
inductive Action (ρ κ : Type) where
  | receive (n : Nat) (message : CommandMessage ρ)
  | readKey (n : Nat) (info : κ)
  | readMouse
  | messageQueue (tid : Tid) (full : Bool)
  | receiver (n : Nat)
  | keyReceiver (n : Nat)
  | mainLoop
  | responder

variable {σ ρ κ μ α : Type}

/-- One step of `bufferKeyEvent` or `bufferCommandMessage`, and whether the rendering is
triggered. -/
def produce (self : Thread) (buffer : LockedBuffer α Thread) :
    Producer α → Option (LockedBuffer α Thread × Producer α × Bool)
  | .idle => none
  | .holding a => (buffer.acquire self).map fun b => (b, .locked a, false)
  | .locked a => some (buffer.push a, .pushed, false)
  | .pushed => some (buffer.release, .released, false)
  | .released => some (buffer, .idle, true)

theorem produce_taken {self : Thread} {buffer buffer' : LockedBuffer α Thread}
    {producer producer' : Producer α} {trigger : Bool}
    (hstep : produce self buffer producer = some (buffer', producer', trigger)) :
    buffer'.taken = buffer.taken := by
  cases producer with
  | idle => cases hstep
  | holding a =>
    simp only [produce, Option.map_eq_some_iff, Prod.mk.injEq] at hstep
    obtain ⟨b, hacquire, rfl, -, -⟩ := hstep
    obtain ⟨-, rfl⟩ := LockedBuffer.acquire_eq_some_iff.mp hacquire
    rfl
  | locked a | pushed | released =>
    cases hstep
    rfl

namespace Server

variable (h : Handlers σ ρ κ μ)

/-- What a handler leaves behind. -/
def handled (s : Server σ ρ κ μ) (r : σ × List Tid) : Server σ ρ κ μ :=
  { s with components := r.1, outgoing := r.2 }

/-- `process` on the command message at the back, up to `sendResponse`. -/
def processMessage (s : Server σ ρ κ μ) : Option (Server σ ρ κ μ) :=
  s.commandMessageBuffer.takeBack.map fun r =>
    let handled := h.processCommand r.1.senderTid r.1.content s.components
    let s := { s.handled handled.1 with commandMessageBuffer := r.2 }
    match handled.2 with
    | none => s
    | some message =>
      let response := ⟨r.1.senderTid, r.1.transaction, message⟩
      { s with mainLoop := .lockResponses response, answers := s.answers ++ [(r.1, response)] }

/-- One step of the main loop that has sent its events. -/
def advanceMain (s : Server σ ρ κ μ) : Option (Server σ ρ κ μ) :=
  match s.mainLoop with
  | .start =>
    some { s.handled (h.processMouseState s.components) with renderAtom := true, mainLoop := .lockKeys }
  | .lockKeys =>
    (s.keyInfoBuffer.acquire .main).map fun b => { s with keyInfoBuffer := b, mainLoop := .keys }
  | .keys =>
    match s.keyInfoBuffer.takeBack with
    | some (info, b) =>
      some { s.handled (h.translateKeyEvent info s.components) with keyInfoBuffer := b }
    | none => some { s with keyInfoBuffer := s.keyInfoBuffer.release, mainLoop := .lockCommands }
  | .lockCommands =>
    (s.commandMessageBuffer.acquire .main).map fun b =>
      { s with commandMessageBuffer := b, mainLoop := .commands }
  | .commands =>
    match s.processMessage h with
    | some s' => some s'
    | none =>
      some { s.handled (h.resolveRequirements s.components) with
        commandMessageBuffer := s.commandMessageBuffer.release
        mainLoop := .render }
  | .lockResponses response =>
    (s.responseBuffer.acquire .main).map fun b =>
      { s with responseBuffer := b, mainLoop := .pushResponse response }
  | .pushResponse response =>
    some { s with
      responseBuffer := s.responseBuffer.push response
      mainLoop := .wakeResponder }
  | .wakeResponder => some { s with bufferEmptyLock := false, mainLoop := .unlockResponses }
  | .unlockResponses =>
    some { s with responseBuffer := s.responseBuffer.release, mainLoop := .commands }
  | .render =>
    if s.renderAtom then none
    else some { s.handled (h.processMouseState s.components) with
      renderAtom := true, mainLoop := .lockKeys }

/-- One step of the main loop. `s_send_message` waits while the queue is full. -/
def stepMain (s : Server σ ρ κ μ) : Option (Server σ ρ κ μ) :=
  match s.outgoing with
  | [] => s.advanceMain h
  | target :: outgoing => if s.full target then none else some { s with outgoing := outgoing }

/-- One step of `CommandMessageResponderThread::run`. A response counts as taken when it is sent; until
then `s_send_message_t` waits, and the lock is held. -/
def stepResponder (s : Server σ ρ κ μ) : Option (Server σ ρ κ μ) :=
  match s.responder with
  | .waiting =>
    if s.bufferEmptyLock then none
    else some { s with bufferEmptyLock := true, responder := .lockResponses }
  | .lockResponses =>
    (s.responseBuffer.acquire .responder).map fun b =>
      { s with responseBuffer := b, responder := .sending }
  | .sending =>
    match s.responseBuffer.takeBack with
    | some (response, b) =>
      if s.full response.target then none else some { s with responseBuffer := b }
    | none => some { s with responseBuffer := s.responseBuffer.release, responder := .waiting }

def step (s : Server σ ρ κ μ) : Action ρ κ → Option (Server σ ρ κ μ)
  | .receive n message =>
    match s.receivers n with
    | .idle => some { s with receivers := update s.receivers n (.holding message) }
    | _ => none
  | .readKey n info =>
    match s.keyReceivers n with
    | .idle => some { s with keyReceivers := update s.keyReceivers n (.holding info) }
    | _ => none
  | .readMouse => some { s with renderAtom := false }
  | .messageQueue tid full => some { s with full := update s.full tid full }
  | .receiver n =>
    (produce (.receiver n) s.commandMessageBuffer (s.receivers n)).map fun r =>
      { s with
        commandMessageBuffer := r.1
        receivers := update s.receivers n r.2.1
        renderAtom := s.renderAtom && !r.2.2 }
  | .keyReceiver n =>
    (produce (.keyReceiver n) s.keyInfoBuffer (s.keyReceivers n)).map fun r =>
      { s with
        keyInfoBuffer := r.1
        keyReceivers := update s.keyReceivers n r.2.1
        renderAtom := s.renderAtom && !r.2.2 }
  | .mainLoop => s.stepMain h
  | .responder => s.stepResponder

/-- The server as `launch` leaves it to the main loop: nothing buffered, every thread at its start. -/
def Initial (s : Server σ ρ κ μ) : Prop :=
  s.keyInfoBuffer = .empty ∧ s.commandMessageBuffer = .empty ∧ s.responseBuffer = .empty ∧
    (∀ n, s.keyReceivers n = .idle) ∧ (∀ n, s.receivers n = .idle) ∧ s.bufferEmptyLock = true ∧
    s.mainLoop = .start ∧ s.responder = .waiting ∧ s.outgoing = [] ∧ s.answers = []

/-- The runs of the server. -/
def system : System (Server σ ρ κ μ) (Action ρ κ) where
  init := Initial
  step := step h

end Server

/-! ## One buffer and its threads -/

/-- The thread is between taking the lock and giving it back. -/
def Producer.Critical : Producer α → Prop
  | .locked _ => True
  | .pushed => True
  | _ => False

/-- The thread has pushed and not yet triggered the rendering. -/
def Producer.Pending : Producer α → Prop
  | .pushed => True
  | .released => True
  | _ => False

variable {ι : Type} [DecidableEq ι]

/-- A buffer of the main loop and the threads that fill it. The lock is held by the thread in its
critical section; what is in the buffer will be seen, as the main loop has yet to come to it, or is or
will be woken; what was taken was taken in order, and while the main loop empties the buffer, no two
elements of one kind are in it. -/
structure Channel (kind : α → ι) (name : Nat → Thread) (consuming awake : Prop) (renderAtom : Bool)
    (buffer : LockedBuffer α Thread) (producers : Nat → Producer α) : Prop where
  main_iff : buffer.lock = some .main ↔ consuming
  producer_iff : ∀ n, buffer.lock = some (name n) ↔ (producers n).Critical
  only : ∀ t, buffer.lock = some t → t = .main ∨ ∃ n, t = name n
  seen : buffer.items ≠ [] → awake ∨ renderAtom = false ∨ ∃ n, (producers n).Pending
  conserved : buffer.Conserved
  inOrder : buffer.InOrder kind
  apart : consuming → (buffer.items.map kind).Nodup

section

variable {kind : α → ι} {name : Nat → Thread} {consuming awake consuming' awake' : Prop}
  {renderAtom : Bool} {buffer : LockedBuffer α Thread} {producers : Nat → Producer α}

theorem Channel.start (hidle : ∀ n, producers n = .idle) (hconsuming : ¬ consuming) :
    Channel kind name consuming awake renderAtom .empty producers where
  main_iff := iff_of_false (by simp [LockedBuffer.empty]) hconsuming
  producer_iff n := by simp [LockedBuffer.empty, hidle, Producer.Critical]
  only t ht := by simp [LockedBuffer.empty] at ht
  seen hne := absurd rfl hne
  conserved := List.Perm.refl _
  inOrder _ := rfl
  apart hc := absurd hc hconsuming

section

variable (h : Channel kind name consuming awake renderAtom buffer producers)
include h

theorem Channel.mono (hconsuming : consuming ↔ consuming') (hawake : awake → awake') :
    Channel kind name consuming' awake' renderAtom buffer producers where
  main_iff := h.main_iff.trans hconsuming
  producer_iff := h.producer_iff
  only := h.only
  seen hne := (h.seen hne).imp_left hawake
  conserved := h.conserved
  inOrder := h.inOrder
  apart hc := h.apart (hconsuming.mpr hc)

theorem Channel.setAtom {atom : Bool} (hatom : atom = false ∨ awake) :
    Channel kind name consuming awake atom buffer producers where
  main_iff := h.main_iff
  producer_iff := h.producer_iff
  only := h.only
  seen _ := hatom.elim (fun h => Or.inr (Or.inl h)) Or.inl
  conserved := h.conserved
  inOrder := h.inOrder
  apart := h.apart

theorem Channel.trigger (trigger : Bool) :
    Channel kind name consuming awake (renderAtom && !trigger) buffer producers := by
  cases trigger with
  | false => simpa using h
  | true => exact h.setAtom (Or.inl (by simp))

theorem Channel.receive {n : Nat} (hidle : producers n = .idle) (a : α) :
    Channel kind name consuming awake renderAtom buffer
      (update producers n (.holding a)) where
  main_iff := h.main_iff
  producer_iff m := by
    rw [h.producer_iff m]
    by_cases hm : m = n
    · subst hm
      simp [hidle, Producer.Critical]
    · rw [update_of_ne hm]
  only := h.only
  seen hne := by
    rcases h.seen hne with hawake | hatom | ⟨m, hm⟩
    · exact Or.inl hawake
    · exact Or.inr (Or.inl hatom)
    · have hmn : m ≠ n := by
        rintro rfl
        rw [hidle] at hm
        exact hm
      exact Or.inr (Or.inr ⟨m, by rwa [update_of_ne hmn]⟩)
  conserved := h.conserved
  inOrder := h.inOrder
  apart := h.apart

variable {buffer' : LockedBuffer α Thread}

/-- A step of a thread that buffers. Nobody else is in a critical section when it takes the lock or
gives it back. -/
theorem Channel.produce (hname : Function.Injective name) (hmain : ∀ n, name n ≠ .main) {n : Nat}
    {producer : Producer α} {trigger : Bool}
    (hstep : produce (name n) buffer (producers n) = some (buffer', producer, trigger)) :
    Channel kind name consuming awake (renderAtom && !trigger) buffer'
      (update producers n producer) := by
  have hself : ∀ p : Producer α, update producers n p n = p :=
    fun _ => Function.update_self _ _ _
  have hiff := h.producer_iff n
  have hne : ∀ m, m ≠ n → some (name n) ≠ some (name m) :=
    fun m hm heq => hm (hname (Option.some.inj heq)).symm
  have hcritical (hc : (producers n).Critical) : buffer.lock = some (name n) ∧ ¬ consuming := by
    refine ⟨hiff.mpr hc, ?_⟩
    rw [← h.main_iff, hiff.mpr hc]
    exact fun heq => hmain n (Option.some.inj heq)
  cases hp : producers n with
  | idle => simp [ZipNET.produce, hp] at hstep
  | holding a =>
    simp only [ZipNET.produce, hp, Option.map_eq_some_iff, Prod.mk.injEq] at hstep
    obtain ⟨b, hacquire, rfl, rfl, rfl⟩ := hstep
    obtain ⟨hfree, rfl⟩ := LockedBuffer.acquire_eq_some_iff.mp hacquire
    have hconsuming : ¬ consuming := by
      rw [← h.main_iff, hfree]
      simp
    exact
      { main_iff := iff_of_false (fun heq => hmain n (Option.some.inj heq)) hconsuming
        producer_iff := by
          intro m
          by_cases hm : m = n
          · subst hm
            simp [Producer.Critical]
          · rw [update_of_ne hm, ← h.producer_iff m, hfree]
            exact iff_of_false (hne m hm) (by simp)
        only := fun t ht => Or.inr ⟨n, (Option.some.inj ht).symm⟩
        seen := by
          intro hitems
          rcases h.seen hitems with hawake | hatom | ⟨m, hm⟩
          · exact Or.inl hawake
          · exact Or.inr (Or.inl (by simp [hatom]))
          · have hmn : m ≠ n := by
              rintro rfl
              rw [hp] at hm
              exact hm
            exact Or.inr (Or.inr ⟨m, by rwa [update_of_ne hmn]⟩)
        conserved := h.conserved
        inOrder := h.inOrder
        apart := fun hc => absurd hc hconsuming }
  | locked a =>
    simp only [ZipNET.produce, hp, Option.some.injEq, Prod.mk.injEq] at hstep
    obtain ⟨rfl, rfl, rfl⟩ := hstep
    obtain ⟨hlock, hconsuming⟩ := hcritical (by rw [hp]; trivial)
    exact
      { main_iff := h.main_iff
        producer_iff := by
          intro m
          by_cases hm : m = n
          · subst hm
            simp [LockedBuffer.push, hlock, Producer.Critical]
          · rw [update_of_ne hm]
            exact h.producer_iff m
        only := h.only
        seen := fun _ => Or.inr (Or.inr ⟨n, by rw [hself]; trivial⟩)
        conserved := h.conserved.push a
        inOrder := h.inOrder.push a
        apart := fun hc => absurd hc hconsuming }
  | pushed =>
    simp only [ZipNET.produce, hp, Option.some.injEq, Prod.mk.injEq] at hstep
    obtain ⟨rfl, rfl, rfl⟩ := hstep
    obtain ⟨hlock, hconsuming⟩ := hcritical (by rw [hp]; trivial)
    exact
      { main_iff := iff_of_false (by simp [LockedBuffer.release]) hconsuming
        producer_iff := by
          intro m
          by_cases hm : m = n
          · subst hm
            simp [LockedBuffer.release, Producer.Critical]
          · rw [update_of_ne hm, ← h.producer_iff m, hlock]
            exact iff_of_false (by simp [LockedBuffer.release]) (hne m hm)
        only := fun t ht => by simp [LockedBuffer.release] at ht
        seen := fun _ => Or.inr (Or.inr ⟨n, by rw [hself]; trivial⟩)
        conserved := h.conserved
        inOrder := h.inOrder
        apart := fun hc => absurd hc hconsuming }
  | released =>
    simp only [ZipNET.produce, hp, Option.some.injEq, Prod.mk.injEq] at hstep
    obtain ⟨rfl, rfl, rfl⟩ := hstep
    exact
      { main_iff := h.main_iff
        producer_iff := by
          intro m
          by_cases hm : m = n
          · subst hm
            rw [h.producer_iff m, hp]
            simp [Producer.Critical]
          · rw [update_of_ne hm]
            exact h.producer_iff m
        only := h.only
        seen := fun _ => Or.inr (Or.inl (by simp))
        conserved := h.conserved
        inOrder := h.inOrder
        apart := h.apart }

theorem Channel.acquire (hmain : ∀ n, name n ≠ .main) (hapart : (buffer.items.map kind).Nodup)
    (hacquire : buffer.acquire .main = some buffer')
    (hconsuming : consuming') (hawake : awake → awake') :
    Channel kind name consuming' awake' renderAtom buffer' producers := by
  obtain ⟨hfree, rfl⟩ := LockedBuffer.acquire_eq_some_iff.mp hacquire
  exact
    { main_iff := by simp [hconsuming]
      producer_iff := by
        intro n
        rw [← h.producer_iff n, hfree]
        simpa using (hmain n).symm
      only := by
        intro t ht
        exact Or.inl (Option.some.inj ht).symm
      seen := fun hne => (h.seen hne).imp_left hawake
      conserved := h.conserved
      inOrder := h.inOrder
      apart := fun _ => hapart }

theorem Channel.takeBack (hconsuming : consuming) {a : α}
    (htake : buffer.takeBack = some (a, buffer')) :
    Channel kind name consuming awake renderAtom buffer' producers := by
  have hconserved := h.conserved.takeBack htake
  have hinOrder := h.inOrder.takeBack (h.apart hconsuming) htake
  obtain ⟨front, hfront, rfl⟩ := LockedBuffer.takeBack_eq_some_iff.mp htake
  have hapart := h.apart hconsuming
  rw [hfront, List.map_append] at hapart
  exact
    { main_iff := h.main_iff
      producer_iff := h.producer_iff
      only := h.only
      seen := fun _ => h.seen (by simp [hfront])
      conserved := hconserved
      inOrder := hinOrder
      apart := fun _ => (List.nodup_append.mp hapart).1 }

theorem Channel.release (hmain : ∀ n, name n ≠ .main) (hconsuming : consuming)
    (hempty : buffer.items = []) (hdone : ¬ consuming') :
    Channel kind name consuming' awake' renderAtom buffer.release producers where
  main_iff := by simp [LockedBuffer.release, hdone]
  producer_iff n := by
    rw [← h.producer_iff n, h.main_iff.mpr hconsuming]
    simpa [LockedBuffer.release] using (hmain n).symm
  only t ht := by simp [LockedBuffer.release] at ht
  seen hne := absurd hempty hne
  conserved := h.conserved
  inOrder := h.inOrder
  apart hc := absurd hc hdone

end

end

end MeetixOS.ZipNET
