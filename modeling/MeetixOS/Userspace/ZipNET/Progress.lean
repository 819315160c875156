import MeetixOS.Userspace.ZipNET.Delivery
import Mathlib.Data.Prod.Lex

/-! # The threads of the window server come to rest

The internal actions (everything but a new message, key or mouse event, or a change of a message queue)
cannot go on for ever, and where none of them is possible any more and nobody waits for a full queue, the
buffers are empty: nobody waits for a lock that is not given back, and no wake-up is lost. -/

open Function (update update_of_ne)
open Option (map_eq_none_iff map_eq_some_iff)

namespace MeetixOS.ZipNET

open Lib Kernel LockedBuffer

variable {σ ρ κ μ α : Type}

/-- The actions of the threads, as against what comes from outside. -/
def Action.Internal : Action ρ κ → Prop
  | .receiver _ => True
  | .keyReceiver _ => True
  | .mainLoop => True
  | .responder => True
  | _ => False

/-! ## At rest -/

variable {self : Thread} {name : Nat → Thread} {awake consuming : Prop} {ι : Type}

variable {buffer : LockedBuffer α Thread}

theorem produce_critical {producer : Producer α}
    (hcritical : producer.Critical) : produce self buffer producer ≠ none := by
  cases producer with
  | idle | holding a | released => exact absurd hcritical fun h => h
  | locked a | pushed => simp [produce]

theorem Channel.lock_free [DecidableEq ι] {kind : α → ι}
    {renderAtom : Bool}
    {producers : Nat → Producer α}
    (hc : Channel kind name consuming awake renderAtom buffer producers)
    (hrest : ∀ n, ZipNET.produce (name n) buffer (producers n) = none) (hconsuming : ¬ consuming) :
    buffer.lock = none := by
  rw [Option.eq_none_iff_forall_ne_some]
  intro t ht
  rcases hc.only t ht with rfl | ⟨n, rfl⟩
  · exact hconsuming (hc.main_iff.mp ht)
  · exact produce_critical ((hc.producer_iff n).mp ht) (hrest n)

theorem Channel.items_empty [DecidableEq ι] {kind : α → ι}
    {producers : Nat → Producer α}
    (hc : Channel kind name consuming awake true buffer producers)
    (hrest : ∀ n, ZipNET.produce (name n) buffer (producers n) = none) (hawake : ¬ awake) :
    buffer.items = [] := by
  by_contra hne
  rcases hc.seen hne with hseen | hatom | ⟨n, hn⟩
  · exact hawake hseen
  · cases hatom
  · have hn' := hrest n
    cases hp : producers n with
    | idle | holding a | locked a => simp [hp, Producer.Pending] at hn
    | pushed | released => simp [hp, ZipNET.produce] at hn'

namespace Server

variable {clientOf : Tid → Pid} {h : Handlers σ ρ κ μ} {s s' : Server σ ρ κ μ}

variable (h) in
/-- No thread can go on. -/
def AtRest (s : Server σ ρ κ μ) : Prop := ∀ a : Action ρ κ, a.Internal → s.step h a = none

/-- The main loop or the responder is sending to a thread whose message queue is full. -/
def Waits (s : Server σ ρ κ μ) : Prop :=
  (∃ target ∈ s.outgoing.head?, s.full target) ∨
    s.responder = .sending ∧ ∃ r ∈ s.responseBuffer.takeBack, s.full r.1.target

section

variable (hinv : s.Inv clientOf) (hrest : s.AtRest h) (hreturn : ¬ s.Waits)
include hrest hreturn

theorem responder_ne_sending : s.responder ≠ .sending := by
  intro hsending
  have hresponder : s.stepResponder = none := hrest .responder trivial
  simp only [Server.stepResponder, hsending] at hresponder
  split at hresponder
  next response buffer htake =>
    split at hresponder
    next hfull => exact hreturn (.inr ⟨hsending, _, htake, hfull⟩)
    next => cases hresponder
  next => cases hresponder

include hinv

theorem Inv.mainLoop_atRest : s.mainLoop = .render ∧ s.renderAtom = true := by
  have hmain : s.stepMain h = none := hrest .mainLoop trivial
  unfold Server.stepMain at hmain
  split at hmain
  case h_2 target _ hout =>
    split at hmain
    next hfull => exact absurd (.inl ⟨target, by simp [hout], hfull⟩) hreturn
    next => cases hmain
  have hkeys : ∀ n, produce (.keyReceiver n) s.keyInfoBuffer (s.keyReceivers n) = none :=
    fun n => by simpa [Server.step] using hrest (.keyReceiver n) trivial
  have hcommands : ∀ n, produce (.receiver n) s.commandMessageBuffer (s.receivers n) = none :=
    fun n => by simpa [Server.step] using hrest (.receiver n) trivial
  unfold Server.advanceMain at hmain
  cases hm : s.mainLoop with
  | start | pushResponse r | wakeResponder | unlockResponses => simp [hm] at hmain
  | lockKeys =>
    simp only [hm, map_eq_none_iff] at hmain
    obtain ⟨t, ht⟩ := acquire_eq_none_iff.mp hmain
    have hfree := hinv.keys.lock_free hkeys (by simp [hm])
    simp [hfree] at ht
  | keys | commands =>
    simp only [hm] at hmain
    split at hmain <;> cases hmain
  | lockCommands =>
    simp only [hm, map_eq_none_iff] at hmain
    obtain ⟨t, ht⟩ := acquire_eq_none_iff.mp hmain
    have hfree := hinv.commands.lock_free hcommands (by simp [hm, MainLoop.TakesCommands])
    simp [hfree] at ht
  | lockResponses response =>
    simp only [hm, map_eq_none_iff] at hmain
    obtain ⟨t, ht⟩ := acquire_eq_none_iff.mp hmain
    rcases hinv.responses.only t ht with rfl | rfl
    · have := hinv.responses.main_iff.mp ht
      simp [hm, MainLoop.HoldsResponses] at this
    · -- the responder holds the lock, so it is sending and can go on
      exact absurd (hinv.responses.responder_iff.mp ht) (responder_ne_sending hrest hreturn)
  | render =>
    simp only [hm] at hmain
    split at hmain
    next hatom => exact ⟨rfl, hatom⟩
    next => cases hmain

theorem Inv.responder_atRest : s.responder = .waiting ∧ s.bufferEmptyLock = true := by
  have hresponder : s.stepResponder = none := hrest .responder trivial
  obtain ⟨hm, -⟩ := hinv.mainLoop_atRest hrest hreturn
  unfold Server.stepResponder at hresponder
  cases hr : s.responder with
  | waiting =>
    simp only [hr] at hresponder
    split at hresponder
    next hempty => exact ⟨rfl, hempty⟩
    next => cases hresponder
  | lockResponses =>
    simp only [hr, map_eq_none_iff] at hresponder
    obtain ⟨t, ht⟩ := acquire_eq_none_iff.mp hresponder
    rcases hinv.responses.only t ht with rfl | rfl
    · have := hinv.responses.main_iff.mp ht
      simp [hm, MainLoop.HoldsResponses] at this
    · have := hinv.responses.responder_iff.mp ht
      simp [hr] at this
  | sending => exact absurd hr (responder_ne_sending hrest hreturn)

theorem Inv.empty_atRest :
    s.keyInfoBuffer.items = [] ∧ s.commandMessageBuffer.items = [] ∧
      s.responseBuffer.items = [] ∧ s.mainLoop.pending = [] := by
  obtain ⟨hm, hatom⟩ := hinv.mainLoop_atRest hrest hreturn
  obtain ⟨hr, hempty⟩ := hinv.responder_atRest hrest hreturn
  have hkeys := hinv.keys
  have hcommands := hinv.commands
  rw [hatom] at hkeys hcommands
  refine ⟨hkeys.items_empty ?_ ?_, hcommands.items_empty ?_ ?_, ?_, ?_⟩
  · exact fun n => by simpa [Server.step] using hrest (.keyReceiver n) trivial
  · simp [hm, MainLoop.BeforeKeys]
  · exact fun n => by simpa [Server.step] using hrest (.receiver n) trivial
  · simp [hm]
  · by_contra hne
    simpa [hr, hempty, hm] using hinv.responses.seen hne
  · rw [hm]
    rfl

end

end Server

/-! ## The ranks

How many steps a thread is still going to cause: its own, and those of the threads it wakes. -/

def Producer.rank : Producer α → Nat
  | .idle => 0
  | .holding _ => 18
  | .locked _ => 17
  | .pushed => 7
  | .released => 6

def MainLoop.rank : MainLoop μ → Nat
  | .start => 5
  | .lockKeys => 4
  | .keys => 3
  | .lockCommands => 2
  | .commands => 1
  | .lockResponses _ => 9
  | .pushResponse _ => 8
  | .wakeResponder => 6
  | .unlockResponses => 2
  | .render => 0

def Responder.rank : Responder → Nat
  | .waiting => 0
  | .lockResponses => 2
  | .sending => 1

theorem produce_rank {buffer buffer' : LockedBuffer α Thread}
    {producer producer' : Producer α} {trigger : Bool}
    (hstep : produce self buffer producer = some (buffer', producer', trigger)) :
    producer'.rank + 9 * buffer'.items.length + (if trigger then 5 else 0) <
      producer.rank + 9 * buffer.items.length := by
  cases producer with
  | idle => cases hstep
  | holding a =>
    simp only [produce, map_eq_some_iff, Prod.mk.injEq] at hstep
    obtain ⟨b, hacquire, rfl, rfl, rfl⟩ := hstep
    obtain ⟨-, rfl⟩ := acquire_eq_some_iff.mp hacquire
    simp [Producer.rank]
  | locked a =>
    cases hstep
    simp [Producer.rank, push]
    omega
  | pushed =>
    cases hstep
    simp [Producer.rank, release]
  | released =>
    cases hstep
    simp [Producer.rank]
    omega

theorem takeBack_length {ω : Type} {a : α} {b b' : LockedBuffer α ω}
    (htake : b.takeBack = some (a, b')) : b.items.length = b'.items.length + 1 := by
  obtain ⟨front, hfront, rfl⟩ := takeBack_eq_some_iff.mp htake
  simp [hfront]

/-- The rank of the first `n` threads that buffer. -/
def producersRank (n : Nat) (producers : Nat → Producer α) : Nat :=
  ∑ i ∈ Finset.range n, (producers i).rank

theorem producersRank_update {n i : Nat} (hi : i < n) (producers : Nat → Producer α)
    (producer : Producer α) :
    producersRank n (update producers i producer) + (producers i).rank =
      producersRank n producers + producer.rank := by
  have hmem := Finset.mem_range.mpr hi
  have hothers : ∑ j ∈ (Finset.range n).erase i, (update producers i producer j).rank =
      ∑ j ∈ (Finset.range n).erase i, (producers j).rank := by
    refine Finset.sum_congr rfl fun j hj => ?_
    rw [update_of_ne (Finset.ne_of_mem_erase hj)]
  unfold producersRank
  rw [← Finset.add_sum_erase _ _ hmem, ← Finset.add_sum_erase _ (fun j => (producers j).rank) hmem,
    hothers, Function.update_self]
  omega

namespace Server

variable {clientOf : Tid → Pid} {h : Handlers σ ρ κ μ} {s s' : Server σ ρ κ μ} {n : Nat}

/-- The receivers from number `n` on do nothing. -/
def IdleFrom (n : Nat) (s : Server σ ρ κ μ) : Prop :=
  ∀ i, n ≤ i → s.receivers i = .idle ∧ s.keyReceivers i = .idle

/-- The rank of a server with `n` receivers: the threads, what is buffered, and who is woken. -/
def rank (n : Nat) (s : Server σ ρ κ μ) : Nat :=
  producersRank n s.receivers + producersRank n s.keyReceivers +
    9 * s.commandMessageBuffer.items.length + 9 * s.keyInfoBuffer.items.length +
    s.mainLoop.rank + (if s.renderAtom then 0 else 5) +
    s.responseBuffer.items.length + s.responder.rank + (if s.bufferEmptyLock then 0 else 3)

theorem stepResponder_rank (hstep : s.stepResponder = some s') :
    s'.receivers = s.receivers ∧ s'.keyReceivers = s.keyReceivers ∧ s'.rank n < s.rank n := by
  unfold stepResponder at hstep
  cases hr : s.responder with
  | waiting =>
    simp only [hr] at hstep
    split at hstep
    next => cases hstep
    next hempty =>
      cases hstep
      refine ⟨rfl, rfl, ?_⟩
      simp [rank, hr, hempty, Responder.rank]
  | lockResponses =>
    simp only [hr, map_eq_some_iff] at hstep
    obtain ⟨buffer, hacquire, rfl⟩ := hstep
    obtain ⟨-, rfl⟩ := acquire_eq_some_iff.mp hacquire
    refine ⟨rfl, rfl, ?_⟩
    simp [rank, hr, Responder.rank]
  | sending =>
    simp only [hr] at hstep
    split at hstep
    next response buffer htake =>
      split at hstep
      · cases hstep
      · cases hstep
        refine ⟨rfl, rfl, ?_⟩
        have := takeBack_length htake
        simp only [rank, hr]
        omega
    next =>
      cases hstep
      refine ⟨rfl, rfl, ?_⟩
      simp [rank, hr, Responder.rank, release]

theorem processMessage_rank (hmain : s.mainLoop = .commands) (hstep : s.processMessage h = some s') :
    s'.receivers = s.receivers ∧ s'.keyReceivers = s.keyReceivers ∧ s'.rank n < s.rank n := by
  obtain ⟨⟨message, buffer⟩, htake, rfl⟩ := map_eq_some_iff.mp hstep
  have := takeBack_length htake
  simp only [handled]
  split
  next =>
    refine ⟨rfl, rfl, ?_⟩
    simp only [rank]
    omega
  next =>
    refine ⟨rfl, rfl, ?_⟩
    simp only [rank, hmain, MainLoop.rank]
    omega

theorem advanceMain_rank (hstep : s.advanceMain h = some s') :
    s'.receivers = s.receivers ∧ s'.keyReceivers = s.keyReceivers ∧ s'.rank n < s.rank n := by
  unfold advanceMain at hstep
  cases hm : s.mainLoop with
  | start =>
    simp only [hm, Option.some.injEq] at hstep
    subst hstep
    refine ⟨rfl, rfl, ?_⟩
    simp only [rank, handled, hm, MainLoop.rank, if_true]
    omega
  | lockKeys | lockCommands | lockResponses response =>
    simp only [hm, map_eq_some_iff] at hstep
    obtain ⟨buffer, hacquire, rfl⟩ := hstep
    obtain ⟨-, rfl⟩ := acquire_eq_some_iff.mp hacquire
    refine ⟨rfl, rfl, ?_⟩
    simp [rank, hm, MainLoop.rank]
  | keys =>
    simp only [hm] at hstep
    split at hstep
    next info buffer htake =>
      cases hstep
      have := takeBack_length htake
      refine ⟨rfl, rfl, ?_⟩
      simp only [rank, handled, hm]
      omega
    next =>
      cases hstep
      refine ⟨rfl, rfl, ?_⟩
      simp [rank, hm, MainLoop.rank, release]
  | commands =>
    simp only [hm] at hstep
    split at hstep
    next s1 hprocess =>
      cases hstep
      exact processMessage_rank hm hprocess
    next =>
      cases hstep
      refine ⟨rfl, rfl, ?_⟩
      simp [rank, handled, hm, MainLoop.rank, release]
  | pushResponse response =>
    simp only [hm, Option.some.injEq] at hstep
    subst hstep
    refine ⟨rfl, rfl, ?_⟩
    simp only [rank, hm, MainLoop.rank, push, List.length_append,
      List.length_singleton]
    omega
  | wakeResponder =>
    simp only [hm, Option.some.injEq] at hstep
    subst hstep
    refine ⟨rfl, rfl, ?_⟩
    simp only [rank, hm, MainLoop.rank, Bool.false_eq_true, if_false]
    omega
  | unlockResponses =>
    simp only [hm, Option.some.injEq] at hstep
    subst hstep
    refine ⟨rfl, rfl, ?_⟩
    simp [rank, hm, MainLoop.rank, release]
  | render =>
    simp only [hm] at hstep
    split at hstep
    next => cases hstep
    next hatom =>
      cases hstep
      refine ⟨rfl, rfl, ?_⟩
      simp only [rank, handled, hm, MainLoop.rank, if_true, if_neg hatom]
      omega

/-- The ranks, and among equals the number of events still to be sent. -/
def orderedRank (n : Nat) (s : Server σ ρ κ μ) : ℕ ×ₗ ℕ := toLex (s.rank n, s.outgoing.length)

theorem orderedRank_lt (h : s'.rank n < s.rank n) : s'.orderedRank n < s.orderedRank n :=
  Prod.Lex.toLex_lt_toLex.mpr (.inl h)

theorem lt_of_produce {self : Thread} {producer : Producer α}
    {r : LockedBuffer α Thread × Producer α × Bool} {i : Nat} (hidle : n ≤ i → producer = .idle)
    (hstep : produce self buffer producer = some r) : i < n := by
  by_contra hn
  rw [hidle (by omega)] at hstep
  cases hstep

theorem internal_rank (hidle : s.IdleFrom n) {a : Action ρ κ} (ha : a.Internal)
    (hstep : s.step h a = some s') : s'.IdleFrom n ∧ s'.orderedRank n < s.orderedRank n := by
  have hatom : ∀ trigger : Bool, (if (s.renderAtom && !trigger) = true then 0 else 5) ≤
      (if s.renderAtom = true then 0 else 5) + (if trigger = true then 5 else 0) := by
    intro trigger
    cases s.renderAtom <;> cases trigger <;> simp
  cases a with
  | receive i message | readKey i info | readMouse | messageQueue tid full => exact absurd ha fun h => h
  | receiver i =>
    simp only [step, map_eq_some_iff] at hstep
    obtain ⟨⟨buffer, producer, trigger⟩, hproduce, rfl⟩ := hstep
    have hi : i < n := lt_of_produce (fun hn => (hidle i hn).1) hproduce
    have hrank := produce_rank hproduce
    have hupdate := producersRank_update hi s.receivers producer
    have htrigger := hatom trigger
    refine ⟨fun j hj => ⟨?_, (hidle j hj).2⟩, orderedRank_lt ?_⟩
    · have hne : j ≠ i := by omega
      exact (update_of_ne hne _ _).trans (hidle j hj).1
    · simp only [rank]
      omega
  | keyReceiver i =>
    simp only [step, map_eq_some_iff] at hstep
    obtain ⟨⟨buffer, producer, trigger⟩, hproduce, rfl⟩ := hstep
    have hi : i < n := lt_of_produce (fun hn => (hidle i hn).2) hproduce
    have hrank := produce_rank hproduce
    have hupdate := producersRank_update hi s.keyReceivers producer
    have htrigger := hatom trigger
    refine ⟨fun j hj => ⟨(hidle j hj).1, ?_⟩, orderedRank_lt ?_⟩
    · have hne : j ≠ i := by omega
      exact (update_of_ne hne _ _).trans (hidle j hj).2
    · simp only [rank]
      omega
  | mainLoop =>
    replace hstep : s.stepMain h = some s' := hstep
    unfold stepMain at hstep
    split at hstep
    next =>
      obtain ⟨hreceivers, hkeyReceivers, hrank⟩ := advanceMain_rank hstep
      exact ⟨by simpa only [IdleFrom, hreceivers, hkeyReceivers] using hidle, orderedRank_lt hrank⟩
    next target outgoing hout =>
      split at hstep
      next => cases hstep
      next =>
        cases hstep
        exact ⟨hidle, Prod.Lex.toLex_lt_toLex.mpr (.inr ⟨rfl, by simp [hout]⟩)⟩
  | responder =>
    obtain ⟨hreceivers, hkeyReceivers, hrank⟩ := stepResponder_rank hstep
    exact ⟨by simpa only [IdleFrom, hreceivers, hkeyReceivers] using hidle, orderedRank_lt hrank⟩

theorem exists_idleFrom {ok : Server σ ρ κ μ → Action ρ κ → Prop}
    (hs : (system h).Reachable ok s) : ∃ n, s.IdleFrom n := by
  refine hs.invariant (I := fun s => ∃ n, s.IdleFrom n) ?_ ?_
  · rintro s ⟨-, -, -, hkeyIdle, hidle, -⟩
    exact ⟨0, fun i _ => ⟨hidle i, hkeyIdle i⟩⟩
  · rintro s a s' ⟨n, hidle⟩ - hstep
    have hstep : s.step h a = some s' := hstep
    cases a with
    | receive i message =>
      simp only [step] at hstep
      split at hstep
      next =>
        cases hstep
        refine ⟨max n (i + 1), fun j hj => ⟨?_, (hidle j (by omega)).2⟩⟩
        have hne : j ≠ i := by omega
        exact (update_of_ne hne _ _).trans (hidle j (by omega)).1
      next => cases hstep
    | readKey i info =>
      simp only [step] at hstep
      split at hstep
      next =>
        cases hstep
        refine ⟨max n (i + 1), fun j hj => ⟨(hidle j (by omega)).1, ?_⟩⟩
        have hne : j ≠ i := by omega
        exact (update_of_ne hne _ _).trans (hidle j (by omega)).2
      next => cases hstep
    | readMouse | messageQueue tid full =>
      cases hstep
      exact ⟨n, hidle⟩
    | receiver i | keyReceiver i | mainLoop | responder =>
      exact ⟨n, (internal_rank hidle (by trivial) hstep).1⟩

theorem settles_of_reachable {ok : Server σ ρ κ μ → Action ρ κ → Prop}
    (hs : (system h).Reachable ok s) : (system h).Settles Action.Internal s := by
  obtain ⟨n, hidle⟩ := exists_idleFrom hs
  exact System.settles_of_rank (orderedRank n) (fun _ _ _ hidle ha hstep => internal_rank hidle ha hstep)
    hidle

/-! ## Delivery -/

/-- What the window server owes its clients: every buffered key event and command was processed once or
is still buffered, key events and the commands of each client in the order of buffering; every generated
response belongs to a processed command, goes to its sender with its transaction, and was sent once or
is still to be sent; and the threads come to rest, with everything processed and sent once every send
returns. -/
structure Delivers (clientOf : Tid → Pid) (h : Handlers σ ρ κ μ) (s : Server σ ρ κ μ) : Prop where
  keys_once : s.keyInfoBuffer.Conserved
  keys_inOrder : s.keyInfoBuffer.taken <+: s.keyInfoBuffer.pushed
  commands_once : s.commandMessageBuffer.Conserved
  commands_inOrder : ∀ c, s.commandMessageBuffer.taken.filter (client clientOf · = c) <+:
    s.commandMessageBuffer.pushed.filter (client clientOf · = c)
  responses_once : (s.answers.map Prod.snd).Perm
    (s.responseBuffer.taken ++ s.responseBuffer.items ++ s.mainLoop.pending)
  answered : (s.answers.map Prod.fst).Sublist s.commandMessageBuffer.taken
  requester : ∀ answer ∈ s.answers,
    answer.2.target = answer.1.senderTid ∧ answer.2.transaction = answer.1.transaction
  settles : (system h).Settles Action.Internal s
  complete : s.AtRest h → ¬ s.Waits → s.keyInfoBuffer.taken = s.keyInfoBuffer.pushed ∧
    s.commandMessageBuffer.taken.Perm s.commandMessageBuffer.pushed ∧
    s.responseBuffer.taken.Perm (s.answers.map Prod.snd)

/-- In every interleaving in which the main loop never takes two key events, or two commands of one
client, at once, everything is delivered once and in order. -/
theorem delivers_of_inTurn (clientOf : Tid → Pid) (h : Handlers σ ρ κ μ) {s : Server σ ρ κ μ}
    (hs : (system h).Reachable (InTurn clientOf) s) : s.Delivers clientOf h := by
  have hinv := inv_of_reachable hs
  have hkeys : s.keyInfoBuffer.pushed = s.keyInfoBuffer.taken ++ s.keyInfoBuffer.items := by
    simpa using hinv.keys.inOrder ()
  have hresponses : (s.answers.map Prod.snd).Perm
      (s.responseBuffer.taken ++ s.responseBuffer.items ++ s.mainLoop.pending) := by
    rw [hinv.responses.generated]
    exact hinv.responses.conserved.append_right _
  refine ⟨hinv.keys.conserved, ?_, hinv.commands.conserved, hinv.commands.inOrder.taken_first,
    hresponses, hinv.responses.answered, hinv.responses.requester, settles_of_reachable hs, ?_⟩
  · rw [hkeys]
    exact List.prefix_append _ _
  · intro hrest hreturn
    obtain ⟨hkeysEmpty, hcommandsEmpty, hresponsesEmpty, hpending⟩ := hinv.empty_atRest hrest hreturn
    have hcommands := hinv.commands.conserved
    rw [Conserved, hcommandsEmpty, List.append_nil] at hcommands
    rw [hresponsesEmpty, hpending, List.append_nil, List.append_nil] at hresponses
    exact ⟨by rw [hkeys, hkeysEmpty, List.append_nil], hcommands.symm, hresponses.symm⟩

instance [DecidableEq μ] (clientOf : Tid → Pid) (s : Server σ ρ κ μ) (a : Action ρ κ) :
    Decidable (s.InTurn clientOf a) :=
  match a with
  | .mainLoop => inferInstanceAs (Decidable (_ ∧ _))
  | .receive _ _ => .isTrue trivial
  | .readKey _ _ | .readMouse | .messageQueue _ _ | .receiver _ | .keyReceiver _ | .responder =>
    .isTrue trivial

/-- Components that record the keys and send them to thread 8, and commands that are answered with their
content. -/
def echo : Handlers (List Nat) Nat Nat Nat where
  processMouseState keys := (keys, [])
  translateKeyEvent key keys := (keys ++ [key], [8])
  processCommand _ content keys := ((keys, []), some content)
  resolveRequirements keys := (keys, [])

/-- The server before the first action. -/
def echoServer : Server (List Nat) Nat Nat Nat where
  keyInfoBuffer := .empty
  keyReceivers _ := .idle
  commandMessageBuffer := .empty
  receivers _ := .idle
  responseBuffer := .empty
  bufferEmptyLock := true
  renderAtom := true
  mainLoop := .start
  responder := .waiting
  outgoing := []
  full _ := false
  components := []
  answers := []

theorem echoServer_initial : (system echo).init echoServer := by
  refine ⟨rfl, rfl, rfl, fun _ => rfl, fun _ => rfl, rfl, rfl, rfl, rfl, rfl⟩

/-- One key and one command, then a round of the main loop and of the responder; the sender of the command
has a full queue at first. -/
def oneOfEach : List (Action Nat Nat) :=
  List.flatten [[.readKey 0 5, .receive 0 ⟨7, 1, 42⟩], .replicate 4 (.keyReceiver 0),
    .replicate 4 (.receiver 0), [.messageQueue 7 true], .replicate 12 .mainLoop, .replicate 2 .responder,
    [.messageQueue 7 false], .replicate 2 .responder]

theorem echo_delivered : ∃ s, (system echo).Reachable (InTurn id) s ∧ s.Delivers id echo ∧
    s.components = [5] ∧ s.responseBuffer.taken = [⟨7, 1, 42⟩] := by
  obtain ⟨s, hs, hcomponents, htaken⟩ : ∃ s ∈ (system echo).runGuarded (InTurn id) echoServer oneOfEach,
      s.components = [5] ∧ s.responseBuffer.taken = [⟨7, 1, 42⟩] := by
    decide
  have hreach := System.Reachable.of_runGuarded (.init echoServer_initial) hs
  exact ⟨s, hreach, delivers_of_inTurn id echo hreach, hcomponents, htaken⟩

/-- Two keys and two commands of one client, then a round of the main loop. -/
def twoOfEach : List (Action Nat Nat) :=
  List.flatten [[.readKey 0 5], .replicate 4 (.keyReceiver 0), [.readKey 0 6],
    .replicate 4 (.keyReceiver 0), [.receive 0 ⟨7, 1, 42⟩], .replicate 4 (.receiver 0),
    [.receive 0 ⟨7, 2, 43⟩], .replicate 4 (.receiver 0), .replicate 19 .mainLoop]

/-- Two keys and two commands of one client that come in at once are processed the other way
round. -/
theorem echo_reversed : ∃ s, (system echo).Reachable (fun _ _ => True) s ∧
    s.keyInfoBuffer.pushed = [5, 6] ∧ s.keyInfoBuffer.taken = [6, 5] ∧
    s.commandMessageBuffer.pushed = [⟨7, 1, 42⟩, ⟨7, 2, 43⟩] ∧
    s.commandMessageBuffer.taken = [⟨7, 2, 43⟩, ⟨7, 1, 42⟩] ∧ ¬ s.Delivers id echo := by
  obtain ⟨s, hs, hpushed, htaken, hcommands, hprocessed⟩ : ∃ s ∈ (system echo).run echoServer twoOfEach,
      s.keyInfoBuffer.pushed = [5, 6] ∧ s.keyInfoBuffer.taken = [6, 5] ∧
        s.commandMessageBuffer.pushed = [⟨7, 1, 42⟩, ⟨7, 2, 43⟩] ∧
        s.commandMessageBuffer.taken = [⟨7, 2, 43⟩, ⟨7, 1, 42⟩] := by
    decide
  have hreach := System.reachable_of_run echoServer_initial hs
  refine ⟨s, hreach, hpushed, htaken, hcommands, hprocessed, fun hdelivers => ?_⟩
  have hfirst := hdelivers.keys_inOrder
  rw [hpushed, htaken] at hfirst
  simp at hfirst

end Server

end MeetixOS.ZipNET
