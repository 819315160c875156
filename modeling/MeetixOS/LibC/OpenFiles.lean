import MeetixOS.Lib.Links
import Mathlib.Data.List.Perm.Basic

/-! # The list of the open streams

The C library keeps the streams that are open in a doubly linked list, so that the end of the program
can flush and close them. The links are fields of the stream objects, and closing a stream clears its
object before it takes it out of the list: the list then neither loses the stream nor keeps what is
behind it. -/

open Function (update update_of_ne)
open List (mem_cons_self nodup_cons)

namespace LibC

open MeetixOS.Lib

/-- The memory around the list. A stream is its address, and address 0 is the null pointer. -/
structure OpenFiles where
  openStreamList : Nat
  prevStream : Nat → Nat
  nextStream : Nat → Nat
  /-- Whether `m_impl_close` is set. -/
  implClose : Nat → Bool

namespace OpenFiles

/-! ## The operations -/

/-- `memset(stream, 0, sizeof(FILE))`, which also a new object starts with. -/
def clear (files : OpenFiles) (stream : Nat) : OpenFiles :=
  { files with
    prevStream := update files.prevStream stream 0
    nextStream := update files.nextStream stream 0
    implClose := update files.implClose stream false }

/-- `open_file_list_add`. The head is not compared with null: the first stream's address is stored into
the page at address 0, which is mapped. -/
def openFileListAdd (files : OpenFiles) (stream : Nat) : OpenFiles :=
  { files with
    prevStream := update files.prevStream files.openStreamList stream
    nextStream := update files.nextStream stream files.openStreamList
    openStreamList := stream }

def openFileListRemove (files : OpenFiles) (stream : Nat) : OpenFiles :=
  let prev := files.prevStream stream
  let next := files.nextStream stream
  { files with
    openStreamList := if stream = files.openStreamList then next else files.openStreamList
    nextStream := if prev = 0 then files.nextStream else update files.nextStream prev next
    prevStream := if next = 0 then files.prevStream else update files.prevStream next prev }

/-- `fdopen_static` with a mode that it accepts; with another one it returns before it touches the
stream. -/
def fdopenStatic (files : OpenFiles) (stream : Nat) : OpenFiles :=
  { files with implClose := update files.implClose stream true }.openFileListAdd stream

/-- `fclose_static_unlocked`, where `failed` is the answer of `m_impl_close`, which may be null. -/
def fcloseStaticUnlocked (files : OpenFiles) (stream : Nat) (failed : Bool) : Option OpenFiles :=
  if files.implClose stream = false then none
  else if failed then some files
  else some ((files.clear stream).openFileListRemove stream)

/-- The loop of `stdio_fini` from `stream` on: the streams that it flushes and closes, in this order. -/
def stdioFini (failed : Nat → Bool) : Nat → Nat → OpenFiles → Option (List Nat)
  | 0, stream, _ => if stream = 0 then some [] else none
  | fuel + 1, stream, files =>
    if stream = 0 then some []
    else do
      let nextStream := files.nextStream stream
      let files ← files.fcloseStaticUnlocked stream (failed stream)
      let rest ← stdioFini failed fuel nextStream files
      return stream :: rest

end OpenFiles

/-! ## Runs -/

/-- The static objects of the standard streams. -/
structure StandardStreams where
  stdin : Nat
  stdout : Nat
  stderr : Nat
  nonnull : 0 ∉ [stderr, stdout, stdin]
  distinct : [stderr, stdout, stdin].Nodup

/-- What a program does with streams. -/
inductive StreamEvent where
  | opens (stream : Nat)
  | closes (stream : Nat) (failed : Bool)

namespace StandardStreams

def stdioInit (std : StandardStreams) : OpenFiles :=
  let files : OpenFiles := ⟨0, fun _ => 0, fun _ => 0, fun _ => false⟩
  let files := (files.clear std.stdin).fdopenStatic std.stdin
  let files := (files.clear std.stdout).fdopenStatic std.stdout
  (files.clear std.stderr).fdopenStatic std.stderr

end StandardStreams

namespace StreamEvent

/-- The streams that are open after an event, the last one opened first. -/
def live (streams : List Nat) : StreamEvent → List Nat
  | opens stream => stream :: streams
  | closes stream failed => if failed then streams else streams.erase stream

/-- A program opens objects that are no open streams, and closes streams that are open. -/
def Permitted (streams : List Nat) : StreamEvent → Prop
  | opens stream => stream ≠ 0 ∧ stream ∉ streams
  | closes stream _ => stream ∈ streams

/-- The memory after an event. -/
def step (files : OpenFiles) : StreamEvent → Option OpenFiles
  | opens stream => some ((files.clear stream).fdopenStatic stream)
  | closes stream failed => files.fcloseStaticUnlocked stream failed

end StreamEvent

/-- The runs of a program: what it did, the memory, and the streams that it has open. -/
inductive StreamRun (std : StandardStreams) : List StreamEvent → OpenFiles → List Nat → Prop
  | init : StreamRun std [] std.stdioInit [std.stderr, std.stdout, std.stdin]
  | step {events : List StreamEvent} {event : StreamEvent} {files files' : OpenFiles}
      {streams : List Nat} : StreamRun std events files streams → event.Permitted streams →
      event.step files = some files' → StreamRun std (events ++ [event]) files' (event.live streams)

/-! ## What the list is for -/

/-- The stream at an address, if the address is not null. -/
def pointer (address : Nat) : Option Nat := if address = 0 then none else some address

/-- The list is made of these streams, in this order. -/
structure HasChain (files : OpenFiles) (chain : List Nat) : Prop where
  head : pointer files.openStreamList = chain.head?
  linked : Linked (fun a => pointer (files.prevStream a)) (fun a => pointer (files.nextStream a)) chain

/-- The list has exactly the open streams, each once, and the end of the program flushes and closes each
of them once and nothing else, whatever the closings answer. -/
structure TracksOpen (files : OpenFiles) (streams : List Nat) : Prop where
  listed : ∃ chain, HasChain files chain ∧ chain.Nodup ∧ chain.Perm streams
  finished : ∀ failed, ∃ fuel closed,
    files.stdioFini failed fuel files.openStreamList = some closed ∧ closed.Nodup ∧ closed.Perm streams

section

variable {files files' : OpenFiles} {chain streams : List Nat} {stream a : Nat} {failed : Bool}

@[simp] theorem pointer_zero : pointer 0 = none := rfl

theorem pointer_of_ne_zero (h : a ≠ 0) : pointer a = some a := if_neg h

theorem pointer_eq_some {address : Nat} : pointer address = some a ↔ a ≠ 0 ∧ address = a := by
  unfold pointer
  split_ifs with h
  · rw [h]
    simp [eq_comm]
  · constructor
    · intro heq
      obtain rfl := Option.some.inj heq
      exact ⟨h, rfl⟩
    · rintro ⟨-, rfl⟩
      rfl

theorem HasChain.next_mem (h : HasChain files chain) (ha : a ∈ chain) (hne : files.nextStream a ≠ 0) :
    files.nextStream a ∈ chain := by
  obtain ⟨front, rest, rfl⟩ := List.append_of_mem ha
  obtain ⟨-, hnext⟩ := h.linked.pointers
  rw [pointer_of_ne_zero hne] at hnext
  exact List.mem_append_right _ (List.mem_cons_of_mem _ (List.mem_of_head? hnext.symm))

theorem openFileListRemove_clear : (files.clear stream).openFileListRemove stream =
    { files.clear stream with
      openStreamList := if stream = files.openStreamList then 0 else files.openStreamList } := by
  simp [OpenFiles.openFileListRemove, OpenFiles.clear]

theorem fclose_cases (h : files.fcloseStaticUnlocked stream failed = some files') :
    files.implClose stream = true ∧ (failed = true ∧ files' = files ∨ failed = false ∧
      files' = { files.clear stream with
        openStreamList := if stream = files.openStreamList then 0 else files.openStreamList }) := by
  unfold OpenFiles.fcloseStaticUnlocked at h
  split_ifs at h with himpl hfailed
  · exact ⟨by simpa using himpl, .inl ⟨hfailed, (Option.some.inj h).symm⟩⟩
  · rw [openFileListRemove_clear] at h
    exact ⟨by simpa using himpl, .inr ⟨by simpa using hfailed, (Option.some.inj h).symm⟩⟩

theorem fclose_frame (h : files.fcloseStaticUnlocked stream failed = some files') (hne : a ≠ stream) :
    files'.prevStream a = files.prevStream a ∧ files'.nextStream a = files.nextStream a ∧
      files'.implClose a = files.implClose a := by
  obtain ⟨-, ⟨-, rfl⟩ | ⟨-, rfl⟩⟩ := fclose_cases h
  · exact ⟨rfl, rfl, rfl⟩
  · exact ⟨update_of_ne hne .., update_of_ne hne .., update_of_ne hne ..⟩

theorem fclose_isSome (h : files.implClose stream = true) (failed : Bool) :
    ∃ files', files.fcloseStaticUnlocked stream failed = some files' := by
  unfold OpenFiles.fcloseStaticUnlocked
  rw [h, if_neg (by simp)]
  split_ifs <;> exact ⟨_, rfl⟩

theorem stdioFini_segment (failed : Nat → Bool) {p : Option Nat}
    (hsegment : Segment (fun a => pointer (files.prevStream a)) (fun a => pointer (files.nextStream a))
      p chain none)
    (hnodup : chain.Nodup) (hclose : ∀ a ∈ chain, files.implClose a = true)
    (hstream : pointer stream = chain.head?) :
    files.stdioFini failed chain.length stream = some chain := by
  induction chain generalizing files stream p with
  | nil =>
    have hzero : stream = 0 := by
      by_contra hne
      rw [pointer_of_ne_zero hne] at hstream
      exact absurd hstream (by simp)
    simp [OpenFiles.stdioFini, hzero]
  | cons a chain ih =>
    obtain ⟨hne, rfl⟩ := pointer_eq_some.1 hstream
    obtain ⟨-, hnext, hrest⟩ := hsegment
    obtain ⟨hnotin, hnodup⟩ := nodup_cons.1 hnodup
    obtain ⟨files', hfclose⟩ := fclose_isSome (hclose _ mem_cons_self) (failed stream)
    have hframe : ∀ b ∈ chain, files'.prevStream b = files.prevStream b ∧
        files'.nextStream b = files.nextStream b ∧ files'.implClose b = files.implClose b :=
      fun b hb => fclose_frame hfclose fun heq => hnotin (heq ▸ hb)
    have hrest' := ih
      (hrest.congr fun b hb => by
        obtain ⟨hprev, hnext, -⟩ := hframe b hb
        exact ⟨congrArg pointer hprev, congrArg pointer hnext⟩)
      hnodup
      (fun b hb => by
        rw [(hframe b hb).2.2]
        exact hclose b (List.mem_cons_of_mem _ hb))
      (by simpa using hnext)
    rw [List.length_cons, OpenFiles.stdioFini, if_neg hne, hfclose]
    simp [hrest']

theorem HasChain.fdopen (h : HasChain files chain) (hnodup : (stream :: chain).Nodup)
    (hnonnull : 0 ∉ stream :: chain) :
    HasChain ((files.clear stream).fdopenStatic stream) (stream :: chain) := by
  have hne : stream ≠ 0 := fun heq => hnonnull (heq ▸ mem_cons_self)
  have hzero : ∀ b ∈ stream :: chain, b ≠ 0 := fun b hb heq => hnonnull (heq ▸ hb)
  have hhead : chain.head? ≠ some stream := fun heq =>
    (nodup_cons.1 hnodup).1 (List.mem_of_head? heq)
  refine ⟨?_, (h.linked.prepend hnodup).congr fun b hb => ?_⟩
  · exact pointer_of_ne_zero hne
  · have hheadne : stream ≠ files.openStreamList := by
      rintro rfl
      exact hhead (h.head.symm.trans (pointer_of_ne_zero hne))
    by_cases hb' : b = stream
    · subst hb'
      simp only [OpenFiles.fdopenStatic, OpenFiles.openFileListAdd, OpenFiles.clear,
        Function.update_self, update_of_ne hheadne]
      exact ⟨rfl, h.head⟩
    · rw [update_of_ne hb', update_of_ne hb']
      simp only [OpenFiles.fdopenStatic, OpenFiles.openFileListAdd, OpenFiles.clear,
        update_of_ne hb', and_true]
      by_cases hfirst : b = files.openStreamList
      · subst hfirst
        rw [Function.update_self, ← h.head, pointer_of_ne_zero (hzero _ hb), setAt_some_self,
          pointer_of_ne_zero hne]
      · rw [update_of_ne hfirst, update_of_ne hb', ← h.head, setAt_of_ne]
        intro heq
        exact hfirst (pointer_eq_some.1 heq).2.symm

end

/-! ## Runs and the list -/

variable {std : StandardStreams} {events : List StreamEvent} {files : OpenFiles} {streams : List Nat}

/-- What holds in every run: no stream is open twice, and the open ones are those that can be closed. -/
structure Consistent (files : OpenFiles) (streams : List Nat) : Prop where
  nodup : streams.Nodup
  nonnull : 0 ∉ streams
  implClose : ∀ a, files.implClose a = true ↔ a ∈ streams

section

variable (h : Consistent files streams)
include h

theorem Consistent.fdopen {stream : Nat} (hne : stream ≠ 0) (hnew : stream ∉ streams) :
    Consistent ((files.clear stream).fdopenStatic stream) (stream :: streams) where
  nodup := nodup_cons.2 ⟨hnew, h.nodup⟩
  nonnull := by
    rw [List.mem_cons]
    rintro (heq | hmem)
    · exact hne heq.symm
    · exact h.nonnull hmem
  implClose a := by
    by_cases ha : a = stream
    · subst ha
      simp [OpenFiles.fdopenStatic, OpenFiles.openFileListAdd]
    · simp [OpenFiles.fdopenStatic, OpenFiles.openFileListAdd, OpenFiles.clear, ha, h.implClose]

theorem Consistent.step {event : StreamEvent} {files' : OpenFiles}
    (hpermitted : event.Permitted streams) (hstep : event.step files = some files') :
    Consistent files' (event.live streams) := by
  cases event with
  | opens stream =>
    obtain rfl := Option.some.inj hstep
    exact h.fdopen hpermitted.1 hpermitted.2
  | closes stream failed =>
    obtain ⟨-, ⟨rfl, rfl⟩ | ⟨rfl, rfl⟩⟩ := fclose_cases hstep
    · exact h
    · refine ⟨h.nodup.erase stream, fun hzero => h.nonnull (List.mem_of_mem_erase hzero), fun a => ?_⟩
      show update files.implClose stream false a = true ↔ a ∈ streams.erase stream
      rw [h.nodup.mem_erase_iff, ← h.implClose]
      by_cases ha : a = stream
      · simp [ha]
      · simp [ha]

theorem Consistent.tracks (hchain : HasChain files streams) :
    TracksOpen files streams where
  listed := ⟨streams, hchain, h.nodup, .refl streams⟩
  finished failed := ⟨streams.length, streams,
    stdioFini_segment failed hchain.linked h.nodup (fun a ha => (h.implClose a).2 ha) hchain.head,
    h.nodup, .refl streams⟩

end

theorem StandardStreams.stdioInit_lists (std : StandardStreams) :
    Consistent std.stdioInit [std.stderr, std.stdout, std.stdin] ∧
      HasChain std.stdioInit [std.stderr, std.stdout, std.stdin] := by
  have hnonnull := std.nonnull
  have hdistinct := std.distinct
  simp only [List.mem_cons, List.not_mem_nil, or_false, not_or] at hnonnull
  simp only [nodup_cons, List.mem_cons, List.not_mem_nil, or_false, not_or] at hdistinct
  obtain ⟨hstderr, hstdout, hstdin⟩ := hnonnull
  obtain ⟨⟨hne, hne'⟩, hne'', -⟩ := hdistinct
  have hempty : Consistent ⟨0, fun _ => 0, fun _ => 0, fun _ => false⟩ [] :=
    ⟨List.nodup_nil, by simp, by simp⟩
  have hchain : HasChain ⟨0, fun _ => 0, fun _ => 0, fun _ => false⟩ [] := ⟨rfl, trivial⟩
  have hfirst := hempty.fdopen (Ne.symm hstdin) (by simp)
  have hsecond := hfirst.fdopen (Ne.symm hstdout) (by simpa using hne'')
  have hthird := hsecond.fdopen (Ne.symm hstderr) (by simpa using ⟨hne, hne'⟩)
  exact ⟨hthird, ((hchain.fdopen hfirst.nodup hfirst.nonnull).fdopen hsecond.nodup
    hsecond.nonnull).fdopen hthird.nodup hthird.nonnull⟩

theorem StreamRun.consistent (h : StreamRun std events files streams) : Consistent files streams := by
  induction h with
  | init => exact std.stdioInit_lists.1
  | step _ hpermitted hstep ih => exact ih.step hpermitted hstep

theorem StreamRun.lists (h : StreamRun std events files streams)
    (hnone : ∀ stream, .closes stream false ∉ events) : HasChain files streams ∧ 3 ≤ streams.length := by
  induction h with
  | init => exact ⟨std.stdioInit_lists.2, Nat.le_refl 3⟩
  | @step events event files files' streams hrun hpermitted hstep ih =>
    obtain ⟨hchain, hlength⟩ := ih fun stream hmem => hnone stream (List.mem_append_left _ hmem)
    cases event with
    | opens stream =>
      have hconsistent := hrun.consistent.step hpermitted hstep
      obtain rfl := Option.some.inj hstep
      exact ⟨hchain.fdopen hconsistent.nodup hconsistent.nonnull, Nat.le_succ_of_le hlength⟩
    | closes stream failed =>
      obtain ⟨-, ⟨rfl, rfl⟩ | ⟨rfl, -⟩⟩ := fclose_cases hstep
      · exact ⟨hchain, hlength⟩
      · exact absurd (List.mem_append_right _ mem_cons_self) (hnone stream)

theorem not_tracks_of_fclose {stream : Nat} {files' : OpenFiles} (h : Consistent files streams)
    (hchain : HasChain files streams) (hlength : 2 ≤ streams.length) (hmem : stream ∈ streams)
    (hclose : files.fcloseStaticUnlocked stream false = some files') :
    ¬ TracksOpen files' (streams.erase stream) := by
  intro htracks
  obtain ⟨chain, hchain', -, hperm⟩ := htracks.listed
  obtain ⟨front, rest, hsplit⟩ := List.append_of_mem hmem
  obtain ⟨-, ⟨habsurd, -⟩ | ⟨-, rfl⟩⟩ := fclose_cases hclose
  · exact absurd habsurd (by simp)
  · have hne : stream ≠ 0 := fun heq => h.nonnull (heq ▸ hmem)
    rcases List.eq_nil_or_concat front with rfl | ⟨init, before, rfl⟩
    · -- the first entry: the head becomes null
      have hhead := hchain.head
      rw [hsplit, List.nil_append, List.head?_cons] at hhead
      have hnil : chain = [] := by
        rw [← List.head?_eq_none_iff, ← hchain'.head]
        simp [(pointer_eq_some.1 hhead).2]
      rw [hnil] at hperm
      have := hperm.length_eq
      rw [List.length_erase_of_mem hmem, List.length_nil] at this
      omega
    · -- another one: the entry in front of it still points to it
      rw [List.concat_eq_append, List.append_assoc, List.singleton_append] at hsplit
      have hlinked := hchain.linked
      rw [hsplit] at hlinked
      have hpointer := hlinked.pointers.2
      have hnext := (pointer_eq_some.1 hpointer).2
      have hbefore : before ≠ stream := by
        have hnodup := h.nodup
        rw [hsplit, List.nodup_append, nodup_cons] at hnodup
        exact fun heq => hnodup.2.1.1 (heq ▸ mem_cons_self)
      have hnext' : (files.clear stream).nextStream before = stream := by
        rw [← hnext]
        exact update_of_ne (fun heq => hbefore (heq.trans hnext)) ..
      have hinchain : before ∈ chain := by
        rw [hperm.mem_iff, h.nodup.mem_erase_iff, hsplit]
        exact ⟨hbefore, by simp⟩
      have hstream := hchain'.next_mem hinchain (by
        rw [hnext']
        exact hne)
      rw [hnext', hperm.mem_iff, h.nodup.mem_erase_iff] at hstream
      exact hstream.1 rfl

/-- The list of the open streams is right in every state of a run if and only if no closing of a stream
in it succeeds. -/
theorem openFileList_tracks_iff (h : StreamRun std events files streams) :
    (∀ past files' streams', past <+: events → StreamRun std past files' streams' →
      TracksOpen files' streams') ↔ ∀ stream, .closes stream false ∉ events := by
  constructor
  · intro htracks
    induction h with
    | init => simp
    | @step events event files files' streams hrun hpermitted hstep ih =>
      have hnone := ih fun past files' streams' hpast =>
        htracks past files' streams' (hpast.trans (List.prefix_append ..))
      intro stream hmem
      rcases List.mem_append.1 hmem with hmem | hmem
      · exact hnone stream hmem
      · obtain rfl := List.mem_singleton.1 hmem
        obtain ⟨hchain, hlength⟩ := hrun.lists hnone
        exact not_tracks_of_fclose hrun.consistent hchain (by omega) hpermitted hstep
          (htracks _ files' _ (List.prefix_refl _) (.step hrun hpermitted hstep))
  · intro hnone past files' streams' hpast hrun
    exact hrun.consistent.tracks (hrun.lists fun stream hmem => hnone stream (hpast.subset hmem)).1

/-- Three objects for the standard streams. -/
def someStreams : StandardStreams := ⟨4096, 8192, 12288, by decide, by decide⟩

theorem someStreams_fdopen : StreamRun someStreams [.opens 16384]
    ((someStreams.stdioInit.clear 16384).fdopenStatic 16384) [16384, 12288, 8192, 4096] :=
  .step .init (show 16384 ≠ 0 ∧ 16384 ∉ [12288, 8192, 4096] by decide) rfl

theorem someStreams_fclose (failed : Bool) : ∃ files,
    ((someStreams.stdioInit.clear 16384).fdopenStatic 16384).fcloseStaticUnlocked 16384 failed =
      some files :=
  fclose_isSome ((someStreams_fdopen.consistent.implClose 16384).2 mem_cons_self) failed

theorem openFileList_tracks_failed : ∃ files,
    StreamRun someStreams [.opens 16384, .closes 16384 true] files [16384, 12288, 8192, 4096] ∧
      ∀ past files' streams', past <+: [StreamEvent.opens 16384, .closes 16384 true] →
        StreamRun someStreams past files' streams' → TracksOpen files' streams' := by
  obtain ⟨files, hclose⟩ := someStreams_fclose true
  have hrun : StreamRun someStreams [.opens 16384, .closes 16384 true] files _ :=
    .step someStreams_fdopen (show 16384 ∈ _ from mem_cons_self) hclose
  exact ⟨files, hrun, (openFileList_tracks_iff hrun).2 (by simp)⟩

/-- After one file was opened and closed, the standard streams are not in the list anymore. -/
theorem openFileList_closed_head : ∃ files,
    StreamRun someStreams [.opens 16384, .closes 16384 false] files [12288, 8192, 4096] ∧
      ¬ TracksOpen files [12288, 8192, 4096] := by
  obtain ⟨files, hclose⟩ := someStreams_fclose false
  exact ⟨files, .step someStreams_fdopen (show 16384 ∈ _ from mem_cons_self) hclose,
    not_tracks_of_fclose someStreams_fdopen.consistent (someStreams_fdopen.lists (by simp)).1
      (by decide) mem_cons_self hclose⟩

end LibC
