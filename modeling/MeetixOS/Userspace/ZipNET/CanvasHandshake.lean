import MeetixOS.Userspace.ZipNET.CanvasBuffers

/-! # The handshake for the buffers of a canvas

The invariant `Inv` ties a state to two buffers at most: the current one of the server and the next
one, for which the client is asked to acknowledge. `Agreement` says how far the handshake has come;
every event leads from one of its cases to another, and the newest buffer covers the bounds or the
server looks again (`Covering`). -/

open Function (update_of_ne update_self)
open Option (bind_eq_bind bind_eq_some_iff bind_some map_eq_some_iff)

namespace MeetixOS.ZipNET

open Kernel (s32 s32_of_range)
open Lib (System)

namespace CanvasBuffers

/-! ## The buffers of both sides -/

/-- A buffer: where the server and the client have it, and its memory. -/
structure Buf where
  loc : Nat
  rem : Nat
  reg : Nat

/-- The address in the client, or null. -/
def remoteOf : Option Buf → Nat
  | none => 0
  | some b => b.rem

/-- The server has the buffer. -/
structure Backed (s : State) (b : Buf) : Prop where
  loc_ne : b.loc ≠ 0
  rem_ne : b.rem ≠ 0
  server : s.server.region b.loc = some b.reg
  created : b.reg < s.count

theorem Backed.congr {s s' : State} {b : Buf} (h : Backed s b) (hserver : s'.server = s.server)
    (hcount : s'.count = s.count) : Backed s' b :=
  ⟨h.loc_ne, h.rem_ne, hserver ▸ h.server, hcount ▸ h.created⟩

/-- What the client has of the server's current and next buffer: the next one is not there, its event is
on the way, it is known, or it is in use and the acknowledge is on the way. Events for the buffer that
the client has can be left over. -/
inductive Agreement (s : State) : Option Buf → Option Buf → Prop
  | idle {c : Option Buf} (hcurrent : s.clientCurrent = remoteOf c) (hnext : s.untaken = 0)
      (hacks : s.acks = 0) (hwfa : ∀ a ∈ s.events, a = remoteOf c)
      (hclient : ∀ b, c = some b → s.client.region b.rem = some b.reg) : Agreement s c none
  | sent {c : Option Buf} {d : Buf} {old new : List Nat} (hcurrent : s.clientCurrent = remoteOf c)
      (hnext : s.untaken = 0) (hacks : s.acks = 0) (hwfa : s.events = old ++ new)
      (hold : ∀ a ∈ old, a = remoteOf c) (hnew : ∀ a ∈ new, a = d.rem) (hne : new ≠ [])
      (hclient : ∀ b, c = some b ∨ b = d → s.client.region b.rem = some b.reg) :
      Agreement s c (some d)
  | taken {c : Option Buf} {d : Buf} (hcurrent : s.clientCurrent = remoteOf c)
      (hnext : s.untaken = d.rem) (hacks : s.acks = 0) (hwfa : ∀ a ∈ s.events, a = d.rem)
      (hclient : ∀ b, c = some b ∨ b = d → s.client.region b.rem = some b.reg) :
      Agreement s c (some d)
  | acked {c : Option Buf} {d : Buf} (hcurrent : s.clientCurrent = d.rem) (hnext : s.untaken = 0)
      (hacks : s.acks = 1) (hwfa : ∀ a ∈ s.events, a = d.rem)
      (hclient : s.client.region d.rem = some d.reg) : Agreement s c (some d)

theorem Agreement.congr {s s' : State} {c n : Option Buf} (h : Agreement s c n)
    (hcurrent : s'.clientCurrent = s.clientCurrent) (huntaken : s'.untaken = s.untaken)
    (hacks : s'.acks = s.acks) (hevents : s'.events = s.events) (hclient : s'.client = s.client) :
    Agreement s' c n := by
  cases h with
  | idle h1 h2 h3 h4 h5 =>
    exact .idle (hcurrent.trans h1) (huntaken.trans h2) (hacks.trans h3) (hevents ▸ h4) (hclient ▸ h5)
  | sent h1 h2 h3 h4 hold hnew hne h5 =>
    exact .sent (hcurrent.trans h1) (huntaken.trans h2) (hacks.trans h3) (hevents.trans h4) hold hnew hne
      (hclient ▸ h5)
  | taken h1 h2 h3 h4 h5 =>
    exact .taken (hcurrent.trans h1) (huntaken.trans h2) (hacks.trans h3) (hevents ▸ h4) (hclient ▸ h5)
  | acked h1 h2 h3 h4 h5 =>
    exact .acked (hcurrent.trans h1) (huntaken.trans h2) (hacks.trans h3) (hevents ▸ h4) (hclient ▸ h5)

/-- The state holds these two buffers. -/
structure Tied (s : State) (c n : Option Buf) : Prop where
  bounds : 0 ≤ s.width ∧ 0 ≤ s.height
  current : s.currentBuffer.localMapping = (c.map Buf.loc).getD 0 ∧
    ∀ b, c = some b → s.currentBuffer.remoteMapping = b.rem ∧ s.currentBuffer.acknowledged = true
  next : s.nextBuffer.localMapping = (n.map Buf.loc).getD 0 ∧
    ∀ d, n = some d → s.nextBuffer.remoteMapping = d.rem ∧ s.nextBuffer.acknowledged = false
  backed : ∀ b, c = some b ∨ n = some b → Backed s b
  apart : ∀ b d, c = some b → n = some d → b.loc ≠ d.loc ∧ b.rem ≠ d.rem ∧ b.reg ≠ d.reg
  replaced : ∀ r, r < s.count → (∀ b, c = some b ∨ n = some b → b.reg ≠ r) → s.unmaps.count r = 1
  kept : ∀ b, c = some b ∨ n = some b → s.unmaps.count b.reg = 0
  fresh : ∀ r, s.count ≤ r → s.unmaps.count r = 0
  fits : ∀ r, r < s.count → headerSize + 4 * ((s.regions r).header.paintableWidth *
    (s.regions r).header.paintableHeight) ≤ (s.regions r).pages * pageSize
  small : ∀ r, r < s.count → (s.regions r).header.paintableWidth < 2 ^ 16
  again : s.mustCheckAgain = true → n.isSome
  storing : ∀ a, s.storing = some a → a ≠ s.clientCurrent
  agreement : Agreement s c n

/-- The newest buffer covers the bounds, or the server will look again. -/
def Covering (s : State) (c : Option Buf) : Option Buf → Prop
  | none => (s.width = 0 ∧ s.height = 0) ∨ ∃ b, c = some b ∧ s.CoveredBy b.reg
  | some d => s.mustCheckAgain = true ∨ s.CoveredBy d.reg

/-! ## Sizes -/

theorem alignUp_of_lt {v : Int} (h : 0 ≤ v) (hlt : v + v % 20 < 2 ^ 16) : alignUp v = v + v % 20 := by
  rw [alignUp, Int.tmod_eq_emod_of_nonneg h]
  exact s32_of_range (by omega) (by omega)

theorem toU16_natCast {n : Nat} (h : n < 2 ^ 16) : toU16 n = n := by
  rw [toU16]
  omega

theorem le_pageAlignUp {n : Nat} (h : n ≤ 65535 * pageSize) :
    n ≤ pageAlignUp n / pageSize % 2 ^ 16 * pageSize := by
  have haligned : n ≤ pageAlignUp n ∧ pageAlignUp n ≤ 65535 * pageSize ∧
      pageAlignUp n % pageSize = 0 := by
    unfold pageAlignUp
    split
    next hrest =>
      simp only [pageSize] at *
      omega
    next hrest => exact ⟨Nat.le_refl n, h, by simpa using hrest⟩
  obtain ⟨hle, hbound, hdvd⟩ := haligned
  have hpages : pageAlignUp n / pageSize < 2 ^ 16 :=
    Nat.lt_succ_of_le (Nat.div_le_of_le_mul (by rwa [Nat.mul_comm]))
  rw [Nat.mod_eq_of_lt hpages, Nat.div_mul_cancel (Nat.dvd_of_mod_eq_zero hdvd)]
  exact hle

theorem requiredPages_of_fits (cairo : Cairo) {s : State} (hbounds : 0 ≤ s.width ∧ 0 ≤ s.height)
    (hfits : s.Fits) : ∃ w h : Nat, toU16 (alignUp s.width) = w ∧ toU16 (alignUp s.height) = h ∧
      s.width ≤ w ∧ s.height ≤ h ∧ w < 2 ^ 16 ∧
      headerSize + 4 * (w * h) ≤ requiredPages cairo s.width s.height * pageSize := by
  obtain ⟨hw, hh, harea⟩ := hfits
  obtain ⟨w, hwidth⟩ := Int.eq_ofNat_of_zero_le (a := s.width + s.width % 20) (by omega)
  obtain ⟨h, hheight⟩ := Int.eq_ofNat_of_zero_le (a := s.height + s.height % 20) (by omega)
  have halignw := (alignUp_of_lt hbounds.1 hw).trans hwidth
  have halignh := (alignUp_of_lt hbounds.2 hh).trans hheight
  rw [hwidth] at hw harea
  rw [hheight] at hh harea
  have hsmall : headerSize + 4 * (w * h) ≤ 65535 * pageSize := by exact_mod_cast harea
  have hsize : toU32 (headerSize + s32 (cairo.strideForWidth (w : Int) * (h : Int))) =
      headerSize + 4 * (w * h) := by
    have hprod : (4 : Int) * w * h = ((4 * (w * h) : Nat) : Int) := by
      exact Int.mul_assoc ..
    simp only [headerSize, pageSize] at *
    rw [cairo.argb32 w (by omega) hw, hprod, s32_of_range (by omega) (by omega), toU32]
    omega
  refine ⟨w, h, ?_, ?_, by omega, by omega, by omega, ?_⟩
  · rw [halignw, toU16_natCast (by omega)]
  · rw [halignh, toU16_natCast (by omega)]
  · rw [requiredPages, halignw, halignh, hsize]
    exact le_pageAlignUp hsmall

/-! ## A buffer is created -/

section

variable {s : State} {c : Option Buf}

theorem createNewBuffer_none (s : State) (pages : Nat) (share : Option Nat) :
    s.createNewBuffer pages ⟨none, share⟩ =
      some { s with nextBuffer := { s.nextBuffer with
        acknowledged := false, pages := pages, localMapping := 0 } } := rfl

/-- The state with a new buffer, for which the client is asked to acknowledge. -/
def created (s : State) (pages alloc share : Nat) : State :=
  let b : Buf := ⟨s.server.handOut alloc, s.client.handOut share, s.count⟩
  { s with
    nextBuffer := ⟨b.loc, b.rem, pages, false⟩
    server := s.server.map b.loc b.reg
    client := s.client.map b.rem b.reg
    regions := Function.update s.regions b.reg
      ⟨pages, { paintableWidth := toU16 (alignUp s.width)
                paintableHeight := toU16 (alignUp s.height) }⟩
    count := s.count + 1
    wfa := s.wfa ++ [b.rem] }

theorem createNewBuffer_some (s : State) (pages alloc share : Nat) :
    s.createNewBuffer pages ⟨some alloc, some share⟩ = some (created s pages alloc share) := by
  have hloc := s.server.handOut_ne_zero alloc
  have hrem := s.client.handOut_ne_zero share
  simp [State.createNewBuffer, State.allocMem, State.shareMem, Mappings.map, hloc, hrem,
    State.writeServer, State.setHeader, State.requestClientToAcknowledgeNewBuffer, created]

theorem Tied.created (h : Tied s c none) {pages : Nat} (alloc share : Nat)
    (hsize : headerSize + 4 * (toU16 (alignUp s.width) * toU16 (alignUp s.height)) ≤
      pages * pageSize)
    (hsmall : toU16 (alignUp s.width) < 2 ^ 16) :
    Tied (created s pages alloc share) c
      (some ⟨s.server.handOut alloc, s.client.handOut share, s.count⟩) := by
  cases h.agreement with
  | idle hcurrent hnext hacks hwfa hclient =>
  have hold : ∀ b, c = some b → b.loc ≠ s.server.handOut alloc ∧ b.rem ≠ s.client.handOut share ∧
      b.reg ≠ s.count := fun b hb =>
    ⟨Mappings.ne_handOut (h.backed b (Or.inl hb)).server alloc, Mappings.ne_handOut (hclient b hb) share,
      Nat.ne_of_lt (h.backed b (Or.inl hb)).created⟩
  refine ⟨h.bounds, h.current, ⟨rfl, ?_⟩, ?_, ?_, ?_, ?_, ?_, ?_, ?_, fun _ => rfl, h.storing, ?_⟩
  · rintro d ⟨⟩
    exact ⟨rfl, rfl⟩
  · rintro b (hb | hb)
    · have hback := h.backed b (Or.inl hb)
      refine ⟨hback.loc_ne, hback.rem_ne, ?_, Nat.lt_succ_of_lt hback.created⟩
      exact (update_of_ne (hold b hb).1 ..).trans hback.server
    · obtain rfl := Option.some.inj hb
      exact ⟨s.server.handOut_ne_zero alloc, s.client.handOut_ne_zero share,
        update_self .., Nat.lt_succ_self _⟩
  · rintro b d hb ⟨⟩
    exact hold b hb
  · intro r hr hheld
    have hne : s.count ≠ r := hheld _ (Or.inr rfl)
    exact h.replaced r (by simp only [CanvasBuffers.created] at hr; omega) fun b hb =>
      hheld b (Or.inl (hb.resolve_right (by simp)))
  · rintro b (hb | hb)
    · exact h.kept b (Or.inl hb)
    · obtain rfl := Option.some.inj hb
      exact h.fresh _ (Nat.le_refl _)
  · intro r hr
    exact h.fresh r (Nat.le_of_succ_le hr)
  · intro r hr
    by_cases hnew : r = s.count
    · subst hnew
      simp only [CanvasBuffers.created, update_self]
      exact hsize
    · simp only [CanvasBuffers.created, update_of_ne hnew] at hr ⊢
      exact h.fits r (by omega)
  · intro r hr
    by_cases hnew : r = s.count
    · subst hnew
      simp only [CanvasBuffers.created, update_self]
      exact hsmall
    · simp only [CanvasBuffers.created, update_of_ne hnew] at hr ⊢
      exact h.small r (by omega)
  · refine .sent hcurrent hnext hacks (List.append_assoc ..).symm hwfa
      (fun a ha => List.mem_singleton.1 ha) (by simp) ?_
    rintro b (hb | rfl)
    · exact (update_of_ne (hold b hb).2.1 ..).trans (hclient b hb)
    · exact update_self ..

end

/-! ## The check -/

section

variable {s : State} {c n : Option Buf}

theorem Tied.serverHeader (h : Tied s c n) {b : Buf} (hb : c = some b) :
    s.currentBuffer.localMapping = b.loc ∧ b.loc ≠ 0 ∧ s.server.region b.loc = some b.reg ∧
      s.serverHeader b.loc = some (s.regions b.reg).header := by
  have hback := h.backed b (Or.inl hb)
  refine ⟨?_, hback.loc_ne, hback.server, by rw [State.serverHeader, hback.server]; rfl⟩
  rw [h.current.1, hb]
  rfl

theorem Tied.covered_iff (h : Tied s c n) :
    s.Covered ↔ (s.width = 0 ∧ s.height = 0) ∨ ∃ b, c = some b ∧ s.CoveredBy b.reg := by
  refine or_congr_right ⟨?_, ?_⟩
  · rintro ⟨r, hloc, hr, hcover⟩
    cases hc : c with
    | none =>
      rw [h.current.1, hc] at hloc
      exact absurd rfl hloc
    | some b =>
      obtain ⟨hcurrent, -, hregion, -⟩ := h.serverHeader hc
      rw [hcurrent, hregion] at hr
      cases hr
      exact ⟨b, rfl, hcover⟩
  · rintro ⟨b, hb, hcover⟩
    obtain ⟨hcurrent, hne, hregion, -⟩ := h.serverHeader hb
    exact ⟨b.reg, hcurrent ▸ hne, hcurrent ▸ hregion, hcover⟩

theorem Tied.askAgain {d : Buf} (h : Tied s c (some d)) :
    Tied { s with mustCheckAgain := true }.requestClientToAcknowledgeNewBuffer c (some d) := by
  have hrem : s.nextBuffer.remoteMapping = d.rem := (h.next.2 d rfl).1
  refine ⟨h.bounds, h.current, h.next, fun b hb => (h.backed b hb).congr rfl rfl, h.apart, h.replaced,
    h.kept, h.fresh, h.fits, h.small, fun _ => rfl, h.storing, ?_⟩
  have hevents : ({ s with mustCheckAgain := true }.requestClientToAcknowledgeNewBuffer).events =
      s.events ++ [s.nextBuffer.remoteMapping] := (List.append_assoc ..).symm
  have hmore : ∀ (l : List Nat), (∀ a ∈ l, a = d.rem) →
      ∀ a ∈ l ++ [s.nextBuffer.remoteMapping], a = d.rem := by
    intro l hl a ha
    rcases List.mem_append.1 ha with ha | ha
    · exact hl a ha
    · exact (List.mem_singleton.1 ha).trans hrem
  cases h.agreement with
  | @sent _ old new hcurrent hnext hacks hwfa hold hnew hne hclient =>
    have happend := hevents
    rw [hwfa, List.append_assoc] at happend
    exact .sent hcurrent hnext hacks happend hold (hmore new hnew) (by simp) hclient
  | taken hcurrent hnext hacks hwfa hclient =>
    exact .taken hcurrent hnext hacks (hevents ▸ hmore _ hwfa) hclient
  | acked hcurrent hnext hacks hwfa hclient =>
    exact .acked hcurrent hnext hacks (hevents ▸ hmore _ hwfa) hclient

section

variable (cairo : Cairo)

theorem Tied.verdict_next {d : Buf} (h : Tied s c (some d)) : s.verdict cairo = some .askAgain := by
  have hloc : s.nextBuffer.localMapping = d.loc := h.next.1
  rw [State.verdict, if_pos ⟨hloc ▸ (h.backed d (Or.inr rfl)).loc_ne, (h.next.2 d rfl).2⟩]

theorem Tied.verdict_none (h : Tied s c none) : s.verdict cairo = some .create ∨
    s.verdict cairo = some .enough ∧ ∃ b, c = some b ∧ s.CoveredBy b.reg := by
  have hnext : ¬ (s.nextBuffer.localMapping ≠ 0 ∧ s.nextBuffer.acknowledged = false) :=
    fun hn => hn.1 h.next.1
  rw [State.verdict, if_neg hnext]
  cases hc : c with
  | none =>
    rw [if_pos (Or.inl (by rw [h.current.1, hc]; rfl))]
    exact Or.inl rfl
  | some b =>
    obtain ⟨hloc, hne, -, hheader⟩ := h.serverHeader hc
    rw [hloc, hheader, (h.current.2 b hc).2]
    split
    · exact Or.inl rfl
    · simp only [if_true, bind_eq_bind, bind_some]
      split
      next => exact Or.inl rfl
      next henough =>
        rw [not_or, not_lt, not_lt] at henough
        exact Or.inr ⟨rfl, b, rfl, henough⟩

theorem Tied.create (h : Tied s c none) (answer : Answer) (hfits : s.Fits)
    (halloc : answer.alloc = none → s.Covered) (hshare : answer.alloc ≠ none → answer.share ≠ none) :
    ∃ s' n', s.createNewBuffer (requiredPages cairo s.width s.height) answer = some s' ∧
      Tied s' c n' ∧ Covering s' c n' := by
  obtain ⟨alloc, share⟩ := answer
  cases alloc with
  | none =>
    refine ⟨_, none, createNewBuffer_none s _ share, ?_, h.covered_iff.1 (halloc rfl)⟩
    refine ⟨h.bounds, h.current, ⟨rfl, nofun⟩, fun b hb =>
      (h.backed b hb).congr rfl rfl, h.apart, h.replaced, h.kept, h.fresh, h.fits, h.small, h.again,
      h.storing, h.agreement.congr rfl rfl rfl rfl rfl⟩
  | some alloc =>
    obtain ⟨share, rfl⟩ := Option.ne_none_iff_exists'.1 (hshare (by simp))
    obtain ⟨w, k, hw, hk, hwidth, hheight, hsmall, hsize⟩ := requiredPages_of_fits cairo h.bounds hfits
    refine ⟨_, _, createNewBuffer_some s _ alloc share,
      h.created alloc share (hw.symm ▸ hk.symm ▸ hsize) (hw.symm ▸ hsmall), Or.inr ?_⟩
    simp only [State.CoveredBy, CanvasBuffers.created, update_self, hw, hk]
    exact ⟨hwidth, hheight⟩

theorem Tied.checkBuffer (h : Tied s c n) (answer : Answer)
    (hcreate : s.verdict cairo = some .create →
      s.Fits ∧ (answer.alloc = none → s.Covered) ∧ (answer.alloc ≠ none → answer.share ≠ none)) :
    ∃ s' n', s.checkBuffer cairo answer = some s' ∧ Tied s' c n' ∧ Covering s' c n' := by
  cases n with
  | some d =>
    refine ⟨_, some d, ?_, h.askAgain, Or.inl rfl⟩
    rw [State.checkBuffer, h.verdict_next cairo]
    rfl
  | none =>
    rcases h.verdict_none cairo with hverdict | ⟨hverdict, hcover⟩
    · obtain ⟨hfits, halloc, hshare⟩ := hcreate hverdict
      rw [State.checkBuffer, hverdict]
      exact h.create cairo answer hfits halloc hshare
    · refine ⟨s, none, ?_, h, Or.inr hcover⟩
      rw [State.checkBuffer, hverdict]
      rfl

end

end

/-! ## The events -/

section

variable {s : State} {c n : Option Buf}

/-- The invariant: the state holds two buffers at most, and the newest one covers the bounds. -/
def Inv (s : State) : Prop := ∃ c n, Tied s c n ∧ Covering s c n

theorem Tied.resize (h : Tied s c n) (newBounds : Rectangle) : Tied (s.resize newBounds) c n :=
  ⟨⟨le_max_left .., le_max_left ..⟩, h.current, h.next, fun b hb => (h.backed b hb).congr rfl rfl,
    h.apart, h.replaced, h.kept, h.fresh, h.fits, h.small, h.again, h.storing,
    h.agreement.congr rfl rfl rfl rfl rfl⟩

theorem Tied.exchange (h : Tied s c n) {clientCurrent clientNext acks : Nat} {storing : Option Nat}
    {taking : Bool} {wfa : List Nat} {client : Mappings}
    (hstoring : ∀ a, storing = some a → a ≠ clientCurrent)
    (hagree : Agreement { s with clientCurrent := clientCurrent, clientNext := clientNext
                                 storing := storing, taking := taking, wfa := wfa, acks := acks
                                 client := client } c n) :
    Tied { s with clientCurrent := clientCurrent, clientNext := clientNext, storing := storing
                  taking := taking, wfa := wfa, acks := acks, client := client } c n :=
  ⟨h.bounds, h.current, h.next, fun b hb => (h.backed b hb).congr rfl rfl, h.apart, h.replaced, h.kept,
    h.fresh, h.fits, h.small, h.again, hstoring, hagree⟩

theorem Tied.rem_ne {d : Buf} (h : Tied s c (some d)) : d.rem ≠ remoteOf c := by
  cases c with
  | none => exact (h.backed d (Or.inr rfl)).rem_ne
  | some b => exact (h.apart b d rfl rfl).2.1.symm

/-- An event is done with: the client has that buffer, or it is the one to take next. -/
theorem Tied.takeEvent (h : Tied s c n) {a : Nat} (clientNext : Nat) {rest : List Nat}
    (hevents : s.events = a :: rest)
    (hleft : a = s.clientCurrent → (if s.taking then 0 else clientNext) = s.untaken)
    (hstored : a ≠ s.clientCurrent → (if s.taking then 0 else clientNext) = a) :
    Tied { s with clientNext := clientNext, storing := none, wfa := rest } c n := by
  refine h.exchange nofun ?_
  cases h.agreement with
  | idle hcurrent huntaken hacks hall hclient =>
    rw [hevents] at hall
    have ha := (hall a List.mem_cons_self).trans hcurrent.symm
    exact .idle hcurrent ((hleft ha).trans huntaken) hacks (fun x hx => hall x (List.mem_cons_of_mem a hx))
      hclient
  | @sent _ old new hcurrent huntaken hacks happend hold hnew hne hclient =>
    rw [hevents] at happend
    cases old with
    | nil =>
      -- the first event for the new buffer
      cases happend
      have ha := hnew a List.mem_cons_self
      have hne : a ≠ s.clientCurrent := by rw [ha, hcurrent]; exact h.rem_ne
      exact .taken hcurrent ((hstored hne).trans ha) hacks (fun x hx => hnew x (List.mem_cons_of_mem a hx))
        hclient
    | cons x old =>
      cases happend
      have ha := (hold a List.mem_cons_self).trans hcurrent.symm
      exact .sent hcurrent ((hleft ha).trans huntaken) hacks (show old ++ new = old ++ new from rfl)
        (fun x hx => hold x (List.mem_cons_of_mem a hx)) hnew hne hclient
  | taken hcurrent huntaken hacks hall hclient =>
    rw [hevents] at hall
    have ha := hall a List.mem_cons_self
    have hne : a ≠ s.clientCurrent := by rw [ha, hcurrent]; exact h.rem_ne
    exact .taken hcurrent ((hstored hne).trans ha) hacks (fun x hx => hall x (List.mem_cons_of_mem a hx))
      hclient
  | acked hcurrent huntaken hacks hall hclient =>
    rw [hevents] at hall
    have ha := (hall a List.mem_cons_self).trans hcurrent.symm
    exact .acked hcurrent ((hleft ha).trans huntaken) hacks (fun x hx => hall x (List.mem_cons_of_mem a hx))
      hclient

theorem Tied.handleWfa (h : Tied s c n) (htaking : s.taking = false) : Tied s.handleWfa c n := by
  unfold State.handleWfa
  split
  next _ a hstoring =>
    exact h.takeEvent _ (by rw [State.events, hstoring]; rfl) (fun ha => absurd ha (h.storing a hstoring))
      fun _ => by simp [htaking]
  next => exact h
  next a rest hstoring hwfa =>
    have hevents : s.events = a :: rest := by rw [State.events, hstoring, hwfa]; rfl
    unfold State.acknowledgeNewBuffer
    split
    next ha =>
      have hdone := h.takeEvent s.clientNext hevents (fun _ => rfl) (absurd ha)
      rwa [← hstoring] at hdone
    next ha =>
      refine h.exchange (fun b hb => ?_) (h.agreement.congr rfl rfl rfl hevents.symm rfl)
      cases hb
      exact ha

theorem Tied.client_mapped (h : Tied s c n) (hne : s.clientCurrent ≠ 0) :
    ∃ r, s.client.region s.clientCurrent = some r := by
  have hold : ∀ m : Option Buf, s.clientCurrent = remoteOf c →
      (∀ b, c = some b ∨ m = some b → s.client.region b.rem = some b.reg) →
      ∃ r, s.client.region s.clientCurrent = some r := by
    intro m hcurrent hclient
    cases hc : c with
    | none =>
      rw [hcurrent, hc] at hne
      exact absurd rfl hne
    | some b => exact ⟨b.reg, by rw [hcurrent, hc]; exact hclient b (Or.inl hc)⟩
  cases h.agreement with
  | idle hcurrent _ _ _ hclient =>
    exact hold none hcurrent fun b hb => hclient b (hb.resolve_right (by simp))
  | @sent d _ _ hcurrent _ _ _ _ _ _ hclient | @taken d hcurrent _ _ _ hclient =>
    exact hold (some d) hcurrent fun b hb => hclient b (hb.imp_right fun h => (Option.some.inj h).symm)
  | acked hcurrent _ _ _ hclient => exact ⟨_, hcurrent ▸ hclient⟩

theorem Tied.takeNext (h : Tied s c n) (htaking : s.taking = false) (hne : s.clientNext ≠ 0)
    (hstoring : s.storing = none) (hcover : Covering s c n) :
    ∃ s', s.takeNext = some s' ∧ Tied s' c n ∧ Covering s' c n := by
  have huntaken : s.untaken = s.clientNext := by simp [State.untaken, htaking]
  have hnone : ∀ b a, s.storing = some a → a ≠ b := fun b a ha => by rw [hstoring] at ha; cases ha
  cases h.agreement with
  | idle _ hzero _ _ _ | sent _ hzero _ _ _ _ _ _ | acked _ hzero _ _ _ =>
    exact absurd (huntaken.symm.trans hzero) hne
  | @taken d hcurrent hnext hacks hevents hclient =>
    replace hnext := huntaken.symm.trans hnext
    rw [State.takeNext]
    by_cases hc : s.clientCurrent = 0
    · rw [if_neg (by simp [hc])]
      exact ⟨_, rfl, h.exchange (hnone _)
        (.acked hnext rfl (by rw [hacks]) hevents (hclient d (Or.inr rfl))), hcover⟩
    · obtain ⟨r, hr⟩ := h.client_mapped hc
      rw [if_pos hc, State.unmapClient, hr]
      refine ⟨_, rfl, h.exchange (hnone _) (.acked hnext rfl (by rw [hacks]) hevents ?_), hcover⟩
      exact (update_of_ne (hcurrent ▸ h.rem_ne) ..).trans (hclient d (Or.inr rfl))

theorem Tied.cleared (h : Tied s c n) (htaking : s.taking = true) :
    Tied { s with clientNext := 0, taking := false } c n :=
  h.exchange h.storing (h.agreement.congr rfl (by simp [State.untaken, htaking]) rfl rfl rfl)

theorem setHeader_regions (s : State) (r : Nat) {header : Header}
    (hwidth : header.paintableWidth = (s.regions r).header.paintableWidth)
    (hheight : header.paintableHeight = (s.regions r).header.paintableHeight) (q : Nat) :
    ((s.setHeader r header).regions q).pages = (s.regions q).pages ∧
      ((s.setHeader r header).regions q).header.paintableWidth =
        (s.regions q).header.paintableWidth ∧
      ((s.setHeader r header).regions q).header.paintableHeight =
        (s.regions q).header.paintableHeight := by
  by_cases hq : q = r
  · subst hq
    simp [State.setHeader, hwidth, hheight]
  · simp [State.setHeader, hq]

theorem Tied.setHeader (h : Tied s c n) (r : Nat) {header : Header}
    (hwidth : header.paintableWidth = (s.regions r).header.paintableWidth)
    (hheight : header.paintableHeight = (s.regions r).header.paintableHeight) :
    Tied (s.setHeader r header) c n := by
  have hsame := setHeader_regions s r hwidth hheight
  refine ⟨h.bounds, h.current, h.next, fun b hb => (h.backed b hb).congr rfl rfl, h.apart, h.replaced,
    h.kept, h.fresh, fun q hq => ?_, fun q hq => ?_, h.again, h.storing,
    h.agreement.congr rfl rfl rfl rfl rfl⟩
  · rw [(hsame q).1, (hsame q).2.1, (hsame q).2.2]
    exact h.fits q hq
  · rw [(hsame q).2.1]
    exact h.small q hq

theorem Inv.setHeader (h : Inv s) (r : Nat) {header : Header}
    (hwidth : header.paintableWidth = (s.regions r).header.paintableWidth)
    (hheight : header.paintableHeight = (s.regions r).header.paintableHeight) :
    Inv (s.setHeader r header) := by
  obtain ⟨c, n, htied, hcover⟩ := h
  have hcovered : ∀ q, s.CoveredBy q → (s.setHeader r header).CoveredBy q := by
    intro q hq
    obtain ⟨-, hw, hh⟩ := setHeader_regions s r hwidth hheight q
    rw [State.CoveredBy, hw, hh]
    exact hq
  refine ⟨c, n, htied.setHeader r hwidth hheight, ?_⟩
  cases n with
  | none => exact hcover.imp_right fun ⟨b, hb, hq⟩ => ⟨b, hb, hcovered b.reg hq⟩
  | some d => exact hcover.imp_right (hcovered d.reg)

/-- The next buffer becomes the current one; what the server has unmapped is given. -/
def afterSwap (s : State) (server : Mappings) (unmaps : List Nat) : State :=
  { s with
    acks := s.acks - 1
    server := server
    unmaps := unmaps
    currentBuffer := { s.nextBuffer with acknowledged := true }
    nextBuffer := { s.nextBuffer with localMapping := 0 } }

theorem Tied.swap {d : Buf} (h : Tied s c (some d)) (hacks : s.acks ≠ 0) {server : Mappings}
    {unmaps : List Nat} (hserver : server.region d.loc = some d.reg)
    (hreplaced : ∀ r, r < s.count → d.reg ≠ r → unmaps.count r = 1) (hkept : unmaps.count d.reg = 0)
    (hfresh : ∀ r, s.count ≤ r → unmaps.count r = 0) :
    Tied { afterSwap s server unmaps with mustCheckAgain := false } (some d) none := by
  have hback := h.backed d (Or.inr rfl)
  refine ⟨h.bounds, ⟨h.next.1, ?_⟩, ⟨rfl, fun b hb => (nomatch hb)⟩, ?_, fun _ _ _ he => (nomatch he),
    fun r hr hheld => hreplaced r hr (hheld d (Or.inl rfl)), ?_, hfresh, h.fits, h.small,
    fun hmust => (nomatch hmust), h.storing, ?_⟩
  · rintro b ⟨⟩
    exact ⟨(h.next.2 d rfl).1, rfl⟩
  · rintro b (⟨⟨⟩⟩ | hb)
    · exact ⟨hback.loc_ne, hback.rem_ne, hserver, hback.created⟩
    · cases hb
  · rintro b (⟨⟨⟩⟩ | hb)
    · exact hkept
    · cases hb
  · cases h.agreement with
    | acked hcurrent hnext hone hwfa hclient =>
      refine .idle hcurrent hnext (by simp [afterSwap, hone]) hwfa ?_
      rintro b ⟨⟩
      exact hclient
    | sent _ _ hzero _ _ _ _ _ | taken _ _ hzero _ _ => exact absurd hzero hacks

theorem Tied.acknowledge {d : Buf} (h : Tied s c (some d)) (hacks : s.acks ≠ 0) :
    ∃ s', { s with acks := s.acks - 1 }.acknowledge = some s' ∧
      s'.mustCheckAgain = s.mustCheckAgain ∧
      Tied { s' with mustCheckAgain := false } (some d) none ∧
      (s.CoveredBy d.reg → s'.CoveredBy d.reg) := by
  have hback := h.backed d (Or.inr rfl)
  have hnext : s.nextBuffer.localMapping = d.loc := h.next.1
  -- the header of the buffer is written where the buffers are swapped
  have hwrite : ∀ server unmaps, server.region d.loc = some d.reg →
      (∀ r, r < s.count → d.reg ≠ r → unmaps.count r = 1) → unmaps.count d.reg = 0 →
      (∀ r, s.count ≤ r → unmaps.count r = 0) →
      ∃ s', (afterSwap s server unmaps).writeServer s.nextBuffer.localMapping
          (fun header => { header with isReady := false }) = some s' ∧
        s'.mustCheckAgain = s.mustCheckAgain ∧ Tied { s' with mustCheckAgain := false } (some d) none ∧
        (s.CoveredBy d.reg → s'.CoveredBy d.reg) := by
    intro server unmaps hserver hreplaced hkept hfresh
    have htied := h.swap hacks hserver hreplaced hkept hfresh
    refine ⟨(afterSwap s server unmaps).setHeader d.reg
      { (s.regions d.reg).header with isReady := false }, ?_, rfl, ?_, ?_⟩
    · simp [State.writeServer, afterSwap, hnext, hserver]
    · exact htied.setHeader d.reg rfl rfl
    · intro hcover
      simpa [State.CoveredBy, State.setHeader, afterSwap] using hcover
  rw [State.acknowledge]
  cases c with
  | none =>
    have hcurrent : s.currentBuffer.localMapping = 0 := h.current.1
    rw [if_neg (by simp [hcurrent])]
    refine hwrite s.server s.unmaps hback.server (fun r hr hne => h.replaced r hr ?_)
      (h.kept d (Or.inr rfl)) h.fresh
    rintro b (⟨⟨⟩⟩ | hb)
    obtain rfl := Option.some.inj hb
    exact hne
  | some b =>
    obtain ⟨hcurrent, hne, hregion, -⟩ := h.serverHeader rfl
    obtain ⟨hloc, -, hreg⟩ := h.apart b d rfl rfl
    have hzero := h.kept b (Or.inl rfl)
    rw [if_pos (by simpa [hcurrent] using hne)]
    simp only [State.unmapServer, hcurrent, hregion, Option.map_some, bind_eq_bind,
      bind_some]
    refine hwrite (s.server.unmap b.loc) (b.reg :: s.unmaps) ?_ (fun r hr hne => ?_) ?_ fun r hr => ?_
    · exact (update_of_ne hloc.symm ..).trans hback.server
    · by_cases hrb : b.reg = r
      · subst hrb
        rw [List.count_cons_self, hzero]
      · rw [List.count_cons_of_ne hrb]
        refine h.replaced r hr ?_
        rintro e (he | he)
        · obtain rfl := Option.some.inj he
          exact hrb
        · obtain rfl := Option.some.inj he
          exact hne
    · rw [List.count_cons_of_ne hreg]
      exact h.kept d (Or.inr rfl)
    · have hcreated := (h.backed b (Or.inl rfl)).created
      rw [List.count_cons_of_ne (by omega)]
      exact h.fresh r hr

theorem Inv.step (cairo : Cairo) (h : Inv s) (e : Event) (hok : s.Provides cairo e) :
    ∃ s', s.step cairo e = some s' ∧ Inv s' := by
  obtain ⟨c, n, htied, hcover⟩ := h
  cases e with
  | resize newBounds answer =>
    simp only [State.step]
    split
    next hchanged =>
      have hcheck := hok.2 (s.resize newBounds) answer (by simp [State.checked, if_pos hchanged])
      obtain ⟨s', n', hs', htied', hcover'⟩ := (htied.resize newBounds).checkBuffer cairo answer hcheck
      exact ⟨s', hs', c, n', htied', hcover'⟩
    next hsame =>
      simp only [ne_eq, not_or, not_not] at hsame
      have hcovered : ∀ r, s.CoveredBy r → (s.resize newBounds).CoveredBy r := by
        intro r hr
        rw [State.CoveredBy, hsame.1, hsame.2]
        exact hr
      refine ⟨_, rfl, c, n, htied.resize newBounds, ?_⟩
      cases n with
      | none =>
        refine hcover.imp (fun hzero => ?_) fun ⟨b, hb, hr⟩ => ⟨b, hb, hcovered b.reg hr⟩
        rw [hsame.1, hsame.2]
        exact hzero
      | some d => exact hcover.imp_right (hcovered d.reg)
  | deliverWfa =>
    refine ⟨_, rfl, c, n, htied.handleWfa (hok.1.1 rfl), ?_⟩
    unfold State.handleWfa State.acknowledgeNewBuffer
    split
    · exact hcover
    · exact hcover
    · split <;> exact hcover
  | bufferInfo =>
    simp only [State.step]
    split
    next htake =>
      obtain ⟨s', hs', htied', hcover'⟩ := htied.takeNext htake.1 htake.2 (hok.1.2 rfl htake.2) hcover
      exact ⟨s', hs', c, n, htied', hcover'⟩
    next =>
      obtain ⟨s', hs', htied', hcover'⟩ : ∃ s', s' = (if s.taking then
          { s with clientNext := 0, taking := false } else s) ∧ Tied s' c n ∧ Covering s' c n := by
        split
        next htaking => exact ⟨_, rfl, htied.cleared htaking, hcover⟩
        next => exact ⟨_, rfl, htied, hcover⟩
      simp only [State.bufferInfo, ← hs']
      split
      next => exact ⟨s', rfl, c, n, htied', hcover'⟩
      next hne =>
        obtain ⟨r, hr⟩ := htied'.client_mapped hne
        exact ⟨s', by simp [State.clientHeader, hr], c, n, htied', hcover'⟩
  | deliverAck answer =>
    by_cases hacks : s.acks = 0
    · exact ⟨s, by simp [State.step, if_pos hacks], c, n, htied, hcover⟩
    · obtain ⟨d, rfl⟩ : ∃ d, n = some d := by
        cases htied.agreement with
        | idle _ _ hzero _ _ => exact absurd hzero hacks
        | sent | taken | acked => exact ⟨_, rfl⟩
      obtain ⟨s', hs', hmust, htied', hcover'⟩ := htied.acknowledge hacks
      simp only [State.step, if_neg hacks, State.clientHasAcknowledgedCurrentBuffer, hs',
        bind_eq_bind, bind_some]
      split
      next hagain =>
        have hcheck := hok.2 { s' with mustCheckAgain := false } answer
          (by simp [State.checked, if_neg hacks, hs', if_pos hagain])
        obtain ⟨s2, n2, hs2, htied2, hcover2⟩ := htied'.checkBuffer cairo answer hcheck
        exact ⟨s2, hs2, some d, n2, htied2, hcover2⟩
      next hagain =>
        have hfalse : s'.mustCheckAgain = false := by simpa using hagain
        have heq : { s' with mustCheckAgain := false } = s' := by rw [← hfalse]
        refine ⟨s', rfl, some d, none, heq ▸ htied', Or.inr ⟨d, rfl, hcover' ?_⟩⟩
        exact hcover.resolve_left (by rw [← hmust, hfalse]; decide)
  | paint =>
    simp only [State.step, State.paint]
    split
    next hcurrent =>
      obtain ⟨b, rfl⟩ : ∃ b, c = some b := by
        cases c with
        | none => exact absurd htied.current.1 hcurrent.1
        | some b => exact ⟨b, rfl⟩
      obtain ⟨hloc, -, hregion, hheader⟩ := htied.serverHeader rfl
      simp only [hloc, hheader, bind_eq_bind, bind_some, State.writeServer, hregion,
        Option.map_some]
      split
      · exact ⟨_, rfl, Inv.setHeader ⟨some b, n, htied, hcover⟩ b.reg rfl rfl⟩
      · exact ⟨s, rfl, some b, n, htied, hcover⟩
    next => exact ⟨s, rfl, c, n, htied, hcover⟩
  | blit x y width height =>
    simp only [State.step, State.blit]
    split
    next => exact ⟨s, rfl, c, n, htied, hcover⟩
    next hne =>
      obtain ⟨r, hr⟩ := htied.client_mapped hne
      rw [State.writeClient, hr]
      exact ⟨_, rfl, Inv.setHeader ⟨c, n, htied, hcover⟩ r rfl rfl⟩

end

/-! ## Deliveries end -/

/-- There is something to deliver, or a buffer for the client to take. -/
def State.delivers (s : State) : Event → Bool
  | .deliverWfa => s.events ≠ []
  | .bufferInfo => s.taking ∨ s.clientNext ≠ 0
  | .deliverAck _ => s.acks ≠ 0
  | _ => false

/-- The canvas while nothing but messages is delivered and taken. -/
def deliveries (cairo : Cairo) : System State Event where
  init _ := True
  step s e := if s.delivers e then s.step cairo e else none

/-- What is left to do: a resize that waits leads to one more buffer. -/
def rankOf (again taking : Bool) (wfa : Nat) (storing : Option Nat) (untaken acks : Nat) : Nat :=
  (if again then 6 else 0) + (if taking then 1 else 0) + 5 * wfa + 4 * storing.toList.length +
    (if untaken ≠ 0 then 3 else 0) + acks

def State.rank (s : State) : Nat :=
  rankOf s.mustCheckAgain s.taking s.wfa.length s.storing s.untaken s.acks

section

variable {s s' : State}

theorem createNewBuffer_rank {pages : Nat} {answer : Answer}
    (h : s.createNewBuffer pages answer = some s') :
    s'.rank ≤ s.rank + 5 ∧ s'.mustCheckAgain = s.mustCheckAgain := by
  obtain ⟨alloc, share⟩ := answer
  cases alloc with
  | none =>
    cases h
    exact ⟨Nat.le_add_right .., rfl⟩
  | some alloc =>
    cases share with
    | none =>
      simp only [State.createNewBuffer, State.allocMem, State.shareMem, State.unmapServer, if_true] at h
      split at h
      · cases h
        exact ⟨Nat.le_add_right .., rfl⟩
      · obtain ⟨r, -, rfl⟩ := map_eq_some_iff.1 h
        exact ⟨Nat.le_add_right .., rfl⟩
    | some share =>
      rw [createNewBuffer_some] at h
      cases h
      refine ⟨?_, rfl⟩
      change rankOf s.mustCheckAgain s.taking (s.wfa ++ [_]).length s.storing s.untaken s.acks ≤ _
      rw [List.length_append, List.length_singleton, State.rank]
      simp only [rankOf]
      omega

theorem checkBuffer_rank {cairo : Cairo} {answer : Answer} (hnext : s.nextBuffer.localMapping = 0)
    (h : s.checkBuffer cairo answer = some s') : s'.rank ≤ s.rank + 5 := by
  obtain ⟨verdict, hverdict, h⟩ := bind_eq_some_iff.1 h
  cases verdict with
  | askAgain =>
    rw [State.verdict, if_neg (by simp [hnext])] at hverdict
    split at hverdict
    · cases hverdict
    · split at hverdict
      · obtain ⟨header, -, hverdict⟩ := bind_eq_some_iff.1 hverdict
        split at hverdict <;> cases hverdict
      · cases hverdict
  | create => exact (createNewBuffer_rank h).1
  | enough =>
    cases h
    exact Nat.le_add_right ..

theorem acknowledge_rank (h : s.acknowledge = some s') :
    s'.rank = s.rank ∧ s'.mustCheckAgain = s.mustCheckAgain ∧ s'.nextBuffer.localMapping = 0 := by
  obtain ⟨s1, hunmap, h⟩ := bind_eq_some_iff.1 h
  obtain ⟨r, -, rfl⟩ := map_eq_some_iff.1 h
  split at hunmap
  · obtain ⟨q, -, rfl⟩ := map_eq_some_iff.1 hunmap
    exact ⟨rfl, rfl, rfl⟩
  · cases hunmap
    exact ⟨rfl, rfl, rfl⟩

theorem deliveries_rank {cairo : Cairo} {e : Event} (h : (deliveries cairo).step s e = some s') :
    s'.rank < s.rank := by
  obtain ⟨hdelivers, h⟩ := Option.ite_none_right_eq_some.1 h
  cases e with
  | deliverWfa =>
    cases Option.some.inj h
    unfold State.handleWfa
    split
    next _ a hstoring =>
      change rankOf s.mustCheckAgain s.taking s.wfa.length none (if s.taking then 0 else a) s.acks < _
      rw [State.rank, hstoring]
      simp only [rankOf, Option.toList_none, Option.toList_some, List.length_nil, List.length_singleton]
      split <;> split <;> split <;> omega
    next hstoring hwfa => simp [State.delivers, State.events, hstoring, hwfa] at hdelivers
    next a rest hstoring hwfa =>
      have hlen : s.wfa.length = rest.length + 1 := by rw [hwfa, List.length_cons]
      unfold State.acknowledgeNewBuffer
      simp only [State.rank, hlen, hstoring]
      split
      · change rankOf s.mustCheckAgain s.taking rest.length none s.untaken s.acks < _
        simp only [rankOf]
        omega
      · change rankOf s.mustCheckAgain s.taking rest.length (some a) s.untaken s.acks < _
        simp only [rankOf, Option.toList_none, Option.toList_some, List.length_nil, List.length_singleton]
        omega
  | bufferInfo =>
    simp only [State.step] at h
    split at h
    next htake =>
      obtain ⟨s1, hunmap, h⟩ := bind_eq_some_iff.1 h
      have hsame : s1.mustCheckAgain = s.mustCheckAgain ∧ s1.wfa = s.wfa ∧ s1.storing = s.storing ∧
          s1.acks = s.acks := by
        split at hunmap
        · obtain ⟨q, -, rfl⟩ := map_eq_some_iff.1 hunmap
          exact ⟨rfl, rfl, rfl, rfl⟩
        · cases hunmap
          exact ⟨rfl, rfl, rfl, rfl⟩
      cases Option.some.inj h
      change rankOf s1.mustCheckAgain true s1.wfa.length s1.storing 0 (s1.acks + 1) < _
      rw [hsame.1, hsame.2.1, hsame.2.2.1, hsame.2.2.2, State.rank]
      simp only [rankOf, State.untaken, htake.1, Bool.false_eq_true, if_false, if_true, if_pos htake.2, ne_eq,
        not_true_eq_false]
      omega
    next htake =>
      have htaking : s.taking = true := by
        cases ht : s.taking with
        | true => rfl
        | false => simp_all [State.delivers]
      obtain ⟨⟨s1, info⟩, hinfo, rfl⟩ := map_eq_some_iff.1 h
      have hs1 : s1 = { s with clientNext := 0, taking := false } := by
        rw [State.bufferInfo, if_pos htaking] at hinfo
        simp only at hinfo
        split at hinfo
        · cases hinfo
          rfl
        · obtain ⟨header, -, heq⟩ := bind_eq_some_iff.1 hinfo
          cases heq
          rfl
      rw [hs1]
      change rankOf s.mustCheckAgain false s.wfa.length s.storing 0 s.acks < _
      rw [State.rank]
      simp only [rankOf, State.untaken, htaking, Bool.false_eq_true, if_false, if_true, ne_eq,
        not_true_eq_false]
      omega
  | deliverAck answer =>
    have hacks : s.acks ≠ 0 := by simpa [State.delivers] using hdelivers
    rw [State.step, if_neg hacks] at h
    obtain ⟨s1, hack, h⟩ := bind_eq_some_iff.1 h
    obtain ⟨hrank, hmust, hnext⟩ := acknowledge_rank hack
    have hless : s1.rank < s.rank := by
      rw [hrank]
      change rankOf s.mustCheckAgain s.taking s.wfa.length s.storing s.untaken (s.acks - 1) <
        rankOf s.mustCheckAgain s.taking s.wfa.length s.storing s.untaken s.acks
      simp only [rankOf]
      omega
    split at h
    next hagain =>
      have hcheck := checkBuffer_rank (by exact hnext) h
      have hsix : ({ s1 with mustCheckAgain := false } : State).rank + 6 = s1.rank := by
        change rankOf false s1.taking s1.wfa.length s1.storing s1.untaken s1.acks + 6 =
          rankOf s1.mustCheckAgain s1.taking s1.wfa.length s1.storing s1.untaken s1.acks
        rw [hagain]
        simp only [rankOf, Bool.false_eq_true, if_false, if_true]
        omega
      omega
    next =>
      cases h
      exact hless
  | resize | paint | blit => cases hdelivers

theorem deliveries_settles (cairo : Cairo) (s : State) :
    (deliveries cairo).Settles (fun _ => True) s :=
  System.settles_of_rank (I := fun _ => True) State.rank
    (fun _ _ _ _ _ h => ⟨trivial, deliveries_rank h⟩) trivial

end

/-! ## The handshake -/

section

variable {s : State} {c n : Option Buf}

theorem inv_init : Inv {} :=
  ⟨none, none, ⟨⟨le_refl _, le_refl _⟩, ⟨rfl, fun _ hb => (nomatch hb)⟩, ⟨rfl, fun _ hd => (nomatch hd)⟩,
    fun _ hb => (nomatch hb), fun _ _ hb => (nomatch hb), fun _ hr => absurd hr (Nat.not_lt_zero _),
    fun _ hb => (nomatch hb), fun _ _ => rfl, fun _ hr => absurd hr (Nat.not_lt_zero _),
    fun _ hr => absurd hr (Nat.not_lt_zero _), fun hmust => (nomatch hmust),
    fun _ ha => (nomatch ha), .idle rfl rfl rfl (fun _ ha => (nomatch ha)) fun _ hb => (nomatch hb)⟩,
    Or.inl ⟨rfl, rfl⟩⟩

theorem Tied.inUse_iff (h : Tied s c n) {r : Nat} :
    s.InUse r ↔ ∃ b, (c = some b ∨ n = some b) ∧ b.reg = r := by
  have hside : ∀ (m : Option Buf) (a : Nat), a = (m.map Buf.loc).getD 0 →
      (∀ b, m = some b → Backed s b) →
      (a ≠ 0 ∧ s.server.region a = some r ↔ ∃ b, m = some b ∧ b.reg = r) := by
    rintro m a rfl hm
    cases m with
    | none => simp
    | some b =>
      have hback := hm b rfl
      simp [hback.loc_ne, hback.server]
  rw [State.InUse, hside c _ h.current.1 fun b hb => h.backed b (Or.inl hb),
    hside n _ h.next.1 fun b hb => h.backed b (Or.inr hb), ← exists_or]
  simp [or_and_right]

theorem Tied.unmaps (h : Tied s c n) {r : Nat} (hr : r < s.count) :
    (s.InUse r → s.unmaps.count r = 0) ∧ (¬ s.InUse r → s.unmaps.count r = 1) := by
  rw [h.inUse_iff]
  refine ⟨?_, fun hnot => h.replaced r hr fun b hb hreg => hnot ⟨b, hb, hreg⟩⟩
  rintro ⟨b, hb, rfl⟩
  exact h.kept b hb

theorem Tied.quiet (h : Tied s c n) (hcover : Covering s c n) (hquiet : s.Quiet) :
    s.Covered ∧ (s.currentBuffer.localMapping ≠ 0 →
      s.client.region s.clientCurrent = s.server.region s.currentBuffer.localMapping) := by
  obtain ⟨hwfa, htaking, hnext, hacks⟩ := hquiet
  replace hnext : s.untaken = 0 := by rw [State.untaken, hnext, ite_self]
  cases h.agreement with
  | idle hcurrent _ _ _ hclient =>
    refine ⟨h.covered_iff.2 hcover, fun hne => ?_⟩
    cases hc : c with
    | none => exact absurd (by rw [h.current.1, hc]; rfl) hne
    | some b =>
      obtain ⟨hloc, -, hregion, -⟩ := h.serverHeader hc
      rw [hcurrent, hloc, hregion, hc]
      exact hclient b hc
  | sent _ _ _ happend _ _ hne _ =>
    rw [hwfa] at happend
    exact absurd (List.append_eq_nil_iff.1 happend.symm).2 hne
  | taken _ hrem _ _ _ => exact absurd (hrem.symm.trans hnext) (h.backed _ (Or.inr rfl)).rem_ne
  | acked _ _ hone _ _ => exact absurd (hone.symm.trans hacks) Nat.one_ne_zero

/-- In every run in which buffers are created for bounds that fit, what is allocated can be shared, and
an allocation fails only where the buffer in use is enough: both sides use what they have mapped, a
buffer is unmapped once and only when replaced, the paintable areas fit their pages, deliveries end, and
then the buffer in use covers the bounds. -/
theorem canvas_handshake (cairo : Cairo) {s : State}
    (hs : (system cairo).Reachable (State.Provides cairo) s) :
    (∀ e, s.Provides cairo e → (s.step cairo e).isSome) ∧
      (∀ r, r < s.count → (s.InUse r → s.unmaps.count r = 0) ∧ (¬ s.InUse r → s.unmaps.count r = 1)) ∧
      (∀ r, r < s.count → headerSize + cairo.strideForWidth (s.regions r).header.paintableWidth *
        (s.regions r).header.paintableHeight ≤ (s.regions r).pages * pageSize) ∧
      (deliveries cairo).Settles (fun _ => True) s ∧
      (s.Quiet → s.Covered ∧ (s.currentBuffer.localMapping ≠ 0 →
        s.client.region s.clientCurrent = s.server.region s.currentBuffer.localMapping)) := by
  have hinv : Inv s := hs.invariant
    (fun s hinit => by
      cases hinit
      exact inv_init)
    fun s e s' h hok hstep => by
      obtain ⟨s1, hs1, hinv⟩ := h.step cairo e hok
      cases hs1.symm.trans hstep
      exact hinv
  obtain ⟨c, n, htied, hcover⟩ := hinv
  refine ⟨fun e he => ?_, fun r hr => htied.unmaps hr, fun r hr => ?_, deliveries_settles cairo s,
    htied.quiet hcover⟩
  · obtain ⟨s', hs', -⟩ := Inv.step cairo ⟨c, n, htied, hcover⟩ e he
    rw [hs']
    rfl
  · have hsmall := htied.small r hr
    have hfits := htied.fits r hr
    rw [cairo.argb32 _ (by omega) (by omega), Int.mul_assoc]
    exact_mod_cast hfits

instance (s : State) (e : Event) : Decidable (s.Apart e) :=
  match e with
  | .deliverWfa => decidable_of_iff (s.taking = false) (by simp [State.Apart])
  | .bufferInfo => decidable_of_iff (s.clientNext ≠ 0 → s.storing = none) (by simp [State.Apart])
  | .resize _ _ | .deliverAck _ | .paint | .blit _ _ _ _ => .isTrue (by simp [State.Apart])

instance (s : State) (r : Nat) : Decidable (s.CoveredBy r) := inferInstanceAs (Decidable (_ ∧ _))

instance (s : State) : Decidable s.Covered :=
  decidable_of_iff ((s.width = 0 ∧ s.height = 0) ∨ s.currentBuffer.localMapping ≠ 0 ∧
    ∃ r ∈ s.server.region s.currentBuffer.localMapping, s.CoveredBy r) (by simp [State.Covered])

instance (s : State) : Decidable s.Fits := inferInstanceAs (Decidable (_ ∧ _ ∧ _))

instance (s : State) : Decidable s.Quiet := inferInstanceAs (Decidable (_ ∧ _ ∧ _ ∧ _))

instance (cairo : Cairo) (s : State) (e : Event) : Decidable (s.Provides cairo e) :=
  decidable_of_iff (s.Apart e ∧ ∀ r ∈ s.checked e, r.1.verdict cairo = some .create →
    r.1.Fits ∧ (r.2.alloc = none → r.1.Covered) ∧ (r.2.alloc ≠ none → r.2.share ≠ none))
    (by simp [State.Provides, Prod.forall])

theorem canvas_handshake_resized :
    ∃ s : State, [s.width, s.height, s.count] = [120, 60, 2] ∧ s.Quiet ∧ s.Covered := by
  -- the server creates the second buffer while the client is about to return the first one
  obtain ⟨s, hs, hsize, hquiet⟩ : ∃ s ∈ (system .tight).runGuarded (State.Provides .tight) {}
      [.resize (.of 0 0 100 50) ⟨some 7, some 9⟩, .deliverWfa, .deliverWfa, .bufferInfo,
        .deliverAck ⟨none, none⟩, .resize (.of 0 0 120 60) ⟨some 7, some 9⟩, .bufferInfo, .deliverWfa,
        .deliverWfa, .bufferInfo, .bufferInfo, .deliverAck ⟨none, none⟩],
      [s.width, s.height, s.count] = [120, 60, 2] ∧ s.Quiet := by
    decide +kernel
  have hreach := System.Reachable.of_runGuarded (M := system .tight) (.init rfl) hs
  exact ⟨s, hsize, hquiet, ((canvas_handshake .tight hreach).2.2.2.2 hquiet).1⟩

/-- A buffer that cannot be shared is unmapped, but still counts as the next one, so that no later resize
brings another; an area can be too large for its page count; and an event that is handled after the
acknowledge is sent and before `nextBuffer` is cleared is lost. -/
theorem share_failure_uncovered :
    (∃ s : State, (system .tight).Reachable (fun _ _ => True) s ∧ s.Quiet ∧ ¬ s.Covered) ∧
      (∃ s : State, (system .tight).Reachable (fun _ _ => True) s ∧ (s.regions 0).pages * pageSize <
        headerSize + 4 * ((s.regions 0).header.paintableWidth * (s.regions 0).header.paintableHeight)) ∧
      ∃ s : State, (system .tight).Reachable (fun _ _ => True) s ∧ s.Quiet ∧ ¬ s.Covered ∧ s.count = 2 := by
  have hruns : ∀ (events : List Event) (P : State → Prop), (∃ s ∈ (system .tight).run {} events, P s) →
      ∃ s, (system .tight).Reachable (fun _ _ => True) s ∧ P s :=
    fun _ _ ⟨s, hs, hP⟩ => ⟨s, System.reachable_of_run rfl hs, hP⟩
  refine ⟨hruns [.resize (.of 0 0 100 50) ⟨some 7, none⟩, .resize (.of 0 0 120 60) ⟨some 7, some 9⟩,
      .deliverWfa, .deliverWfa, .bufferInfo] _ ?_,
    hruns [.resize (.of 0 0 16384 16384) ⟨some 7, some 9⟩] _ ?_,
    hruns [.resize (.of 0 0 100 50) ⟨some 7, some 9⟩, .deliverWfa, .deliverWfa, .bufferInfo,
      .deliverAck ⟨none, none⟩, .resize (.of 0 0 120 60) ⟨some 7, some 9⟩, .deliverWfa, .deliverWfa,
      .bufferInfo] _ ?_⟩ <;> decide +kernel

end

end CanvasBuffers

end MeetixOS.ZipNET
