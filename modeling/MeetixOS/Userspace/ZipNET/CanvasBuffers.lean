import MeetixOS.Lib.Runs
import MeetixOS.Userspace.ZipNET.DirtyArea

/-! # The buffers of a canvas

`Canvas_t` in the window server and `Canvas` in the client: the server allocates a buffer, shares it and
asks the client to acknowledge; the client takes the buffer when it asks for it the next time. A `State` has
both sides, the messages on their way and what each side has mapped. In the client one thread handles the
events while another one asks for the buffer, and no lock keeps them apart. A step is none where a side uses
an address that it has not mapped. -/

namespace MeetixOS.ZipNET

open Kernel (s32)
open Lib (System)

/-! ## Memory -/

/-- What is mapped in an address space. -/
structure Mappings where
  region : Nat → Option Nat
  top : Nat
  bounded : ∀ a, top ≤ a → region a = none

namespace Mappings

/-- Nothing is mapped. -/
def empty : Mappings := ⟨fun _ => none, 0, fun _ _ => rfl⟩

/-- An address that is not mapped: the one that is wished for, if it can be. -/
def handOut (m : Mappings) (wish : Nat) : Nat :=
  if wish ≠ 0 ∧ m.region wish = none then wish else m.top + 1

/-- Map a region. -/
def map (m : Mappings) (a r : Nat) : Mappings where
  region := Function.update m.region a (some r)
  top := max m.top (a + 1)
  bounded b hb := by
    rw [Function.update_of_ne (by omega)]
    exact m.bounded b (by omega)

/-- Unmap what is at an address. -/
def unmap (m : Mappings) (a : Nat) : Mappings where
  region := Function.update m.region a none
  top := m.top
  bounded b hb := by
    rw [Function.update_apply, m.bounded b hb, ite_self]

theorem handOut_ne_zero (m : Mappings) (wish : Nat) : m.handOut wish ≠ 0 := by
  unfold handOut
  split <;> omega

theorem region_handOut (m : Mappings) (wish : Nat) : m.region (m.handOut wish) = none := by
  unfold handOut
  split
  next h => exact h.2
  next => exact m.bounded _ (Nat.le_succ _)

theorem ne_handOut {m : Mappings} {a r : Nat} (h : m.region a = some r) (wish : Nat) :
    a ≠ m.handOut wish := by
  rintro rfl
  rw [region_handOut] at h
  cases h

end Mappings

/-- `UiCanvasSharedMemoryHeader`. -/
structure Header where
  paintableWidth : Nat := 0
  paintableHeight : Nat := 0
  blitX : Nat := 0
  blitY : Nat := 0
  blitWidth : Nat := 0
  blitHeight : Nat := 0
  isReady : Bool := false
  deriving DecidableEq

/-- Allocated pages with a header at their start. -/
structure Region where
  pages : Nat
  header : Header
  deriving DecidableEq

/-! ## Sizes -/

/-- `cairo_format_stride_for_width` of `CAIRO_FORMAT_ARGB32`, where a row has four bytes for each pixel.
-/
structure Cairo where
  strideForWidth : Int → Int
  argb32 : ∀ w, 0 ≤ w → w < 2 ^ 16 → strideForWidth w = 4 * w

/-- The stride of a row of pixels without any gap. -/
def Cairo.tight : Cairo := ⟨fun w => 4 * w, fun _ _ _ => rfl⟩

def alignUp (value : Int) : Int := s32 (value + value.tmod 20)

/-- `UI_CANVAS_SHARED_MEMORY_HEADER_SIZE`. -/
def headerSize : Nat := 16

def pageSize : Nat := 4096

def pageAlignUp (value : Nat) : Nat :=
  if value % pageSize ≠ 0 then (value - value % pageSize + pageSize) % 2 ^ 32 else value

/-- The `requiredPages` of `checkBuffer`. -/
def requiredPages (cairo : Cairo) (width height : Int) : Nat :=
  let requiredSize :=
    toU32 (headerSize + s32 (cairo.strideForWidth (alignUp width) * alignUp height))
  pageAlignUp requiredSize / pageSize % 2 ^ 16

/-- A conversion to `uint16_t`. -/
def toU16 (n : Int) : Nat := (n % 2 ^ 16).toNat

/-! ## Both sides -/

/-- `BufferInfo`; 0 is the null pointer. -/
structure BufferInfo where
  localMapping : Nat := 0
  remoteMapping : Nat := 0
  pages : Nat := 0
  acknowledged : Bool := false
  deriving DecidableEq

/-- The answers of the kernel: the address that is wished for, or a failure. -/
structure Answer where
  alloc : Option Nat
  share : Option Nat
  deriving DecidableEq

namespace CanvasBuffers

/-- The canvas on both sides, with the events and the acknowledges on their way and the memory. In the
client, `storing` is the address that `acknowledge_new_buffer` goes to store, and with `taking` the thread
in `buffer_info` has sent its acknowledge and goes to clear `nextBuffer`. -/
structure State where
  width : Int := 0
  height : Int := 0
  currentBuffer : BufferInfo := {}
  nextBuffer : BufferInfo := {}
  mustCheckAgain : Bool := false
  clientCurrent : Nat := 0
  clientNext : Nat := 0
  storing : Option Nat := none
  taking : Bool := false
  wfa : List Nat := []
  acks : Nat := 0
  server : Mappings := .empty
  client : Mappings := .empty
  regions : Nat → Region := fun _ => ⟨0, {}⟩
  count : Nat := 0
  /-- The regions that the server has unmapped. -/
  unmaps : List Nat := []

namespace State

/-- `s_alloc_mem` in the server. -/
def allocMem (s : State) (pages : Nat) : Option Nat → State × Nat
  | none => (s, 0)
  | some wish =>
    let address := s.server.handOut wish
    ({ s with server := s.server.map address s.count
              regions := Function.update s.regions s.count ⟨pages, {}⟩
              count := s.count + 1 }, address)

/-- `s_share_mem` with the client. -/
def shareMem (s : State) (address : Nat) : Option Nat → State × Nat
  | none => (s, 0)
  | some wish =>
    match s.server.region address with
    | none => (s, 0)
    | some r =>
      let remote := s.client.handOut wish
      ({ s with client := s.client.map remote r }, remote)

/-- `s_unmap_mem` in the server. -/
def unmapServer (s : State) (address : Nat) : Option State :=
  (s.server.region address).map fun r =>
    { s with server := s.server.unmap address, unmaps := r :: s.unmaps }

/-- `s_unmap_mem` in the client. -/
def unmapClient (s : State) (address : Nat) : Option State :=
  (s.client.region address).map fun _ => { s with client := s.client.unmap address }

/-- The header at an address of the server. -/
def serverHeader (s : State) (address : Nat) : Option Header :=
  (s.server.region address).map fun r => (s.regions r).header

/-- The header at an address of the client. -/
def clientHeader (s : State) (address : Nat) : Option Header :=
  (s.client.region address).map fun r => (s.regions r).header

/-- Write a header of a region. -/
def setHeader (s : State) (r : Nat) (header : Header) : State :=
  { s with regions := Function.update s.regions r { s.regions r with header := header } }

/-- Write the header at an address of the server. -/
def writeServer (s : State) (address : Nat) (f : Header → Header) : Option State :=
  (s.server.region address).map fun r => s.setHeader r (f (s.regions r).header)

/-- Write the header at an address of the client. -/
def writeClient (s : State) (address : Nat) (f : Header → Header) : Option State :=
  (s.client.region address).map fun r => s.setHeader r (f (s.regions r).header)

/-! ### The server -/

def requestClientToAcknowledgeNewBuffer (s : State) : State :=
  { s with wfa := s.wfa ++ [s.nextBuffer.remoteMapping] }

def createNewBuffer (s : State) (requiredPages : Nat) (answer : Answer) : Option State :=
  let (s, address) := s.allocMem requiredPages answer.alloc
  let s := { s with
    nextBuffer := { s.nextBuffer with
      acknowledged := false, pages := requiredPages, localMapping := address } }
  if address = 0 then some s
  else
    let (s, remote) := s.shareMem address answer.share
    let s := { s with nextBuffer := { s.nextBuffer with remoteMapping := remote } }
    if remote = 0 then s.unmapServer address
    else do
      let s ← s.writeServer address fun _ =>
        { paintableWidth := toU16 (alignUp s.width), paintableHeight := toU16 (alignUp s.height) }
      some s.requestClientToAcknowledgeNewBuffer

/-- The branches of `checkBuffer`. -/
inductive Verdict
  | askAgain
  | create
  | enough
  deriving DecidableEq

/-- Which branch `checkBuffer` takes. -/
def verdict (cairo : Cairo) (s : State) : Option Verdict :=
  if s.nextBuffer.localMapping ≠ 0 ∧ s.nextBuffer.acknowledged = false then some .askAgain
  else if s.currentBuffer.localMapping = 0 ∨ s.currentBuffer.acknowledged ∧
      s.currentBuffer.pages < requiredPages cairo s.width s.height then some .create
  else if s.currentBuffer.acknowledged then do
    let header ← s.serverHeader s.currentBuffer.localMapping
    if header.paintableWidth < s.width ∨ header.paintableHeight < s.height then some .create
    else some .enough
  else some .enough

def checkBuffer (cairo : Cairo) (s : State) (answer : Answer) : Option State := do
  match ← s.verdict cairo with
  | .askAgain => some { s with mustCheckAgain := true }.requestClientToAcknowledgeNewBuffer
  | .create => s.createNewBuffer (requiredPages cairo s.width s.height) answer
  | .enough => some s

/-- `setBounds`; the minimum size of a canvas is 0. -/
def resize (s : State) (newBounds : Rectangle) : State :=
  { s with width := max 0 newBounds.width, height := max 0 newBounds.height }

/-- `clientHasAcknowledgedCurrentBuffer`, up to the check of `mustCheckAgain`. -/
def acknowledge (s : State) : Option State := do
  let s ← (if s.currentBuffer.localMapping ≠ 0 then s.unmapServer s.currentBuffer.localMapping
    else some s)
  let s := { s with currentBuffer := { s.nextBuffer with acknowledged := true }
                    nextBuffer := { s.nextBuffer with localMapping := 0 } }
  s.writeServer s.currentBuffer.localMapping fun header => { header with isReady := false }

def clientHasAcknowledgedCurrentBuffer (cairo : Cairo) (s : State) (answer : Answer) : Option State := do
  let s ← s.acknowledge
  if s.mustCheckAgain then checkBuffer cairo { s with mustCheckAgain := false } answer else some s

/-- `paint`, as far as it uses the buffer. -/
def paint (s : State) : Option State :=
  if s.currentBuffer.localMapping ≠ 0 ∧ s.currentBuffer.acknowledged then do
    let header ← s.serverHeader s.currentBuffer.localMapping
    if header.isReady then
      s.writeServer s.currentBuffer.localMapping fun header => { header with isReady := false }
    else some s
  else some s

/-! ### The client -/

/-- `acknowledge_new_buffer` up to the store. -/
def acknowledgeNewBuffer (s : State) (address : Nat) : State :=
  if address = s.clientCurrent then s else { s with storing := some address }

/-- One step of the thread that handles the events. -/
def handleWfa (s : State) : State :=
  match s.storing, s.wfa with
  | some address, _ => { s with clientNext := address, storing := none }
  | none, [] => s
  | none, address :: rest => { s with wfa := rest }.acknowledgeNewBuffer address

/-- `buffer_info` where there is a next buffer, up to the acknowledge. -/
def takeNext (s : State) : Option State := do
  let s ← (if s.clientCurrent ≠ 0 then s.unmapClient s.clientCurrent else some s)
  some { s with clientCurrent := s.clientNext, acks := s.acks + 1, taking := true }

/-- The rest of `buffer_info`: the address of the pixels with their width and height, or null. -/
def bufferInfo (s : State) : Option (State × Option (Nat × Nat × Nat)) :=
  let s := if s.taking then { s with clientNext := 0, taking := false } else s
  if s.clientCurrent = 0 then some (s, none)
  else do
    let header ← s.clientHeader s.clientCurrent
    some (s, some (s.clientCurrent + headerSize, header.paintableWidth, header.paintableHeight))

/-- `blit` in the client. -/
def blit (s : State) (x y width height : Int) : Option State :=
  if s.clientCurrent = 0 then some s
  else
    s.writeClient s.clientCurrent fun header =>
      { header with blitX := toU16 x, blitY := toU16 y, blitWidth := toU16 width,
                    blitHeight := toU16 height, isReady := true }

end State

/-- What can happen next. -/
inductive Event
  | resize (newBounds : Rectangle) (answer : Answer)
  | deliverWfa
  | bufferInfo
  | deliverAck (answer : Answer)
  | paint
  | blit (x y width height : Int)

namespace State

/-- One event. A bounds change without a change of the size is not looked at. -/
def step (cairo : Cairo) (s : State) : Event → Option State
  | .resize newBounds answer =>
    let s' := s.resize newBounds
    if s'.width ≠ s.width ∨ s'.height ≠ s.height then s'.checkBuffer cairo answer else some s'
  | .deliverWfa => some s.handleWfa
  | .bufferInfo =>
    if s.taking = false ∧ s.clientNext ≠ 0 then s.takeNext else s.bufferInfo.map Prod.fst
  | .deliverAck answer =>
    if s.acks = 0 then some s
    else { s with acks := s.acks - 1 }.clientHasAcknowledgedCurrentBuffer cairo answer
  | .paint => s.paint
  | .blit x y width height => s.blit x y width height

end State

/-- The canvas with its client. -/
def system (cairo : Cairo) : System State Event where
  init s := s = {}
  step s e := s.step cairo e

/-! ## What is to hold -/

namespace State

/-- Where `checkBuffer` is called in an event: the state at that point. -/
def checked (s : State) : Event → Option (State × Answer)
  | .resize newBounds answer =>
    let s' := s.resize newBounds
    if s'.width ≠ s.width ∨ s'.height ≠ s.height then some (s', answer) else none
  | .deliverAck answer =>
    if s.acks = 0 then none
    else
      { s with acks := s.acks - 1 }.acknowledge.bind fun s' =>
        if s'.mustCheckAgain then some ({ s' with mustCheckAgain := false }, answer) else none
  | _ => none

/-- The paintable size fits the header, and its pages fit the page count. -/
def Fits (s : State) : Prop :=
  s.width + s.width % 20 < 2 ^ 16 ∧ s.height + s.height % 20 < 2 ^ 16 ∧
    headerSize + 4 * ((s.width + s.width % 20) * (s.height + s.height % 20)) ≤ 65535 * pageSize

/-- The area that the header of a region names covers the bounds. -/
def CoveredBy (s : State) (r : Nat) : Prop :=
  s.width ≤ (s.regions r).header.paintableWidth ∧ s.height ≤ (s.regions r).header.paintableHeight

/-- The buffer in use covers the bounds; a canvas without a size needs none. -/
def Covered (s : State) : Prop :=
  (s.width = 0 ∧ s.height = 0) ∨ ∃ r, s.currentBuffer.localMapping ≠ 0 ∧
    s.server.region s.currentBuffer.localMapping = some r ∧ s.CoveredBy r

/-- The addresses of the events that the client has yet to handle. -/
def events (s : State) : List Nat := s.storing.toList ++ s.wfa

/-- The buffer that the client has yet to take. -/
def untaken (s : State) : Nat := if s.taking then 0 else s.clientNext

/-- Every message is delivered, and the client has taken its buffer. -/
def Quiet (s : State) : Prop := s.events = [] ∧ s.taking = false ∧ s.clientNext = 0 ∧ s.acks = 0

/-- The server has the region mapped as the current or as the next buffer. -/
def InUse (s : State) (r : Nat) : Prop :=
  (s.currentBuffer.localMapping ≠ 0 ∧ s.server.region s.currentBuffer.localMapping = some r) ∨
    (s.nextBuffer.localMapping ≠ 0 ∧ s.server.region s.nextBuffer.localMapping = some r)

/-- No event is handled while `buffer_info` takes a buffer. -/
def Apart (s : State) (e : Event) : Prop :=
  (e = .deliverWfa → s.taking = false) ∧ (e = .bufferInfo → s.clientNext ≠ 0 → s.storing = none)

/-- Where a buffer is created, the bounds fit, an allocated buffer can be shared, and an allocation
fails only where the buffer in use is enough; and the threads of the client do not meet. -/
def Provides (cairo : Cairo) (s : State) (e : Event) : Prop :=
  s.Apart e ∧ ∀ s' answer, s.checked e = some (s', answer) → s'.verdict cairo = some .create →
    s'.Fits ∧ (answer.alloc = none → s'.Covered) ∧ (answer.alloc ≠ none → answer.share ≠ none)

end State

end CanvasBuffers

end MeetixOS.ZipNET
