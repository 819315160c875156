import Mathlib.Order.Interval.Set.Defs
import MeetixOS.Lib.Runs
import MeetixOS.Lib.Window
import MeetixOS.Kernel.Types

/-! # Pipes

The ring buffer behind a pipe node (`filesystem/pipes.cpp`, `filesystem/FsDelegatePipe.cpp`). Pointers are
addresses: `buffer` is where `new` put the block, `read` and `write` point into it, and `data` are its
bytes. `copyOut` and `copyIn` give `none` where one byte lies outside of the block, so a request that
answers kept all its copies inside.

The abstract side is a byte FIFO: `Pipe.stored` reads the queued bytes as a circular window of `data`. -/

open Option (bind_eq_bind bind_some)
open List (length_take nil_append take_zero)

namespace MeetixOS.Kernel

open MeetixOS.Lib

/-! ## The pipe object -/

/-- `Pipe`, with the bytes of its heap block. -/
structure Pipe where
  buffer : Nat
  data : List UInt8
  write : Nat
  read : Nat
  size : Nat
  capacity : Nat
  references : List Pid
  deriving DecidableEq

def pipeDefaultCapacity : Nat := 0x400

/-- A block of `new uint8_t[PIPE_DEFAULT_CAPACITY]` on the kernel heap, its bytes not initialised.
-/
structure PipeBlock where
  address : Nat
  bytes : List UInt8
  address_pos : 0 < address
  bytes_length : bytes.length = pipeDefaultCapacity
  inside : address + pipeDefaultCapacity < 2 ^ 32

/-- A block for pipes in concrete runs. -/
def zeroBlock : PipeBlock where
  address := 0xE0000000
  bytes := List.replicate pipeDefaultCapacity 0
  address_pos := by decide
  bytes_length := List.length_replicate
  inside := by decide

/-- The object that `Pipes::create` puts into the pipe map. -/
def Pipe.ofBlock (block : PipeBlock) : Pipe :=
  { buffer := block.address
    data := block.bytes
    write := block.address
    read := block.address
    size := 0
    capacity := pipeDefaultCapacity
    references := [] }

/-- `Pipes::hasReferenceFromOtherProcess`: some entry of the reference list is not `pid`. -/
def Pipes.hasReferenceFromOtherProcess (p : Pipe) (pid : Pid) : Bool :=
  p.references.any fun entry => entry != pid

namespace Pipe

/-! ## Copies from and to the block -/

/-- `Memory::copy` of `length` bytes of the block, from address `src` on. -/
def copyOut (p : Pipe) (src length : Nat) : Option (List UInt8) :=
  if p.buffer ≤ src ∧ src + length ≤ p.buffer + p.capacity then
    some ((p.data.drop (src - p.buffer)).take length)
  else none

/-- `Memory::copy` of `bytes` into the block, from address `dst` on. -/
def copyIn (p : Pipe) (dst : Nat) (bytes : List UInt8) : Option Pipe :=
  if p.buffer ≤ dst ∧ dst + bytes.length ≤ p.buffer + p.capacity then
    some { p with data := overwrite p.data (dst - p.buffer) bytes }
  else none

/-- `((uint32_t) buffer + capacity) - (uint32_t) position`. -/
@[irreducible] def spaceToEnd (p : Pipe) (position : Nat) : Nat :=
  u32 (u32 (p.buffer + p.capacity) + 2 ^ 32 - position)

/-- The last step of both requests: a pointer that reached the end of the block is reset. -/
@[irreducible] def resetAtEnd (p : Pipe) (position : Nat) : Nat :=
  if position = u32 (p.buffer + p.capacity) then p.buffer else position

/-- The copying half of `requestRead`: `length` bytes go to the front of the buffer, in two pieces
if they wrap. -/
def takeBytes (p : Pipe) (length : Nat) (out : List UInt8) : Option (Pipe × List UInt8) :=
  let space := p.spaceToEnd p.read
  if length > space then do
    let first ← p.copyOut p.read space
    let remaining := length - space
    let rest ← p.copyOut p.buffer remaining
    some ({ p with read := p.resetAtEnd (u32 (p.buffer + remaining)) },
      overwrite (overwrite out 0 first) space rest)
  else do
    let bytes ← p.copyOut p.read length
    some ({ p with read := p.resetAtEnd (u32 (p.read + length)) }, overwrite out 0 bytes)

/-- The copying half of `requestWrite`: the bytes go behind the write pointer, in two pieces if they
wrap. -/
def putBytes (p : Pipe) (bytes : List UInt8) : Option Pipe :=
  let space := p.spaceToEnd p.write
  if bytes.length > space then do
    let p ← p.copyIn p.write (bytes.take space)
    let remain := bytes.length - space
    let p ← p.copyIn p.buffer (bytes.drop space)
    some { p with write := p.resetAtEnd (u32 (p.buffer + remain)) }
  else do
    let p ← p.copyIn p.write bytes
    some { p with write := p.resetAtEnd (u32 (p.write + bytes.length)) }

end Pipe

/-! ## The delegate's requests

`buffer` is the requester's buffer: its length is the requested length. A handler starts with
`result = -1` and an error status, and keeps them while its transaction is repeated. -/

/-- What a `requestRead` leaves in the pipe map, the requester's buffer and its handler. -/
structure ReadReply where
  pipe : Option Pipe
  buffer : List UInt8
  result : Int := -1
  status : FsReadStatus := .error
  transaction : FsTransactionStatus
  deriving DecidableEq

/-- What a `requestWrite` leaves in the pipe map and its handler. -/
structure WriteReply where
  pipe : Option Pipe
  result : Int := -1
  status : FsWriteStatus := .error
  transaction : FsTransactionStatus
  deriving DecidableEq

def FsDelegatePipe.requestRead (pipe : Option Pipe) (requester : Pid) (isBlocking : Bool)
    (buffer : List UInt8) : Option ReadReply :=
  match pipe with
  | none => some { pipe := none, buffer, transaction := .finished }
  | some p => do
      -- what can be read at maximum
      let length := if p.size ≥ buffer.length then buffer.length else p.size
      let (p, buffer) ← p.takeBytes length buffer
      if length > 0 then
        some
          { pipe := some { p with size := u32 (p.size + 2 ^ 32 - length) }
            buffer
            result := length
            status := .successful
            transaction := .finished }
      else if isBlocking then
        if !Pipes.hasReferenceFromOtherProcess p requester then
          some { pipe := some p, buffer, result := 0, transaction := .finished }
        else
          some { pipe := some p, buffer, transaction := .repeat }
      else
        some { pipe := some p, buffer, result := 0, status := .successful, transaction := .finished }

def FsDelegatePipe.requestWrite (pipe : Option Pipe) (requester : Pid) (isBlocking : Bool)
    (buffer : List UInt8) : Option WriteReply :=
  match pipe with
  | none => some { pipe := none, transaction := .finished }
  | some p =>
    let space := u32 (p.capacity + 2 ^ 32 - p.size)
    if space > 0 then do
      -- how many bytes can be written
      let length := if space ≥ buffer.length then buffer.length else space
      let p ← p.putBytes (buffer.take length)
      some
        { pipe := some { p with size := u32 (p.size + length) }
          result := length
          status := .successful
          transaction := .finished }
    else if isBlocking then
      if Pipes.hasReferenceFromOtherProcess p requester then
        some { pipe := some p, transaction := .repeat }
      else
        some { pipe := some p, transaction := .finished }
    else
      some { pipe := some p, status := .successful, transaction := .finished }

/-- The bytes a read delivered: the first `result` bytes of the buffer, if it was successful. -/
def ReadReply.delivered (reply : ReadReply) : List UInt8 :=
  if reply.status = .successful then reply.buffer.take reply.result.toNat else []

/-- The bytes of `buffer` a write accepted: the first `result` of them, if it was successful. -/
def WriteReply.accepted (reply : WriteReply) (buffer : List UInt8) : List UInt8 :=
  if reply.status = .successful then buffer.take reply.result.toNat else []

/-! ## The queue a pipe stands for -/

namespace Pipe

/-- The queued bytes, oldest first. -/
def stored (p : Pipe) : List UInt8 := window p.data (p.read - p.buffer) p.size

@[simp] theorem stored_length (p : Pipe) : p.stored.length = p.size := window_length ..

/-- Both pointers are inside the block, and the write pointer is `size` cells behind the read
pointer. -/
structure Inv (p : Pipe) : Prop where
  buffer_pos : 0 < p.buffer
  inside : p.buffer + p.capacity < 2 ^ 32
  data_length : p.data.length = p.capacity
  read_ge : p.buffer ≤ p.read
  read_lt : p.read < p.buffer + p.capacity
  write_ge : p.buffer ≤ p.write
  write_lt : p.write < p.buffer + p.capacity
  size_le : p.size ≤ p.capacity
  write_eq : p.write - p.buffer = (p.read - p.buffer + p.size) % p.capacity

/-- The address `n` cells behind `position`, around the end of the block. -/
@[irreducible] def advance (p : Pipe) (position n : Nat) : Nat :=
  p.buffer + (position - p.buffer + n) % p.capacity

variable {p : Pipe} {position n : Nat} {bytes : List UInt8}

theorem advance_lt (h : p.Inv) (position n : Nat) :
    p.advance position n < p.buffer + p.capacity := by
  have hcap : 0 < p.capacity := by have := h.read_ge; have := h.read_lt; omega
  rw [advance]
  exact Nat.add_lt_add_left (Nat.mod_lt _ hcap) _

theorem spaceToEnd_eq (h : p.Inv) (hhi : position < p.buffer + p.capacity) :
    p.spaceToEnd position = p.buffer + p.capacity - position := by
  have hin := h.inside
  rw [spaceToEnd, u32_of_lt hin, u32]
  omega

theorem resetAtEnd_data (p : Pipe) (data : List UInt8) (position : Nat) :
    resetAtEnd { p with data := data } position = p.resetAtEnd position := by
  simp [resetAtEnd]

theorem resetAtEnd_of_wrap (h : p.Inv) (hlo : p.buffer ≤ position)
    (hhi : position < p.buffer + p.capacity) (hn : n ≤ p.capacity)
    (hwrap : n > p.spaceToEnd position) :
    p.resetAtEnd (u32 (p.buffer + (n - p.spaceToEnd position))) = p.advance position n := by
  have hin := h.inside
  rw [spaceToEnd_eq h hhi] at hwrap ⊢
  rw [u32_of_lt (by omega), resetAtEnd, u32_of_lt hin, if_neg (by omega), advance,
    mod_eq_ite_of_lt_two_mul (by omega), if_neg (by omega)]
  omega

theorem resetAtEnd_of_not_wrap (h : p.Inv) (hlo : p.buffer ≤ position)
    (hhi : position < p.buffer + p.capacity) (hwrap : ¬ n > p.spaceToEnd position) :
    p.resetAtEnd (u32 (position + n)) = p.advance position n := by
  have hin := h.inside
  rw [spaceToEnd_eq h hhi] at hwrap
  rw [u32_of_lt (by omega), resetAtEnd, u32_of_lt hin, advance,
    mod_eq_ite_of_lt_two_mul (by omega)]
  by_cases hend : position + n = p.buffer + p.capacity
  · rw [if_pos hend, if_neg (by omega)]
    omega
  · rw [if_neg hend, if_pos (by omega)]
    omega

/-! ### The two copying halves -/

section

variable (h : p.Inv)
include h

theorem takeBytes_spec {length : Nat} (out : List UInt8) (hsize : length ≤ p.size) :
    p.takeBytes length out =
      some ({ p with read := p.advance p.read length },
        overwrite out 0 (p.stored.take length)) := by
  have hlo := h.read_ge
  have hhi := h.read_lt
  have hle := h.size_le
  have hdata := h.data_length
  have hspace := spaceToEnd_eq h hhi
  have htake : p.stored.take length = window p.data (p.read - p.buffer) length := by
    have hsplit := window_append p.data (p.read - p.buffer) length (p.size - length)
    rw [Nat.add_sub_cancel' hsize] at hsplit
    rw [stored, hsplit, List.take_left' (window_length ..)]
  rw [htake]
  by_cases hwrap : length > p.spaceToEnd p.read
  · -- the queued bytes wrap: the first piece ends at the end of the block
    have hpieces : window p.data (p.read - p.buffer) length =
        (p.data.drop (p.read - p.buffer)).take (p.spaceToEnd p.read) ++
          (p.data.drop (p.buffer - p.buffer)).take (length - p.spaceToEnd p.read) := by
      have hsplit := window_append p.data (p.read - p.buffer) (p.spaceToEnd p.read)
        (length - p.spaceToEnd p.read)
      rw [Nat.add_sub_cancel' hwrap.le] at hsplit
      rw [hsplit, window_eq_slice (by omega), ← window_mod,
        show p.read - p.buffer + p.spaceToEnd p.read = p.data.length by omega, Nat.mod_self,
        window_eq_slice (by omega), Nat.sub_self]
    have hfirst : p.copyOut p.read (p.spaceToEnd p.read) =
        some ((p.data.drop (p.read - p.buffer)).take (p.spaceToEnd p.read)) :=
      if_pos ⟨hlo, by omega⟩
    have hrest : p.copyOut p.buffer (length - p.spaceToEnd p.read) =
        some ((p.data.drop (p.buffer - p.buffer)).take (length - p.spaceToEnd p.read)) :=
      if_pos ⟨le_rfl, by omega⟩
    rw [hpieces, ← overwrite_append (Nat.zero_le _), length_take, List.length_drop,
      Nat.zero_add, min_eq_left (by omega), ← resetAtEnd_of_wrap h hlo hhi (by omega) hwrap]
    simp [takeBytes, if_pos hwrap, hfirst, hrest]
  · have hbytes : p.copyOut p.read length =
        some (window p.data (p.read - p.buffer) length) := by
      rw [window_eq_slice (by omega)]
      exact if_pos ⟨hlo, by omega⟩
    rw [← resetAtEnd_of_not_wrap h hlo hhi hwrap]
    simp [takeBytes, if_neg hwrap, hbytes]

theorem stored_disjoint {k n off : Nat} (hoff : off = (p.write - p.buffer + k) % p.capacity)
    (hroom : p.size + (k + n) ≤ p.capacity) (hend : off + n ≤ p.capacity) :
    ∀ i < p.size, (p.read - p.buffer + i) % p.data.length < off ∨
      off + n ≤ (p.read - p.buffer + i) % p.data.length := by
  intro i hi
  have hweq := h.write_eq
  have hrhi := h.read_lt
  have hwhi := h.write_lt
  rw [mod_eq_ite_of_lt_two_mul (by omega)] at hweq hoff
  rw [h.data_length, mod_eq_ite_of_lt_two_mul (by omega)]
  split at hweq <;> split at hoff <;> split <;> omega

theorem stored_append (hroom : p.size + bytes.length ≤ p.capacity)
    (hend : p.write - p.buffer + bytes.length ≤ p.data.length) :
    window (overwrite p.data (p.write - p.buffer) bytes) (p.read - p.buffer)
      (p.size + bytes.length) = p.stored ++ bytes := by
  have hdata := h.data_length
  have hlo := h.write_ge
  have hhi := h.write_lt
  have hoff : p.write - p.buffer = (p.write - p.buffer + 0) % p.capacity :=
    (Nat.mod_eq_of_lt (by omega)).symm
  rw [window_append, window_overwrite_of_disjoint hend
    (stored_disjoint h hoff (by omega) (by omega)), ← stored, ← window_mod,
    overwrite_length hend, hdata, ← h.write_eq, window_overwrite_self hend]

theorem stored_append_wrap {first rest : List UInt8}
    (hroom : p.size + (first.length + rest.length) ≤ p.capacity)
    (hend : p.write - p.buffer + first.length = p.data.length) :
    window (overwrite (overwrite p.data (p.write - p.buffer) first) 0 rest) (p.read - p.buffer)
      (p.size + (first.length + rest.length)) = p.stored ++ (first ++ rest) := by
  have hdata := h.data_length
  have hlen := overwrite_length hend.le
  have hin : 0 + rest.length ≤ (overwrite p.data (p.write - p.buffer) first).length := by omega
  have hoff : p.write - p.buffer = (p.write - p.buffer + 0) % p.capacity := by
    have hlo := h.write_ge
    have hhi := h.write_lt
    exact (Nat.mod_eq_of_lt (by omega)).symm
  have hfront : 0 = (p.write - p.buffer + first.length) % p.capacity := by
    rw [hend, hdata, Nat.mod_self]
  have hold : window (overwrite (overwrite p.data (p.write - p.buffer) first) 0 rest)
      (p.read - p.buffer) p.size = p.stored := by
    have hdisj := stored_disjoint h hfront hroom (by omega)
    rw [window_overwrite_of_disjoint hin (by rwa [hlen]), window_overwrite_of_disjoint hend.le
      (stored_disjoint h hoff (by omega) (by omega)), stored]
  rw [window_append, hold, ← window_mod, overwrite_length hin, hlen, hdata, ← h.write_eq,
    window_overwrite_wrap hend (by omega)]

/-- The write pointer moves behind the bytes, those queued before keep their cells, and the new ones
follow. -/
theorem putBytes_spec (hroom : p.size + bytes.length ≤ p.capacity) :
    ∃ data, p.putBytes bytes =
        some { p with data := data, write := p.advance p.write bytes.length } ∧
      data.length = p.capacity ∧
      window data (p.read - p.buffer) (p.size + bytes.length) = p.stored ++ bytes := by
  have hlo := h.write_ge
  have hhi := h.write_lt
  have hdata := h.data_length
  have hspace := spaceToEnd_eq h hhi
  by_cases hwrap : bytes.length > p.spaceToEnd p.write
  · -- the first piece fills the block to its end, the rest starts over at the front
    have hbytes := List.take_append_drop (p.spaceToEnd p.write) bytes
    have hfirst : p.write - p.buffer + (bytes.take (p.spaceToEnd p.write)).length =
        p.data.length := by
      rw [length_take]
      omega
    have hlength := congrArg List.length hbytes
    rw [List.length_append] at hlength
    have hin1 : p.copyIn p.write (bytes.take (p.spaceToEnd p.write)) =
        some { p with
          data := overwrite p.data (p.write - p.buffer) (bytes.take (p.spaceToEnd p.write)) } :=
      if_pos ⟨hlo, by omega⟩
    have hin2 : ∀ data, copyIn { p with data := data } p.buffer
        (bytes.drop (p.spaceToEnd p.write)) =
          some { p with data := overwrite data 0 (bytes.drop (p.spaceToEnd p.write)) } := by
      intro data
      have hfits : p.buffer + (bytes.drop (p.spaceToEnd p.write)).length ≤
          p.buffer + p.capacity := by rw [List.length_drop]; omega
      rw [copyIn, if_pos ⟨le_rfl, hfits⟩, Nat.sub_self]
    refine ⟨overwrite (overwrite p.data (p.write - p.buffer) (bytes.take (p.spaceToEnd p.write)))
      0 (bytes.drop (p.spaceToEnd p.write)), ?_, ?_, ?_⟩
    · rw [← resetAtEnd_of_wrap h hlo hhi (by omega) hwrap]
      simp [putBytes, if_pos hwrap, hin1, hin2, resetAtEnd_data]
    · rw [overwrite_length (by rw [overwrite_length hfirst.le, List.length_drop]; omega),
        overwrite_length hfirst.le, hdata]
    · have happ := stored_append_wrap h (by rwa [hlength]) hfirst
      rwa [hlength, hbytes] at happ
  · have hend : p.write - p.buffer + bytes.length ≤ p.data.length := by omega
    have hin : p.copyIn p.write bytes =
        some { p with data := overwrite p.data (p.write - p.buffer) bytes } :=
      if_pos ⟨hlo, by omega⟩
    refine ⟨overwrite p.data (p.write - p.buffer) bytes, ?_, ?_, stored_append h hroom hend⟩
    · rw [← resetAtEnd_of_not_wrap h hlo hhi hwrap]
      simp [putBytes, if_neg hwrap, hin, bind_eq_bind, bind_some, resetAtEnd_data]
    · rw [overwrite_length hend, hdata]

end

/-! ### The queue operations -/

theorem ofBlock_inv (block : PipeBlock) : (Pipe.ofBlock block).Inv := by
  have hcap : 0 < pipeDefaultCapacity := by decide
  refine ⟨block.address_pos, block.inside, block.bytes_length, le_rfl, ?_, le_rfl, ?_,
    Nat.zero_le _, ?_⟩ <;> simp only [ofBlock, Nat.sub_self, Nat.add_zero, Nat.zero_mod] <;>
    omega

theorem Inv.drop (h : p.Inv) {length : Nat} (hsize : length ≤ p.size) :
    let q : Pipe := { p with read := p.advance p.read length, size := p.size - length }
    q.Inv ∧ p.stored = p.stored.take length ++ q.stored := by
  intro q
  have hle := h.size_le
  have hoff : q.read - q.buffer = (p.read - p.buffer + length) % p.capacity := by
    show p.advance p.read length - p.buffer = _
    rw [advance, Nat.add_sub_cancel_left]
  refine ⟨{ h with read_ge := ?_, read_lt := advance_lt h _ _, size_le := ?_, write_eq := ?_ }, ?_⟩
  · show p.buffer ≤ p.advance p.read length
    rw [advance]
    exact Nat.le_add_right _ _
  · show p.size - length ≤ p.capacity
    omega
  · have hsum : p.read - p.buffer + length + (p.size - length) = p.read - p.buffer + p.size := by
      omega
    rw [hoff, h.write_eq, Nat.mod_add_mod, hsum]
  · have hq : q.stored = window p.data (p.read - p.buffer + length) (p.size - length) := by
      rw [← window_mod, h.data_length, ← hoff]
      rfl
    have hsplit := window_append p.data (p.read - p.buffer) length (p.size - length)
    rw [Nat.add_sub_cancel' hsize] at hsplit
    rw [hq, stored, hsplit, List.take_left' (window_length ..)]

theorem Inv.append (h : p.Inv) {bytes data : List UInt8}
    (hroom : p.size + bytes.length ≤ p.capacity) (hdata : data.length = p.capacity)
    (hwindow : window data (p.read - p.buffer) (p.size + bytes.length) = p.stored ++ bytes) :
    let q : Pipe :=
      { p with data := data, write := p.advance p.write bytes.length, size := p.size + bytes.length }
    q.Inv ∧ q.stored = p.stored ++ bytes := by
  intro q
  refine ⟨{ h with data_length := hdata, write_ge := ?_, write_lt := advance_lt h _ _,
                   size_le := hroom, write_eq := ?_ }, hwindow⟩
  · show p.buffer ≤ p.advance p.write bytes.length
    rw [advance]
    exact Nat.le_add_right _ _
  · show p.advance p.write bytes.length - p.buffer = (p.read - p.buffer + (p.size + bytes.length)) %
      p.capacity
    rw [advance, Nat.add_sub_cancel_left, h.write_eq, Nat.mod_add_mod, Nat.add_assoc]

end Pipe

theorem Pipe.advance_zero {p : Pipe} (h : p.Inv) : p.advance p.read 0 = p.read := by
  have hlo := h.read_ge
  have hhi := h.read_lt
  rw [advance, Nat.add_zero, Nat.mod_eq_of_lt (by omega)]
  omega

namespace FsDelegatePipe

variable {p : Pipe}

section

variable (h : p.Inv) (requester : Pid) (isBlocking : Bool)
include h

theorem requestRead_of_pos {buffer : List UInt8} (hpos : 0 < min buffer.length p.size) :
    requestRead (some p) requester isBlocking buffer = some
      { pipe := some { p with
          read := p.advance p.read (min buffer.length p.size)
          size := p.size - min buffer.length p.size }
        buffer := overwrite buffer 0 (p.stored.take (min buffer.length p.size))
        result := (min buffer.length p.size : Nat)
        status := .successful
        transaction := .finished } := by
  have hin := h.inside
  have hle := h.size_le
  have hlength : (if p.size ≥ buffer.length then buffer.length else p.size) =
      min buffer.length p.size := by split <;> omega
  have hsub : u32 (p.size + 2 ^ 32 - min buffer.length p.size) =
      p.size - min buffer.length p.size := by
    rw [u32]
    omega
  simp only [requestRead, hlength, Pipe.takeBytes_spec h buffer (Nat.min_le_right ..),
    bind_eq_bind, bind_some, if_pos hpos, hsub]

theorem requestRead_of_zero {buffer : List UInt8} (hzero : min buffer.length p.size = 0) :
    requestRead (some p) requester isBlocking buffer = some
      (if isBlocking then
        if Pipes.hasReferenceFromOtherProcess p requester then
          { pipe := some p, buffer, transaction := .repeat }
        else { pipe := some p, buffer, result := 0, transaction := .finished }
      else { pipe := some p, buffer, result := 0, status := .successful, transaction := .finished }) := by
  have hlength : (if p.size ≥ buffer.length then buffer.length else p.size) = 0 := by
    split <;> omega
  have hsame : ({ p with read := p.advance p.read 0 } : Pipe) = p := by rw [Pipe.advance_zero h]
  have hbuffer : overwrite buffer 0 (p.stored.take 0) = buffer := by
    rfl
  have hnone : ¬ 0 > 0 := Nat.lt_irrefl 0
  simp only [requestRead, hlength, Pipe.takeBytes_spec h buffer (Nat.zero_le _), hsame, hbuffer,
    bind_eq_bind, bind_some, if_neg hnone]
  cases isBlocking <;> cases Pipes.hasReferenceFromOtherProcess p requester <;> rfl

theorem requestWrite_of_space (buffer : List UInt8) (hspace : p.size < p.capacity) :
    ∃ q, requestWrite (some p) requester isBlocking buffer = some
        { pipe := some q
          result := (min buffer.length (p.capacity - p.size) : Nat)
          status := .successful
          transaction := .finished } ∧
      q.Inv ∧ q.stored = p.stored ++ buffer.take (min buffer.length (p.capacity - p.size)) := by
  have hin := h.inside
  have hsub : u32 (p.capacity + 2 ^ 32 - p.size) = p.capacity - p.size := by
    rw [u32]
    omega
  have hlength : (if p.capacity - p.size ≥ buffer.length then buffer.length
      else p.capacity - p.size) = min buffer.length (p.capacity - p.size) := by split <;> omega
  have htaken : (buffer.take (min buffer.length (p.capacity - p.size))).length =
      min buffer.length (p.capacity - p.size) := by
    rw [length_take]
    omega
  have hroom : p.size + (buffer.take (min buffer.length (p.capacity - p.size))).length ≤
      p.capacity := by
    omega
  obtain ⟨data, hput, hdata, hwindow⟩ := Pipe.putBytes_spec h hroom
  obtain ⟨hinv, hstored⟩ := h.append hroom hdata hwindow
  have hadd : u32 (p.size + min buffer.length (p.capacity - p.size)) =
      p.size + (buffer.take (min buffer.length (p.capacity - p.size))).length := by
    rw [u32_of_lt (by omega), htaken]
  refine ⟨_, ?_, hinv, hstored⟩
  have hpos : p.capacity - p.size > 0 := by omega
  simp only [requestWrite, hsub, if_pos hpos, hlength, hput, bind_eq_bind, bind_some,
    hadd]

omit h in
theorem requestWrite_of_full (buffer : List UInt8) (hfull : p.size = p.capacity) :
    requestWrite (some p) requester isBlocking buffer = some
      (if isBlocking then
        if Pipes.hasReferenceFromOtherProcess p requester then { pipe := some p, transaction := .repeat }
        else { pipe := some p, transaction := .finished }
      else { pipe := some p, status := .successful, transaction := .finished }) := by
  have hspace : ¬ u32 (p.capacity + 2 ^ 32 - p.size) > 0 := by
    rw [u32]
    omega
  simp only [requestWrite, if_neg hspace]
  cases isBlocking <;> cases Pipes.hasReferenceFromOtherProcess p requester <;> rfl

theorem requestRead_spec (buffer : List UInt8) :
    ∃ reply q, requestRead (some p) requester isBlocking buffer = some reply ∧
      reply.pipe = some q ∧ q.Inv ∧ p.stored = reply.delivered ++ q.stored := by
  rcases Nat.eq_zero_or_pos (min buffer.length p.size) with hzero | hpos
  · rw [requestRead_of_zero h requester isBlocking hzero]
    cases isBlocking with
    | false => exact ⟨_, p, rfl, rfl, h, rfl⟩
    | true =>
      cases Pipes.hasReferenceFromOtherProcess p requester with
      | false | true => exact ⟨_, p, rfl, rfl, h, rfl⟩
  · have hsize := Nat.min_le_right buffer.length p.size
    have htaken : (p.stored.take (min buffer.length p.size)).length = min buffer.length p.size := by
      rw [length_take, Pipe.stored_length, Nat.min_eq_left hsize]
    obtain ⟨hinv, hstored⟩ := h.drop hsize
    refine ⟨_, _, requestRead_of_pos h requester isBlocking hpos, rfl, hinv, ?_⟩
    simp only [ReadReply.delivered, if_true, Int.toNat_natCast]
    rw [overwrite, take_zero, nil_append, List.take_left' htaken]
    exact hstored

theorem requestWrite_spec (buffer : List UInt8) :
    ∃ reply q, requestWrite (some p) requester isBlocking buffer = some reply ∧
      reply.pipe = some q ∧ q.Inv ∧ q.stored = p.stored ++ reply.accepted buffer := by
  rcases Nat.lt_or_eq_of_le h.size_le with hspace | hfull
  · obtain ⟨q, hreply, hinv, hstored⟩ := requestWrite_of_space h requester isBlocking buffer hspace
    refine ⟨_, q, hreply, rfl, hinv, ?_⟩
    simpa only [WriteReply.accepted, if_true, Int.toNat_natCast] using hstored
  · have hsame : p.stored = p.stored ++ [] := (List.append_nil _).symm
    rw [requestWrite_of_full requester isBlocking buffer hfull]
    cases isBlocking with
    | false => exact ⟨_, p, rfl, rfl, h, hsame⟩
    | true =>
      cases Pipes.hasReferenceFromOtherProcess p requester with
      | false | true => exact ⟨_, p, rfl, rfl, h, hsame⟩

end

end FsDelegatePipe

/-! ## Histories of one pipe -/

/-- What can happen to a pipe in the pipe map: a request of some process, or a change of the
reference list. -/
inductive PipeCall
  | read (requester : Pid) (isBlocking : Bool) (buffer : List UInt8)
  | write (requester : Pid) (isBlocking : Bool) (buffer : List UInt8)
  | setReferences (references : List Pid)

/-- A pipe with the bytes that all writes accepted and all reads delivered so far. -/
structure PipeHistory where
  pipe : Pipe
  accepted : List UInt8
  delivered : List UInt8

/-- One call: `none` if a copy would leave the block. -/
def PipeHistory.step (s : PipeHistory) : PipeCall → Option PipeHistory
  | .read requester isBlocking buffer => do
      let reply ← FsDelegatePipe.requestRead (some s.pipe) requester isBlocking buffer
      let pipe ← reply.pipe
      some { s with pipe, delivered := s.delivered ++ reply.delivered }
  | .write requester isBlocking buffer => do
      let reply ← FsDelegatePipe.requestWrite (some s.pipe) requester isBlocking buffer
      let pipe ← reply.pipe
      some { s with pipe, accepted := s.accepted ++ reply.accepted buffer }
  | .setReferences references => some { s with pipe := { s.pipe with references } }

/-- The histories of the pipes that `Pipes::create` makes. -/
def pipeSystem : System PipeHistory PipeCall where
  init s := ∃ block, s = ⟨Pipe.ofBlock block, [], []⟩
  step := PipeHistory.step

/-- The refinement relation to the byte queue: what was accepted and not yet delivered is stored. -/
structure PipeHistory.Refines (s : PipeHistory) : Prop where
  inv : s.pipe.Inv
  queue : s.accepted = s.delivered ++ s.pipe.stored

theorem PipeHistory.step_refines (s : PipeHistory) (call : PipeCall) (h : s.Refines) :
    ∃ s', s.step call = some s' ∧ s'.Refines := by
  obtain ⟨hinv, hqueue⟩ := h
  cases call with
  | read requester isBlocking buffer =>
    obtain ⟨reply, q, hreply, hpipe, hq, hstored⟩ :=
      FsDelegatePipe.requestRead_spec hinv requester isBlocking buffer
    refine ⟨_, by simp only [step, hreply, hpipe, bind_eq_bind, bind_some]; rfl,
      hq, ?_⟩
    rw [hqueue, hstored, List.append_assoc]
  | write requester isBlocking buffer =>
    obtain ⟨reply, q, hreply, hpipe, hq, hstored⟩ :=
      FsDelegatePipe.requestWrite_spec hinv requester isBlocking buffer
    refine ⟨_, by simp only [step, hreply, hpipe, bind_eq_bind, bind_some]; rfl,
      hq, ?_⟩
    rw [hqueue, hstored, List.append_assoc]
  | setReferences references => exact ⟨_, rfl, { hinv with }, hqueue⟩

/-- The requests on a new pipe stay inside the block; what is delivered and what is stored is what
was accepted. -/
theorem pipe_refines_fifo (block : PipeBlock) (calls : List PipeCall) :
    ∃ s, pipeSystem.run ⟨Pipe.ofBlock block, [], []⟩ calls = some s ∧
      s.accepted = s.delivered ++ s.pipe.stored ∧
      s.pipe.stored.length = s.pipe.size ∧
      s.pipe.size ≤ s.pipe.capacity ∧
      s.pipe.read ∈ Set.Ico s.pipe.buffer (s.pipe.buffer + s.pipe.capacity) ∧
      s.pipe.write ∈ Set.Ico s.pipe.buffer (s.pipe.buffer + s.pipe.capacity) := by
  have hstart : PipeHistory.Refines ⟨Pipe.ofBlock block, [], []⟩ := ⟨Pipe.ofBlock_inv block, rfl⟩
  obtain ⟨s, hrun, hinv, hqueue⟩ :=
    System.run_total (M := pipeSystem) PipeHistory.step_refines hstart calls
  exact ⟨s, hrun, hqueue, s.pipe.stored_length, hinv.size_le, ⟨hinv.read_ge, hinv.read_lt⟩,
    hinv.write_ge, hinv.write_lt⟩

/-! ## Blocking -/

/-- Some process other than the requester is in the reference list. -/
def Pipe.ReferencedByOther (p : Pipe) (requester : Pid) : Prop := ∃ pid ∈ p.references, pid ≠ requester

theorem Pipes.hasReferenceFromOtherProcess_iff (p : Pipe) (requester : Pid) :
    hasReferenceFromOtherProcess p requester = true ↔ p.ReferencedByOther requester := by
  simp [hasReferenceFromOtherProcess, Pipe.ReferencedByOther, bne_iff_ne]

namespace FsDelegatePipe

/-- `n` bytes of the pipe went to the front of the requester's buffer. -/
def Took (n : Int) (buffer : List UInt8) (pipe : Option Pipe) (reply : ReadReply) : Prop :=
  ∃ p q taken, pipe = some p ∧ reply.pipe = some q ∧ p.stored = taken ++ q.stored ∧
    (taken.length : Int) = n ∧ taken.length ≤ buffer.length ∧ reply.buffer = overwrite buffer 0 taken

/-- The first `n` bytes of the requester's buffer went to the pipe. -/
def Put (n : Int) (buffer : List UInt8) (pipe : Option Pipe) (reply : WriteReply) : Prop :=
  ∃ p q put, pipe = some p ∧ reply.pipe = some q ∧ q.stored = p.stored ++ put ∧
    (put.length : Int) = n ∧ put <+: buffer

/-- A read is repeated only if the pipe is empty and another process references it; otherwise it has
moved as many bytes as its result says, or left the pipe. -/
def ReadBlocksRightly (pipe : Option Pipe) (requester : Pid) (isBlocking : Bool)
    (buffer : List UInt8) : Prop :=
  ∃ reply, requestRead pipe requester isBlocking buffer = some reply ∧
    (reply.transaction = .repeat → ∃ p, pipe = some p ∧ p.size = 0 ∧ p.ReferencedByOther requester) ∧
    (reply.transaction ≠ .repeat → reply.transaction = .finished ∧
      (0 ≤ reply.result → Took reply.result buffer pipe reply) ∧
      (reply.result < 0 → reply.pipe = pipe))

/-- A write is repeated only if the pipe is full and another process references it; otherwise it has
moved as many bytes as its result says, or left the pipe. -/
def WriteBlocksRightly (pipe : Option Pipe) (requester : Pid) (isBlocking : Bool)
    (buffer : List UInt8) : Prop :=
  ∃ reply, requestWrite pipe requester isBlocking buffer = some reply ∧
    (reply.transaction = .repeat →
      ∃ p, pipe = some p ∧ p.size = p.capacity ∧ p.ReferencedByOther requester) ∧
    (reply.transaction ≠ .repeat → reply.transaction = .finished ∧
      (0 ≤ reply.result → Put reply.result buffer pipe reply) ∧
      (reply.result < 0 → reply.pipe = pipe))

/-- Nothing is wanted of a pipe that has something. -/
def WantsNothing (p : Pipe) (requester : Pid) (isBlocking : Bool) (buffer : List UInt8) : Prop :=
  buffer.length = 0 ∧ 0 < p.size ∧ isBlocking = true ∧ p.ReferencedByOther requester

variable {p : Pipe}

theorem took_zero {buffer : List UInt8} {reply : ReadReply}
    (hpipe : reply.pipe = some p) (hbuffer : reply.buffer = buffer) : Took 0 buffer (some p) reply := by
  refine ⟨p, p, [], rfl, hpipe, rfl, rfl, Nat.zero_le _, ?_⟩
  rw [hbuffer, overwrite, take_zero, nil_append, nil_append]
  rfl

theorem readBlocksRightly_iff (h : p.Inv) (requester : Pid) (isBlocking : Bool)
    (buffer : List UInt8) :
    ReadBlocksRightly (some p) requester isBlocking buffer ↔
      ¬ WantsNothing p requester isBlocking buffer := by
  unfold ReadBlocksRightly WantsNothing
  rcases Nat.eq_zero_or_pos (min buffer.length p.size) with hzero | hpos
  · rw [requestRead_of_zero h requester isBlocking hzero, ← Pipes.hasReferenceFromOtherProcess_iff]
    cases isBlocking with
    | false =>
      exact iff_of_true ⟨_, rfl, nofun, fun _ => ⟨rfl, fun _ => took_zero rfl rfl, nofun⟩⟩
        fun hnothing => absurd hnothing.2.2.1 Bool.false_ne_true
    | true =>
      cases hother : Pipes.hasReferenceFromOtherProcess p requester with
      | false =>
        exact iff_of_true ⟨_, rfl, nofun, fun _ => ⟨rfl, fun _ => took_zero rfl rfl, nofun⟩⟩
          fun hnothing => absurd hnothing.2.2.2 Bool.false_ne_true
      | true =>
        -- the request is repeated, whatever made its length zero
        constructor
        · rintro ⟨reply, hreply, hrepeat, -⟩ hnothing
          cases hreply
          obtain ⟨q, hq, hempty, -⟩ := hrepeat rfl
          cases hq
          omega
        · intro hnothing
          have hempty : p.size = 0 := by
            by_contra hsize
            exact hnothing ⟨by omega, by omega, rfl, rfl⟩
          exact ⟨_, rfl, fun _ => ⟨p, rfl, hempty, (Pipes.hasReferenceFromOtherProcess_iff _ _).1 hother⟩,
            fun hnot => absurd rfl hnot⟩
  · rw [requestRead_of_pos h requester isBlocking hpos]
    have hsize := Nat.min_le_right buffer.length p.size
    have htaken : (p.stored.take (min buffer.length p.size)).length = min buffer.length p.size := by
      rw [length_take, Pipe.stored_length, Nat.min_eq_left hsize]
    refine iff_of_true ⟨_, rfl, nofun, fun _ => ⟨rfl, fun _ => ?_, fun hneg => ?_⟩⟩
      fun hnothing => by omega
    · exact ⟨p, _, _, rfl, rfl, (h.drop hsize).2, by rw [htaken], by rw [htaken]; omega, rfl⟩
    · exact absurd hneg (Int.not_lt.2 (Int.natCast_nonneg _))

theorem writeBlocksRightly (h : p.Inv) (requester : Pid) (isBlocking : Bool)
    (buffer : List UInt8) : WriteBlocksRightly (some p) requester isBlocking buffer := by
  unfold WriteBlocksRightly
  rcases Nat.lt_or_eq_of_le h.size_le with hspace | hfull
  · obtain ⟨q, hreply, -, hstored⟩ := requestWrite_of_space h requester isBlocking buffer hspace
    refine ⟨_, hreply, nofun, fun _ => ⟨rfl, fun _ => ?_, fun hneg => ?_⟩⟩
    · refine ⟨p, q, _, rfl, rfl, hstored, ?_, List.take_prefix _ _⟩
      rw [length_take, Nat.min_eq_left (Nat.min_le_left ..)]
    · exact absurd hneg (Int.not_lt.2 (Int.natCast_nonneg _))
  · rw [requestWrite_of_full requester isBlocking buffer hfull]
    cases isBlocking with
    | false => exact ⟨_, rfl, nofun, fun _ => ⟨rfl, nofun, fun _ => rfl⟩⟩
    | true =>
      cases hother : Pipes.hasReferenceFromOtherProcess p requester with
      | false => exact ⟨_, rfl, nofun, fun _ => ⟨rfl, nofun, fun _ => rfl⟩⟩
      | true =>
        exact ⟨_, rfl, fun _ => ⟨p, rfl, hfull, (Pipes.hasReferenceFromOtherProcess_iff _ _).1 hother⟩,
          fun hnot => absurd rfl hnot⟩

theorem refines_of_reachable {s : PipeHistory} (hs : pipeSystem.Reachable (fun _ _ => True) s) :
    s.Refines := by
  refine hs.invariant ?_ ?_
  · rintro s ⟨block, rfl⟩
    exact ⟨Pipe.ofBlock_inv block, rfl⟩
  · intro s call s' h _ hstep
    obtain ⟨s1, hs1, hrefines⟩ := PipeHistory.step_refines s call h
    obtain rfl : s1 = s' := Option.mem_unique hs1 hstep
    exact hrefines

/-- The requests block as they should, but for a blocking read of no bytes from a pipe that has some
and another reader. -/
theorem requests_block_iff {s : PipeHistory} (hs : pipeSystem.Reachable (fun _ _ => True) s)
    (requester : Pid) (isBlocking : Bool) (buffer : List UInt8) :
    (ReadBlocksRightly (some s.pipe) requester isBlocking buffer ↔
        ¬ WantsNothing s.pipe requester isBlocking buffer) ∧
      WriteBlocksRightly (some s.pipe) requester isBlocking buffer ∧
      ReadBlocksRightly none requester isBlocking buffer ∧
      WriteBlocksRightly none requester isBlocking buffer := by
  have hinv := refines_of_reachable hs
  exact ⟨readBlocksRightly_iff hinv.inv requester isBlocking buffer,
    writeBlocksRightly hinv.inv requester isBlocking buffer,
    ⟨_, rfl, nofun, fun _ => ⟨rfl, nofun, fun _ => rfl⟩⟩,
    ⟨_, rfl, nofun, fun _ => ⟨rfl, nofun, fun _ => rfl⟩⟩⟩

/-- A pipe of the processes 1 and 2 with a byte in it. -/
theorem written_reachable : ∃ s, pipeSystem.Reachable (fun _ _ => True) s ∧
    s.pipe.size = 1 ∧ s.pipe.references = [1, 2] := by
  obtain ⟨s, hrun, hpipe⟩ : ∃ s ∈ pipeSystem.run ⟨Pipe.ofBlock zeroBlock, [], []⟩
      [.setReferences [1, 2], .write 1 true [7]], s.pipe.size = 1 ∧ s.pipe.references = [1, 2] := by
    decide +kernel
  exact ⟨s, System.reachable_of_run ⟨zeroBlock, rfl⟩ hrun, hpipe⟩

theorem requests_block_iff_written : ∃ s, pipeSystem.Reachable (fun _ _ => True) s ∧ s.pipe.size = 1 ∧
    s.pipe.references = [1, 2] ∧ ReadBlocksRightly (some s.pipe) 2 true [0] ∧
      WriteBlocksRightly (some s.pipe) 2 true [7] := by
  obtain ⟨s, hs, hsize, hreferences⟩ := written_reachable
  have h := requests_block_iff hs 2 true
  exact ⟨s, hs, hsize, hreferences, (h [0]).1.2 fun hnothing => absurd hnothing.1 (by decide),
    (h [7]).2.1⟩

/-- A read of no bytes from this pipe is repeated. -/
theorem empty_read_repeats : ∃ s, pipeSystem.Reachable (fun _ _ => True) s ∧
    ¬ ReadBlocksRightly (some s.pipe) 2 true [] := by
  obtain ⟨s, hs, hsize, hreferences⟩ := written_reachable
  have hinv := (refines_of_reachable hs).inv
  refine ⟨s, hs, fun hrightly => (readBlocksRightly_iff hinv 2 true []).1 hrightly
    ⟨rfl, by omega, rfl, 1, ?_, by decide⟩⟩
  rw [hreferences]
  exact List.mem_cons_self

end FsDelegatePipe

end MeetixOS.Kernel
