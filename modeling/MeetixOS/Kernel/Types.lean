import Mathlib.Data.Int.ModEq

/-! # Machine words, identifiers and status codes

The fixed-width arithmetic of the kernel is written out on `Nat` and `Int`: `u32` wraps
unsigned values, `s16`, `s32` and `s64` wrap signed ones to two's complement. They are irreducible so
that arithmetic goals treat them as atoms; the lemmas below say when nothing wraps. -/

namespace MeetixOS.Kernel

/-! ## Words -/

/-- A value stored in a `uint32_t`. -/
@[irreducible] def u32 (n : Nat) : Nat := n % 2 ^ 32

/-- A value stored in an `int32_t`. -/
@[irreducible] def s32 (n : Int) : Int := n.bmod (2 ^ 32)

/-- A value stored in an `int16_t`. -/
@[irreducible] def s16 (n : Int) : Int := n.bmod (2 ^ 16)

/-- A value stored in an `int64_t`. -/
@[irreducible] def s64 (n : Int) : Int := n.bmod (2 ^ 64)

theorem u32_of_lt {n : Nat} (h : n < 2 ^ 32) : u32 n = n := by
  rw [u32, Nat.mod_eq_of_lt h]

theorem u32_lt (n : Nat) : u32 n < 2 ^ 32 := by
  rw [u32]
  exact Nat.mod_lt _ (by decide)

theorem u32_add_u32 (n m : Nat) : u32 (u32 n + m) = u32 (n + m) := by
  rw [u32, u32, u32, Nat.mod_add_mod]

theorem u32_sub {n m : Nat} (hle : m ≤ n) (h : n < 2 ^ 32) : u32 (n + 2 ^ 32 - m) = n - m := by
  rw [u32]
  omega

theorem s32_of_range {n : Int} (hlo : -(2 ^ 31) ≤ n) (hhi : n < 2 ^ 31) : s32 n = n := by
  rw [s32, Int.bmod_def]
  omega

theorem s32_add_one_ne (n : Int) : s32 (n + 1) ≠ n := by
  rw [s32, Int.bmod_def]
  omega

/-! ## Identifiers

Numbers that are counted up or compared stay plain `Int` and `Nat`: a `FileHandle` is an `i32`; an
`FsVirtID`, `FsPhysID` or `PipeID` is a natural number. Nodes are never freed, and every pipe comes
with a node of its own, so the kernel heap is exhausted long before these two counters wrap. -/

/-- `Tid`: a thread id, an `i32`. -/
abbrev Tid := Int

/-- `Pid`: the thread id of a process' main thread. -/
abbrev Pid := Int

abbrev FsTransactionID := Int

/-- The address of a block of memory. -/
abbrev Address := Nat

/-! ## Status codes -/

inductive FsNodeType
  | none
  | root
  | mountpoint
  | folder
  | file
  | pipe
  deriving DecidableEq, Repr

inductive FsTransactionStatus
  | waiting
  | finished
  | repeat
  deriving DecidableEq, Repr

inductive FsDiscoveryStatus
  | successful
  | notFound
  | busy
  | error
  deriving DecidableEq, Repr

inductive FsOpenStatus
  | successful
  | notFound
  | error
  | busy
  deriving DecidableEq, Repr

inductive FsReadStatus
  | successful
  | invalidFd
  | busy
  | error
  deriving DecidableEq, Repr

inductive FsWriteStatus
  | successful
  | invalidFd
  | notSupported
  | busy
  | error
  deriving DecidableEq, Repr

inductive FsCloseStatus
  | successful
  | invalidFd
  | busy
  | error
  deriving DecidableEq, Repr

inductive FsDirectoryRefreshStatus
  | successful
  | error
  | busy
  deriving DecidableEq, Repr

inductive FsCloneFdStatus
  | successful
  | invalidSourceFd
  | error
  deriving DecidableEq, Repr

end MeetixOS.Kernel
