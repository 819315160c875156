import Mathlib.Data.Int.ModEq
import Mathlib.Data.List.Basic

/-! # Bytes in memory

A byte-addressed memory as a function, and the little-endian words of 32 bits. `Stores memory a bytes`
says that `bytes` lie in memory from the address `a` on; it splits along `++` (`stores_append`), so
that a reader of records can be followed field by field. -/

namespace MeetixOS.Lib

/-! ## Words -/

/-- The four bytes of a word, the low one first. -/
def word (n : Nat) : List UInt8 :=
  [UInt8.ofNat n, UInt8.ofNat (n >>> 8), UInt8.ofNat (n >>> 16), UInt8.ofNat (n >>> 24)]

/-- The number that bytes stand for, the low one first. -/
def wordOf (bytes : List UInt8) : Nat := bytes.foldr (fun b n => b.toNat + 256 * n) 0

@[simp] theorem length_word (n : Nat) : (word n).length = 4 := rfl

theorem wordOf_word {n : Nat} (h : n < 2 ^ 32) : wordOf (word n) = n := by
  simp only [wordOf, word, List.foldr_cons, List.foldr_nil, UInt8.toNat_ofNat',
    Nat.shiftRight_eq_div_pow]
  omega

/-! ## Memory -/

/-- The `n` bytes from the address `a` on. -/
def bytesAt (memory : Nat → UInt8) : Nat → Nat → List UInt8
  | _, 0 => []
  | a, n + 1 => memory a :: bytesAt memory (a + 1) n

/-- The bytes lie in memory from the address `a` on. -/
def Stores (memory : Nat → UInt8) (a : Nat) (bytes : List UInt8) : Prop :=
  bytesAt memory a bytes.length = bytes

variable {memory : Nat → UInt8} {a : Nat} {bytes : List UInt8}

theorem stores_cons {b : UInt8} :
    Stores memory a (b :: bytes) ↔ memory a = b ∧ Stores memory (a + 1) bytes := by
  rw [Stores, List.length_cons, bytesAt, List.cons.injEq, Stores]

theorem stores_append {more : List UInt8} : Stores memory a (bytes ++ more) ↔
    Stores memory a bytes ∧ Stores memory (a + bytes.length) more := by
  induction bytes generalizing a with
  | nil => simp [Stores, bytesAt]
  | cons b bytes ih =>
    rw [List.cons_append, stores_cons, ih, stores_cons, List.length_cons, and_assoc,
      Nat.add_right_comm a 1, Nat.add_assoc a]

theorem Stores.bytesAt_eq (h : Stores memory a bytes) {n : Nat} (hn : n = bytes.length) :
    bytesAt memory a n = bytes := by
  rw [hn]
  exact h

theorem Stores.wordOf_eq {n : Nat} (h : Stores memory a (word n)) (hn : n < 2 ^ 32) :
    wordOf (bytesAt memory a 4) = n := by
  rw [h.bytesAt_eq (length_word n).symm, wordOf_word hn]

/-- A memory that is zero but for some bytes at an address. -/
def memoryWith (a : Nat) (bytes : List UInt8) (i : Nat) : UInt8 :=
  if a ≤ i then bytes.getD (i - a) 0 else 0

theorem stores_memoryWith (a : Nat) (bytes : List UInt8) : Stores (memoryWith a bytes) a bytes := by
  suffices h : ∀ before, Stores (memoryWith a (before ++ bytes)) (a + before.length) bytes from h []
  induction bytes with
  | nil => exact fun before => rfl
  | cons b bytes ih =>
    intro before
    rw [stores_cons]
    refine ⟨?_, ?_⟩
    · rw [memoryWith, if_pos (Nat.le_add_right ..), Nat.add_sub_cancel_left]
      simp
    · have h := ih (before ++ [b])
      rwa [List.append_assoc, List.singleton_append, List.length_append, List.length_singleton,
        ← Nat.add_assoc] at h

end MeetixOS.Lib
