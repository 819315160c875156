import MeetixOS.Kernel.Types

/-! # `memmove`

The bytes are copied upwards, unless the destination starts inside of the source; then downwards. -/

open Function (update update_apply)

open MeetixOS.Kernel (u32)

namespace LibC

/-- `memcpy`, which is `rep movsb`. -/
def memcpy (memory : Nat → UInt8) (dest src : Nat) : Nat → Nat → UInt8
  | 0 => memory
  | num + 1 => memcpy (update memory dest (memory src)) (u32 (dest + 1)) (u32 (src + 1)) num

/-- The loop of `memmove`. -/
def memmoveLoop (memory : Nat → UInt8) (dest src : Nat) : Nat → Nat → UInt8
  | 0 => memory
  | num + 1 =>
    memmoveLoop (update memory (u32 (dest + num)) (memory (u32 (src + num)))) dest src num

def memmove (memory : Nat → UInt8) (dest src num : Nat) : Nat → UInt8 :=
  if u32 (dest + 2 ^ 32 - src) ≥ num then memcpy memory dest src num
  else memmoveLoop memory dest src num

variable {memory : Nat → UInt8} {dest src num : Nat}

/-- The memory with the bytes that were at `src` at `dest`. -/
def copied (memory : Nat → UInt8) (dest src num a : Nat) : UInt8 :=
  if dest ≤ a ∧ a < dest + num then memory (src + (a - dest)) else memory a

theorem memcpy_eq (hdest : dest + num < 2 ^ 32) (hsrc : src + num < 2 ^ 32)
    (hapart : dest ≤ src ∨ src + num ≤ dest) : memcpy memory dest src num = copied memory dest src num := by
  induction num generalizing memory dest src with
  | zero =>
    funext a
    simp only [memcpy, copied, Nat.add_zero]
    grind
  | succ num ih =>
    rw [memcpy, u32, u32, Nat.mod_eq_of_lt (by omega), Nat.mod_eq_of_lt (by omega),
      ih (by omega) (by omega) (by omega)]
    funext a
    simp only [copied, update_apply]
    grind

theorem memmoveLoop_eq (hdest : dest + num < 2 ^ 32) (hsrc : src + num < 2 ^ 32) (hbehind : src ≤ dest) :
    memmoveLoop memory dest src num = copied memory dest src num := by
  induction num generalizing memory with
  | zero =>
    funext a
    simp only [memmoveLoop, copied, Nat.add_zero]
    grind
  | succ num ih =>
    rw [memmoveLoop, u32, u32, Nat.mod_eq_of_lt (by omega), Nat.mod_eq_of_lt (by omega),
      ih (by omega) (by omega)]
    funext a
    simp only [copied, update_apply]
    grind

/-- Whatever overlaps, the destination has the bytes that were in the source, and nothing else changes. -/
theorem memmove_moves (hdest : dest + num < 2 ^ 32) (hsrc : src + num < 2 ^ 32) (a : Nat) :
    memmove memory dest src num a =
      if dest ≤ a ∧ a < dest + num then memory (src + (a - dest)) else memory a := by
  rw [memmove]
  split
  next hup =>
    rw [memcpy_eq hdest hsrc (by rw [u32] at hup; omega), copied]
  next hdown =>
    rw [memmoveLoop_eq hdest hsrc (by rw [u32] at hdown; omega), copied]

theorem memmove_moves_overlap :
    memmove (fun a => UInt8.ofNat a) 12 10 5 14 = 12 := by
  rw [memmove_moves (by decide) (by decide)]
  decide

end LibC
