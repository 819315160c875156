import Mathlib.Data.Int.Init

/-! # Characters

The characters of a string are its bytes. A `char` is signed on the target, so that the bytes from 0x80
on are negative when they are promoted to `int`. -/

namespace LibC

/-- A `char`, promoted to `int`. -/
def charInt (c : UInt8) : Int :=
  if c.toNat < 128 then c.toNat else (c.toNat : Int) - 256

def isspace (c : UInt8) : Bool := (9 ≤ c && c ≤ 13) || c == 32

def isblank (c : UInt8) : Bool := c == 9 || c == 32

def isdigit (c : UInt8) : Bool := 48 ≤ c && c ≤ 57

def isalnum (c : UInt8) : Bool := isdigit c || (65 ≤ c && c ≤ 90) || (97 ≤ c && c ≤ 122)

/-- For the upper case letters, `c | 0x20`. -/
def tolower (c : Int) : Int :=
  if 65 ≤ c ∧ c ≤ 90 then ((c.toNat ||| 0x20 : Nat) : Int) else c

theorem charInt_injective : Function.Injective charInt := by
  intro a b h
  have ha := a.toNat_lt
  have hb := b.toNat_lt
  unfold charInt at h
  refine UInt8.toNat_inj.1 ?_
  split at h <;> split at h <;> omega

theorem charInt_mem_iff {c : UInt8} {lo hi : Nat} (hlo : 0 < lo) (hhi : hi < 128) :
    (lo : Int) ≤ charInt c ∧ charInt c ≤ hi ↔ lo ≤ c.toNat ∧ c.toNat ≤ hi := by
  have hc := c.toNat_lt
  unfold charInt
  split <;> omega

theorem isdigit_iff {c : UInt8} : isdigit c = true ↔ 48 ≤ c.toNat ∧ c.toNat ≤ 57 := by
  rw [isdigit, Bool.and_eq_true, decide_eq_true_eq, decide_eq_true_eq, UInt8.le_iff_toNat_le,
    UInt8.le_iff_toNat_le]
  exact Iff.rfl

theorem charInt_of_le {c : UInt8} (h : c.toNat < 128) : charInt c = c.toNat :=
  if_pos h

end LibC
