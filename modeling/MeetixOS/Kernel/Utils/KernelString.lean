import Mathlib.Data.Nat.Digits.Lemmas
import MeetixOS.Lib.Numeral

/-! # Numbers as strings

`String::fromInt`, `String::toInt` and `String::reverse` of the kernel's string class. A string is the
list of its characters without the terminator, and `char` is signed. -/

namespace MeetixOS.Kernel.KernelString

/-! ## The code -/

def minus : Int8 := 45
def zero : Int8 := 48
def nine : Int8 := 57

/-- `String::toInt` from index `i` on. Each round looks at `source[0]` again. -/
def toIntLoop (first : Int8) (sign : Int32) : List Int8 → Int32 → Int32
  | [], res => sign * res
  | c :: rest, res =>
    if ¬(zero ≤ first ∧ c ≤ nine) then 0
    else toIntLoop first sign rest (res * 10 + c.toInt32 - zero.toInt32)

def toInt : List Int8 → Int32
  | [] => 0
  | first :: rest =>
    if first = minus then toIntLoop first (-1) rest 0 else toIntLoop first 1 (first :: rest) 0

/-- The swaps of `String::reverse`. -/
def reverseLoop : Nat → Array Int8 → Nat → Nat → Array Int8
  | 0, str, _, _ => str
  | fuel + 1, str, start, stop =>
    if start < stop then reverseLoop fuel (str.swapIfInBounds start stop) (start + 1) (stop - 1)
    else str

/-- `String::reverse`, which is never called with length 0. -/
def reverse (str : Array Int8) (length : Nat) : Array Int8 :=
  reverseLoop length str 0 (length - 1)

/-- The character of a digit. -/
def digitChar (rem : Nat) : Int8 :=
  if rem > 9 then Int8.ofNat (rem - 10 + 97) else Int8.ofNat (rem + 48)

/-- The digits that `fromInt` appends. `base` is unsigned, and so are the remainder and the quotient of
the two. -/
def digitsLoop (base : Nat) : Nat → Nat → List Int8
  | 0, _ => []
  | fuel + 1, source =>
    if source = 0 then [] else digitChar (source % base) :: digitsLoop base fuel (source / base)

/-- `String::fromInt`. A number of 32 bits has at most 32 digits. -/
def fromInt (source : Int32) (base : Nat) : List Int8 :=
  if source = 0 then [zero]
  else
    let isNegative := source < 0 ∧ base = 10
    let source := if isNegative then -source else source
    let str := digitsLoop base 32 source.toUInt32.toNat ++ if isNegative then [minus] else []
    (reverse str.toArray str.length).toList

/-! ## Reversal -/

theorem reverseLoop_eq (fuel : Nat) (str : Array Int8) (start : Nat) (stop : Fin str.size)
    (h : stop.val ≤ start + fuel) :
    reverseLoop fuel str start stop = Array.reverse.loop str start stop := by
  induction fuel generalizing str start with
  | zero => rw [reverseLoop, Array.reverse.loop, dif_neg (by omega)]
  | succ fuel ih =>
    rw [reverseLoop, Array.reverse.loop]
    split
    next hlt =>
      have hstart : start < str.size := by omega
      have hswap : str.swapIfInBounds start stop = str.swap start stop := by
        simp [Array.swapIfInBounds, hstart]
      rw [hswap]
      exact ih (str.swap start stop) (start + 1) ⟨stop - 1, by simp; omega⟩ (by simp; omega)
    next => rfl

theorem reverse_toArray (str : List Int8) :
    (reverse str.toArray str.length).toList = str.reverse := by
  suffices h : reverse str.toArray str.length = str.toArray.reverse by
    rw [h, Array.toList_reverse]
  rw [reverse, Array.reverse]
  split
  next hle =>
    rcases hn : str.length with - | n
    · rfl
    · rw [reverseLoop, if_neg (by simp at hle; omega)]
  next hlt =>
    exact reverseLoop_eq str.length str.toArray 0 ⟨str.length - 1, by simp at hlt ⊢; omega⟩ (by simp)

/-! ## Digits -/

/-- The digits of a number, the most significant first and without leading zeros. -/
def numeral (base n : Nat) : List Int8 :=
  if n = 0 then [zero] else (Nat.digits base n).reverse.map digitChar

theorem numeral_ne_nil {base n : Nat} : numeral base n ≠ [] := by
  unfold numeral
  split
  next => exact List.cons_ne_nil _ _
  next hne => simpa [Nat.digits_ne_nil_iff_ne_zero] using hne

theorem digitsLoop_eq {base : Nat} (hbase : 2 ≤ base) (fuel n : Nat) (h : n < base ^ fuel) :
    digitsLoop base fuel n = (Nat.digits base n).map digitChar := by
  induction fuel generalizing n with
  | zero =>
    obtain rfl : n = 0 := by simpa using h
    rw [Nat.digits_zero]
    rfl
  | succ fuel ih =>
    rw [digitsLoop]
    split
    next hzero => rw [hzero, Nat.digits_zero, List.map_nil]
    next hne =>
      have hquot : n / base < base ^ fuel := by
        rw [Nat.div_lt_iff_lt_mul (by omega), ← Nat.pow_succ]
        exact h
      rw [Nat.digits_def' hbase (by omega), List.map_cons, ih _ hquot]

/-- What `fromInt` is for: a sign in base 10 only, otherwise the number is taken modulo `2 ^ 32`. -/
def canonical (n : Int32) (base : Nat) : List Int8 :=
  if n < 0 ∧ base = 10 then minus :: numeral 10 n.toInt.natAbs
  else numeral base n.toUInt32.toNat

theorem toNat_neg_toUInt32 {n : Int32} (h : n < 0) : (-n).toUInt32.toNat = n.toInt.natAbs := by
  have hint : n.toInt = n.toBitVec.toInt := rfl
  rw [Int32.lt_iff_toInt_lt, Int32.toInt_zero] at h
  rw [hint, BitVec.toInt_eq_toNat_cond] at h ⊢
  change (2 ^ 32 - _) % 2 ^ 32 = _
  split_ifs at h ⊢ <;> omega

theorem toUInt32_ne_zero {n : Int32} (h : n ≠ 0) : n.toUInt32.toNat ≠ 0 := by
  intro hzero
  apply h
  rw [← Int32.toInt32_toUInt32 n, ← UInt32.ofNat_toNat (x := n.toUInt32), hzero]
  rfl

theorem fromInt_eq {base : Nat} (hbase : 2 ≤ base) (n : Int32) :
    fromInt n base = canonical n base := by
  have hbits (m : Int32) : digitsLoop base 32 m.toUInt32.toNat =
      (Nat.digits base m.toUInt32.toNat).map digitChar :=
    digitsLoop_eq hbase 32 _ (m.toUInt32.toNat_lt.trans_le (Nat.pow_le_pow_left hbase 32))
  rw [fromInt, canonical]
  split
  next hzero =>
    subst hzero
    rfl
  next hne =>
    have hnat := toUInt32_ne_zero hne
    simp only [hbits, reverse_toArray]
    split
    next hneg =>
      obtain ⟨hneg, rfl⟩ := hneg
      rw [toNat_neg_toUInt32 hneg, numeral, if_neg]
      · simp
      · intro hzero
        rw [Int.natAbs_eq_zero, ← Int32.toInt_zero, Int32.toInt_inj] at hzero
        exact hne hzero
    next => simp [numeral, hnat]

/-! ## Reading back -/

theorem digitChar_decimal {d : Nat} (h : d < 10) :
    zero ≤ digitChar d ∧ digitChar d ≤ nine ∧ digitChar d ≠ minus ∧
      (digitChar d).toInt32 = Int32.ofNat d + zero.toInt32 := by
  interval_cases d <;> decide

theorem toIntLoop_digits {first : Int8} (hfirst : zero ≤ first) (ds : List Nat)
    (hds : ∀ d ∈ ds, d < 10) (acc : Nat) :
    toIntLoop first 1 (ds.map digitChar) (Int32.ofNat acc) = Int32.ofNat (Numeral.after 10 acc ds) := by
  induction ds generalizing acc with
  | nil => simp [toIntLoop]
  | cons d ds ih =>
    obtain ⟨-, hnine, -, hvalue⟩ := digitChar_decimal (hds d List.mem_cons_self)
    have hstep : Int32.ofNat acc * 10 + (digitChar d).toInt32 - zero.toInt32 =
        Int32.ofNat (acc * 10 + d) := by
      rw [hvalue, Int32.ofNat_add, Int32.ofNat_mul, ← Int32.add_assoc, Int32.add_sub_cancel]
      rfl
    rw [List.map_cons, toIntLoop, if_neg (not_not.2 ⟨hfirst, hnine⟩), hstep,
      ih (fun e he => hds e (List.mem_cons_of_mem d he)), Numeral.after_cons]

theorem toInt_numeral (n : Nat) : toInt (numeral 10 n) = Int32.ofNat n := by
  unfold numeral
  split
  next hzero => rw [hzero]; rfl
  next hne =>
    have hds (d : Nat) (hd : d ∈ (Nat.digits 10 n).reverse) : d < 10 :=
      Nat.digits_lt_base (by decide) (List.mem_reverse.1 hd)
    have hvalue : Numeral.after 10 0 (Nat.digits 10 n).reverse = n := by
      simp [Numeral.after, Nat.ofDigits_digits]
    rcases hrev : (Nat.digits 10 n).reverse with - | ⟨d, ds⟩
    · rw [List.reverse_eq_nil_iff, Nat.digits_eq_nil_iff_eq_zero] at hrev
      exact absurd hrev hne
    · rw [hrev] at hds hvalue
      obtain ⟨hzero, -, hminus, -⟩ := digitChar_decimal (hds d List.mem_cons_self)
      have hloop := toIntLoop_digits hzero (d :: ds) hds 0
      rw [hvalue] at hloop
      rw [List.map_cons, toInt, if_neg hminus]
      exact hloop

theorem toInt_minus {c : Int8} {rest : List Int8} : toInt (minus :: c :: rest) = 0 := by
  rw [toInt, if_pos rfl, toIntLoop, if_pos (by intro h; exact absurd h.1 (by decide))]

/-- `fromInt` is right for every number and base, and `toInt` reads exactly the numbers back that are
not negative. -/
theorem toInt_fromInt_iff (n : Int32) :
    (toInt (fromInt n 10) = n ∧ ∀ base, 2 ≤ base → base ≤ 16 → fromInt n base = canonical n base) ↔
      0 ≤ n := by
  rw [and_iff_left fun base hbase _ => fromInt_eq hbase n, fromInt_eq (by decide), canonical]
  split
  next hneg =>
    refine iff_of_false ?_ (Int32.not_le.2 hneg.1)
    rcases hdigits : numeral 10 n.toInt.natAbs with - | ⟨c, rest⟩
    · exact absurd hdigits numeral_ne_nil
    · rw [toInt_minus]
      rintro rfl
      exact absurd hneg.1 (by decide)
  next hpos =>
    refine iff_of_true ?_ (Int32.not_lt.1 fun h => hpos ⟨h, rfl⟩)
    rw [toInt_numeral, ← UInt32.toInt32_ofNat', UInt32.ofNat_toNat, Int32.toInt32_toUInt32]

/-- Minus five comes back as zero. -/
theorem toInt_fromInt_minus_five : toInt (fromInt (-5) 10) ≠ -5 := by
  decide

end MeetixOS.Kernel.KernelString
