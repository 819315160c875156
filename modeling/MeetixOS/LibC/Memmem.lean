import MeetixOS.LibC.KnuthMorrisPratt

/-! # `memmem`

The search of the C library takes a shift-or search for needles of less than 32 bytes and the
Knuth-Morris-Pratt search for longer ones. An address that it answers is modelled as its distance from
the start of the haystack, and null as `none`; the outer `Option` is that of the table's indices.

The shift-or search builds its masks from an `int`, which is extended by its sign. -/

open Occurrence

namespace LibC

/-- `0x00000001 << i`. -/
def bit (i : Nat) : BitVec 32 :=
  1#32 <<< i

/-- An `int` as the operand of a `u64`. -/
def asU64 (value : BitVec 32) : BitVec 64 :=
  value.signExtend 64

/-- The loop that clears, in the mask of each byte of the needle, the bit of its place. -/
def clearBits : List UInt8 → Nat → (UInt8 → BitVec 64) → UInt8 → BitVec 64
  | [], _, needleMask => needleMask
  | byte :: needle, i, needleMask =>
    clearBits needle (i + 1)
      (Function.update needleMask byte (needleMask byte &&& asU64 (~~~ bit i)))

/-- The loop over the haystack. -/
def lookUp (needleLen : Nat) (needleMask : UInt8 → BitVec 64) :
    List UInt8 → Nat → BitVec 64 → Option Int
  | [], _, _ => none
  | byte :: haystack, i, lookup =>
    let lookup := (lookup ||| needleMask byte) <<< 1
    if lookup &&& asU64 (bit needleLen) = 0 then
      some (i - needleLen + 1)
    else
      lookUp needleLen needleMask haystack (i + 1) lookup

def bitwiseMemmem (haystack needle : List UInt8) : Option Int :=
  lookUp needle.length (clearBits needle 0 fun _ => 0xffffffff#64) haystack 0 0xfffffffe#64

/-- `memcmp`, for two ranges of one length. -/
def memcmp : List UInt8 → List UInt8 → Int
  | a :: memA, b :: memB => if a > b then 1 else if a < b then -1 else memcmp memA memB
  | _, _ => 0

def memmem (haystack needle : List UInt8) : Option (Option Int) :=
  if needle.length = 0 then
    some (some 0)
  else if haystack.length < needle.length then
    some none
  else if haystack.length = needle.length then
    if memcmp haystack needle = 0 then some (some 0) else some none
  else if needle.length < 32 then
    some (bitwiseMemmem haystack needle)
  else
    kmpMemmem haystack needle

/-! ## Needles that are not shorter than the haystack -/

section

variable {haystack needle : List UInt8}

theorem memcmp_eq_zero_iff (h : haystack.length = needle.length) :
    memcmp haystack needle = 0 ↔ haystack = needle := by
  induction haystack generalizing needle with
  | nil =>
    obtain rfl := List.length_eq_zero_iff.1 h.symm
    exact iff_of_true rfl rfl
  | cons a haystack ih =>
    obtain ⟨b, needle, rfl⟩ := List.exists_cons_of_length_eq_add_one h.symm
    rw [List.cons.injEq, memcmp]
    by_cases hgt : a > b
    · rw [if_pos hgt]
      exact iff_of_false (by decide) fun h => UInt8.ne_of_lt hgt h.1.symm
    · by_cases hlt : a < b
      · rw [if_neg hgt, if_pos hlt]
        exact iff_of_false (by decide) fun h => UInt8.ne_of_lt hlt h.1
      · rw [if_neg hgt, if_neg hlt, ih (Nat.succ.inj h)]
        exact (and_iff_right (UInt8.le_antisymm (UInt8.not_lt.1 hgt) (UInt8.not_lt.1 hlt))).symm

end

/-! ## The bits of the shift-or search -/

section

variable {haystack needle : List UInt8} {needleMask : UInt8 → BitVec 64} {lookup : BitVec 64}

theorem bit_getLsbD {i b : Nat} (hi : i < 32) : (bit i).getLsbD b = decide (b = i) := by
  rw [bit, BitVec.getLsbD_shiftLeft, BitVec.getLsbD_one, Bool.eq_iff_iff]
  simp
  omega

theorem asU64_not_bit_getLsbD {i b : Nat} (hi : i < 31) (hb : b < 64) :
    (asU64 (~~~ bit i)).getLsbD b = decide (b ≠ i) := by
  have hmsb : (~~~ bit i).msb = true := by
    rw [BitVec.msb_not, BitVec.msb_eq_getLsbD_last, bit_getLsbD (by omega)]
    simp
    omega
  rw [asU64, BitVec.getLsbD_signExtend, hmsb, decide_eq_true hb, Bool.true_and]
  split
  · next hlow =>
      rw [BitVec.getLsbD_not, bit_getLsbD (by omega), decide_eq_true hlow, Bool.true_and, decide_not]
  · exact (decide_eq_true (by omega)).symm

theorem and_asU64_bit_eq_zero_iff {i : Nat} (hi : i < 31) :
    lookup &&& asU64 (bit i) = 0 ↔ lookup.getLsbD i = false := by
  have hbit : ∀ b < 64, (asU64 (bit i)).getLsbD b = decide (b = i) := by
    intro b hb
    have hmsb : (bit i).msb = false := by
      rw [BitVec.msb_eq_getLsbD_last, bit_getLsbD (by omega)]
      simp
      omega
    rw [asU64, BitVec.getLsbD_signExtend, hmsb]
    split
    · rw [bit_getLsbD (by omega)]
      simp [hb]
    · simp
      omega
  constructor
  · intro hzero
    have hat := congrArg (fun value => value.getLsbD i) hzero
    simpa [hbit i (by omega)] using hat
  · intro hfalse
    refine BitVec.eq_of_getLsbD_eq ?_
    intro b hb
    rw [BitVec.getLsbD_and, hbit b hb]
    by_cases heq : b = i
    · rw [heq, hfalse]
      simp
    · simp [heq]

theorem clearBits_getLsbD {i b : Nat} (c : UInt8) (hlen : i + needle.length ≤ 31) (hb : b < 64) :
    (clearBits needle i needleMask c).getLsbD b = true ↔
      (needleMask c).getLsbD b = true ∧ ∀ k, i + k = b → needle[k]? ≠ some c := by
  induction needle generalizing i needleMask with
  | nil => simp [clearBits]
  | cons byte needle ih =>
    rw [List.length_cons] at hlen
    rw [clearBits, ih (by omega), Function.update_apply]
    by_cases hc : c = byte
    · rw [if_pos hc, BitVec.getLsbD_and, asU64_not_bit_getLsbD (by omega) hb, Bool.and_eq_true,
        decide_eq_true_iff, hc, and_assoc, and_congr_right_iff]
      intro _
      constructor
      · rintro ⟨hne, hrest⟩ k hk
        cases k with
        | zero => exact absurd hk.symm hne
        | succ k => exact hrest k (by omega)
      · intro hall
        refine ⟨?_, fun k hk => hall (k + 1) (by omega)⟩
        rintro rfl
        exact hall 0 rfl rfl
    · rw [if_neg hc, and_congr_right_iff]
      intro _
      constructor
      · intro hrest k hk
        cases k with
        | zero => exact fun h => hc (Option.some.inj h).symm
        | succ k => exact hrest k (by omega)
      · exact fun hall k hk => hall (k + 1) (by omega)

theorem needleMask_getLsbD {b : Nat} (c : UInt8) (hlen : needle.length ≤ 31) (hb : b < 32) :
    (clearBits needle 0 (fun _ => 0xffffffff#64) c).getLsbD b = false ↔ needle[b]? = some c := by
  have hinit : (0xffffffff#64).getLsbD b = true := by
    have h : ∀ b : Fin 32, (0xffffffff#64).getLsbD b = true := by decide
    exact h ⟨b, hb⟩
  rw [← Bool.not_eq_true, clearBits_getLsbD c (by omega) (by omega), hinit]
  simp

theorem lookup_step_getLsbD (mask : BitVec 64) {b : Nat} (hb : b + 1 < 64) :
    ((lookup ||| mask) <<< 1).getLsbD (b + 1) = (lookup.getLsbD b || mask.getLsbD b) := by
  rw [BitVec.getLsbD_shiftLeft, decide_eq_true hb, Nat.add_sub_cancel, BitVec.getLsbD_or]
  simp

end

/-! ## The shift-or search -/

section

variable {haystack needle : List UInt8} {lookup : BitVec 64} {n : Nat}

/-- After `n` bytes of the haystack, the bit `b` of `lookup` is clear where the first `b` bytes of the
needle end. -/
def Tracks (needle haystack : List UInt8) (n : Nat) (lookup : BitVec 64) : Prop :=
  ∀ b ≤ needle.length, lookup.getLsbD b = false ↔ b ≤ n ∧ MatchesAt needle haystack (n - b) b

theorem tracks_start (hlen : needle.length < 31) : Tracks needle haystack 0 0xfffffffe#64 := by
  intro b hb
  cases b with
  | zero => exact iff_of_true (by decide) ⟨Nat.le_refl 0, matchesAt_zero _ _ _⟩
  | succ b =>
    have hbits : ∀ b : Fin 31, (0xfffffffe#64).getLsbD (b + 1) = true := by decide
    rw [show (0xfffffffe#64).getLsbD (b + 1) = true from hbits ⟨b, by omega⟩]
    exact iff_of_false (by decide) fun h => absurd h.1 (by omega)

theorem Tracks.step (h : Tracks needle haystack n lookup) (hlen : needle.length < 31)
    (hn : n < haystack.length) :
    Tracks needle haystack (n + 1) ((lookup |||
      clearBits needle 0 (fun _ => 0xffffffff#64) haystack[n]) <<< 1) := by
  intro b hb
  cases b with
  | zero => exact iff_of_true (by simp) ⟨Nat.zero_le _, matchesAt_zero _ _ _⟩
  | succ b =>
    rw [lookup_step_getLsbD _ (by omega), Bool.or_eq_false_iff, h b (by omega),
      needleMask_getLsbD _ (by omega) (by omega), Nat.add_sub_add_right, matchesAt_succ, and_assoc]
    constructor
    · rintro ⟨hle, hmatch, hbyte⟩
      refine ⟨by omega, hmatch, ?_⟩
      rw [Nat.sub_add_cancel hle, hbyte, List.getElem?_eq_getElem hn]
    · rintro ⟨hle, hmatch, hbyte⟩
      rw [Nat.sub_add_cancel (by omega), List.getElem?_eq_getElem hn] at hbyte
      exact ⟨by omega, hmatch, hbyte.symm⟩

theorem lookUp_finds (hpos : 0 < needle.length) (hlen : needle.length < 31)
    (h : Tracks needle haystack n lookup)
    (hmissed : ∀ i, i + needle.length ≤ n → ¬ OccursAt needle haystack i) :
    Finds needle haystack (lookUp needle.length (clearBits needle 0 fun _ => 0xffffffff#64)
      (haystack.drop n) n lookup) := by
  induction hrest : haystack.length - n generalizing n lookup with
  | zero =>
    rw [List.drop_eq_nil_of_le (by omega), lookUp]
    intro i hocc
    exact hmissed i (by have := hocc.le_length hpos; omega) hocc
  | succ rest ih =>
    have hn : n < haystack.length := by omega
    have hstep := h.step hlen hn
    rw [List.drop_eq_getElem_cons hn, lookUp]
    simp only [and_asU64_bit_eq_zero_iff hlen]
    by_cases hfound : ((lookup ||| clearBits needle 0 (fun _ => 0xffffffff#64) haystack[n])
        <<< 1).getLsbD needle.length = false
    · rw [if_pos hfound]
      obtain ⟨hle, hocc⟩ := (hstep _ (Nat.le_refl _)).1 hfound
      refine ⟨n + 1 - needle.length, by omega, hocc, ?_⟩
      exact fun i hi => hmissed i (by omega)
    · rw [if_neg hfound]
      refine ih hstep ?_ (by omega)
      intro i hi hocc
      by_cases hend : i + needle.length = n + 1
      · refine hfound ((hstep _ (Nat.le_refl _)).2 ⟨by omega, ?_⟩)
        rw [show n + 1 - needle.length = i by omega]
        exact hocc
      · exact hmissed i (by omega) hocc

theorem bitwiseMemmem_finds (hpos : 0 < needle.length) (hlen : needle.length < 31) :
    Finds needle haystack (bitwiseMemmem haystack needle) :=
  lookUp_finds hpos hlen (tracks_start hlen) fun i hi => absurd hi (by omega)

/-- With 31 bytes the tested `int` is negative, and tests the bits from 31 on as a `u64`; bit 32 of
`lookup` is set behind each byte. -/
theorem lookUp_eq_none (hlen : needle.length = 31) (haystack : List UInt8) (i : Nat)
    (lookup : BitVec 64) :
    lookUp needle.length (clearBits needle 0 fun _ => 0xffffffff#64) haystack i lookup = none := by
  induction haystack generalizing i lookup with
  | nil => rfl
  | cons byte haystack ih =>
    have hmask : (clearBits needle 0 (fun _ => 0xffffffff#64) byte).getLsbD 31 = true := by
      rw [← Bool.not_eq_false, needleMask_getLsbD _ (by omega) (by omega),
        List.getElem?_eq_none (by omega)]
      exact Option.some_ne_none byte ∘ Eq.symm
    rw [lookUp, if_neg, ih]
    intro hzero
    have hat := congrArg (fun value => value.getLsbD 32) hzero
    have hsign : (asU64 (bit 31)).getLsbD 32 = true := by decide
    rw [hlen, BitVec.getLsbD_and, lookup_step_getLsbD _ (by decide), hmask, hsign, Bool.or_true] at hat
    exact absurd hat (by decide)

end

/-! ## Both searches -/

/-- Where needles of up to 31 bytes take the shift-or search, it finds all but those of 31 bytes. -/
theorem memmem_bitwise_iff (haystack needle : List UInt8) (hpos : 1 ≤ needle.length)
    (hlen : needle.length ≤ 31) (hlt : needle.length < haystack.length) :
    (∃ answer, memmem haystack needle = some answer ∧ Finds needle haystack answer) ↔
      (needle.length = 31 → ¬ needle <:+: haystack) := by
  have hmemmem : memmem haystack needle = some (bitwiseMemmem haystack needle) := by
    rw [memmem, if_neg (by omega), if_neg (by omega), if_neg (by omega), if_pos (by omega)]
  simp only [hmemmem, Option.some.injEq, exists_eq_left']
  by_cases hshort : needle.length < 31
  · exact iff_of_true (bitwiseMemmem_finds hpos hshort) fun h => absurd h hshort.ne
  · have hfull : needle.length = 31 := by omega
    rw [bitwiseMemmem, lookUp_eq_none hfull, finds_none_iff]
    exact ⟨fun h _ => h, fun h => h hfull⟩

theorem memmem_bitwise_sample :
    ∃ answer, memmem [97, 98, 97] [98] = some answer ∧ Finds ([98] : List UInt8) [97, 98, 97] answer :=
  (memmem_bitwise_iff [97, 98, 97] [98] (by decide) (by decide) (by decide)).2 (by decide)

/-- 31 equal bytes are not found in 32 of them. -/
theorem longest_needle_missed :
    ¬ ∀ haystack needle : List UInt8, 1 ≤ needle.length → needle.length ≤ 31 →
      needle.length < haystack.length →
      ∃ answer, memmem haystack needle = some answer ∧ Finds needle haystack answer := by
  intro h
  obtain ⟨answer, hanswer, hfinds⟩ := h (List.replicate 32 97) (List.replicate 31 97) (by decide)
    (by decide) (by decide)
  obtain rfl : none = answer := by
    rw [← Option.some.injEq, ← hanswer]
    decide
  exact hfinds 0 (by decide)

/-- The Knuth-Morris-Pratt search keeps every index in range and finds what occurs; but it answers the
place behind as many bytes as the needle has, where the needle stands only if it stands first there. -/
theorem memmem_kmp_iff (haystack needle : List UInt8) (hlen : 32 ≤ needle.length)
    (hlt : needle.length < haystack.length) :
    ∃ answer, memmem haystack needle = some answer ∧ (answer = none ↔ ¬ needle <:+: haystack) ∧
      (Finds needle haystack answer ↔
        ∀ first, FirstAt needle haystack first → first = needle.length) := by
  have hmemmem : memmem haystack needle = kmpMemmem haystack needle := by
    rw [memmem, if_neg (by omega), if_neg (by omega), if_neg (by omega), if_neg (by omega)]
  rw [hmemmem]
  rcases kmpMemmem_spec haystack needle (by omega) with
    ⟨hfound, first, hfirst⟩ | ⟨hmissed, hnone⟩
  · refine ⟨_, hfound, ?_, ?_⟩
    · exact iff_of_false (by simp) (not_not.2 (exists_occursAt_iff.1 ⟨first, hfirst.1⟩))
    · constructor
      · rintro ⟨i, hi, hat⟩ first' hfirst'
        rw [hfirst'.eq hat]
        omega
      · intro h
        exact ⟨needle.length, rfl, h first hfirst ▸ hfirst⟩
  · refine ⟨none, hmissed, iff_of_true rfl (finds_none_iff.1 hnone), ?_⟩
    exact iff_of_true hnone fun first hfirst => absurd hfirst.1 (hnone first)

theorem memmem_kmp_sample : ∃ answer,
    memmem (List.replicate 32 97 ++ List.replicate 32 98) (List.replicate 32 98) = some answer ∧
      Finds (List.replicate 32 (98 : UInt8)) (List.replicate 32 97 ++ List.replicate 32 98) answer := by
  obtain ⟨answer, hanswer, -, hfinds⟩ := memmem_kmp_iff
    (List.replicate 32 97 ++ List.replicate 32 98) (List.replicate 32 98) (by decide) (by decide)
  refine ⟨answer, hanswer, hfinds.2 fun first hfirst => ?_⟩
  -- it stands behind the 32 other bytes, and nowhere before
  exact hfirst.eq (j := 32) ⟨by decide, by decide⟩

/-- 32 equal bytes stand at the start of 33 of them, and the answer is the place of the last one. -/
theorem long_needle_misplaced :
    ¬ ∀ haystack needle : List UInt8, 32 ≤ needle.length → needle.length < haystack.length →
      ∃ answer, memmem haystack needle = some answer ∧ Finds needle haystack answer := by
  intro h
  obtain ⟨answer, hanswer, hfinds⟩ := h (List.replicate 33 97) (List.replicate 32 97) (by decide)
    (by decide)
  obtain rfl : some 32 = answer := by
    rw [← Option.some.injEq, ← hanswer]
    decide
  obtain ⟨i, hi, -, hfirst⟩ := hfinds
  exact hfirst 0 (by omega) (by decide)

end LibC
