import Mathlib.Data.Nat.Count
import MeetixOS.Lib.Runs
import MeetixOS.Kernel.Memory.Paging

/-! # The bitmap of the physical pages

`memory/bitmap/bitmap.hpp`, `BitMapPageAllocator` and the counter that `PPallocator` keeps beside it. The
bitmap has an entry of 8 bits for each of the 2^20 pages, so only the first eighth of its bits belong to
pages; the address of a bit behind them is cut off to 32 bits.

`allocate` returns 0 if no bit is set, so it should not come to page 0, nor to a bit of no page; and `free`
counts a page that was free before. -/

open Function (update update_apply)

namespace MeetixOS.Kernel

open MeetixOS.Lib

/-! ## The macros -/

abbrev BitMapEntry := BitVec 8

def bitmapSize : Nat := 1024 * 1024

def bitmapBitsPerEntry : Nat := 8

/-- `BITMAP_LENGTH`; an entry is one byte. -/
def bitmapLength : Nat := bitmapSize / 1

/-- The entries of a bitmap; those below `BITMAP_LENGTH` are there. -/
abbrev BitMap := Nat → BitMapEntry

def addressToBitmapIndex (address : Nat) : Nat := address / pageSize / bitmapBitsPerEntry

def addressToBitmapBit (address : Nat) : Nat := address / pageSize % bitmapBitsPerEntry

/-- `BITMAP_TO_ADDRESS`, in 32 bits. -/
def bitmapToAddress (index bit : Nat) : Nat :=
  u32 (index * bitmapBitsPerEntry * pageSize + bit * pageSize)

namespace BitMap

/-- `BITMAP_IS_SET`. -/
def isSet (bitmap : BitMap) (index bit : Nat) : Bool := bitmap index &&& (1#8 <<< bit) ≠ 0#8

/-- `BITMAP_SET`. -/
def set (bitmap : BitMap) (index bit : Nat) : BitMap :=
  update bitmap index (bitmap index ||| (1#8 <<< bit))

/-- `BITMAP_UNSET`. -/
def unset (bitmap : BitMap) (index bit : Nat) : BitMap :=
  update bitmap index (bitmap index &&& ~~~(1#8 <<< bit))

/-! ## `BitMapPageAllocator` -/

/-- The inner loop of `allocate`: the first set bit among the next `n` of an entry. -/
def findBit (bitmap : BitMap) (index bit : Nat) : Nat → Option Nat
  | 0 => none
  | n + 1 => if bitmap.isSet index bit then some bit else findBit bitmap index (bit + 1) n

/-- The outer loop, over the next `n` entries; an entry that is 0 has no set bit. -/
def findEntry (bitmap : BitMap) (index : Nat) : Nat → Option (Nat × Nat)
  | 0 => none
  | n + 1 =>
    if bitmap index ≠ 0#8 then
      match findBit bitmap index 0 bitmapBitsPerEntry with
      | some bit => some (index, bit)
      | none => findEntry bitmap (index + 1) n
    else findEntry bitmap (index + 1) n

/-- `BitMapPageAllocator::allocate`, with the address that it returns. -/
def allocate (bitmap : BitMap) : BitMap × Nat :=
  match findEntry bitmap 0 bitmapLength with
  | some (index, bit) => (bitmap.unset index bit, bitmapToAddress index bit)
  | none => (bitmap, 0)

/-- `BitMapPageAllocator::markFree`. -/
def markFree (bitmap : BitMap) (address : Nat) : BitMap :=
  bitmap.set (addressToBitmapIndex address) (addressToBitmapBit address)

/-! ## Bits by their number -/

/-- The number of bits of a bitmap. -/
def bits : Nat := bitmapLength * bitmapBitsPerEntry

/-- The bit with a number; for the first 2^20 it is that of the page with the same number. -/
def bit (bitmap : BitMap) (n : Nat) : Bool :=
  bitmap.isSet (n / bitmapBitsPerEntry) (n % bitmapBitsPerEntry)

/-- The number of set bits. -/
def setBits (bitmap : BitMap) : Nat := Nat.count (fun n => bitmap.bit n = true) bits

end BitMap

/-! ## `PPallocator` -/

/-- The static variables of `PPallocator`. -/
structure CountedBitMap where
  bitmap : BitMap
  freePageCount : Nat
  initialAmount : Nat

namespace CountedBitMap

/-- The inner loop that counts the free pages. -/
def countBits (bitmap : BitMap) (index bit : Nat) : Nat → Nat → Nat
  | 0, count => count
  | n + 1, count =>
    countBits bitmap index (bit + 1) n (if bitmap.isSet index bit then u32 (count + 1) else count)

/-- The outer loop that counts them. -/
def countEntries (bitmap : BitMap) (index : Nat) : Nat → Nat → Nat
  | 0, count => count
  | n + 1, count =>
    countEntries bitmap (index + 1) n (countBits bitmap index 0 bitmapBitsPerEntry count)

/-- `PPallocator::initializeFromBitmap`, from the bytes of the memory; the kernel panics if the bitmap
has the wrong length. -/
def initializeFromBitmap (memory : Nat → BitMapEntry) (bitmapStart bitmapEnd : Nat) :
    Option CountedBitMap :=
  if u32 (bitmapEnd + 2 ^ 32 - bitmapStart) = bitmapLength then
    let bitmap : BitMap := fun index => memory (bitmapStart + index)
    let freePageCount := countEntries bitmap 0 bitmapLength 0
    some { bitmap, freePageCount, initialAmount := freePageCount }
  else none

/-- `PPallocator::allocate`; the kernel panics if the address is 0. -/
def allocate (d : CountedBitMap) : Option (CountedBitMap × Nat) :=
  let (bitmap, page) := d.bitmap.allocate
  if page = 0 then none
  else some ({ d with bitmap, freePageCount := u32 (d.freePageCount + 2 ^ 32 - 1) }, page)

/-- `PPallocator::free`. -/
def free (d : CountedBitMap) (page : Nat) : CountedBitMap :=
  { d with bitmap := d.bitmap.markFree page, freePageCount := u32 (d.freePageCount + 1) }

end CountedBitMap

/-- The calls of `PPallocator`. -/
inductive PageEvent
  | allocate
  | free (page : Nat)

/-- The calls, from a bitmap with any content on. -/
def pageCalls : System CountedBitMap PageEvent where
  init d := ∃ memory bitmapStart bitmapEnd,
    CountedBitMap.initializeFromBitmap memory bitmapStart bitmapEnd = some d
  step d
    | .allocate => d.allocate.map Prod.fst
    | .free page => some (d.free page)

/-- The address of a page. -/
def PageAddress (address : Nat) : Prop := address < 2 ^ 32 ∧ address % pageSize = 0

/-- The first set bit, if there is one, belongs to a page that is not page 0. -/
def BitMap.LowestIsPage (bitmap : BitMap) : Prop :=
  ∀ n < BitMap.bits, bitmap.bit n = true → (∀ m < n, bitmap.bit m = false) → n ≠ 0 ∧ n < physicalPages

/-- The condition on the calls: `allocate` comes to a page that is not page 0, and a page is freed that
is not free. -/
def CountedBitMap.Counts (d : CountedBitMap) : PageEvent → Prop
  | .allocate => d.bitmap.LowestIsPage
  | .free page => PageAddress page ∧ d.bitmap.bit (pageOf page) = false

/-- It returns 0 only if no bit is set, otherwise the address of the lowest free page, and clears only
that bit. -/
structure BitMap.AllocatesLowest (bitmap : BitMap) : Prop where
  fails : bitmap.allocate.2 = 0 → ∀ n < BitMap.bits, bitmap.bit n = false
  lowest : bitmap.allocate.2 ≠ 0 → ∃ page < physicalPages, bitmap.allocate.2 = page * pageSize ∧
    bitmap.bit page = true ∧ (∀ q < page, bitmap.bit q = false) ∧
    ∀ n, bitmap.allocate.1.bit n = (bitmap.bit n && decide (n ≠ page))

namespace BitMap

variable {bitmap : BitMap}

/-! ## Bits -/

variable {b index page n : Nat}

theorem isSet_eq (hb : b < 8) : bitmap.isSet index b = (bitmap index).getLsbD b := by
  have hentry : ∀ x : BitMapEntry, ∀ b : Fin 8,
      decide (x &&& (1#8 <<< b.val) ≠ 0#8) = x.getLsbD b.val := by
    decide
  exact hentry (bitmap index) ⟨b, hb⟩

theorem bit_eq (n : Nat) : bitmap.bit n = (bitmap (n / 8)).getLsbD (n % 8) :=
  isSet_eq (Nat.mod_lt n (by decide))

theorem bit_mul_add (hb : b < 8) : bitmap.bit (index * 8 + b) = bitmap.isSet index b := by
  have hdiv : (index * 8 + b) / 8 = index := by omega
  have hmod : (index * 8 + b) % 8 = b := by omega
  rw [bit_eq, isSet_eq hb, hdiv, hmod]

theorem getLsbD_one_shiftLeft {b m : Nat} (hm : m < 8) :
    (1#8 <<< b).getLsbD m = decide (m = b) := by
  rw [BitVec.getLsbD_shiftLeft, BitVec.getLsbD_one]
  by_cases hlt : m < b
  · simp [hlt, hlt.ne]
  · simp only [hm, hlt, decide_true, decide_false, Bool.not_false, Bool.true_and]
    rw [Bool.eq_iff_iff]
    simp only [Bool.and_eq_true, decide_eq_true_eq]
    omega

theorem eq_iff_div_mod (n page : Nat) : n / 8 = page / 8 ∧ n % 8 = page % 8 ↔ n = page := by omega

theorem bit_set (page n : Nat) :
    (bitmap.set (page / 8) (page % 8)).bit n = (bitmap.bit n || decide (n = page)) := by
  rw [bit_eq, bit_eq, BitMap.set, update_apply]
  have hiff := eq_iff_div_mod n page
  by_cases hentry : n / 8 = page / 8
  · rw [if_pos hentry, BitVec.getLsbD_or, getLsbD_one_shiftLeft (Nat.mod_lt n (by decide)), hentry]
    simp only [hentry, true_and] at hiff
    simp [hiff]
  · have hne : n ≠ page := fun h => hentry (h ▸ rfl)
    rw [if_neg hentry, decide_eq_false hne, Bool.or_false]

theorem bit_unset (page n : Nat) :
    (bitmap.unset (page / 8) (page % 8)).bit n = (bitmap.bit n && decide (n ≠ page)) := by
  rw [bit_eq, bit_eq, BitMap.unset, update_apply]
  have hiff := eq_iff_div_mod n page
  have hmod : n % 8 < 8 := Nat.mod_lt n (by decide)
  by_cases hentry : n / 8 = page / 8
  · rw [if_pos hentry, BitVec.getLsbD_and, BitVec.getLsbD_not, getLsbD_one_shiftLeft hmod, hentry]
    simp only [hentry, true_and] at hiff
    simp [hiff, hmod]
  · have hne : n ≠ page := fun h => hentry (h ▸ rfl)
    rw [if_neg hentry, decide_eq_true hne, Bool.and_true]

theorem bitmapToAddress_page (hpage : page < physicalPages) :
    bitmapToAddress (page / 8) (page % 8) = page * pageSize := by
  simp only [bitmapToAddress, bitmapBitsPerEntry, pageSize, physicalPages, u32] at *
  omega

/-! ## The first set bit -/

theorem findBit_some {index b n found : Nat} (h : findBit bitmap index b n = some found) :
    b ≤ found ∧ found < b + n ∧ bitmap.isSet index found = true ∧
      ∀ m, b ≤ m → m < found → bitmap.isSet index m = false := by
  induction n generalizing b with
  | zero => cases h
  | succ n ih =>
    unfold findBit at h
    split at h
    next hset =>
      cases h
      exact ⟨le_rfl, by omega, hset, fun m hm hlt => absurd hlt (Nat.not_lt.2 hm)⟩
    next hnot =>
      obtain ⟨hle, hlt, hset, hleast⟩ := ih h
      refine ⟨by omega, by omega, hset, fun m hm hmf => ?_⟩
      rcases Nat.lt_or_eq_of_le hm with hm | rfl
      · exact hleast m hm hmf
      · exact Bool.eq_false_iff.2 hnot

theorem findBit_none (h : findBit bitmap index b n = none) :
    ∀ m, b ≤ m → m < b + n → bitmap.isSet index m = false := by
  induction n generalizing b with
  | zero => exact fun m hm hlt => absurd hlt (Nat.not_lt.2 hm)
  | succ n ih =>
    unfold findBit at h
    split at h
    next => cases h
    next hnot =>
      intro m hm hlt
      rcases Nat.lt_or_eq_of_le hm with hm | rfl
      · exact ih h m hm (by omega)
      · exact Bool.eq_false_iff.2 hnot

theorem entry_clear (h : bitmap index = 0#8 ∨ findBit bitmap index 0 bitmapBitsPerEntry = none)
    {m : Nat} (hm : index * 8 ≤ m) (hlt : m < index * 8 + 8) : bitmap.bit m = false := by
  obtain ⟨b, rfl⟩ := Nat.exists_eq_add_of_le hm
  have hb : b < 8 := by omega
  rw [bit_mul_add hb]
  rcases h with hzero | hnone
  · rw [isSet_eq hb, hzero, BitVec.getLsbD_zero]
  · exact findBit_none hnone b (Nat.zero_le b) (by rw [bitmapBitsPerEntry]; omega)

theorem findEntry_some {index n found b : Nat} (h : findEntry bitmap index n = some (found, b)) :
    b < 8 ∧ found < index + n ∧ bitmap.bit (found * 8 + b) = true ∧
      ∀ m, index * 8 ≤ m → m < found * 8 + b → bitmap.bit m = false := by
  induction n generalizing index with
  | zero => cases h
  | succ n ih =>
    -- the rest of the loop, where this entry has no set bit
    have hrest : (bitmap index = 0#8 ∨ findBit bitmap index 0 bitmapBitsPerEntry = none) →
        findEntry bitmap (index + 1) n = some (found, b) →
        b < 8 ∧ found < index + (n + 1) ∧ bitmap.bit (found * 8 + b) = true ∧
          ∀ m, index * 8 ≤ m → m < found * 8 + b → bitmap.bit m = false := by
      intro hclear h
      obtain ⟨hb, hlt, hset, hleast⟩ := ih h
      refine ⟨hb, by omega, hset, fun m hm hmf => ?_⟩
      by_cases hnext : (index + 1) * 8 ≤ m
      · exact hleast m hnext hmf
      · exact entry_clear hclear hm (by omega)
    unfold findEntry at h
    split at h
    next =>
      split at h
      next b' hfound =>
        cases h
        obtain ⟨-, hb, hset, hleast⟩ := findBit_some hfound
        have hb : b < 8 := by rw [bitmapBitsPerEntry] at hb; omega
        refine ⟨hb, by omega, by rw [bit_mul_add hb]; exact hset, fun m hm hmf => ?_⟩
        obtain ⟨i, rfl⟩ := Nat.exists_eq_add_of_le hm
        rw [bit_mul_add (by omega)]
        exact hleast i (Nat.zero_le i) (by omega)
      next hnone => exact hrest (.inr hnone) h
    next hzero => exact hrest (.inl (not_not.1 hzero)) h

theorem findEntry_none (h : findEntry bitmap index n = none) :
    ∀ m, index * 8 ≤ m → m < (index + n) * 8 → bitmap.bit m = false := by
  induction n generalizing index with
  | zero => exact fun m hm hlt => absurd hlt (Nat.not_lt.2 hm)
  | succ n ih =>
    have hrest : (bitmap index = 0#8 ∨ findBit bitmap index 0 bitmapBitsPerEntry = none) →
        findEntry bitmap (index + 1) n = none →
        ∀ m, index * 8 ≤ m → m < (index + (n + 1)) * 8 → bitmap.bit m = false := by
      intro hclear h m hm hlt
      by_cases hnext : (index + 1) * 8 ≤ m
      · exact ih h m hnext (by omega)
      · exact entry_clear hclear hm (by omega)
    unfold findEntry at h
    split at h
    next =>
      split at h
      next => cases h
      next hnone => exact hrest (.inr hnone) h
    next hzero => exact hrest (.inl (not_not.1 hzero)) h

theorem allocate_cases (bitmap : BitMap) :
    (∃ n < bits, bitmap.bit n = true ∧ (∀ m < n, bitmap.bit m = false) ∧
      bitmap.allocate = (bitmap.unset (n / 8) (n % 8), u32 (n * pageSize))) ∨
    (∀ n < bits, bitmap.bit n = false) ∧ bitmap.allocate = (bitmap, 0) := by
  unfold BitMap.allocate
  split
  next index b hfound =>
    obtain ⟨hb, hlt, hset, hleast⟩ := findEntry_some hfound
    refine .inl ⟨index * 8 + b, ?_, hset, fun m hm => hleast m (by omega) hm, ?_⟩
    · simp only [bits, bitmapBitsPerEntry]
      omega
    · have hdiv : (index * 8 + b) / 8 = index := by omega
      have hmod : (index * 8 + b) % 8 = b := by omega
      rw [hdiv, hmod, bitmapToAddress, bitmapBitsPerEntry, Nat.add_mul]
  next hnone =>
    refine .inr ⟨fun n hn => findEntry_none hnone n (Nat.zero_le _) ?_, rfl⟩
    exact hn

/-- Page 0 looks like a failure, and a bit that belongs to no page has the address of another page. -/
theorem allocatesLowest_iff : bitmap.AllocatesLowest ↔ bitmap.LowestIsPage := by
  rcases allocate_cases bitmap with ⟨n, hn, hset, hleast, heq⟩ | ⟨hnone, heq⟩
  · constructor
    · intro h m hm hmset hmleast
      obtain rfl : m = n := by
        rcases Nat.lt_trichotomy m n with hlt | heq | hlt
        · exact absurd (hleast m hlt) (by rw [hmset]; decide)
        · exact heq
        · exact absurd (hmleast n hlt) (by rw [hset]; decide)
      have hanswer : bitmap.allocate.2 ≠ 0 := by
        intro hzero
        rw [h.fails hzero m hm] at hset
        cases hset
      obtain ⟨page, hpage, haddress, hpset, hpleast, -⟩ := h.lowest hanswer
      obtain rfl : m = page := by
        rcases Nat.lt_trichotomy m page with hlt | heq | hlt
        · exact absurd (hpleast m hlt) (by rw [hmset]; decide)
        · exact heq
        · exact absurd (hleast page hlt) (by rw [hpset]; decide)
      refine ⟨?_, hpage⟩
      rintro rfl
      rw [haddress, Nat.zero_mul] at hanswer
      exact hanswer rfl
    · intro h
      obtain ⟨hne, hpage⟩ := h n hn hset hleast
      have haddress : u32 (n * pageSize) = n * pageSize := by
        simp only [u32, pageSize, physicalPages] at *
        omega
      rw [haddress] at heq
      refine ⟨fun hzero => ?_, fun _ => ⟨n, hpage, by rw [heq], hset, hleast, fun m => ?_⟩⟩
      · rw [heq] at hzero
        exact absurd hzero (Nat.mul_ne_zero hne (by decide))
      · rw [heq]
        exact bit_unset n m
  · refine ⟨fun _ n hn hset => ?_, fun _ => ⟨fun _ => hnone, fun hne => ?_⟩⟩
    · rw [hnone n hn] at hset
      cases hset
    · rw [heq] at hne
      exact absurd rfl hne

/-! ## The number of set bits -/

theorem count_insert {p q : Nat → Bool} {k n : Nat} (hk : k < n) (hp : p k = false)
    (hq : ∀ m, q m = (p m || decide (m = k))) :
    Nat.count (fun m => q m = true) n = Nat.count (fun m => p m = true) n + 1 := by
  -- below `k` they are the same
  have hsame : ∀ n ≤ k, Nat.count (fun m => q m = true) n = Nat.count (fun m => p m = true) n := by
    intro n hn
    induction n with
    | zero => simp
    | succ n ih =>
      have hqn : q n = p n := by
        rw [hq, decide_eq_false (by omega), Bool.or_false]
      rw [Nat.count_succ, Nat.count_succ, ih (by omega), hqn]
  induction n with
  | zero => exact absurd hk (Nat.not_lt_zero k)
  | succ n ih =>
    rw [Nat.count_succ, Nat.count_succ]
    rcases Nat.lt_or_eq_of_le (Nat.le_of_lt_succ hk) with hlt | rfl
    · have hqn : q n = p n := by
        rw [hq, decide_eq_false (by omega), Bool.or_false]
      rw [ih hlt, hqn]
      omega
    · have hqk : q k = true := by
        rw [hq, decide_eq_true rfl, Bool.or_true]
      rw [hsame k le_rfl, if_pos hqk, if_neg (by rw [hp]; decide)]

theorem setBits_set_of_set (hset : bitmap.bit page = true) :
    (bitmap.set (page / 8) (page % 8)).setBits = bitmap.setBits := by
  have hsame : ∀ n, (bitmap.set (page / 8) (page % 8)).bit n = bitmap.bit n := by
    intro n
    rw [bit_set]
    by_cases hn : n = page
    · rw [hn, hset, Bool.true_or]
    · rw [decide_eq_false hn, Bool.or_false]
  simp [setBits, hsame]

theorem setBits_unset (hpage : page < bits) (hset : bitmap.bit page = true) :
    bitmap.setBits = (bitmap.unset (page / 8) (page % 8)).setBits + 1 := by
  refine count_insert hpage ?_ fun n => ?_
  · rw [bit_unset, decide_eq_false (not_not.2 rfl), Bool.and_false]
  · rw [bit_unset]
    by_cases hn : n = page
    · rw [hn, hset, decide_eq_true rfl, Bool.or_true]
    · rw [decide_eq_true hn, decide_eq_false hn, Bool.and_true, Bool.or_false]

theorem setBits_le (bitmap : BitMap) : bitmap.setBits ≤ bits := Nat.count_le _

end BitMap

namespace CountedBitMap

open BitMap

variable {bitmap : BitMap} {d d' : CountedBitMap}

theorem countBits_eq {index b n count : Nat} (hcount : count + n < 2 ^ 32) :
    countBits bitmap index b n count =
      count + Nat.count (fun m => bitmap.isSet index (b + m) = true) n := by
  induction n generalizing b count with
  | zero => rw [countBits, Nat.count_zero, Nat.add_zero]
  | succ n ih =>
    unfold countBits
    rw [Nat.add_comm n 1, Nat.count_add, Nat.count_one]
    simp only [Nat.add_zero, ← Nat.add_assoc]
    split
    next => rw [u32_of_lt (by omega), ih (by omega)]
    next => rw [ih (by omega)]; rfl

theorem countEntries_eq {index n count : Nat} (hcount : count + n * 8 < 2 ^ 32) :
    countEntries bitmap index n count =
      count + Nat.count (fun m => bitmap.bit (index * 8 + m) = true) (n * 8) := by
  induction n generalizing index count with
  | zero => rw [countEntries, Nat.zero_mul, Nat.count_zero, Nat.add_zero]
  | succ n ih =>
    have hentry : Nat.count (fun m => bitmap.isSet index (0 + m) = true) 8 =
        Nat.count (fun m => bitmap.bit (index * 8 + m) = true) 8 := by
      simp only [Nat.count_eq_card_filter_range]
      congr 1
      refine Finset.filter_congr fun m hm => ?_
      rw [Nat.zero_add, bit_mul_add (Finset.mem_range.1 hm)]
    have hle : Nat.count (fun m => bitmap.bit (index * 8 + m) = true) 8 ≤ 8 := Nat.count_le _
    unfold countEntries
    rw [bitmapBitsPerEntry, countBits_eq (by omega), hentry, ih (by omega), Nat.add_mul n 1 8,
      Nat.one_mul, Nat.add_comm (n * 8) 8, Nat.count_add, Nat.add_assoc]
    simp [Nat.add_mul, Nat.add_assoc]

theorem countEntries_all (bitmap : BitMap) : countEntries bitmap 0 bitmapLength 0 = bitmap.setBits := by
  have hlength : 0 + bitmapLength * 8 < 2 ^ 32 := by
    simp only [bitmapLength, bitmapSize]
    omega
  rw [countEntries_eq hlength, setBits, bits, bitmapBitsPerEntry]
  simp

/-- The counter is the number of set bits. -/
def CountsBits (d : CountedBitMap) : Prop := d.freePageCount = d.bitmap.setBits

theorem countsBits_initializeFromBitmap {memory : Nat → BitMapEntry} {bitmapStart bitmapEnd : Nat}
    (h : initializeFromBitmap memory bitmapStart bitmapEnd = some d) : d.CountsBits := by
  simp only [initializeFromBitmap] at h
  split at h
  next =>
    obtain rfl := Option.some.inj h
    rw [CountsBits]
    rw [countEntries_all]
  next => cases h

theorem setBits_lt (bitmap : BitMap) : bitmap.setBits + 1 < 2 ^ 32 := by
  have hle := bitmap.setBits_le
  simp only [bits, bitmapLength, bitmapSize, bitmapBitsPerEntry] at hle
  omega

variable {page address n : Nat}

theorem CountsBits.allocate (h : d.CountsBits) (halloc : d.allocate = some (d', page)) :
    d'.CountsBits := by
  simp only [CountedBitMap.allocate] at halloc
  split at halloc
  next => cases halloc
  next hne =>
    obtain ⟨rfl, -⟩ := Prod.mk.inj (Option.some.inj halloc)
    rcases allocate_cases d.bitmap with ⟨n, hn, hset, -, heq⟩ | ⟨-, heq⟩
    · have hcount := setBits_unset hn hset
      have hlt := setBits_lt d.bitmap
      rw [CountsBits, h]
      simp only [heq]
      rw [u32]
      omega
    · rw [heq] at hne
      exact absurd rfl hne

theorem pageOf_lt_bits (h : PageAddress address) : pageOf address < bits := by
  have hlt := h.1
  simp only [pageOf, pageSize, bits, bitmapLength, bitmapSize, bitmapBitsPerEntry]
  omega

theorem CountsBits.free_iff (h : d.CountsBits) (haddress : PageAddress address) :
    (d.free address).CountsBits ↔ d.bitmap.bit (pageOf address) = false := by
  have hlt := setBits_lt d.bitmap
  have hcounter : (d.free address).freePageCount = d.bitmap.setBits + 1 := by
    rw [CountedBitMap.free, h]
    exact u32_of_lt hlt
  rw [CountsBits, hcounter]
  cases hbit : d.bitmap.bit (pageOf address) with
  | false => exact ⟨fun _ => rfl, fun _ => (count_insert (pageOf_lt_bits haddress) hbit (bit_set _)).symm⟩
  | true =>
    have hsame : (d.free address).bitmap.setBits = d.bitmap.setBits := setBits_set_of_set hbit
    rw [hsame]
    exact ⟨fun heq => absurd heq (Nat.succ_ne_self _), fun heq => absurd heq (by decide)⟩

theorem reachable_countsBits (hd : pageCalls.Reachable Counts d) : d.CountsBits := by
  refine hd.invariant ?_ ?_
  · rintro d ⟨memory, bitmapStart, bitmapEnd, hinit⟩
    exact countsBits_initializeFromBitmap hinit
  · intro d event d' hcounts hok hstep
    cases event with
    | allocate =>
      obtain ⟨⟨d1, page⟩, halloc, rfl⟩ := Option.map_eq_some_iff.1 hstep
      exact hcounts.allocate halloc
    | free page =>
      obtain rfl := Option.some.inj hstep
      exact (hcounts.free_iff hok.1).2 hok.2

/-! ## The abstract allocator -/

/-- The bits as the abstract allocator. -/
def toPPallocator (d : CountedBitMap) : PPallocator := ⟨d.bitmap.bit⟩

/-- The bits that belong to no page are clear. -/
def InPages (d : CountedBitMap) : Prop :=
  ∀ n < bits, physicalPages ≤ n → d.bitmap.bit n = false

theorem findFree_first {p : Nat → Bool} {page n found : Nat} (hle : page ≤ found)
    (hlt : found < page + n) (hset : p found = true) (hleast : ∀ m < found, p m = false) :
    PPallocator.findFree p page n = some found := by
  induction n generalizing page with
  | zero => exact absurd hlt (Nat.not_lt.2 hle)
  | succ n ih =>
    unfold PPallocator.findFree
    rcases Nat.lt_or_eq_of_le hle with hbelow | rfl
    · rw [if_neg (by rw [hleast page hbelow]; decide)]
      exact ih hbelow (by omega)
    · rw [if_pos hset]

theorem findFree_none {p : Nat → Bool}
    (h : ∀ m, page ≤ m → m < page + n → p m = false) : PPallocator.findFree p page n = none := by
  induction n generalizing page with
  | zero => rfl
  | succ n ih =>
    unfold PPallocator.findFree
    rw [if_neg (by rw [h page le_rfl (by omega)]; decide)]
    exact ih fun m hm hlt => h m (by omega) (by omega)

theorem allocate_refines (h : d.InPages) :
    (d.allocate.map fun r => (r.1.toPPallocator, pageOf r.2)) = d.toPPallocator.allocate := by
  rcases allocate_cases d.bitmap with ⟨n, hn, hset, hleast, heq⟩ | ⟨hnone, heq⟩
  · have hpage : n < physicalPages := by
      by_contra hnot
      rw [h n hn (Nat.not_lt.1 hnot)] at hset
      cases hset
    have haddress : u32 (n * pageSize) = n * pageSize := by
      simp only [u32, pageSize, physicalPages] at *
      omega
    have hfound : PPallocator.findFree d.bitmap.bit 0 physicalPages = some n :=
      findFree_first (Nat.zero_le n) (by omega) hset hleast
    rw [haddress] at heq
    simp only [CountedBitMap.allocate, heq, PPallocator.allocate, toPPallocator, hfound]
    by_cases hzero : n = 0
    · rw [if_pos (by rw [hzero, Nat.zero_mul]), if_pos hzero]
      rfl
    · have hbits : (d.bitmap.unset (n / 8) (n % 8)).bit = update d.bitmap.bit n false := by
        funext m
        rw [bit_unset, update_apply]
        by_cases hm : m = n
        · rw [if_pos hm, decide_eq_false (not_not.2 hm), Bool.and_false]
        · rw [if_neg hm, decide_eq_true hm, Bool.and_true]
      have hpageOf : pageOf (n * pageSize) = n := Nat.mul_div_cancel n (by decide)
      rw [if_neg (Nat.mul_ne_zero hzero (by decide)), if_neg hzero, Option.map_some, hbits, hpageOf]
  · have hfound : PPallocator.findFree d.bitmap.bit 0 physicalPages = none := by
      refine findFree_none fun m _ hm => hnone m ?_
      simp only [physicalPages, bits, bitmapLength, bitmapSize, bitmapBitsPerEntry] at *
      omega
    simp [CountedBitMap.allocate, heq, PPallocator.allocate, toPPallocator, hfound]

theorem free_refines (d : CountedBitMap) (address : Nat) :
    (d.free address).toPPallocator = d.toPPallocator.free (pageOf address) := by
  have hbits : (d.bitmap.markFree address).bit = update d.bitmap.bit (pageOf address) true := by
    funext m
    change (d.bitmap.set (pageOf address / 8) (pageOf address % 8)).bit m = _
    rw [bit_set, update_apply]
    by_cases hm : m = pageOf address
    · rw [if_pos hm, decide_eq_true hm, Bool.or_true]
    · rw [if_neg hm, decide_eq_false hm, Bool.or_false]
  rw [toPPallocator, toPPallocator, PPallocator.free, CountedBitMap.free, hbits]

theorem InPages.allocate (h : d.InPages) (halloc : d.allocate = some (d', page)) : d'.InPages := by
  have hrefines := allocate_refines h
  rw [halloc, Option.map_some] at hrefines
  obtain ⟨-, -, hbitmap⟩ := PPallocator.allocate_spec hrefines.symm
  intro n hn hpage
  have hbit : d'.bitmap.bit n = update d.bitmap.bit (pageOf page) false n :=
    congrFun hbitmap n
  rw [hbit, update_apply]
  split
  next => rfl
  next => exact h n hn hpage

theorem InPages.free (h : d.InPages) (haddress : PageAddress address) :
    (d.free address).InPages := by
  have hlt := haddress.1
  intro n hn hpage
  have hbit : (d.free address).bitmap.bit n = (d.bitmap.bit n || decide (n = pageOf address)) :=
    bit_set ..
  rw [hbit, h n hn hpage, Bool.false_or, decide_eq_false]
  simp only [pageOf, pageSize, physicalPages] at *
  omega

end CountedBitMap

open BitMap CountedBitMap

/-- In every run in which `allocate` comes to no page 0 and no page is freed twice: the counter is the
number of set bits; the next `allocate` takes the lowest free page if and only if that is not page 0,
too; `free` sets only the bit of its page, and counts it if and only if it was not free; and the macros
lead from a page to its bit and back. -/
theorem counts_and_lowest_iff {d : CountedBitMap} (hd : pageCalls.Reachable Counts d) :
    d.freePageCount = d.bitmap.setBits ∧
    (d.bitmap.AllocatesLowest ↔ d.bitmap.LowestIsPage) ∧
    (∀ address, PageAddress address →
      (∀ n, (d.free address).bitmap.bit n = (d.bitmap.bit n || decide (n = pageOf address))) ∧
      ((d.free address).freePageCount = (d.free address).bitmap.setBits ↔
        d.bitmap.bit (pageOf address) = false)) ∧
    (∀ address, PageAddress address →
      bitmapToAddress (addressToBitmapIndex address) (addressToBitmapBit address) = address) ∧
    ∀ index bit, bit < bitmapBitsPerEntry → index * bitmapBitsPerEntry + bit < physicalPages →
      addressToBitmapIndex (bitmapToAddress index bit) = index ∧
      addressToBitmapBit (bitmapToAddress index bit) = bit := by
  have hcounts := reachable_countsBits hd
  refine ⟨hcounts, allocatesLowest_iff, fun address haddress => ⟨bit_set _, ?_⟩,
    fun address haddress => ?_, fun index bit hbit hpage => ?_⟩
  · exact hcounts.free_iff haddress
  · obtain ⟨hlt, haligned⟩ := haddress
    have hpage : pageOf address < physicalPages := by
      simp only [pageOf, pageSize, physicalPages]
      omega
    refine (bitmapToAddress_page hpage).trans ?_
    simp only [pageOf, pageSize] at *
    omega
  · simp only [addressToBitmapIndex, addressToBitmapBit, bitmapToAddress, bitmapBitsPerEntry, u32,
      pageSize, physicalPages] at *
    omega

/-- The allocator with a bitmap of this content. -/
def CountedBitMap.ofContent (content : BitMap) : CountedBitMap where
  bitmap := content
  freePageCount := content.setBits
  initialAmount := content.setBits

theorem CountedBitMap.ofContent_init (content : BitMap) : pageCalls.init (ofContent content) := by
  refine ⟨content, 0, 0x100000, ?_⟩
  have hlength : u32 (0x100000 + 2 ^ 32 - 0) = bitmapLength := by
    simp [u32, bitmapLength, bitmapSize]
  have hcontent : (fun index => content (0 + index)) = content := by
    funext index
    rw [Nat.zero_add]
  simp only [initializeFromBitmap, hlength, if_true, hcontent, countEntries_all]
  rfl

/-- A bitmap with page 42 free. -/
def BitMap.page42 : BitMap := fun index => if index = 5 then 4#8 else 0#8

theorem counts_and_lowest_page42 :
    ∃ d, pageCalls.Reachable Counts d ∧ d.bitmap.bit 42 = true ∧ d.freePageCount = d.bitmap.setBits := by
  obtain ⟨d1, hd1, hclear, d2, hd2, hbit⟩ : ∃ d1 ∈ pageCalls.step (ofContent BitMap.page42) .allocate,
      d1.bitmap.bit 42 = false ∧ ∃ d2 ∈ pageCalls.step d1 (.free 0x2A000), d2.bitmap.bit 42 = true := by
    decide +kernel
  have hfirst : BitMap.page42.LowestIsPage := by
    intro n _ hset _
    rw [bit_eq, BitMap.page42] at hset
    split at hset
    next hentry => exact ⟨by omega, by rw [physicalPages]; omega⟩
    next => exact absurd hset (by rw [BitVec.getLsbD_zero]; decide)
  have hreach : pageCalls.Reachable Counts d1 := .step (a := .allocate) (.init (ofContent_init _)) hfirst hd1
  have hfree : d1.Counts (.free 0x2A000) := ⟨⟨by decide, by decide⟩, hclear⟩
  have hreach2 : pageCalls.Reachable Counts d2 := .step hreach hfree hd2
  exact ⟨d2, hreach2, hbit, (counts_and_lowest_iff hreach2).1⟩

/-- A bitmap with the second bit behind those of the pages set. -/
def BitMap.behindPages : BitMap := fun index => if index = 0x20000 then 2#8 else 0#8

theorem BitMap.behindPages_allocate :
    BitMap.behindPages.allocate.2 = 0x1000 ∧ ¬ BitMap.behindPages.AllocatesLowest := by
  have honly : ∀ n, BitMap.behindPages.bit n = true → n = 0x100001 := by
    intro n hset
    have hentry : ∀ b : Fin 8, (2#8).getLsbD b.val = true → b.val = 1 := by decide
    rw [bit_eq, BitMap.behindPages] at hset
    split at hset
    next hindex =>
      have hbit := hentry ⟨n % 8, Nat.mod_lt n (by decide)⟩ hset
      have hbit : n % 8 = 1 := hbit
      omega
    next => exact absurd hset (by rw [BitVec.getLsbD_zero]; decide)
  rcases allocate_cases BitMap.behindPages with ⟨n, hn, hnset, hleast, heq⟩ | ⟨hnone, -⟩
  · obtain rfl := honly n hnset
    refine ⟨by simp [heq, pageSize, u32], fun h => ?_⟩
    have hpage := (allocatesLowest_iff.1 h _ hn hnset hleast).2
    exact absurd hpage (by decide)
  · have hclear := hnone 0x100001 (by decide)
    cases hclear

/-- Page 0 is freed, and `allocate` fails; page 42 is freed again, and counted twice. With only the bit
behind those of the pages set but one, `allocate` returns page 1, which is not free. -/
theorem counts_and_lowest_fail :
    (∃ d, pageCalls.Reachable Counts d ∧ d.bitmap.bit 42 = true ∧ d.bitmap.allocate.2 = 0 ∧
      (d.allocate).isNone = true ∧ ¬ d.bitmap.AllocatesLowest) ∧
    (∃ d, pageCalls.Reachable Counts d ∧
      (d.free 0x2A000).freePageCount ≠ (d.free 0x2A000).bitmap.setBits) ∧
    ∃ d, pageCalls.Reachable Counts d ∧ d.bitmap.bit 1 = false ∧ d.bitmap.allocate.2 = 0x1000 ∧
      ¬ d.bitmap.AllocatesLowest := by
  refine ⟨⟨(ofContent BitMap.page42).free 0, ?_, ?_, ?_, ?_, fun h => ?_⟩,
    ⟨ofContent BitMap.page42, .init (ofContent_init _), fun h => ?_⟩,
    ⟨ofContent BitMap.behindPages, .init (ofContent_init _), by decide,
      BitMap.behindPages_allocate.1, BitMap.behindPages_allocate.2⟩⟩
  · exact .step (a := .free 0) (.init (ofContent_init _)) ⟨⟨by decide, by decide⟩, by decide⟩ rfl
  · decide
  · decide +kernel
  · decide +kernel
  · have hnone := h.fails (by decide +kernel) 42 (by decide)
    exact absurd hnone (by decide)
  · have hcounts : (ofContent BitMap.page42).CountsBits := reachable_countsBits (.init (ofContent_init _))
    have hclear := (hcounts.free_iff ⟨by decide, by decide⟩).1 h
    exact absurd hclear (by decide)

/-! ## Runs of both allocators -/

/-- A call, with the page that it is about. -/
def CountedBitMap.call (d : CountedBitMap) : PageEvent → Option (CountedBitMap × Nat)
  | .allocate => d.allocate.map fun r => (r.1, pageOf r.2)
  | .free address => some (d.free address, pageOf address)

/-- The same call of the abstract allocator. -/
def PPallocator.call (a : PPallocator) : PageEvent → Option (PPallocator × Nat)
  | .allocate => a.allocate
  | .free address => some (a.free (pageOf address), pageOf address)

/-- A page that is not free, and is not freed by the calls, is not handed out by them. -/
theorem PPallocator.not_mem_answers {a a' : PPallocator} {page : Nat} {calls : List PageEvent}
    {answers : List Nat} (hrun : runResults PPallocator.call a calls = some (a', answers))
    (hpage : a.bitmap page = false)
    (hcalls : ∀ address, PageEvent.free address ∈ calls → pageOf address ≠ page) : page ∉ answers := by
  induction calls generalizing a answers with
  | nil =>
    cases hrun
    exact List.not_mem_nil
  | cons call calls ih =>
    obtain ⟨⟨a1, answer⟩, hfirst, h⟩ := Option.bind_eq_some_iff.1 hrun
    obtain ⟨⟨a2, rest⟩, hrest, heq⟩ := Option.map_eq_some_iff.1 h
    obtain ⟨rfl, rfl⟩ := Prod.mk.inj heq
    have hstep : answer ≠ page ∧ a1.bitmap page = false := by
      cases call with
      | allocate =>
        obtain ⟨hfree, -, hbitmap⟩ := PPallocator.allocate_spec hfirst
        have hne : answer ≠ page := fun heq => by simp [heq, hpage] at hfree
        exact ⟨hne, by rw [hbitmap, update_apply, if_neg hne.symm, hpage]⟩
      | free address =>
        have hne := hcalls address List.mem_cons_self
        obtain ⟨rfl, rfl⟩ := Prod.mk.inj (Option.some.inj hfirst)
        exact ⟨hne, (Function.update_of_ne hne.symm _ _).trans hpage⟩
    exact List.not_mem_cons_of_ne_of_not_mem hstep.1.symm
      (ih hrest hstep.2 fun address hfree => hcalls address (List.mem_cons_of_mem _ hfree))

/-- Where the bits that belong to no page are clear, every sequence of calls gives the pages that the
abstract allocator gives and leaves its free pages, and the kernel panics at the same call. No page is
handed out that is in use and not freed in between. -/
theorem calls_refine_free_pages {d : CountedBitMap} {calls : List PageEvent} (hd : d.InPages)
    (hcalls : ∀ address, PageEvent.free address ∈ calls → PageAddress address) :
    (runResults CountedBitMap.call d calls).map (Prod.map toPPallocator id) =
      runResults PPallocator.call d.toPPallocator calls ∧
    ∀ d' answers page, runResults CountedBitMap.call d calls = some (d', answers) →
      d.bitmap.bit page = false → (∀ address, PageEvent.free address ∈ calls → pageOf address ≠ page) →
      page ∉ answers := by
  have hrefines : (runResults CountedBitMap.call d calls).map (Prod.map toPPallocator id) =
      runResults PPallocator.call d.toPPallocator calls := by
    refine runResults_map (I := InPages)
      (P := fun call => ∀ address, call = .free address → PageAddress address) ?_ hd
      fun call hcall address heq => hcalls address (heq ▸ hcall)
    intro d call hd hok
    cases call with
    | allocate =>
      refine ⟨?_, fun r hr => ?_⟩
      · rw [PPallocator.call, ← allocate_refines hd, CountedBitMap.call, Option.map_map]
        rfl
      · obtain ⟨⟨d', page⟩, halloc, rfl⟩ := Option.map_eq_some_iff.1 hr
        exact hd.allocate halloc
    | free address =>
      refine ⟨?_, fun r hr => ?_⟩
      · rw [PPallocator.call, ← free_refines]
        rfl
      · obtain rfl := Option.some.inj hr
        exact hd.free (hok address rfl)
  refine ⟨hrefines, fun d' answers page hrun hpage hfreed => ?_⟩
  rw [hrun] at hrefines
  exact PPallocator.not_mem_answers hrefines.symm hpage hfreed

theorem calls_refine_free_pages_page42 :
    (runResults CountedBitMap.call (ofContent BitMap.page42) [.allocate, .free 0x2A000, .allocate]).map
        (Prod.map toPPallocator id) =
      runResults PPallocator.call ⟨BitMap.page42.bit⟩ [.allocate, .free 0x2A000, .allocate] := by
  refine (calls_refine_free_pages (fun n _ hpage => ?_) fun address hfree => ?_).1
  · have hentry : n / 8 ≠ 5 := by
      rw [physicalPages] at hpage
      omega
    simp only [ofContent, bit_eq, BitMap.page42, if_neg hentry, BitVec.getLsbD_zero]
  · obtain rfl : address = 0x2A000 := by simpa using hfree
    exact ⟨by decide, by decide⟩

end MeetixOS.Kernel
