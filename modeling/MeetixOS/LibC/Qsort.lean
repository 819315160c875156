import MeetixOS.Kernel.Types
import MeetixOS.Lib.Slots
import MeetixOS.Lib.Sorted

/-! # `qsort`

The array is its bytes, and a comparator sees the bytes of the elements that it is given. An access outside
of the array is a fault; `none` is a run that the fuel was not enough for. An inner call has an element
behind its range that is not less than any of the range; the outermost call has no such element, but uses
the end of the array as one. -/

open List (length_append length_cons length_nil length_singleton mem_cons_of_mem)
open Slots Sorted
open MeetixOS.Kernel (u32 u32_of_lt)

namespace LibC

section

/-- The bytes of the element at an offset. -/
def element (array : List UInt8) (elementSize offset : Nat) : Checked (List UInt8) :=
  if offset + elementSize ≤ array.length then .ok ((array.drop offset).take elementSize)
  else .error .access

def byteAt (array : List UInt8) (offset : Nat) : Checked UInt8 :=
  match array[offset]? with
  | some byte => .ok byte
  | none => .error .access

/-- `swap`, of `n` bytes. -/
def swapBytes : (n a b : Nat) → List UInt8 → Checked (List UInt8)
  | 0, _, _, array => return array
  | n + 1, a, b, array => do
      let c ← byteAt array a
      let d ← byteAt array b
      swapBytes n (a + 1) (b + 1) ((array.set a d).set b c)

variable (comparator : List UInt8 → List UInt8 → Int) (elementSize : Nat)

/-- The loop of `sort`: the array, `begin_offset` and `end_offset` behind it. -/
def partitionFrom (pivot : Nat) :
    (fuel : Nat) → List UInt8 → (beginOffset endOffset : Nat) →
      Checked (Option (List UInt8 × Nat × Nat))
  | 0, array, beginOffset, endOffset =>
    return if beginOffset < endOffset then none else some (array, beginOffset, endOffset)
  | fuel + 1, array, beginOffset, endOffset => do
      if beginOffset < endOffset then
        if comparator (← element array elementSize beginOffset) (← element array elementSize pivot) ≤ 0
        then
          partitionFrom pivot fuel array (beginOffset + elementSize) endOffset
        else if
          0 < comparator (← element array elementSize endOffset) (← element array elementSize pivot)
        then
          partitionFrom pivot fuel array beginOffset (endOffset - elementSize)
        else if beginOffset < endOffset then
          partitionFrom pivot fuel (← swapBytes elementSize beginOffset endOffset array) beginOffset
            endOffset
        else
          partitionFrom pivot fuel array beginOffset endOffset
      else
        return some (array, beginOffset, endOffset)

def sort : (fuel beginOffset endOffset : Nat) → List UInt8 → Checked (Option (List UInt8))
  | 0, beginOffset, endOffset, array => return if beginOffset < endOffset then none else some array
  | fuel + 1, beginOffset, endOffset, array => do
      if beginOffset < endOffset then
        match ← partitionFrom comparator elementSize beginOffset fuel array (beginOffset + elementSize)
            endOffset with
        | none => return none
        | some (array, lower, upper) =>
          let lower := lower - elementSize
          let array ← swapBytes elementSize beginOffset lower array
          match ← sort fuel beginOffset lower array with
          | none => return none
          | some array => sort fuel upper endOffset array
      else
        return some array

def qsort (fuel : Nat) (array : List UInt8) (numElements : Nat) : Checked (Option (List UInt8)) :=
  sort comparator elementSize fuel 0 (u32 (numElements * elementSize)) array

end

/-! ## Arrays of elements -/

section

variable {elementSize : Nat} {front mid rest blocks : List (List UInt8)} {x y : List UInt8}

/-- All have the size of an element. -/
def Sized (elementSize : Nat) (blocks : List (List UInt8)) : Prop :=
  ∀ block ∈ blocks, block.length = elementSize

theorem Sized.length_flatten (h : Sized elementSize blocks) :
    blocks.flatten.length = blocks.length * elementSize := by
  induction blocks with
  | nil => simp
  | cons block blocks ih =>
    have hrest := ih fun b hb => h b (mem_cons_of_mem _ hb)
    rw [List.flatten_cons, length_append, hrest, h block List.mem_cons_self, length_cons,
      Nat.succ_mul, Nat.add_comm]

theorem Sized.perm {blocks' : List (List UInt8)} (h : Sized elementSize blocks)
    (hperm : blocks'.Perm blocks) : Sized elementSize blocks' :=
  fun block hblock => h block (hperm.mem_iff.1 hblock)

theorem Sized.left (h : Sized elementSize (front ++ rest)) : Sized elementSize front :=
  fun block hblock => h block (List.mem_append_left _ hblock)

theorem element_eq (h : Sized elementSize (front ++ x :: rest)) :
    element (front ++ x :: rest).flatten elementSize (front.length * elementSize) = .ok x := by
  have hfront := h.left.length_flatten
  have hx : x.length = elementSize := h x (by simp)
  rw [element, h.length_flatten, if_pos, ← hfront, List.flatten_append, List.drop_left,
    List.flatten_cons, ← hx, List.take_left]
  rw [length_append, length_cons, Nat.add_mul, Nat.succ_mul]
  omega

theorem element_behind (hsize : 0 < elementSize) (h : Sized elementSize blocks) :
    element blocks.flatten elementSize (blocks.length * elementSize) = .error .access := by
  rw [element, h.length_flatten, if_neg (by omega)]

theorem byteAt_append {before after : List UInt8} {byte : UInt8} {offset : Nat}
    (h : offset = before.length) : byteAt (before ++ byte :: after) offset = .ok byte := by
  rw [byteAt, h, List.getElem?_append_right (Nat.le_refl _), Nat.sub_self]
  rfl

theorem swapBytes_append (before : List UInt8) {a b : List UInt8} (between after : List UInt8)
    (h : a.length = b.length) :
    swapBytes a.length before.length (before.length + a.length + between.length)
        (before ++ (a ++ (between ++ (b ++ after)))) =
      .ok (before ++ (b ++ (between ++ (a ++ after)))) := by
  induction a generalizing before between b with
  | nil =>
    obtain rfl := List.length_eq_zero_iff.1 h.symm
    rfl
  | cons c a ih =>
    obtain ⟨d, b, rfl⟩ := List.exists_cons_of_length_eq_add_one h.symm
    have hnext := ih (before ++ [d]) (between ++ [c]) (Nat.succ.inj h)
    have hfirst : byteAt (before ++ (c :: a ++ (between ++ (d :: b ++ after)))) before.length =
        .ok c := byteAt_append rfl
    have hsecond : before.length + (a.length + 1) + between.length =
        (before ++ c :: (a ++ between)).length := by
      simp
      omega
    have hlast : byteAt (before ++ (c :: a ++ (between ++ (d :: b ++ after))))
        (before.length + (a.length + 1) + between.length) = .ok d := by
      rw [show before ++ (c :: a ++ (between ++ (d :: b ++ after))) =
        (before ++ c :: (a ++ between)) ++ d :: (b ++ after) by simp]
      exact byteAt_append hsecond
    have hset : ((before ++ (c :: a ++ (between ++ (d :: b ++ after)))).set before.length d).set
        (before.length + (a.length + 1) + between.length) c =
          (before ++ [d]) ++ (a ++ ((between ++ [c]) ++ (b ++ after))) := by
      rw [List.set_append_right _ _ (Nat.le_refl _), Nat.sub_self,
        show before ++ (c :: a ++ (between ++ (d :: b ++ after))).set 0 d =
          (before ++ d :: (a ++ between)) ++ d :: (b ++ after) by simp,
        List.set_append_right _ _ (by simp; omega),
        show before.length + (a.length + 1) + between.length -
          (before ++ d :: (a ++ between)).length = 0 by simp; omega]
      simp
    rw [length_append, length_append, length_singleton, length_singleton] at hnext
    rw [length_cons, swapBytes, hfirst, ok_bind, hlast, ok_bind, hset,
      show before.length + (a.length + 1) + between.length + 1 =
        before.length + 1 + a.length + (between.length + 1) by omega, hnext]
    simp

theorem swapBytes_self {n a : Nat} {array : List UInt8} (h : a + n ≤ array.length) :
    swapBytes n a a array = .ok array := by
  induction n generalizing a with
  | zero => rfl
  | succ n ih =>
    have hlt : a < array.length := by omega
    have hat : byteAt array a = .ok array[a] := by
      rw [byteAt, List.getElem?_eq_getElem hlt]
    rw [swapBytes, hat, ok_bind, ok_bind, List.set_set, List.set_getElem_self, ih (by omega)]

theorem element_of_getElem? {i : Nat} (h : Sized elementSize blocks) (hi : blocks[i]? = some x) :
    element blocks.flatten elementSize (i * elementSize) = .ok x := by
  obtain ⟨hlt, rfl⟩ := List.getElem?_eq_some_iff.1 hi
  have hsplit : blocks = blocks.take i ++ blocks[i] :: blocks.drop (i + 1) := by
    rw [← List.drop_eq_getElem_cons hlt, List.take_append_drop]
  have hlen : (blocks.take i).length = i := by
    rw [List.length_take]
    omega
  have helement := element_eq (hsplit ▸ h)
  rwa [hlen, ← hsplit] at helement

theorem swapBytes_elements (h : Sized elementSize (front ++ x :: (mid ++ y :: rest))) :
    swapBytes elementSize (front.length * elementSize) ((front.length + 1 + mid.length) * elementSize)
        (front ++ x :: (mid ++ y :: rest)).flatten =
      .ok (front ++ y :: (mid ++ x :: rest)).flatten := by
  have hx : x.length = elementSize := h x (by simp)
  have hy : y.length = elementSize := h y (by simp)
  have hfront := h.left.length_flatten
  have hmid : Sized elementSize mid := fun block hblock => h block (by simp [hblock])
  have hswap := swapBytes_append front.flatten mid.flatten rest.flatten (hx.trans hy.symm)
  rw [hfront, hmid.length_flatten, hx] at hswap
  simp only [List.flatten_append, List.flatten_cons]
  rw [Nat.add_mul, Nat.succ_mul, hswap]

theorem swapBytes_element (h : Sized elementSize (front ++ x :: rest)) :
    swapBytes elementSize (front.length * elementSize) (front.length * elementSize)
      (front ++ x :: rest).flatten = .ok (front ++ x :: rest).flatten := by
  refine swapBytes_self ?_
  rw [h.length_flatten, length_append, length_cons, Nat.add_mul, Nat.succ_mul]
  omega

end

/-- The comparator is a total preorder of the elements of a size. -/
def OrdersElements (comparator : List UInt8 → List UInt8 → Int) (elementSize : Nat) : Prop :=
  TotalPreorder fun a b : { block : List UInt8 // block.length = elementSize } =>
    comparator a.val b.val

section

variable {comparator : List UInt8 → List UInt8 → Int} {elementSize : Nat} {a b : List UInt8}
  (hcmp : OrdersElements comparator elementSize) (ha : a.length = elementSize)
  (hb : b.length = elementSize)
include hcmp ha hb

theorem OrdersElements.trans {c : List UInt8} (hc : c.length = elementSize)
    (hab : comparator a b ≤ 0) (hbc : comparator b c ≤ 0) : comparator a c ≤ 0 :=
  Sorted.TotalPreorder.trans hcmp ⟨a, ha⟩ ⟨b, hb⟩ ⟨c, hc⟩ hab hbc

theorem OrdersElements.of_pos (hgt : 0 < comparator a b) : comparator b a ≤ 0 :=
  Sorted.TotalPreorder.of_pos hcmp (a := ⟨a, ha⟩) (b := ⟨b, hb⟩) hgt

end

/-! ## Partitions -/

section

variable {comparator : List UInt8 → List UInt8 → Int} {elementSize : Nat}
  {front low mid rest blocks : List (List UInt8)} {p x y : List UInt8} {fuel i k m : Nat}

theorem partitionFrom_done (h : ¬ k < m) (hsize : 0 < elementSize) (array : List UInt8) (pivot : Nat) :
    partitionFrom comparator elementSize pivot fuel array (k * elementSize) (m * elementSize) =
      .ok (some (array, k * elementSize, m * elementSize)) := by
  have hoffset : ¬ k * elementSize < m * elementSize := by rwa [Nat.mul_lt_mul_right hsize]
  cases fuel with
  | zero | succ fuel => rw [partitionFrom, if_neg hoffset]; rfl

section

variable (fuel : Nat) (hsize : 0 < elementSize) (h : Sized elementSize blocks) (hkm : k < m)
  (hp : blocks[i]? = some p) (hx : blocks[k]? = some x)
include hsize h hkm hp hx

theorem partitionFrom_low (hle : comparator x p ≤ 0) :
    partitionFrom comparator elementSize (i * elementSize) (fuel + 1) blocks.flatten (k * elementSize)
        (m * elementSize) =
      partitionFrom comparator elementSize (i * elementSize) fuel blocks.flatten ((k + 1) * elementSize)
        (m * elementSize) := by
  rw [partitionFrom, if_pos ((Nat.mul_lt_mul_right hsize).2 hkm), element_of_getElem? h hx, ok_bind,
    element_of_getElem? h hp, ok_bind, if_pos hle, Nat.succ_mul]

theorem partitionFrom_high (hgt : 0 < comparator x p) (hy : blocks[m]? = some y)
    (hgt' : 0 < comparator y p) :
    partitionFrom comparator elementSize (i * elementSize) (fuel + 1) blocks.flatten (k * elementSize)
        (m * elementSize) =
      partitionFrom comparator elementSize (i * elementSize) fuel blocks.flatten (k * elementSize)
        ((m - 1) * elementSize) := by
  rw [partitionFrom, if_pos ((Nat.mul_lt_mul_right hsize).2 hkm), element_of_getElem? h hx, ok_bind,
    element_of_getElem? h hp, ok_bind, if_neg (by omega), element_of_getElem? h hy, ok_bind, ok_bind,
    if_pos hgt', Nat.sub_one_mul]

end

theorem partitionFrom_swap (hsize : 0 < elementSize)
    (h : Sized elementSize (front ++ x :: (mid ++ y :: rest)))
    (hp : (front ++ x :: (mid ++ y :: rest))[i]? = some p) (hi : i < front.length)
    (hgt : 0 < comparator x p) (hle : comparator y p ≤ 0) :
    partitionFrom comparator elementSize (i * elementSize) (fuel + 2)
        (front ++ x :: (mid ++ y :: rest)).flatten (front.length * elementSize)
        ((front.length + 1 + mid.length) * elementSize) =
      partitionFrom comparator elementSize (i * elementSize) fuel
        (front ++ y :: (mid ++ x :: rest)).flatten ((front.length + 1) * elementSize)
        ((front.length + 1 + mid.length) * elementSize) := by
  have hkm : front.length < front.length + 1 + mid.length := by omega
  have hx : (front ++ x :: (mid ++ y :: rest))[front.length]? = some x := by simp
  have hy : (front ++ x :: (mid ++ y :: rest))[front.length + 1 + mid.length]? = some y := by
    rw [List.getElem?_append_right (by omega)]
    simp [show front.length + 1 + mid.length - front.length = mid.length + 1 by omega]
  have hp' : (front ++ y :: (mid ++ x :: rest))[i]? = some p := by
    rwa [List.getElem?_append_left hi] at hp ⊢
  rw [partitionFrom, if_pos ((Nat.mul_lt_mul_right hsize).2 hkm), element_of_getElem? h hx, ok_bind,
    element_of_getElem? h hp, ok_bind, if_neg (by omega), element_of_getElem? h hy, ok_bind, ok_bind,
    if_neg (by omega), if_pos ((Nat.mul_lt_mul_right hsize).2 hkm), swapBytes_elements h, ok_bind]
  exact partitionFrom_low fuel hsize (h.perm (exchange_perm front mid rest x y)) hkm hp' (by simp) hle

theorem partitionFrom_between (hsize : 0 < elementSize) {n : Nat} (low mid rest : List (List UInt8))
    (fuel : Nat) (hn : mid.length = n + 1)
    (h : Sized elementSize (front ++ p :: (low ++ (mid ++ rest)))) (hlow : ∀ a ∈ low, comparator a p ≤ 0)
    (hends : (∃ x, mid.head? = some x ∧ 0 < comparator x p) ∨
      ∃ y, mid.getLast? = some y ∧ 0 < comparator y p)
    (hfuel : 2 * n ≤ fuel) :
    ∃ low' tail, partitionFrom comparator elementSize (front.length * elementSize) fuel
        (front ++ p :: (low ++ (mid ++ rest))).flatten ((front.length + 1 + low.length) * elementSize)
        ((front.length + 1 + low.length + n) * elementSize) =
          .ok (some ((front ++ p :: (low' ++ (tail ++ rest))).flatten,
            (front.length + 1 + low'.length) * elementSize,
            (front.length + 1 + low'.length) * elementSize)) ∧
      (low' ++ tail).Perm (low ++ mid) ∧ (∀ a ∈ low', comparator a p ≤ 0) ∧
      ∀ a ∈ tail, 0 < comparator a p := by
  induction n generalizing low mid rest fuel with
  | zero =>
    obtain ⟨z, rfl⟩ := List.length_eq_one_iff.1 hn
    have hz : 0 < comparator z p := by simpa using hends
    refine ⟨low, [z], ?_, .refl _, hlow, by simpa using hz⟩
    exact partitionFrom_done (Nat.lt_irrefl _) hsize _ _
  | succ n ih =>
    obtain ⟨x, mid, rfl⟩ := List.exists_cons_of_length_eq_add_one hn
    obtain ⟨inner, y, rfl⟩ := (List.eq_nil_or_concat mid).resolve_left (by
      rintro rfl
      simp at hn)
    rw [List.concat_eq_append] at *
    have hinner : inner.length = n := by simpa using hn
    obtain ⟨fuel, rfl⟩ := Nat.exists_eq_add_of_le' hfuel
    have hk : (front ++ p :: low).length = front.length + 1 + low.length := by
      simp
      omega
    have hshape : front ++ p :: (low ++ (x :: (inner ++ [y]) ++ rest)) =
        (front ++ p :: low) ++ x :: (inner ++ y :: rest) := by simp
    have hlast : front.length + 1 + low.length + (n + 1) =
        (front ++ p :: low).length + 1 + inner.length := by omega
    rw [hshape] at h
    rw [hshape, hlast, ← hk]
    have hp : ((front ++ p :: low) ++ x :: (inner ++ y :: rest))[front.length]? = some p := by simp
    have hx : ((front ++ p :: low) ++ x :: (inner ++ y :: rest))[(front ++ p :: low).length]? =
        some x := by simp
    have hy : ((front ++ p :: low) ++ x :: (inner ++ y :: rest))[(front ++ p :: low).length + 1 +
        inner.length]? = some y := by
      rw [List.getElem?_append_right (by omega), Nat.add_assoc, Nat.add_sub_cancel_left]
      simp [Nat.add_comm 1]
    by_cases hle : comparator x p ≤ 0
    · -- the element at the start joins those that are not greater
      have hgt : 0 < comparator y p := by
        have hend : (x :: (inner ++ [y])).getLast? = some y := by
          rw [← List.cons_append, List.getLast?_concat]
        simpa [hend, show ¬ 0 < comparator x p by omega] using hends
      rw [show fuel + 2 * (n + 1) = fuel + 2 * n + 1 + 1 by omega,
        partitionFrom_low _ hsize h (by omega) hp hx hle]
      obtain ⟨low', tail, hrun, hperm, hlow', htail⟩ := ih (low ++ [x]) (inner ++ [y]) rest
        (fuel + 2 * n + 1) (by simp [hinner]) (by simpa using h)
        (by simpa [or_imp, forall_and] using ⟨hlow, hle⟩) (.inr ⟨y, by simp, hgt⟩) (by omega)
      refine ⟨low', tail, ?_, hperm.trans (by simp), hlow', htail⟩
      rw [← hrun]
      congr 2
      · simp
      · rw [hk, length_append, length_singleton]
        rfl
      · rw [hk, length_append, length_singleton, hinner]
        omega
    · have hgt : 0 < comparator x p := by omega
      by_cases hle' : comparator y p ≤ 0
      · rw [show fuel + 2 * (n + 1) = fuel + 2 * n + 2 by omega,
          partitionFrom_swap hsize h hp (by omega) hgt hle']
        obtain ⟨low', tail, hrun, hperm, hlow', htail⟩ := ih (low ++ [y]) (inner ++ [x]) rest
          (fuel + 2 * n) (by simp [hinner])
          (by simpa using h.perm (exchange_perm (front ++ p :: low) inner rest x y))
          (by simpa [or_imp, forall_and] using ⟨hlow, hle'⟩) (.inr ⟨x, by simp, hgt⟩) (by omega)
        refine ⟨low', tail, ?_, hperm.trans ?_, hlow', htail⟩
        · rw [← hrun]
          congr 2
          · simp
          · rw [hk, length_append, length_singleton]
            rfl
          · rw [hk, length_append, length_singleton, hinner]
            omega
        · simpa using exchange_perm low inner [] x y
      · -- the element at the end stays behind the range
        have hgt' : 0 < comparator y p := by omega
        rw [show fuel + 2 * (n + 1) = fuel + 2 * n + 1 + 1 by omega,
          partitionFrom_high _ hsize h (by omega) hp hx hgt hy hgt']
        obtain ⟨low', tail, hrun, hperm, hlow', htail⟩ := ih low (x :: inner) (y :: rest)
          (fuel + 2 * n + 1) (by simp [hinner]) (by simpa using h) hlow
          (.inl ⟨x, by simp, hgt⟩) (by omega)
        refine ⟨low', tail ++ [y], ?_, ?_, hlow', by simpa [or_imp, forall_and] using ⟨htail, hgt'⟩⟩
        · rw [show front ++ p :: (low' ++ (tail ++ [y] ++ rest)) =
            front ++ p :: (low' ++ (tail ++ y :: rest)) by simp, ← hrun]
          congr 2
          · simp
          · rw [hk, hinner]
            omega
        · simpa using hperm.append_right [y]

section

variable (low items : List (List UInt8)) (fuel : Nat)

theorem partitionFrom_bounded {s : List UInt8} (hcmp : OrdersElements comparator elementSize)
    (hsize : 0 < elementSize) (h : Sized elementSize (front ++ p :: (low ++ (items ++ s :: rest))))
    (hlow : ∀ a ∈ low, comparator a p ≤ 0) (hbound : ∀ a ∈ items, comparator a s ≤ 0)
    (hfuel : 2 * items.length ≤ fuel) :
    ∃ low' tail, partitionFrom comparator elementSize (front.length * elementSize) fuel
        (front ++ p :: (low ++ (items ++ s :: rest))).flatten
        ((front.length + 1 + low.length) * elementSize)
        ((front.length + 1 + low.length + items.length) * elementSize) =
          .ok (some ((front ++ p :: (low' ++ (tail ++ s :: rest))).flatten,
            (front.length + 1 + low'.length) * elementSize,
            (front.length + 1 + low'.length) * elementSize)) ∧
      (low' ++ tail).Perm (low ++ items) ∧ (∀ a ∈ low', comparator a p ≤ 0) ∧
      ∀ a ∈ tail, 0 < comparator a p := by
  induction items generalizing low fuel with
  | nil =>
    refine ⟨low, [], ?_, .refl _, hlow, by simp⟩
    exact partitionFrom_done (Nat.lt_irrefl _) hsize _ _
  | cons x items ih =>
    obtain ⟨fuel, rfl⟩ := Nat.exists_eq_add_of_le' hfuel
    have hp : (front ++ p :: (low ++ (x :: items ++ s :: rest)))[front.length]? = some p := by simp
    have hk : (front ++ p :: low).length = front.length + 1 + low.length := by
      simp
      omega
    have hx : (front ++ p :: (low ++ (x :: items ++ s :: rest)))[front.length + 1 + low.length]? =
        some x := by
      rw [← hk, show front ++ p :: (low ++ (x :: items ++ s :: rest)) =
        (front ++ p :: low) ++ x :: (items ++ s :: rest) by simp]
      simp
    have hm : (front ++ p :: (low ++ x :: items)).length =
        front.length + 1 + low.length + (items.length + 1) := by
      simp
      omega
    have hs : (front ++ p :: (low ++ (x :: items ++ s :: rest)))[front.length + 1 + low.length +
        (items.length + 1)]? = some s := by
      rw [← hm, show front ++ p :: (low ++ (x :: items ++ s :: rest)) =
        (front ++ p :: (low ++ x :: items)) ++ s :: rest by simp]
      simp
    rw [length_cons]
    by_cases hle : comparator x p ≤ 0
    · rw [show fuel + 2 * (items.length + 1) = fuel + 2 * items.length + 1 + 1 by omega,
        partitionFrom_low _ hsize h (by omega) hp hx hle]
      obtain ⟨low', tail, hrun, hperm, hlow', htail⟩ := ih (low ++ [x])
        (fuel + 2 * items.length + 1) (by simpa using h)
        (by simpa [or_imp, forall_and] using ⟨hlow, hle⟩)
        (fun a ha => hbound a (mem_cons_of_mem x ha)) (by omega)
      refine ⟨low', tail, ?_, hperm.trans (by simp), hlow', htail⟩
      rw [← hrun]
      congr 2
      · simp
      · rw [length_append, length_singleton]
        rfl
      · rw [length_append, length_singleton]
        omega
    · -- the element behind the range is greater, too, and ends the range before it
      have hgt : 0 < comparator x p := by omega
      have hgt' : 0 < comparator s p := by
        by_contra hsp
        exact hle (hcmp.trans (h x (by simp)) (h s (by simp)) (h p (by simp))
          (hbound x List.mem_cons_self) (by omega))
      rw [show fuel + 2 * (items.length + 1) = fuel + 2 * items.length + 1 + 1 by omega,
        partitionFrom_high _ hsize h (by omega) hp hx hgt hs hgt']
      exact partitionFrom_between hsize low _ _ _ length_cons h hlow (.inl ⟨x, rfl, hgt⟩)
        (by omega)

theorem partitionFrom_all (hsize : 0 < elementSize) (h : Sized elementSize (p :: (low ++ items)))
    (hitems : ∀ a ∈ items, comparator a p ≤ 0) (hfuel : items.length ≤ fuel) :
    partitionFrom comparator elementSize 0 fuel (p :: (low ++ items)).flatten
        ((1 + low.length) * elementSize) ((1 + low.length + items.length) * elementSize) =
      .ok (some ((p :: (low ++ items)).flatten, (1 + low.length + items.length) * elementSize,
        (1 + low.length + items.length) * elementSize)) := by
  induction items generalizing low fuel with
  | nil => exact partitionFrom_done (Nat.lt_irrefl _) hsize _ _
  | cons x items ih =>
    obtain ⟨fuel, rfl⟩ := Nat.exists_eq_add_of_le' hfuel
    have hx : (p :: (low ++ x :: items))[1 + low.length]? = some x := by
      simp [Nat.add_comm 1]
    have hstep := partitionFrom_low (fuel + items.length) (m := 1 + low.length +
      (items.length + 1)) (i := 0) hsize h (by omega) rfl hx (hitems x List.mem_cons_self)
    have hrest := ih (low ++ [x]) (fuel + items.length) (by simpa using h)
      (fun a ha => hitems a (mem_cons_of_mem x ha)) (by omega)
    rw [List.append_assoc, length_append, length_singleton, List.singleton_append,
      ← Nat.add_assoc, show 1 + low.length + 1 + items.length = 1 + low.length + (items.length + 1) by
        omega] at hrest
    rw [Nat.zero_mul] at hstep
    exact hstep.trans hrest

theorem partitionFrom_behind (hsize : 0 < elementSize) (h : Sized elementSize (p :: (low ++ items)))
    (hitems : ¬ ∀ a ∈ items, comparator a p ≤ 0) :
    partitionFrom comparator elementSize 0 fuel (p :: (low ++ items)).flatten
        ((1 + low.length) * elementSize) ((1 + low.length + items.length) * elementSize) =
      .ok none ∨
    partitionFrom comparator elementSize 0 fuel (p :: (low ++ items)).flatten
        ((1 + low.length) * elementSize) ((1 + low.length + items.length) * elementSize) =
      .error .access := by
  induction items generalizing low fuel with
  | nil => exact absurd (fun a ha => absurd ha List.not_mem_nil) hitems
  | cons x items ih =>
    have hlt : 1 + low.length < 1 + low.length + (x :: items).length := by simp
    have hoffset := (Nat.mul_lt_mul_right hsize).2 hlt
    cases fuel with
    | zero =>
      rw [partitionFrom, if_pos hoffset]
      exact .inl rfl
    | succ fuel =>
      have hx : (p :: (low ++ x :: items))[1 + low.length]? = some x := by
        simp [Nat.add_comm 1]
      by_cases hle : comparator x p ≤ 0
      · have hstep := partitionFrom_low fuel (i := 0) hsize h hlt rfl hx hle
        have hrest := ih (low ++ [x]) fuel (by simpa using h)
          (by simpa [hle] using hitems)
        rw [List.append_assoc, length_append, length_singleton, List.singleton_append,
          ← Nat.add_assoc, show 1 + low.length + 1 + items.length =
            1 + low.length + (x :: items).length by simp; omega] at hrest
        rw [Nat.zero_mul] at hstep
        rwa [hstep]
      · have hfirst := element_of_getElem? (i := 0) h rfl
        have hbehind := element_behind hsize h
        rw [show (p :: (low ++ x :: items)).length = 1 + low.length + (x :: items).length by
          simp; omega] at hbehind
        rw [Nat.zero_mul] at hfirst
        rw [partitionFrom, if_pos hoffset, element_of_getElem? h hx, ok_bind, hfirst, ok_bind,
          if_neg hle, hbehind]
        exact .inr rfl

end

end

/-! ## Sorting -/

section

variable {comparator : List UInt8 → List UInt8 → Int} {elementSize : Nat}
  {front items rest blocks : List (List UInt8)} {p s : List UInt8} {fuel k m : Nat}

theorem sort_done (h : ¬ k < m) (hsize : 0 < elementSize) (array : List UInt8) :
    sort comparator elementSize fuel (k * elementSize) (m * elementSize) array = .ok (some array) := by
  have hoffset : ¬ k * elementSize < m * elementSize := by rwa [Nat.mul_lt_mul_right hsize]
  cases fuel with
  | zero | succ fuel => rw [sort, if_neg hoffset]; rfl

theorem sort_step {array array' sorted : List UInt8} {lower : Nat} (hkm : k < m)
    (hsize : 0 < elementSize)
    (hpartition : partitionFrom comparator elementSize (k * elementSize) fuel array
      ((k + 1) * elementSize) (m * elementSize) =
        .ok (some (array', (lower + 1) * elementSize, (lower + 1) * elementSize)))
    {pivoted : List UInt8}
    (hswap : swapBytes elementSize (k * elementSize) (lower * elementSize) array' = .ok pivoted)
    (hlower : sort comparator elementSize fuel (k * elementSize) (lower * elementSize) pivoted =
      .ok (some sorted)) :
    sort comparator elementSize (fuel + 1) (k * elementSize) (m * elementSize) array =
      sort comparator elementSize fuel ((lower + 1) * elementSize) (m * elementSize) sorted := by
  rw [Nat.succ_mul] at hpartition
  rw [sort, if_pos ((Nat.mul_lt_mul_right hsize).2 hkm), hpartition, ok_bind]
  show (swapBytes elementSize (k * elementSize) ((lower + 1) * elementSize - elementSize) array' >>=
    _) = _
  rw [Nat.succ_mul, Nat.add_sub_cancel, hswap, ok_bind, hlower, ok_bind]

theorem swapBytes_pivot {low : List (List UInt8)} (h : Sized elementSize (front ++ p :: (low ++ rest))) :
    ∃ low', swapBytes elementSize (front.length * elementSize)
        ((front.length + low.length) * elementSize) (front ++ p :: (low ++ rest)).flatten =
          .ok (front ++ (low' ++ p :: rest)).flatten ∧
      low'.Perm low := by
  rcases List.eq_nil_or_concat low with rfl | ⟨inner, z, rfl⟩
  · exact ⟨[], swapBytes_element h, .refl _⟩
  · rw [List.concat_eq_append] at *
    refine ⟨z :: inner, ?_, (List.perm_append_singleton z inner).symm⟩
    have hswap := swapBytes_elements
      (show Sized elementSize (front ++ p :: (inner ++ z :: rest)) by simpa using h)
    rw [length_append, length_singleton, Nat.add_comm inner.length, ← Nat.add_assoc]
    simpa using hswap

theorem sort_bounded (front items rest : List (List UInt8)) (fuel : Nat)
    (hcmp : OrdersElements comparator elementSize) (hsize : 0 < elementSize)
    (h : Sized elementSize (front ++ (items ++ s :: rest))) (hbound : ∀ a ∈ items, comparator a s ≤ 0)
    (hfuel : 2 * items.length ≤ fuel) :
    ∃ items', sort comparator elementSize fuel (front.length * elementSize)
        ((front.length + items.length) * elementSize) (front ++ (items ++ s :: rest)).flatten =
          .ok (some (front ++ (items' ++ s :: rest)).flatten) ∧
      items'.Perm items ∧ Ascending comparator items' := by
  induction fuel generalizing front items s rest with
  | zero =>
    have hempty : items.length = 0 := by omega
    obtain rfl := List.length_eq_zero_iff.1 hempty
    exact ⟨[], sort_done (Nat.lt_irrefl _) hsize _, .refl _, .nil⟩
  | succ fuel ih =>
    cases items with
    | nil => exact ⟨[], sort_done (Nat.lt_irrefl _) hsize _, .refl _, .nil⟩
    | cons p items =>
      rw [length_cons] at hfuel
      obtain ⟨low, tail, hpartition, hperm, hlow, htail⟩ := partitionFrom_bounded [] items fuel
        hcmp hsize h (by simp)
        (fun a ha => hbound a (mem_cons_of_mem p ha)) (by omega)
      rw [List.nil_append] at hperm
      have hlength : low.length + tail.length = items.length := by
        rw [← hperm.length_eq, length_append]
      have hsized : Sized elementSize (front ++ p :: (low ++ (tail ++ s :: rest))) := by
        refine h.perm (List.Perm.append_left _ (List.Perm.cons p ?_))
        rw [← List.append_assoc]
        exact hperm.append_right _
      obtain ⟨low', hswap, hlow'⟩ := swapBytes_pivot hsized
      have hsized' := hsized.perm (List.Perm.append_left _ (List.perm_middle.trans
          ((hlow'.append_right _).cons p)))
      -- the pivot bounds the first range, the bound of the whole range the second one
      obtain ⟨lower, hlower, hpermLower, hascLower⟩ := ih front low'
        (tail ++ s :: rest) hsized' (fun a ha => hlow a (hlow'.mem_iff.1 ha))
        (by rw [hlow'.length_eq]; omega)
      have hlowerLength : lower.length = low.length := hpermLower.length_eq.trans hlow'.length_eq
      have hsized'' : Sized elementSize ((front ++ (lower ++ [p])) ++ (tail ++ s :: rest)) := by
        have hboth := hsized'.perm (List.Perm.append_left front (hpermLower.append_right
          (p :: (tail ++ s :: rest))))
        simpa using hboth
      obtain ⟨upper, hupper, hpermUpper, hascUpper⟩ := ih (front ++ (lower ++ [p])) tail rest
        hsized''
        (fun a ha => hbound a (mem_cons_of_mem p (hperm.mem_iff.1
          (List.mem_append_right low ha)))) (by omega)
      have hp : p.length = elementSize := h p (by simp)
      have hmem : ∀ a ∈ lower ++ upper, a ∈ items := by
        intro a ha
        rw [← hperm.mem_iff, List.mem_append, ← hlow'.mem_iff, ← hpermLower.mem_iff,
          ← hpermUpper.mem_iff, ← List.mem_append]
        exact ha
      have hsizedItem : ∀ a ∈ lower ++ upper, a.length = elementSize := by
        intro a ha
        exact h a (by simp [hmem a ha])
      have hbelow : ∀ a ∈ lower, comparator a p ≤ 0 := by
        intro a ha
        exact hlow a (hlow'.mem_iff.1 (hpermLower.mem_iff.1 ha))
      have habove : ∀ a ∈ upper, comparator p a ≤ 0 := by
        intro a ha
        exact hcmp.of_pos (hsizedItem a (List.mem_append_right lower ha)) hp
          (htail a (hpermUpper.mem_iff.1 ha))
      refine ⟨lower ++ p :: upper, ?_, ?_, ?_⟩
      · rw [length_nil, Nat.add_zero, Nat.add_right_comm front.length 1 items.length,
          Nat.add_right_comm front.length 1 low.length] at hpartition
        rw [hlow'.length_eq] at hlower
        have hstep := sort_step (by omega) hsize hpartition hswap hlower
        rw [length_append, length_append, hlowerLength, length_singleton] at hupper
        have hend : front.length + items.length + 1 =
            front.length + (low.length + 1) + tail.length := by omega
        have hshape : (front ++ (lower ++ [p]) ++ (upper ++ s :: rest)) =
            front ++ (lower ++ p :: upper ++ s :: rest) := by simp
        rw [hshape, ← hend, ← Nat.add_assoc] at hupper
        refine hstep.trans (Eq.trans ?_ hupper)
        simp
      · refine List.perm_middle.trans (List.Perm.cons p ?_)
        exact ((hpermLower.trans hlow').append hpermUpper).trans hperm
      · refine List.pairwise_append.2 ⟨hascLower, List.pairwise_cons.2 ⟨habove, hascUpper⟩, ?_⟩
        intro a ha b hb
        rcases List.mem_cons.1 hb with rfl | hb
        · exact hbelow a ha
        · exact hcmp.trans (hsizedItem a (List.mem_append_left upper ha)) hp
            (hsizedItem b (List.mem_append_right lower hb)) (hbelow a ha) (habove b hb)

theorem sort_first_greatest (hcmp : OrdersElements comparator elementSize) (hsize : 0 < elementSize)
    (h : Sized elementSize (p :: items)) (hitems : ∀ a ∈ items, comparator a p ≤ 0)
    (hfuel : 2 * items.length < fuel) :
    ∃ blocks', sort comparator elementSize fuel 0 ((items.length + 1) * elementSize)
        (p :: items).flatten = .ok (some blocks'.flatten) ∧
      blocks'.Perm (p :: items) ∧ Ascending comparator blocks' := by
  obtain ⟨fuel, rfl⟩ := Nat.exists_eq_add_of_le' (Nat.zero_lt_of_lt hfuel)
  have hpartition := partitionFrom_all [] items fuel hsize h hitems (by omega)
  rw [List.nil_append, length_nil, Nat.add_zero, Nat.add_comm 1] at hpartition
  obtain ⟨lower, hswap, hlower⟩ := swapBytes_pivot
    (show Sized elementSize ([] ++ p :: (items ++ [])) by simpa using h)
  have hsized := h.perm ((List.perm_append_singleton p lower).trans (hlower.cons p))
  obtain ⟨sorted, hsort, hperm, hasc⟩ := sort_bounded [] lower [] fuel hcmp hsize hsized
    (fun a ha => hitems a (hlower.mem_iff.1 ha)) (by rw [hlower.length_eq]; omega)
  have hsorted : ∀ a ∈ sorted, comparator a p ≤ 0 := by
    intro a ha
    exact hitems a (hlower.mem_iff.1 (hperm.mem_iff.1 ha))
  refine ⟨sorted ++ [p], ?_, ?_, ?_⟩
  · rw [hlower.length_eq] at hsort
    rw [length_nil, Nat.zero_add, List.append_nil] at hswap
    rw [length_nil, Nat.zero_add] at hsort
    have hstep := sort_step (m := items.length + 1) (by omega) hsize
      (by rwa [Nat.zero_mul, Nat.zero_add]) hswap hsort
    rw [Nat.zero_mul] at hstep
    rw [hstep]
    exact sort_done (Nat.lt_irrefl _) hsize _
  · exact (List.perm_append_singleton p sorted).trans ((hperm.trans hlower).cons p)
  · refine List.pairwise_append.2 ⟨hasc, List.pairwise_singleton _ p, ?_⟩
    intro a ha b hb
    rw [List.mem_singleton.1 hb]
    exact hsorted a ha

theorem sort_first_exceeded (fuel : Nat) (hsize : 0 < elementSize) (h : Sized elementSize (p :: items))
    (hitems : ¬ ∀ a ∈ items, comparator a p ≤ 0) :
    sort comparator elementSize fuel 0 ((items.length + 1) * elementSize) (p :: items).flatten =
        .ok none ∨
      sort comparator elementSize fuel 0 ((items.length + 1) * elementSize) (p :: items).flatten =
        .error .access := by
  have hend : 0 < (items.length + 1) * elementSize := Nat.mul_pos (Nat.succ_pos _) hsize
  cases fuel with
  | zero =>
    rw [sort, if_pos hend]
    exact .inl rfl
  | succ fuel =>
    have hbehind := partitionFrom_behind [] items fuel hsize h hitems
    rw [List.nil_append, length_nil, Nat.add_zero, Nat.one_mul, Nat.add_comm 1] at hbehind
    rw [sort, if_pos hend, Nat.zero_add]
    rcases hbehind with hrun | hrun
    · rw [hrun]
      exact .inl rfl
    · rw [hrun]
      exact .inr rfl

end

/-! ## Which arrays are sorted -/

/-- The call ends, without an access outside of the array, and has left its elements sorted. -/
def Sorts (comparator : List UInt8 → List UInt8 → Int) (elementSize : Nat)
    (blocks : List (List UInt8)) : Prop :=
  ∃ fuel blocks',
    qsort comparator elementSize fuel blocks.flatten blocks.length = .ok (some blocks'.flatten) ∧
      blocks'.Perm blocks ∧ Ascending comparator blocks'

/-- The arrays that are sorted are those whose first element is not less than any other. -/
theorem sorts_iff {comparator : List UInt8 → List UInt8 → Int} {elementSize : Nat}
    {blocks : List (List UInt8)} (hcmp : OrdersElements comparator elementSize)
    (hsize : 0 < elementSize) (h : Sized elementSize blocks)
    (hbytes : blocks.length * elementSize < 2 ^ 32) :
    Sorts comparator elementSize blocks ↔
      ∀ first rest, blocks = first :: rest → ∀ a ∈ rest, comparator a first ≤ 0 := by
  constructor
  · rintro ⟨fuel, blocks', hrun, -, -⟩ first rest rfl
    by_contra hitems
    rw [qsort, u32_of_lt hbytes] at hrun
    rcases sort_first_exceeded fuel hsize h hitems with hstuck | hstuck
    · rw [length_cons, hstuck] at hrun
      exact absurd (Except.ok.inj hrun) (by simp)
    · rw [length_cons, hstuck] at hrun
      exact absurd hrun (by simp)
  · intro hgreatest
    cases blocks with
    | nil =>
      refine ⟨0, [], ?_, .refl _, .nil⟩
      rw [qsort, u32_of_lt hbytes, length_nil, Nat.zero_mul]
      rfl
    | cons first rest =>
      obtain ⟨blocks', hrun, hperm, hasc⟩ := sort_first_greatest hcmp hsize h
        (hgreatest first rest rfl) (Nat.lt_succ_self _)
      refine ⟨2 * rest.length + 1, blocks', ?_, hperm, hasc⟩
      rw [qsort, u32_of_lt hbytes]
      exact hrun

/-- Compares the first bytes. -/
def compareBytes (a b : List UInt8) : Int :=
  ((a.headD 0).toNat : Int) - (b.headD 0).toNat

theorem compareBytes_orders (elementSize : Nat) : OrdersElements compareBytes elementSize where
  total a b := by
    simp only [compareBytes]
    omega
  trans a b c hab hbc := by
    simp only [compareBytes] at *
    omega

theorem greatest_first_sorted : Sorts compareBytes 1 [[3], [1], [2]] :=
  (sorts_iff (compareBytes_orders 1) (by decide) (by simp [Sized]) (by decide)).2
    (by rintro first rest ⟨⟩; decide)

/-- Two bytes in order: the element behind the array is read. -/
theorem ascending_pair_not_sorted : OrdersElements compareBytes 1 ∧ Sized 1 [[1], [2]] ∧
    ¬ Sorts compareBytes 1 [[1], [2]] ∧ qsort compareBytes 1 3 [1, 2] 2 = .error .access := by
  refine ⟨compareBytes_orders 1, by simp [Sized], ?_, by decide +kernel⟩
  rintro ⟨fuel, blocks', hrun, -, -⟩
  have hsized : Sized 1 [[1], [2]] := by simp [Sized]
  rw [qsort, u32_of_lt (by decide)] at hrun
  have hexceeded : ¬ ∀ a ∈ [([2] : List UInt8)], compareBytes a [1] ≤ 0 := by decide
  rcases sort_first_exceeded fuel (by decide) hsized hexceeded with hstuck | hstuck
  · exact absurd (Except.ok.inj (hstuck.symm.trans hrun)) (by simp)
  · cases hstuck.symm.trans hrun

end LibC
