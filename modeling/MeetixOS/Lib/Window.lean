import Mathlib.Data.List.Basic
import Mathlib.Order.Nat

/-! # Circular windows of a list

`window xs start n` reads `n` consecutive elements of `xs`, wrapping around at its end, and
`overwrite xs off ys` replaces the elements of `xs` from `off` on by `ys`. Together they describe
a ring buffer: the queued elements are a window, a read shortens it from the left and a write
overwrites the cells right behind it. -/

namespace MeetixOS.Lib

variable {α : Type}

/-! ## One wrap-around -/

theorem mod_eq_ite_of_lt_two_mul {n c : Nat} (h : n < 2 * c) :
    n % c = if n < c then n else n - c := by
  by_cases hn : n < c
  · rw [if_pos hn, Nat.mod_eq_of_lt hn]
  · rw [if_neg hn, Nat.mod_eq_sub_mod (by omega), Nat.mod_eq_of_lt (by omega)]

/-! ## Overwriting a slice -/

/-- `xs` with the elements from `off` on replaced by `ys`. -/
def overwrite (xs : List α) (off : Nat) (ys : List α) : List α :=
  xs.take off ++ ys ++ xs.drop (off + ys.length)

variable {off n start : Nat} {xs ys : List α}

theorem overwrite_length (h : off + ys.length ≤ xs.length) :
    (overwrite xs off ys).length = xs.length := by
  simp only [overwrite, List.length_append, List.length_take, List.length_drop]
  omega

theorem length_overwrite (h : off ≤ xs.length) :
    (overwrite xs off ys).length = max xs.length (off + ys.length) := by
  simp only [overwrite, List.length_append, List.length_take, List.length_drop]
  omega

@[simp] theorem overwrite_nil (xs : List α) (off : Nat) : overwrite xs off [] = xs := by
  simp [overwrite]

theorem overwrite_getElem?_inside {off i : Nat} (hoff : off ≤ xs.length)
    (hi : i < ys.length) : (overwrite xs off ys)[off + i]? = ys[i]? := by
  have htake : (xs.take off).length = off := by rw [List.length_take]; omega
  rw [overwrite, List.append_assoc, List.getElem?_append_right (by omega), htake,
    Nat.add_sub_cancel_left, List.getElem?_append_left hi]

theorem overwrite_getElem?_outside {off i : Nat} (hoff : off ≤ xs.length)
    (hi : i < off ∨ off + ys.length ≤ i) : (overwrite xs off ys)[i]? = xs[i]? := by
  have htake : (xs.take off).length = off := by rw [List.length_take]; omega
  rw [overwrite, List.append_assoc]
  rcases hi with hi | hi
  · rw [List.getElem?_append_left (by omega), List.getElem?_take_of_lt hi]
  · rw [List.getElem?_append_right (by omega), List.getElem?_append_right (by omega), htake,
      List.getElem?_drop]
    congr 1
    omega

theorem overwrite_append {xs ys zs : List α} (h : off ≤ xs.length) :
    overwrite (overwrite xs off ys) (off + ys.length) zs = overwrite xs off (ys ++ zs) := by
  have hlen : (xs.take off ++ ys).length = off + ys.length := by
    rw [List.length_append, List.length_take]
    omega
  simp only [overwrite, List.length_append, ← Nat.add_assoc]
  rw [← hlen, List.take_left, List.drop_append, List.drop_drop]
  simp [List.append_assoc]

/-! ## Windows -/

variable [Inhabited α]

/-- `n` elements of `xs` from `start` on, wrapping around at the end. -/
def window (xs : List α) (start n : Nat) : List α :=
  (List.range n).map fun i => xs.getD ((start + i) % xs.length) default

section

variable (xs : List α)

@[simp] theorem window_length (start n : Nat) : (window xs start n).length = n := by
  simp [window]

theorem window_append (start m n : Nat) :
    window xs start (m + n) = window xs start m ++ window xs (start + m) n := by
  simp only [window, List.range_add, List.map_append, List.map_map]
  congr 1
  apply List.map_congr_left
  intro i _
  simp [Function.comp_apply, Nat.add_assoc]

theorem window_mod (start n : Nat) : window xs (start % xs.length) n = window xs start n := by
  apply List.map_congr_left
  intro i _
  rw [Nat.mod_add_mod]

end

theorem window_eq_slice {xs : List α} (h : start + n ≤ xs.length) :
    window xs start n = (xs.drop start).take n := by
  apply List.ext_getElem
  · simp only [window_length, List.length_take, List.length_drop]
    omega
  · intro i hi _
    rw [window_length] at hi
    have hlt : start + i < xs.length := by omega
    simp [window, Nat.mod_eq_of_lt hlt, List.getD_eq_getElem?_getD, hlt]

theorem window_congr (hlen : xs.length = ys.length)
    (h : ∀ i < n, xs[(start + i) % xs.length]? = ys[(start + i) % xs.length]?) :
    window xs start n = window ys start n := by
  apply List.map_congr_left
  intro i hi
  rw [List.getD_eq_getElem?_getD, List.getD_eq_getElem?_getD, h i (List.mem_range.1 hi), hlen]

theorem window_overwrite_self (h : off + ys.length ≤ xs.length) :
    window (overwrite xs off ys) off ys.length = ys := by
  have hlen := overwrite_length h
  rw [window_eq_slice (by omega)]
  apply List.ext_getElem?
  intro i
  by_cases hi : i < ys.length
  · rw [List.getElem?_take_of_lt hi, List.getElem?_drop,
      overwrite_getElem?_inside (by omega) hi]
  · rw [List.getElem?_eq_none (by rw [List.length_take]; omega),
      List.getElem?_eq_none (by omega)]

theorem window_overwrite_of_disjoint
    (h : off + ys.length ≤ xs.length)
    (hdisj : ∀ i < n, (start + i) % xs.length < off ∨
      off + ys.length ≤ (start + i) % xs.length) :
    window (overwrite xs off ys) start n = window xs start n := by
  have hlen := overwrite_length h
  apply window_congr hlen
  intro i hi
  rw [hlen]
  exact overwrite_getElem?_outside (by omega) (hdisj i hi)

/-- Reading back a write that wrapped: `ys` fills the list to its end, `zs` restarts at the front and
stays below `ys`. -/
theorem window_overwrite_wrap {xs ys zs : List α} (hend : off + ys.length = xs.length)
    (hzs : zs.length ≤ off) :
    window (overwrite (overwrite xs off ys) 0 zs) off (ys.length + zs.length) = ys ++ zs := by
  have hlen := overwrite_length hend.le
  have hin : 0 + zs.length ≤ (overwrite xs off ys).length := by omega
  have hys : window (overwrite (overwrite xs off ys) 0 zs) off ys.length = ys := by
    rw [window_overwrite_of_disjoint hin, window_overwrite_self hend.le]
    intro i hi
    rw [hlen, Nat.mod_eq_of_lt (by omega)]
    omega
  have hzs : window (overwrite (overwrite xs off ys) 0 zs) (off + ys.length) zs.length = zs := by
    rw [← window_mod, overwrite_length hin, hlen, hend, Nat.mod_self, window_overwrite_self hin]
  rw [window_append, hys, hzs]

end MeetixOS.Lib
