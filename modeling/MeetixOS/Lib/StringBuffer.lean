import Mathlib.Data.List.Basic
import Mathlib.Data.List.TakeDrop

/-! # Strings in buffers

A buffer of characters in which strings end with a terminator, here `none`, so that no character can be
taken for one. Every write is checked against the length of the buffer. A buffer is described by the
pieces it consists of; each operation has one rule that says what it makes of them. -/

open Option (bind_eq_bind bind_eq_some_iff bind_some)

namespace MeetixOS.Lib.StringBuffer

variable {α : Type}

/-- A buffer; `none` ends a string. -/
abbrev Buffer (α : Type) : Type := List (Option α)

/-- The string at the start of a buffer. -/
def read : Buffer α → List α
  | some c :: b => c :: read b
  | _ => []

/-- `out[i] = c`. -/
def write (out : Buffer α) (i : Nat) (c : Option α) : Option (Buffer α) :=
  if i < out.length then some (out.set i c) else none

/-- `Memory::copy` of characters to `&out[i]`. -/
def copy : List α → Nat → Buffer α → Option (Buffer α)
  | [], _, out => some out
  | c :: source, i, out => do copy source (i + 1) (← write out i (some c))

/-- `for ( int i = last; i >= 0; i-- ) out[i + k] = out[i];`. -/
def shift (k : Nat) : (last : Nat) → Buffer α → Option (Buffer α)
  | 0, out => do write out k (← out[0]?)
  | last + 1, out => do
      let out ← write out (last + 1 + k) (← out[last + 1]?)
      shift k last out

/-- `Memory::copy` of `length` cells from `&out[source]` to `&out[target]` in the same buffer. -/
def copyWithin : (target source length : Nat) → Buffer α → Option (Buffer α)
  | _, _, 0, out => some out
  | target, source, length + 1, out => do
      copyWithin (target + 1) (source + 1) length (← write out target (← out[source]?))

theorem read_append (s : List α) (b : Buffer α) : read (s.map some ++ none :: b) = s := by
  induction s with
  | nil => rfl
  | cons c s ih => rw [List.map_cons, List.cons_append, read, ih]

variable {i k last : Nat}

theorem write_append {before after : Buffer α} {x c : Option α} (hi : i = before.length) :
    write (before ++ x :: after) i c = some (before ++ c :: after) := by
  subst hi
  rw [write, if_pos (by simp), List.set_append_right _ _ (Nat.le_refl _), Nat.sub_self, List.set_cons_zero]

theorem copy_append {source : List α} {before middle after : Buffer α}
    (hi : i = before.length) (hlen : middle.length = source.length) :
    copy source i (before ++ (middle ++ after)) = some (before ++ (source.map some ++ after)) := by
  induction source generalizing before middle i with
  | nil =>
    rw [List.length_nil, List.length_eq_zero_iff] at hlen
    rw [hlen, copy]
    rfl
  | cons c source ih =>
    obtain ⟨x, middle, rfl⟩ := List.exists_cons_of_length_eq_add_one hlen
    rw [copy, List.cons_append, write_append hi, bind_eq_bind, bind_some]
    have hbefore : i + 1 = (before ++ [some c]).length := by rw [hi, List.length_append]; rfl
    have hrec := ih hbefore (Nat.succ.inj hlen)
    simpa using hrec

variable {out : Buffer α}

theorem copy_write {s : List α} (h : s.length < out.length) :
    ∃ copied rest, copy s 0 out = some copied ∧
      write copied s.length none = some (s.map some ++ none :: rest) ∧
      s.length + rest.length + 1 = out.length := by
  obtain ⟨x, rest, hrest⟩ := List.exists_cons_of_length_pos
    (show 0 < (out.drop s.length).length by rw [List.length_drop]; omega)
  have hfront : (out.take s.length).length = s.length := by
    rw [List.length_take]
    omega
  have hcopy : copy s 0 ([] ++ (out.take s.length ++ x :: rest)) = _ := copy_append rfl hfront
  rw [List.nil_append, List.nil_append, ← hrest, List.take_append_drop] at hcopy
  refine ⟨_, rest, hcopy, ?_, ?_⟩
  · rw [hrest]
    exact write_append (by rw [List.length_map])
  · have hlen := congrArg List.length hrest
    rw [List.length_drop, List.length_cons] at hlen
    omega

variable {out out' : Buffer α}

theorem write_length {c : Option α} (h : write out i c = some out') :
    out'.length = out.length := by
  rw [write] at h
  split at h
  next =>
    cases h
    exact List.length_set
  next => cases h

theorem copy_length {source : List α}
    (h : copy source i out = some out') : out'.length = out.length := by
  induction source generalizing i out with
  | nil =>
    cases h
    rfl
  | cons c source ih =>
    obtain ⟨out1, hwrite, h⟩ := bind_eq_some_iff.1 h
    exact (ih h).trans (write_length hwrite)

theorem shift_length (h : shift k last out = some out') :
    out'.length = out.length := by
  induction last generalizing out with
  | zero =>
    obtain ⟨c, -, h⟩ := bind_eq_some_iff.1 h
    exact write_length h
  | succ last ih =>
    obtain ⟨c, -, h⟩ := bind_eq_some_iff.1 h
    obtain ⟨out1, hwrite, h⟩ := bind_eq_some_iff.1 h
    exact (ih h).trans (write_length hwrite)

theorem write_of_le (h : out.length ≤ i) (c : Option α) : write out i c = none :=
  if_neg (Nat.not_lt.2 h)

theorem write_of_lt (h : i < out.length) (c : Option α) :
    write out i c = some (out.take i ++ c :: out.drop (i + 1)) := by
  rw [write, if_pos h, List.set_eq_take_append_cons_drop, if_pos h]

/-- The `last + 1` cells in front move up by `k`; what was there first stays behind. -/
theorem shift_eq (h : last + 1 + k ≤ out.length) :
    shift k last out = some (out.take k ++ (out.take (last + 1) ++ out.drop (last + 1 + k))) := by
  induction last generalizing out with
  | zero =>
    obtain ⟨x, rest, rfl⟩ := List.exists_cons_of_length_pos (show 0 < out.length by omega)
    have hlt : k < (x :: rest).length := by omega
    exact (write_of_lt hlt x).trans (by simp [Nat.add_comm k])
  | succ last ih =>
    have hlast : last + 1 < out.length := by omega
    rw [shift, List.getElem?_eq_getElem hlast, bind_eq_bind, bind_some,
      write_of_lt (by omega), bind_eq_bind, bind_some, ih (by simp; omega)]
    -- the cell that was written first is behind the ones that are still to be moved
    have htake : ∀ n, n ≤ last + 1 + k →
        (out.take (last + 1 + k) ++ out[last + 1] :: out.drop (last + 1 + k + 1)).take n =
          out.take n := fun n hn => by
      rw [List.take_append_of_le_length (by rw [List.length_take]; omega), List.take_take,
        Nat.min_eq_left hn]
    have hdrop : (out.take (last + 1 + k) ++ out[last + 1] :: out.drop (last + 1 + k + 1)).drop
        (last + 1 + k) = out[last + 1] :: out.drop (last + 1 + k + 1) := by
      rw [List.drop_append_of_le_length (by rw [List.length_take]; omega),
        List.drop_take_self, List.nil_append]
    rw [htake k (by omega), htake (last + 1) (by omega), hdrop, List.take_succ_eq_append_getElem hlast,
      List.append_assoc, List.singleton_append, Nat.add_right_comm (last + 1) k]

theorem shift_eq_none (h : out.length ≤ last + k) : shift k last out = none := by
  cases last with
  | zero =>
    rw [shift, bind_eq_bind, Option.bind_eq_none_iff]
    intro c _
    exact write_of_le (by omega) c
  | succ last =>
    rw [shift, bind_eq_bind, Option.bind_eq_none_iff]
    intro c _
    rw [write_of_le h c]
    rfl

theorem copyWithin_eq {target source length : Nat} (hle : target ≤ source)
    (h : source + length ≤ out.length) :
    copyWithin target source length out =
      some (out.take target ++ ((out.drop source).take length ++ out.drop (target + length))) := by
  induction length generalizing target source out with
  | zero => simp [copyWithin]
  | succ length ih =>
    have hsource : source < out.length := by omega
    have htarget : target < out.length := by omega
    rw [copyWithin, List.getElem?_eq_getElem hsource, bind_eq_bind, bind_some, write,
      if_pos htarget, bind_eq_bind, bind_some,
      ih (Nat.succ_le_succ hle) (by rw [List.length_set]; omega), Option.some.injEq]
    have htake : (out.set target out[source]).take (target + 1) = out.take target ++ [out[source]] := by
      rw [List.take_succ_eq_append_getElem (by rwa [List.length_set]), List.take_set_of_le (Nat.le_refl _),
        List.getElem_set_self]
    have hdrop : (out.drop source).take (length + 1) =
        out[source] :: (out.drop (source + 1)).take length := by
      rw [List.drop_eq_getElem_cons hsource, List.take_succ_cons]
    rw [htake, hdrop, List.drop_set_of_lt (by omega), List.drop_set_of_lt (by omega),
      List.append_assoc, List.singleton_append, List.cons_append, Nat.add_right_comm target 1 length]
    rfl

end MeetixOS.Lib.StringBuffer
