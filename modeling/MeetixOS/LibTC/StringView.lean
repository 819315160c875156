import MeetixOS.Kernel.Memory.Paging
import MeetixOS.LibC.Ctype
import MeetixOS.Lib.Slots
import Mathlib.Data.List.DropRight

/-! # `StringView`

A view is what it shows: the characters that `m_chars_ptr` points to, as many as `m_chars_count` says.
`starts_with` takes a shortcut for two views with one pointer, which show the same characters; it is left
out. Loops with an index keep the index and its `VERIFY`s; loops over `begin()` and `end()` go over
the characters. -/

open Slots
open MeetixOS.Kernel (u32 u32_of_lt u32_sub constKernelAreaStart)

namespace LibTC

inductive TrimMode
  | left
  | right
  | both
  deriving DecidableEq, Repr

inductive TrimWhitespace
  | yes
  | no
  deriving DecidableEq, Repr

inductive CaseSensitivity
  | sensitive
  | insensitive
  deriving DecidableEq, Repr

/-- The characters are in the memory of a process, which ends where the kernel's area starts. -/
structure StringView where
  isNull : Bool
  chars : List UInt8
  chars_of_isNull : isNull = true → chars = []
  len_le : chars.length ≤ constKernelAreaStart

namespace StringView

/-- A view of a string literal. -/
def literal (chars : List UInt8) (h : chars.length ≤ constKernelAreaStart) : StringView :=
  ⟨false, chars, fun hnull => absurd hnull Bool.false_ne_true, h⟩

def len (v : StringView) : Nat :=
  v.chars.length

def isEmpty (v : StringView) : Bool :=
  v.len = 0

def isNullOrEmpty (v : StringView) : Bool :=
  v.isNull || v.isEmpty

/-- `at` and `operator[]`. -/
def charAt (v : StringView) (index : Nat) : Checked UInt8 := do
  verify (index < v.len)
  match v.chars[index]? with
  | some c => return c
  | none => .error .access

/-- `sub_string` of a start and a count; the view that leaves the characters where `start + count` wraps
around is no view at all. -/
def subString (start count : Nat) (v : StringView) : Checked StringView := do
  verify (u32 (start + count) ≤ v.len)
  if h : start + count ≤ v.len then
    return {
      isNull := v.isNull
      chars := (v.chars.drop start).take count
      chars_of_isNull := by
        intro hnull
        rw [v.chars_of_isNull hnull, List.drop_nil, List.take_nil]
      len_le := by
        have := v.len_le
        rw [List.length_take, List.length_drop]
        omega
    }
  else
    .error .access

/-- The loop of `contains` for a character. -/
def containsIn (rhs : UInt8) (caseSensitivity : CaseSensitivity) : List UInt8 → Bool
  | [] => false
  | c :: chars =>
    match caseSensitivity with
    | .sensitive =>
      if c = rhs then true else containsIn rhs caseSensitivity chars
    | .insensitive =>
      if LibC.tolower (LibC.charInt c) = LibC.tolower (LibC.charInt rhs) then
        true
      else
        containsIn rhs caseSensitivity chars

def containsChar (v : StringView) (rhs : UInt8) (caseSensitivity : CaseSensitivity) : Bool :=
  if v.isNullOrEmpty then false else containsIn rhs caseSensitivity v.chars

/-! ## `trim` -/

/-- The loop from the left, with `n` rounds left; it ends with what is left, or with `return ""`. -/
def trimLeft (v chars : StringView) : (n i subStart subLen : Nat) → Checked (Option (Nat × Nat))
  | 0, _, subStart, subLen => return some (subStart, subLen)
  | n + 1, i, subStart, subLen => do
      if subLen = 0 then
        return none
      else if !chars.containsChar (← v.charAt i) .sensitive then
        return some (subStart, subLen)
      else
        trimLeft v chars n (i + 1) (subStart + 1) (subLen - 1)

/-- The loop from the right: `for ( ; i > 0; --i )`. -/
def trimRight (v chars : StringView) : (i subLen : Nat) → Checked (Option Nat)
  | 0, subLen => return some subLen
  | i + 1, subLen => do
      if subLen = 0 then
        return none
      else if !chars.containsChar (← v.charAt (i + 1)) .sensitive then
        return some subLen
      else
        trimRight v chars i (subLen - 1)

/-- The second half of `trim`, from the right; `return ""` where nothing is left. -/
def trimEnd (v chars : StringView) (trimMode : TrimMode) (subStart subLen : Nat) :
    Checked StringView := do
  let trimmed ←
    if trimMode = .right ∨ trimMode = .both then
      v.trimRight chars (u32 (v.len + 2 ^ 32 - 1)) subLen
    else
      pure (some subLen)
  match trimmed with
  | none => return literal [] (by decide)
  | some subLen => v.subString subStart subLen

def trim (v chars : StringView) (trimMode : TrimMode) : Checked StringView := do
  let trimmed ←
    if trimMode = .left ∨ trimMode = .both then
      v.trimLeft chars v.len 0 0 v.len
    else
      pure (some (0, v.len))
  match trimmed with
  | none => return literal [] (by decide)
  | some (subStart, subLen) => v.trimEnd chars trimMode subStart subLen

/-- `" \n\t\v\f\r"`. -/
def whitespaces : StringView :=
  literal [32, 10, 9, 11, 12, 13] (by decide)

def trimWhitespaces (v : StringView) (trimMode : TrimMode) : Checked StringView :=
  v.trim whitespaces trimMode

/-! ### What is left of the characters -/

variable {v chars : StringView}

theorem len_lt (v : StringView) : v.len < 2 ^ 32 :=
  Nat.lt_of_le_of_lt v.len_le (by decide)

theorem isEmpty_iff (v : StringView) : v.isEmpty = true ↔ v.chars = [] := by
  rw [isEmpty, len, decide_eq_true_iff, List.length_eq_zero_iff]

theorem isNullOrEmpty_iff (v : StringView) : v.isNullOrEmpty = true ↔ v.chars = [] := by
  rw [isNullOrEmpty, Bool.or_eq_true, isEmpty_iff]
  exact or_iff_right_of_imp v.chars_of_isNull

variable {rest front cs block : List UInt8} {c : UInt8}

theorem charAt_append {i : Nat} (h : v.chars = front ++ c :: rest)
    (hi : i = front.length) : v.charAt i = .ok c := by
  have hlt : i < v.len := by
    rw [len, h, hi, List.length_append, List.length_cons]
    omega
  rw [charAt, verify_of hlt, ok_bind, h, hi, List.getElem?_append_right (Nat.le_refl _), Nat.sub_self]
  rfl

theorem subString_eq {start count : Nat} (h : start + count ≤ v.len) :
    ∃ r, v.subString start count = .ok r ∧ r.chars = (v.chars.drop start).take count := by
  have hlt := v.len_lt
  rw [subString, u32_of_lt (by omega), verify_of (show start + count ≤ v.len from h), ok_bind,
    dif_pos (show start + count ≤ v.len from h)]
  exact ⟨_, rfl, rfl⟩

theorem containsIn_sensitive :
    containsIn c .sensitive cs = true ↔ c ∈ cs := by
  induction cs with
  | nil => simp [containsIn]
  | cons x cs ih =>
    rw [containsIn, List.mem_cons]
    by_cases hx : x = c
    · simp [hx]
    · simp [hx, ih, Ne.symm hx]

theorem containsChar_sensitive : chars.containsChar c .sensitive = decide (c ∈ chars.chars) := by
  rw [containsChar]
  by_cases hempty : chars.isNullOrEmpty = true
  · rw [if_pos hempty, (isNullOrEmpty_iff chars).1 hempty]
    rfl
  · rw [if_neg hempty, Bool.eq_iff_iff, containsIn_sensitive, decide_eq_true_iff]

/-- What the modes take away, the longest run of the characters on each side. -/
def trimmed (set : List UInt8) (trimMode : TrimMode) (cs : List UInt8) : List UInt8 :=
  match trimMode with
  | .left => cs.dropWhile (· ∈ set)
  | .right => cs.rdropWhile (· ∈ set)
  | .both => (cs.dropWhile (· ∈ set)).rdropWhile (· ∈ set)

/-! ### The two loops -/

theorem trimLeft_eq (chars : StringView) (h : v.chars = front ++ block) :
    v.trimLeft chars block.length front.length front.length block.length =
      .ok (some (front.length + (block.takeWhile (· ∈ chars.chars)).length,
        (block.dropWhile (· ∈ chars.chars)).length)) := by
  induction block generalizing front with
  | nil => rfl
  | cons c block ih =>
    rw [List.length_cons, trimLeft, if_neg (Nat.succ_ne_zero _), charAt_append h rfl, ok_bind,
      containsChar_sensitive]
    by_cases hc : c ∈ chars.chars
    · have hrest := ih (show v.chars = (front ++ [c]) ++ block by rw [h, List.append_assoc]; rfl)
      rw [List.length_append, List.length_singleton] at hrest
      rw [if_neg (by simp [hc]), Nat.add_sub_cancel, hrest]
      simp [hc]
      omega
    · simp [hc]

/-- What the loop from the left leaves first is the last character that the loop from the right comes
to. -/
theorem trimRight_eq
    (h : v.chars = front ++ c :: (block ++ rest)) (hc : front = [] ∨ c ∉ chars.chars) :
    v.trimRight chars (front.length + block.length) (block.length + 1) =
      .ok (some ((block.rdropWhile (· ∈ chars.chars)).length + 1)) := by
  induction block using List.reverseRecOn generalizing rest with
  | nil =>
    rcases hc with rfl | hc
    · rfl
    · cases hfront : front.length with
      | zero => rfl
      | succ k =>
        rw [List.length_nil, Nat.add_zero, trimRight, if_neg (Nat.succ_ne_zero _),
          charAt_append h hfront.symm, ok_bind, containsChar_sensitive]
        simp [hc]
  | append_singleton block d ih =>
    have hchars : v.chars = (front ++ c :: block) ++ d :: rest := by simp [h]
    have hat := charAt_append hchars (i := front.length + block.length + 1) (by simp; omega)
    rw [List.length_append, List.length_singleton, ← Nat.add_assoc, trimRight,
      if_neg (Nat.succ_ne_zero _), hat, ok_bind, containsChar_sensitive]
    by_cases hd : d ∈ chars.chars
    · have hrest := ih (show v.chars = front ++ c :: (block ++ d :: rest) by rw [h]; simp)
      rw [List.rdropWhile_concat_pos _ _ _ (by simp [hd]), if_neg (by simp [hd]), Nat.add_sub_cancel,
        hrest]
    · rw [List.rdropWhile_concat_neg _ _ _ (by simp [hd]), if_pos (by simp [hd])]
      simp

theorem trimRight_zero (v chars : StringView) (i : Nat) :
    v.trimRight chars i 0 = .ok none ∨ v.trimRight chars i 0 = .ok (some 0) := by
  cases i with
  | zero => exact .inr rfl
  | succ i => exact .inl rfl

/-! ### The characters that are left -/

/-- `trim` gives a view of what the mode leaves, and stops at no `VERIFY`. -/
def Trims (v chars : StringView) (trimMode : TrimMode) : Prop :=
  ∃ r, v.trim chars trimMode = .ok r ∧ r.chars = trimmed chars.chars trimMode v.chars

theorem rdropWhile_cons (p : UInt8 → Bool) (c : UInt8) (cs : List UInt8) :
    (c :: cs).rdropWhile p = if (c :: cs).all p then [] else c :: cs.rdropWhile p := by
  induction cs using List.reverseRecOn with
  | nil => simp [List.rdropWhile_singleton]
  | append_singleton cs d ih =>
    rw [← List.cons_append, List.rdropWhile_concat, List.rdropWhile_concat, List.all_append, ih]
    by_cases hd : p d = true
    · simp [hd]
    · simp [hd]

theorem trimLeft_all (v chars : StringView) :
    ∃ front, v.chars = front ++ v.chars.dropWhile (· ∈ chars.chars) ∧
      v.trimLeft chars v.len 0 0 v.len =
        .ok (some (front.length, (v.chars.dropWhile (· ∈ chars.chars)).length)) := by
  have hloop := trimLeft_eq chars (show v.chars = [] ++ v.chars from rfl)
  rw [List.length_nil, Nat.zero_add] at hloop
  exact ⟨_, List.takeWhile_append_dropWhile.symm, hloop⟩

theorem subString_append {v : StringView} (h : v.chars = front ++ (block ++ rest)) :
    ∃ r, v.subString front.length block.length = .ok r ∧ r.chars = block := by
  have hle : front.length + block.length ≤ v.len := by
    rw [len, h, List.length_append, List.length_append]
    omega
  obtain ⟨r, hr, hchars⟩ := subString_eq hle
  refine ⟨r, hr, ?_⟩
  rw [hchars, h, List.drop_left, List.take_left]

theorem trim_left (v chars : StringView) : v.Trims chars .left := by
  obtain ⟨front, hsplit, hloop⟩ := trimLeft_all v chars
  obtain ⟨r, hr, hchars⟩ := subString_append (hsplit.trans (by rw [List.append_nil] : _ = _ ++ (_ ++ [])))
  refine ⟨r, ?_, hchars⟩
  rw [trim, if_pos (Or.inl rfl), hloop, ok_bind]
  exact hr

theorem trimEnd_cons {trimMode : TrimMode} (hmode : trimMode = .right ∨ trimMode = .both)
    (h : v.chars = front ++ c :: cs) (hc : front = [] ∨ c ∉ chars.chars) :
    ∃ r, v.trimEnd chars trimMode front.length (c :: cs).length = .ok r ∧
      r.chars = c :: cs.rdropWhile (· ∈ chars.chars) := by
  have hloop := trimRight_eq (show v.chars = front ++ c :: (cs ++ []) by rw [h, List.append_nil]) hc
  have hlen : v.len = front.length + cs.length + 1 := by
    rw [len, h, List.length_append, List.length_cons]
    omega
  have hlast : u32 (v.len + 2 ^ 32 - 1) = v.len - 1 := u32_sub (by omega) v.len_lt
  obtain ⟨after, hafter⟩ := List.rdropWhile_prefix (· ∈ chars.chars) cs
  obtain ⟨r, hr, hchars⟩ := subString_append (show v.chars =
    front ++ ((c :: cs.rdropWhile (· ∈ chars.chars)) ++ after) by rw [List.cons_append, hafter, h])
  refine ⟨r, ?_, hchars⟩
  rw [trimEnd, if_pos hmode, hlast, hlen, Nat.add_sub_cancel, List.length_cons, hloop, ok_bind]
  exact hr

theorem trimEnd_nil (v chars : StringView) {trimMode : TrimMode}
    (hmode : trimMode = .right ∨ trimMode = .both) :
    ∃ r, v.trimEnd chars trimMode v.chars.length 0 = .ok r ∧ r.chars = [] := by
  rw [trimEnd, if_pos hmode]
  rcases trimRight_zero v chars (u32 (v.len + 2 ^ 32 - 1)) with hright | hright
  · rw [hright]
    exact ⟨_, rfl, rfl⟩
  · obtain ⟨r, hr, hchars⟩ := subString_append (show v.chars = v.chars ++ ([] ++ []) by simp)
    rw [hright]
    exact ⟨r, hr, hchars⟩

theorem trim_right_cons (chars : StringView) (h : v.chars = c :: cs) :
    ∃ r, v.trim chars .right = .ok r ∧ r.chars = c :: cs.rdropWhile (· ∈ chars.chars) := by
  obtain ⟨r, hr, hchars⟩ := trimEnd_cons (Or.inl rfl) (show v.chars = [] ++ c :: cs from h) (Or.inl rfl)
  refine ⟨r, ?_, hchars⟩
  rw [trim, if_neg (by decide), pure_eq_ok, ok_bind, len, h]
  exact hr

theorem trim_right_nil (h : v.chars = []) : v.Trims chars .right := by
  obtain ⟨r, hr, hchars⟩ := trimEnd_nil v chars (Or.inl rfl)
  refine ⟨r, ?_, by rw [hchars, h]; rfl⟩
  rw [trim, if_neg (by decide), pure_eq_ok, ok_bind, len, h]
  rwa [h] at hr

theorem trim_both (v chars : StringView) : v.Trims chars .both := by
  obtain ⟨front, hsplit, hloop⟩ := trimLeft_all v chars
  rw [Trims, trim, if_pos (Or.inr rfl), hloop, ok_bind, trimmed]
  cases hblock : v.chars.dropWhile (· ∈ chars.chars) with
  | nil =>
    rw [hblock, List.append_nil] at hsplit
    rw [← hsplit]
    exact trimEnd_nil v chars (Or.inr rfl)
  | cons c cs =>
    have hc : c ∉ chars.chars := by
      have hhead := List.head_dropWhile_not (· ∈ chars.chars) (by rw [hblock]; simp)
      simpa [hblock] using hhead
    obtain ⟨r, hr, hchars⟩ := trimEnd_cons (Or.inr rfl) (hblock ▸ hsplit) (Or.inr hc)
    refine ⟨r, hr, ?_⟩
    rw [hchars, rdropWhile_cons, if_neg (by simp [hc])]

/-! ### Which views are trimmed -/

/-- A single blank stays when it is trimmed from the right. -/
theorem blank_stays : ¬ (literal [32] (by decide)).Trims whitespaces .right := by
  rintro ⟨r, hr, hchars⟩
  obtain ⟨r', hr', hchars'⟩ := trim_right_cons whitespaces
    (show (literal [32] (by decide)).chars = [32] from rfl)
  obtain rfl : r' = r := Except.ok.inj (hr'.symm.trans hr)
  rw [hchars'] at hchars
  exact absurd hchars (by decide)

/-- Trimming is exact, but for views of the characters alone that are trimmed from the right only. -/
theorem trims_iff (v chars : StringView) (trimMode : TrimMode) :
    v.Trims chars trimMode ↔
      ¬ (trimMode = .right ∧ v.chars ≠ [] ∧ ∀ c ∈ v.chars, c ∈ chars.chars) := by
  cases trimMode with
  | left => exact iff_of_true (trim_left v chars) (by simp)
  | both => exact iff_of_true (trim_both v chars) (by simp)
  | right =>
    cases hcs : v.chars with
    | nil => exact iff_of_true (trim_right_nil hcs) (by simp)
    | cons c cs =>
      obtain ⟨r, hr, hchars⟩ := trim_right_cons chars hcs
      have hiff : v.Trims chars .right ↔ r.chars = trimmed chars.chars .right (c :: cs) := by
        rw [Trims, hr, hcs]
        simp
      rw [hiff, hchars, trimmed, rdropWhile_cons]
      by_cases hall : (c :: cs).all (· ∈ chars.chars) = true
      · rw [if_pos hall]
        exact iff_of_false (by simp) (by simpa using hall)
      · rw [if_neg hall]
        exact iff_of_true rfl (by simpa using hall)

end StringView

end LibTC
