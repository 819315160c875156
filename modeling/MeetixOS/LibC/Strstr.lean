import MeetixOS.LibC.Vcbprintf
import MeetixOS.Lib.Occurrence

/-! # `strstr`

The search for a string in a string. An address that it answers is the distance from the start of the
first string, null is `none`, and the outer `Option` is that of the reads: a string can be read up to its
terminating zero, and not behind it. -/

open Occurrence

namespace LibC

/-- The character at an index, where the string reaches that far. -/
def CString.read (str : CString) (i : Nat) : Option UInt8 :=
  (str.bytes ++ [0])[i]?

variable {str strA strB : CString} {i : Nat}

theorem CString.read_of_lt (h : i < str.bytes.length) :
    ∃ c, str.read i = some c ∧ str.bytes[i]? = some c ∧ c ≠ 0 := by
  refine ⟨str.bytes[i], ?_, List.getElem?_eq_getElem h, str.ne_zero _ (List.getElem_mem h)⟩
  rw [read, List.getElem?_append_left h, List.getElem?_eq_getElem h]

theorem CString.read_length (str : CString) : str.read str.bytes.length = some 0 := by
  simp [read]

theorem CString.lt_of_read {c : UInt8} (h : str.read i = some c) :
    i < str.bytes.length + 1 := by
  have hlt := (List.getElem?_eq_some_iff.1 h).1
  simpa using hlt

/-- The inner loop of `strstr`, whose condition reads `str_b[i]`: whether the strings are the same. -/
def sameFrom (strA strB : CString) (i j : Nat) : Option Bool :=
  match strB.read i with
  | none => none
  | some c =>
    if c = 0 then some true
    else
      match h : strA.read (i + j), strB.read j with
      | some a, some b => if a ≠ b then some false else sameFrom strA strB i (j + 1)
      | _, _ => none
termination_by strA.bytes.length + 1 - (i + j)
decreasing_by
  have := CString.lt_of_read h
  omega

/-- The outer loop of `strstr`. -/
def strstrFrom (strA strB : CString) (i : Nat) : Option (Option Nat) :=
  match _h : strA.read i with
  | none => none
  | some c =>
    if c = 0 then some none
    else
      match sameFrom strA strB i 0 with
      | none => none
      | some isSame => if isSame then some (some i) else strstrFrom strA strB (i + 1)
termination_by strA.bytes.length + 1 - i
decreasing_by
  have := CString.lt_of_read _h
  omega

def strstr (strA strB : CString) : Option (Option Nat) :=
  match strB.read 0 with
  | none => none
  | some c => if c = 0 then strstrFrom strA strB 0 else some (some 0)

/-! ## When it answers the first place -/

/-- What a search in a string has to answer, without an access behind a string's end: the first place of
the second string, or null when there is none. -/
def FindsString (strA strB : CString) : Prop :=
  ∃ place, strstr strA strB = some place ∧
    Finds strB.bytes strA.bytes (place.map fun i => (i : Int))

theorem strstr_of_ne_nil (h : strB.bytes ≠ []) :
    strstr strA strB = some (some 0) := by
  obtain ⟨c, hread, -, hne⟩ := CString.read_of_lt (List.length_pos_of_ne_nil h)
  simp [strstr, hread, hne]

theorem sameFrom_of_nil (h : strB.bytes = []) :
    sameFrom strA strB 0 0 = some true := by
  have hzero : strB.read 0 = some 0 := by
    have := strB.read_length
    rwa [h] at this
  unfold sameFrom
  simp [hzero]

theorem strstr_of_nil (h : strB.bytes = []) :
    strstr strA strB = some (if strA.bytes = [] then none else some 0) := by
  have hzero : strB.read 0 = some 0 := by
    have := strB.read_length
    rwa [h] at this
  have hfrom : strstr strA strB = strstrFrom strA strB 0 := by simp [strstr, hzero]
  rw [hfrom]
  unfold strstrFrom
  by_cases hempty : strA.bytes = []
  · have hread : strA.read 0 = some 0 := by
      have := strA.read_length
      rwa [hempty] at this
    rw [if_pos hempty]
    split
    · next hnone => exact absurd (hread.symm.trans hnone) (Option.some_ne_none _)
    · next c hc =>
        obtain rfl : 0 = c := Option.mem_unique hread hc
        rfl
  · obtain ⟨c, hread, -, hne⟩ := CString.read_of_lt (List.length_pos_of_ne_nil hempty)
    rw [if_neg hempty]
    split
    · next hnone => exact absurd (hread.symm.trans hnone) (Option.some_ne_none _)
    · next d hd =>
        obtain rfl : c = d := Option.mem_unique hread hd
        rw [if_neg hne, sameFrom_of_nil h]
        rfl

theorem firstAt_zero_iff {needle haystack : List UInt8} :
    FirstAt needle haystack 0 ↔ needle <+: haystack := by
  unfold FirstAt
  rw [occursAt_iff, List.drop_zero]
  exact and_iff_left fun j hj => absurd hj (Nat.not_lt_zero j)

/-- The search is right for a string that is not empty and starts with the second one. -/
theorem strstr_finds_iff (strA strB : CString) :
    FindsString strA strB ↔ strA.bytes ≠ [] ∧ strB.bytes <+: strA.bytes := by
  have hstart : Finds strB.bytes strA.bytes (some 0) ↔ strB.bytes <+: strA.bytes := by
    rw [← firstAt_zero_iff]
    constructor
    · rintro ⟨i, hi, hfirst⟩
      obtain rfl : i = 0 := by simpa using hi.symm
      exact hfirst
    · intro hfirst
      exact ⟨0, rfl, hfirst⟩
  by_cases hneedle : strB.bytes = []
  · have hpre : strB.bytes <+: strA.bytes := by
      rw [hneedle]
      exact List.nil_prefix
    by_cases hempty : strA.bytes = []
    · refine ⟨?_, fun h => absurd hempty h.1⟩
      rintro ⟨place, hplace, hfinds⟩
      rw [strstr_of_nil hneedle, if_pos hempty] at hplace
      injection hplace with hplace
      subst hplace
      exact absurd hpre.isInfix (finds_none_iff.1 hfinds)
    · refine ⟨fun _ => ⟨hempty, hpre⟩, fun _ => ⟨some 0, ?_, hstart.2 hpre⟩⟩
      rw [strstr_of_nil hneedle, if_neg hempty]
  · constructor
    · rintro ⟨place, hplace, hfinds⟩
      rw [strstr_of_ne_nil hneedle] at hplace
      injection hplace with hplace
      subst hplace
      have hpre := hstart.1 hfinds
      refine ⟨?_, hpre⟩
      intro hempty
      rw [hempty] at hpre
      exact hneedle (List.prefix_nil.1 hpre)
    · rintro ⟨-, hpre⟩
      exact ⟨some 0, strstr_of_ne_nil hneedle, hstart.2 hpre⟩

/-- The string "ab". -/
def abString : CString where
  bytes := [97, 98]
  ne_zero := forall_mem_of_all (by decide)
  length_lt := by decide

/-- The string "b". -/
def bString : CString where
  bytes := [98]
  ne_zero := forall_mem_of_all (by decide)
  length_lt := by decide

/-- "b" is answered to be at the start of "ab". -/
theorem strstr_misses_second_place : ¬ FindsString abString bString := by
  rintro ⟨place, hplace, hfinds⟩
  injection hplace with hplace
  subst hplace
  obtain ⟨i, hi, hfirst⟩ := hfinds
  obtain rfl : i = 0 := by simpa using hi.symm
  exact absurd hfirst.1 (by decide)

end LibC
