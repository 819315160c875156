import MeetixOS.LibTC.StringView
import MeetixOS.LibC.Memmem
import Mathlib.Data.Set.Basic

/-! # The order of string views

`compare` orders views by their bytes; the operators put the lengths before it. `memcmp` is an argument,
with what the C standard says about it as `StandardMemcmp`. -/

namespace LibTC

/-- The sign of `memcmp` is that of the first two bytes that differ, as `unsigned char`. -/
structure StandardMemcmp (memcmp : List UInt8 → List UInt8 → Int) : Prop where
  same : ∀ a, memcmp a a = 0
  less : ∀ front x y a b, x < y → memcmp (front ++ x :: a) (front ++ y :: b) < 0
  greater : ∀ front x y a b, y < x → 0 < memcmp (front ++ x :: a) (front ++ y :: b)

theorem standardMemcmp_memcmp : StandardMemcmp LibC.memcmp := by
  refine ⟨?_, ?_, ?_⟩
  · intro a
    exact (LibC.memcmp_eq_zero_iff rfl).2 rfl
  · intro front x y a b hlt
    induction front with
    | nil => simp [LibC.memcmp, hlt, UInt8.lt_asymm hlt]
    | cons c front ih => simpa [LibC.memcmp] using ih
  · intro front x y a b hlt
    induction front with
    | nil => simp [LibC.memcmp, hlt]
    | cons c front ih => simpa [LibC.memcmp] using ih

namespace StringView

section

variable (memcmp : List UInt8 → List UInt8 → Int) (a b : StringView)

def compare : Int :=
  if a.isNullOrEmpty then
    if b.isNullOrEmpty then 0 else -1
  else if b.isNullOrEmpty then
    1
  else
    let minLen := if a.len < b.len then a.len else b.len
    let res := memcmp (a.chars.take minLen) (b.chars.take minLen)
    if res = 0 then
      if a.len < b.len then -1 else if a.len = b.len then 0 else 1
    else
      res

def operatorEq : Bool :=
  a.len = b.len && a.compare memcmp b = 0

def operatorLt : Bool :=
  a.len < b.len || a.compare memcmp b < 0

def operatorLe : Bool :=
  a.len ≤ b.len || a.compare memcmp b ≤ 0

def operatorGt : Bool :=
  b.len < a.len || 0 < a.compare memcmp b

def operatorGe : Bool :=
  b.len ≤ a.len || 0 ≤ a.compare memcmp b

end

/-! ## `compare` is lexicographic -/

/-- Two lists are the same, or one goes on where the other ends, or they differ somewhere first. -/
inductive Differ : List UInt8 → List UInt8 → Prop
  | same (a : List UInt8) : Differ a a
  | shorter (a : List UInt8) (c : UInt8) (rest : List UInt8) : Differ a (a ++ c :: rest)
  | longer (b : List UInt8) (c : UInt8) (rest : List UInt8) : Differ (b ++ c :: rest) b
  | less (front : List UInt8) (x y : UInt8) (a b : List UInt8) (h : x < y) :
      Differ (front ++ x :: a) (front ++ y :: b)
  | greater (front : List UInt8) (x y : UInt8) (a b : List UInt8) (h : y < x) :
      Differ (front ++ x :: a) (front ++ y :: b)

theorem Differ.cons {a b : List UInt8} (h : Differ a b) (c : UInt8) : Differ (c :: a) (c :: b) := by
  cases h with
  | same => exact .same _
  | shorter a d rest => exact .shorter (c :: a) d rest
  | longer b d rest => exact .longer (c :: b) d rest
  | less front x y a b h => exact .less (c :: front) x y a b h
  | greater front x y a b h => exact .greater (c :: front) x y a b h

theorem differ (a b : List UInt8) : Differ a b := by
  induction a generalizing b with
  | nil =>
    cases b with
    | nil => exact .same []
    | cons y b => exact .shorter [] y b
  | cons x a ih =>
    cases b with
    | nil => exact .longer [] x a
    | cons y b =>
      by_cases hlt : x < y
      · exact .less [] x y a b hlt
      · by_cases hgt : y < x
        · exact .greater [] x y a b hgt
        · obtain rfl : x = y := UInt8.le_antisymm (UInt8.not_lt.1 hgt) (UInt8.not_lt.1 hlt)
          exact (ih b).cons x

theorem lt_append_cons (a : List UInt8) (c : UInt8) (rest : List UInt8) : a < a ++ c :: rest := by
  have hlt : a ++ [] < a ++ c :: rest := List.append_left_lt (List.nil_lt_cons c rest)
  rwa [List.append_nil] at hlt

theorem append_cons_lt {x y : UInt8} (h : x < y) (front a b : List UInt8) :
    front ++ x :: a < front ++ y :: b :=
  List.append_left_lt (List.cons_lt_cons_iff.2 (Or.inl h))

section

variable {memcmp : List UInt8 → List UInt8 → Int} {a b : StringView}

/-- The bytes decide as far as both lists go, then the lengths. -/
def bytesCompare (memcmp : List UInt8 → List UInt8 → Int) (as bs : List UInt8) : Int :=
  let n := min as.length bs.length
  let res := memcmp (as.take n) (bs.take n)
  if res = 0 then
    if as.length < bs.length then -1 else if as.length = bs.length then 0 else 1
  else
    res

theorem compare_of_ne_nil (ha : a.chars ≠ []) (hb : b.chars ≠ []) :
    a.compare memcmp b = bytesCompare memcmp a.chars b.chars := by
  have hmin : (if a.len < b.len then a.len else b.len) = min a.chars.length b.chars.length := by
    unfold len
    split <;> omega
  rw [compare, if_neg (by rwa [isNullOrEmpty_iff]), if_neg (by rwa [isNullOrEmpty_iff]), hmin]
  rfl

theorem take_append_cons (front : List UInt8) (x : UInt8) (a : List UInt8) {n : Nat}
    (hn : front.length < n) :
    (front ++ x :: a).take n = front ++ x :: a.take (n - front.length - 1) := by
  rw [List.take_append, List.take_of_length_le (Nat.le_of_lt hn),
    show n - front.length = n - front.length - 1 + 1 by omega, List.take_succ_cons, Nat.add_sub_cancel]

section

variable (hmemcmp : StandardMemcmp memcmp)
include hmemcmp

theorem bytesCompare_cases {as bs : List UInt8} (h : Differ as bs) :
    as = bs ∧ bytesCompare memcmp as bs = 0 ∨
      as < bs ∧ bytesCompare memcmp as bs < 0 ∨
      bs < as ∧ 0 < bytesCompare memcmp as bs := by
  unfold bytesCompare
  cases h with
  | same => simp [hmemcmp.same]
  | shorter c rest => simp [hmemcmp.same, lt_append_cons]
  | longer c rest =>
    refine .inr (.inr ⟨lt_append_cons _ _ _, ?_⟩)
    simp [hmemcmp.same, show ¬ bs.length + (_ + 1) < bs.length by omega]
  | less front x y a b h =>
    have hres := hmemcmp.less front x y
    refine .inr (.inl ⟨append_cons_lt h front a b, ?_⟩)
    dsimp only
    rw [take_append_cons _ _ _ (by simp), take_append_cons _ _ _ (by simp),
      if_neg (Int.ne_of_lt (hres _ _ h))]
    exact hres _ _ h
  | greater front x y a b h =>
    have hres := hmemcmp.greater front x y
    refine .inr (.inr ⟨append_cons_lt h front b a, ?_⟩)
    dsimp only
    rw [take_append_cons _ _ _ (by simp), take_append_cons _ _ _ (by simp),
      if_neg (Int.ne_of_gt (hres _ _ h))]
    exact hres _ _ h

theorem compare_cases (a b : StringView) :
    a.chars = b.chars ∧ a.compare memcmp b = 0 ∨
      a.chars < b.chars ∧ a.compare memcmp b < 0 ∨
      b.chars < a.chars ∧ 0 < a.compare memcmp b := by
  by_cases ha : a.chars = []
  · by_cases hb : b.chars = []
    · rw [compare, if_pos ((isNullOrEmpty_iff a).2 ha), if_pos ((isNullOrEmpty_iff b).2 hb), ha, hb]
      exact .inl ⟨rfl, rfl⟩
    · rw [compare, if_pos ((isNullOrEmpty_iff a).2 ha), if_neg (by rwa [isNullOrEmpty_iff]), ha]
      obtain ⟨c, cs, hcs⟩ := List.exists_cons_of_ne_nil hb
      exact .inr (.inl ⟨hcs ▸ List.nil_lt_cons c cs, by decide⟩)
  · by_cases hb : b.chars = []
    · rw [compare, if_neg (by rwa [isNullOrEmpty_iff]), if_pos ((isNullOrEmpty_iff b).2 hb), hb]
      obtain ⟨c, cs, hcs⟩ := List.exists_cons_of_ne_nil ha
      exact .inr (.inr ⟨hcs ▸ List.nil_lt_cons c cs, by decide⟩)
    · rw [compare_of_ne_nil ha hb]
      exact bytesCompare_cases hmemcmp (differ a.chars b.chars)

theorem compare_neg_iff : a.compare memcmp b < 0 ↔ a.chars < b.chars := by
  rcases compare_cases hmemcmp a b with ⟨heq, hsign⟩ | ⟨hlt, hsign⟩ | ⟨hgt, hsign⟩
  · exact iff_of_false (by omega) (heq ▸ List.lt_irrefl _)
  · exact iff_of_true hsign hlt
  · exact iff_of_false (by omega) (List.lt_asymm hgt)

theorem compare_pos_iff : 0 < a.compare memcmp b ↔ b.chars < a.chars := by
  rcases compare_cases hmemcmp a b with ⟨heq, hsign⟩ | ⟨hlt, hsign⟩ | ⟨hgt, hsign⟩
  · exact iff_of_false (by omega) (heq ▸ List.lt_irrefl _)
  · exact iff_of_false (by omega) (List.lt_asymm hlt)
  · exact iff_of_true hsign hgt

theorem compare_eq_zero_iff : a.compare memcmp b = 0 ↔ a.chars = b.chars := by
  rcases compare_cases hmemcmp a b with ⟨heq, hsign⟩ | ⟨hlt, hsign⟩ | ⟨hgt, hsign⟩
  · exact iff_of_true hsign heq
  · exact iff_of_false (by omega) (fun heq => List.lt_irrefl _ (heq ▸ hlt))
  · exact iff_of_false (by omega) (fun heq => List.lt_irrefl _ (heq ▸ hgt))

end

end

/-! ## The operators -/

/-- The operators are one strict total order of the members, and agree with `compare`. -/
structure TotallyOrdered (memcmp : List UInt8 → List UInt8 → Int) (members : Set StringView) :
    Prop where
  one : ∀ a ∈ members, ∀ b ∈ members,
    a.operatorLt memcmp b = true ∧ a.operatorEq memcmp b = false ∧ b.operatorLt memcmp a = false ∨
      a.operatorLt memcmp b = false ∧ a.operatorEq memcmp b = true ∧ b.operatorLt memcmp a = false ∨
      a.operatorLt memcmp b = false ∧ a.operatorEq memcmp b = false ∧ b.operatorLt memcmp a = true
  trans : ∀ a ∈ members, ∀ b ∈ members, ∀ c ∈ members,
    a.operatorLt memcmp b = true → b.operatorLt memcmp c = true → a.operatorLt memcmp c = true
  le : ∀ a ∈ members, ∀ b ∈ members, a.operatorLe memcmp b = !b.operatorLt memcmp a
  gt : ∀ a ∈ members, ∀ b ∈ members, a.operatorGt memcmp b = b.operatorLt memcmp a
  ge : ∀ a ∈ members, ∀ b ∈ members, a.operatorGe memcmp b = !a.operatorLt memcmp b
  sign : ∀ a ∈ members, ∀ b ∈ members,
    (a.operatorEq memcmp b = true ↔ a.compare memcmp b = 0) ∧
      (a.operatorLt memcmp b = true ↔ a.compare memcmp b < 0) ∧
      (a.operatorLe memcmp b = true ↔ a.compare memcmp b ≤ 0) ∧
      (a.operatorGt memcmp b = true ↔ 0 < a.compare memcmp b) ∧
      (a.operatorGe memcmp b = true ↔ 0 ≤ a.compare memcmp b)
  lexicographic : ∀ a ∈ members, ∀ b ∈ members,
    (a.compare memcmp b < 0 ↔ a.chars < b.chars) ∧ (a.compare memcmp b = 0 ↔ a.chars = b.chars)

/-- Both of `"b"` and `"aa"` are below the other. -/
theorem both_below : ¬ TotallyOrdered LibC.memcmp
    {v | v = literal [98] (by decide) ∨ v = literal [97, 97] (by decide)} := by
  intro h
  have hone := h.one _ (Or.inl rfl) _ (Or.inr rfl)
  revert hone
  decide

variable {memcmp : List UInt8 → List UInt8 → Int} {members : Set StringView} {a b : StringView}

/-- No view is both longer than another, or as long, and before it. -/
def LengthsAgree (members : Set StringView) : Prop :=
  ∀ a ∈ members, ∀ b ∈ members, a.chars.length ≤ b.chars.length → ¬ b.chars < a.chars

section

variable (hmemcmp : StandardMemcmp memcmp)
include hmemcmp

theorem operatorLt_iff (hagree : LengthsAgree members) (ha : a ∈ members) (hb : b ∈ members) :
    a.operatorLt memcmp b = true ↔ a.compare memcmp b < 0 := by
  rw [operatorLt, Bool.or_eq_true, decide_eq_true_iff, decide_eq_true_iff]
  refine or_iff_right_of_imp ?_
  intro hlen
  rcases compare_cases hmemcmp a b with ⟨heq, -⟩ | ⟨-, hsign⟩ | ⟨hgt, -⟩
  · rw [len, len, heq] at hlen
    omega
  · exact hsign
  · exact absurd hgt (hagree a ha b hb (Nat.le_of_lt hlen))

theorem operatorLe_iff (hagree : LengthsAgree members) (ha : a ∈ members) (hb : b ∈ members) :
    a.operatorLe memcmp b = true ↔ a.compare memcmp b ≤ 0 := by
  rw [operatorLe, Bool.or_eq_true, decide_eq_true_iff, decide_eq_true_iff]
  refine or_iff_right_of_imp ?_
  intro hlen
  have hpos := mt (compare_pos_iff hmemcmp).1 (hagree a ha b hb hlen)
  omega

theorem operatorEq_iff : a.operatorEq memcmp b = true ↔ a.compare memcmp b = 0 := by
  rw [operatorEq, Bool.and_eq_true, decide_eq_true_iff, decide_eq_true_iff]
  refine and_iff_right_of_imp ?_
  intro hzero
  rw [len, len, (compare_eq_zero_iff hmemcmp).1 hzero]

theorem operatorGt_eq (a b : StringView) : a.operatorGt memcmp b = b.operatorLt memcmp a := by
  rw [operatorGt, operatorLt, Bool.eq_iff_iff, Bool.or_eq_true, Bool.or_eq_true, decide_eq_true_iff,
    decide_eq_true_iff, decide_eq_true_iff, compare_pos_iff hmemcmp, compare_neg_iff hmemcmp]

theorem operatorGe_eq (a b : StringView) : a.operatorGe memcmp b = b.operatorLe memcmp a := by
  have hsign : 0 ≤ a.compare memcmp b ↔ b.compare memcmp a ≤ 0 := by
    rw [← Int.not_lt, ← Int.not_lt, compare_neg_iff hmemcmp, compare_pos_iff hmemcmp]
  rw [operatorGe, operatorLe, Bool.eq_iff_iff, Bool.or_eq_true, Bool.or_eq_true, decide_eq_true_iff,
    decide_eq_true_iff, decide_eq_true_iff, hsign]

theorem LengthsAgree.totallyOrdered (hagree : LengthsAgree members) :
    TotallyOrdered memcmp members where
  one := by
    intro a ha b hb
    have hlt := operatorLt_iff hmemcmp hagree ha hb
    have hgt := operatorLt_iff hmemcmp hagree hb ha
    have heq := operatorEq_iff (a := a) (b := b) hmemcmp
    rw [compare_neg_iff hmemcmp, ← compare_pos_iff hmemcmp] at hgt
    rcases Int.lt_trichotomy (a.compare memcmp b) 0 with hsign | hsign | hsign
    · exact .inl ⟨hlt.2 hsign, Bool.eq_false_iff.2 (mt heq.1 (by omega)),
        Bool.eq_false_iff.2 (mt hgt.1 (by omega))⟩
    · exact .inr (.inl ⟨Bool.eq_false_iff.2 (mt hlt.1 (by omega)), heq.2 hsign,
        Bool.eq_false_iff.2 (mt hgt.1 (by omega))⟩)
    · exact .inr (.inr ⟨Bool.eq_false_iff.2 (mt hlt.1 (by omega)),
        Bool.eq_false_iff.2 (mt heq.1 (by omega)), hgt.2 hsign⟩)
  trans := by
    intro a ha b hb c hc
    rw [operatorLt_iff hmemcmp hagree ha hb, operatorLt_iff hmemcmp hagree hb hc,
      operatorLt_iff hmemcmp hagree ha hc, compare_neg_iff hmemcmp, compare_neg_iff hmemcmp,
      compare_neg_iff hmemcmp]
    exact List.lt_trans
  le := by
    intro a ha b hb
    rw [Bool.eq_iff_iff, operatorLe_iff hmemcmp hagree ha hb, Bool.not_eq_true', Bool.eq_false_iff,
      ne_eq, operatorLt_iff hmemcmp hagree hb ha, compare_neg_iff hmemcmp, ← compare_pos_iff hmemcmp,
      Int.not_lt]
  gt := fun a _ b _ => operatorGt_eq hmemcmp a b
  ge := by
    intro a ha b hb
    rw [operatorGe_eq hmemcmp, Bool.eq_iff_iff, operatorLe_iff hmemcmp hagree hb ha, Bool.not_eq_true',
      Bool.eq_false_iff, ne_eq, operatorLt_iff hmemcmp hagree ha hb, compare_neg_iff hmemcmp,
      ← compare_pos_iff hmemcmp, Int.not_lt]
  sign := by
    intro a ha b hb
    refine ⟨operatorEq_iff hmemcmp, operatorLt_iff hmemcmp hagree ha hb,
      operatorLe_iff hmemcmp hagree ha hb, ?_, ?_⟩
    · rw [operatorGt_eq hmemcmp, operatorLt_iff hmemcmp hagree hb ha, compare_neg_iff hmemcmp,
        compare_pos_iff hmemcmp]
    · rw [operatorGe_eq hmemcmp, operatorLe_iff hmemcmp hagree hb ha, ← Int.not_lt, ← Int.not_lt,
        compare_neg_iff hmemcmp, compare_pos_iff hmemcmp]
  lexicographic := fun _ _ _ _ => ⟨compare_neg_iff hmemcmp, compare_eq_zero_iff hmemcmp⟩

end

/-- The operators are an order exactly of the members whose lengths agree with their bytes; views of one
length have to be the same. -/
theorem totallyOrdered_iff (hmemcmp : StandardMemcmp memcmp) (members : Set StringView) :
    TotallyOrdered memcmp members ↔
      ∀ a ∈ members, ∀ b ∈ members, a.chars.length ≤ b.chars.length → ¬ b.chars < a.chars := by
  constructor
  · intro h a ha b hb hlen hbefore
    have hle : a.operatorLe memcmp b = true := by
      rw [operatorLe, Bool.or_eq_true]
      exact Or.inl (decide_eq_true hlen)
    have hlt : b.operatorLt memcmp a = true := by
      rw [operatorLt, Bool.or_eq_true]
      exact Or.inr (decide_eq_true ((compare_neg_iff hmemcmp).2 hbefore))
    rw [h.le a ha b hb, hlt] at hle
    exact Bool.false_ne_true hle
  · exact LengthsAgree.totallyOrdered hmemcmp

theorem totallyOrdered_of_memcmp :
    TotallyOrdered LibC.memcmp
      {v | v = literal [97] (by decide) ∨ v = literal [97, 98] (by decide)} := by
  refine (totallyOrdered_iff standardMemcmp_memcmp _).2 ?_
  rintro a (rfl | rfl) b (rfl | rfl) <;> decide

end StringView

end LibTC
