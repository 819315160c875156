import Mathlib.Data.BitVec
import Mathlib.Tactic

/-! # Positional arguments

`ArgsParser` gives the words that are left behind the options to the positional arguments, each of which
takes a number of values between a minimum and a maximum. Every argument gets its minimum, and what is
left over goes to the arguments in their order. The numbers are `u32`. -/

namespace MeetixOS.LibUtils

/-- A word of the command line. -/
abbrev Word := List UInt8

/-- `ArgsParser::PositionalArgument`, whose acceptor works on the program's variables. -/
structure PositionalArgument (σ : Type) where
  name : Word
  minValues : BitVec 32
  maxValues : BitVec 32
  acceptValue : Word → σ → Bool × σ

variable {σ : Type}

/-! ## The loops -/

def stdMin (a b : BitVec 32) : BitVec 32 := if b < a then b else a

/-- The second loop of `count_cli_positional_arguments`: the counts, and the values left to
distribute. -/
def distribute : List (PositionalArgument σ) → BitVec 32 → List (BitVec 32) × BitVec 32
  | [], extra => ([], extra)
  | arg :: args, extra =>
    let extraForArg := stdMin (arg.maxValues - arg.minValues) extra
    let left := extra - extraForArg
    if left = 0 then
      ((arg.minValues + extraForArg) :: args.map PositionalArgument.minValues, left)
    else
      let (counts, left) := distribute args left
      ((arg.minValues + extraForArg) :: counts, left)

/-- `ArgsParser::count_cli_positional_arguments`, with what it leaves in `values_count_for_arg`. -/
def countCliPositionalArguments (args : List (PositionalArgument σ)) (argc optind : BitVec 32) :
    Bool × List (BitVec 32) :=
  let cliArgsLeft := argc - optind
  let totalValuesRequired := args.foldl (fun total arg => total + arg.minValues) 0
  if totalValuesRequired > cliArgsLeft then
    (false, args.map PositionalArgument.minValues)
  else
    let (counts, extra) := distribute args (cliArgsLeft - totalValuesRequired)
    (decide (extra = 0), counts)

/-- What the acceptors were given: the words with their index, those left, the variables, and the
invalid argument. -/
structure Handing (σ : Type) where
  handed : List (Nat × Word)
  rest : List Word
  vars : σ
  invalid : Option Word

/-- The inner loop of `parse` over the values of one argument; `none` where `argv` has no more words. -/
def handWords (arg : PositionalArgument σ) (i : Nat) : Nat → List Word → σ → Option (Handing σ)
  | 0, words, vars => some ⟨[], words, vars, none⟩
  | _ + 1, [], _ => none
  | c + 1, word :: words, vars =>
    let (accepted, vars) := arg.acceptValue word vars
    if accepted then
      (handWords arg i c words vars).map fun h => { h with handed := (i, word) :: h.handed }
    else some ⟨[(i, word)], words, vars, some arg.name⟩

/-- The loop of `parse` over the positional arguments from the `i`-th on. -/
def handAll : List (PositionalArgument σ × BitVec 32) → Nat → List Word → σ → Option (Handing σ)
  | [], _, words, vars => some ⟨[], words, vars, none⟩
  | (arg, count) :: args, i, words, vars =>
    (handWords arg i count.toNat words vars).bind fun h =>
      if h.invalid.isSome then some h
      else
        (handAll args (i + 1) h.rest h.vars).map fun more =>
          { more with handed := h.handed ++ more.handed }

/-! ## What the counts have to be -/

/-- The sum of the minima. -/
def minima (args : List (PositionalArgument σ)) : Nat :=
  (args.map fun arg => arg.minValues.toNat).sum

/-- The sum of the maxima. -/
def maxima (args : List (PositionalArgument σ)) : Nat :=
  (args.map fun arg => arg.maxValues.toNat).sum

/-- How many values the arguments take beyond their minima. -/
def room (args : List (PositionalArgument σ)) : Nat :=
  (args.map fun arg => arg.maxValues.toNat - arg.minValues.toNat).sum

/-- Each argument's count of the `n` words is between its minimum and its maximum, and every argument in
front of one with an extra word is filled. -/
structure Split (args : List (PositionalArgument σ)) (counts : List (BitVec 32)) (n : Nat) : Prop where
  bounded : List.Forall₂ (fun arg count => arg.minValues ≤ count ∧ count ≤ arg.maxValues) args counts
  total : (counts.map BitVec.toNat).sum = n
  greedy : (args.zip counts).Pairwise fun before arg =>
    arg.1.minValues < arg.2 → before.2 = before.1.maxValues

/-- Word `k` is in the block of the `j`-th argument. -/
def InBlock (counts : List (BitVec 32)) (j k : Nat) : Prop :=
  ((counts.take j).map BitVec.toNat).sum ≤ k ∧ k < ((counts.take (j + 1)).map BitVec.toNat).sum

/-- The words were handed out by their blocks, all of them unless one was refused. -/
structure HandedOut (counts : List (BitVec 32)) (words : List Word) (h : Handing σ) : Prop where
  blocks : ∀ (k j : Nat) (word : Word), h.handed[k]? = some (j, word) →
    InBlock counts j k ∧ words[k]? = some word
  all : h.invalid = none → h.handed.length = words.length

/-- With `n` words left: success exactly where the words fit, and then the acceptors are given a split
of them. -/
structure Distributes (args : List (PositionalArgument σ)) (argc optind : BitVec 32) : Prop where
  succeeds : (countCliPositionalArguments args argc optind).1 = true ↔
    minima args ≤ (argc - optind).toNat ∧ (argc - optind).toNat ≤ maxima args
  splits : (countCliPositionalArguments args argc optind).1 = true →
    Split args (countCliPositionalArguments args argc optind).2 (argc - optind).toNat
  hands : (countCliPositionalArguments args argc optind).1 = true →
    ∀ (words : List Word) (vars : σ), words.length = (argc - optind).toNat →
      ∃ h, handAll (args.zip (countCliPositionalArguments args argc optind).2) 0 words vars = some h ∧
        HandedOut (countCliPositionalArguments args argc optind).2 words h

/-! ## Handing out words -/

theorem handWords_spec (arg : PositionalArgument σ) (i c : Nat) (words : List Word) (vars : σ)
    (hc : c ≤ words.length) :
    ∃ h : Handing σ, handWords arg i c words vars = some h ∧
      h.handed.length ≤ c ∧
      (∀ (k j : Nat) (word : Word), h.handed[k]? = some (j, word) → j = i ∧ words[k]? = some word) ∧
      (h.invalid = none → h.handed.length = c ∧ h.rest = words.drop c) := by
  induction c generalizing words vars with
  | zero => exact ⟨_, rfl, Nat.le_refl 0, by simp, by simp⟩
  | succ c ih =>
    obtain ⟨word, words, rfl⟩ := List.exists_cons_of_length_pos (by omega : 0 < words.length)
    rw [List.length_cons] at hc
    unfold handWords
    by_cases hacc : (arg.acceptValue word vars).1 = true
    · obtain ⟨h, hrun, hlen, hhanded, hall⟩ := ih words (arg.acceptValue word vars).2 (by omega)
      refine ⟨{ h with handed := (i, word) :: h.handed }, by simp [hacc, hrun], ?_, ?_, ?_⟩
      · simpa using hlen
      · intro k j other hk
        cases k with
        | zero =>
          obtain ⟨rfl, rfl⟩ : i = j ∧ word = other := by simpa using hk
          exact ⟨rfl, rfl⟩
        | succ k => exact hhanded k j other (by simpa using hk)
      · intro hnone
        obtain ⟨hlen, hrest⟩ := hall hnone
        exact ⟨by simp [hlen], by simpa using hrest⟩
    · refine ⟨⟨[(i, word)], words, (arg.acceptValue word vars).2, some arg.name⟩, by simp [hacc],
        by simp, ?_, by simp⟩
      intro k j other hk
      cases k with
      | zero =>
        obtain ⟨rfl, rfl⟩ : i = j ∧ word = other := by simpa using hk
        exact ⟨rfl, rfl⟩
      | succ k => simp at hk

variable {count : BitVec 32} {counts : List (BitVec 32)}

theorem inBlock_zero {k : Nat} : InBlock (count :: counts) 0 k ↔ k < count.toNat := by
  simp [InBlock]

theorem inBlock_succ {j k : Nat} :
    InBlock (count :: counts) (j + 1) (count.toNat + k) ↔ InBlock counts j k := by
  simp [InBlock]

theorem handAll_spec (args : List (PositionalArgument σ)) (counts : List (BitVec 32)) (i : Nat)
    (words : List Word) (vars : σ) (hlen : counts.length = args.length)
    (hwords : (counts.map BitVec.toNat).sum = words.length) :
    ∃ h : Handing σ, handAll (args.zip counts) i words vars = some h ∧
      (∀ (k j : Nat) (word : Word), h.handed[k]? = some (j, word) →
        ∃ place, j = i + place ∧ InBlock counts place k ∧ words[k]? = some word) ∧
      (h.invalid = none → h.handed.length = words.length) := by
  induction args generalizing counts i words vars with
  | nil =>
    obtain rfl : counts = [] := List.eq_nil_of_length_eq_zero hlen
    refine ⟨_, rfl, by simp, fun _ => ?_⟩
    simpa using hwords
  | cons arg args ih =>
    obtain ⟨count, counts, rfl⟩ := List.exists_cons_of_length_pos
      (by rw [hlen]; simp : 0 < counts.length)
    rw [List.map_cons, List.sum_cons] at hwords
    obtain ⟨first, hfirst, hle, hhanded, hall⟩ :=
      handWords_spec arg i count.toNat words vars (by omega)
    have hown : ∀ (k j : Nat) (word : Word), first.handed[k]? = some (j, word) →
        ∃ place, j = i + place ∧ InBlock (count :: counts) place k ∧ words[k]? = some word := by
      intro k j word hk
      have hlt := (List.getElem?_eq_some_iff.1 hk).1
      obtain ⟨rfl, hword⟩ := hhanded k j word hk
      exact ⟨0, rfl, inBlock_zero.2 (by omega), hword⟩
    rw [List.zip_cons_cons, handAll, hfirst, Option.bind_some]
    cases hinvalid : first.invalid with
    | some name => exact ⟨first, by simp, hown, fun hnone => by simp [hinvalid] at hnone⟩
    | none =>
      obtain ⟨hfull, hrest⟩ := hall hinvalid
      obtain ⟨more, hmore, hblocks, hmoreAll⟩ := ih counts (i + 1) first.rest first.vars
        (by simpa using hlen) (by rw [hrest, List.length_drop]; omega)
      refine ⟨{ more with handed := first.handed ++ more.handed }, by simp [hmore], ?_, ?_⟩
      · intro k j word hk
        by_cases hlt : k < count.toNat
        · rw [List.getElem?_append_left (by omega)] at hk
          exact hown k j word hk
        · rw [List.getElem?_append_right (by omega), hfull] at hk
          obtain ⟨place, rfl, hblock, hword⟩ := hblocks _ j word hk
          obtain ⟨l, rfl⟩ : ∃ l, k = count.toNat + l := ⟨k - count.toNat, by omega⟩
          rw [Nat.add_sub_cancel_left] at hblock hword
          refine ⟨place + 1, by omega, inBlock_succ.2 hblock, ?_⟩
          rw [← hword, hrest, List.getElem?_drop]
      · intro hnone
        have := hmoreAll hnone
        rw [hrest, List.length_drop] at this
        rw [List.length_append, hfull, this]
        omega

/-! ## Distributing the words -/

section

variable (arg : PositionalArgument σ) (args : List (PositionalArgument σ))

@[simp] theorem minima_cons : minima (arg :: args) = arg.minValues.toNat + minima args := by
  simp [minima]

@[simp] theorem maxima_cons : maxima (arg :: args) = arg.maxValues.toNat + maxima args := by
  simp [maxima]

@[simp] theorem room_cons :
    room (arg :: args) = arg.maxValues.toNat - arg.minValues.toNat + room args := by
  simp [room]

end

variable {args : List (PositionalArgument σ)}

theorem minima_add_room (hle : ∀ arg ∈ args, arg.minValues ≤ arg.maxValues) :
    minima args + room args = maxima args := by
  induction args with
  | nil => rfl
  | cons arg args ih =>
    have harg := BitVec.le_def.1 (hle arg List.mem_cons_self)
    have hrest := ih fun other hother => hle other (List.mem_cons_of_mem arg hother)
    rw [minima_cons, room_cons, maxima_cons]
    omega

theorem mem_zip_minima {later : PositionalArgument σ × BitVec 32}
    (h : later ∈ args.zip (args.map PositionalArgument.minValues)) : later.2 = later.1.minValues := by
  induction args with
  | nil => simp at h
  | cons arg args ih =>
    rw [List.map_cons, List.zip_cons_cons, List.mem_cons] at h
    rcases h with rfl | h
    · rfl
    · exact ih h

theorem Split.cons {arg : PositionalArgument σ} {n : Nat}
    (h : Split args counts n) (hmin : arg.minValues ≤ count) (hmax : count ≤ arg.maxValues)
    (hgreedy : count = arg.maxValues ∨ counts = args.map PositionalArgument.minValues) :
    Split (arg :: args) (count :: counts) (count.toNat + n) := by
  refine ⟨.cons ⟨hmin, hmax⟩ h.bounded, by simp [h.total], ?_⟩
  rw [List.zip_cons_cons, List.pairwise_cons]
  refine ⟨?_, h.greedy⟩
  intro later hlater hextra
  rcases hgreedy with hfull | rfl
  · exact hfull
  · rw [mem_zip_minima hlater] at hextra
    exact absurd hextra (BitVec.lt_irrefl _)

theorem split_minima (hle : ∀ arg ∈ args, arg.minValues ≤ arg.maxValues) :
    Split args (args.map PositionalArgument.minValues) (minima args) := by
  induction args with
  | nil => exact ⟨.nil, rfl, .nil⟩
  | cons arg args ih =>
    have hrest := ih fun other hother => hle other (List.mem_cons_of_mem arg hother)
    exact hrest.cons (BitVec.le_refl _) (hle arg List.mem_cons_self) (.inr rfl)

theorem toNat_stdMin (a b : BitVec 32) : (stdMin a b).toNat = min a.toNat b.toNat := by
  unfold stdMin
  split
  · next hlt => rw [Nat.min_eq_right (Nat.le_of_lt (BitVec.lt_def.1 hlt))]
  · next hge => rw [Nat.min_eq_left (Nat.le_of_not_lt fun hlt => hge (BitVec.lt_def.2 hlt))]

theorem distribute_spec (extra : BitVec 32) (hle : ∀ arg ∈ args, arg.minValues ≤ arg.maxValues) :
    ((distribute args extra).2 = 0 ↔ extra.toNat ≤ room args) ∧
      (extra.toNat ≤ room args →
        Split args (distribute args extra).1 (minima args + extra.toNat)) := by
  induction args generalizing extra with
  | nil =>
    have hzero : extra = 0 ↔ extra.toNat ≤ 0 := by
      rw [Nat.le_zero, ← BitVec.toNat_inj]
      rfl
    refine ⟨hzero, ?_⟩
    intro hroom
    exact ⟨.nil, by simpa [minima, distribute] using (Nat.le_zero.1 hroom).symm, .nil⟩
  | cons arg args ih =>
    have hrest : ∀ other ∈ args, other.minValues ≤ other.maxValues :=
      fun other hother => hle other (List.mem_cons_of_mem arg hother)
    have harg := BitVec.le_def.1 (hle arg List.mem_cons_self)
    have hroom := BitVec.toNat_sub_of_le (hle arg List.mem_cons_self)
    have hextra := toNat_stdMin (arg.maxValues - arg.minValues) extra
    rw [distribute, minima_cons, room_cons]
    generalize stdMin (arg.maxValues - arg.minValues) extra = extraForArg at hextra ⊢
    have hleft : (extra - extraForArg).toNat = extra.toNat - extraForArg.toNat :=
      BitVec.toNat_sub_of_le (BitVec.le_def.2 (by omega))
    have hcount : (arg.minValues + extraForArg).toNat = arg.minValues.toNat + extraForArg.toNat := by
      rw [BitVec.toNat_add, Nat.mod_eq_of_lt (by omega)]
    have hmin : arg.minValues ≤ arg.minValues + extraForArg := BitVec.le_def.2 (by omega)
    have hmax : arg.minValues + extraForArg ≤ arg.maxValues := BitVec.le_def.2 (by omega)
    by_cases hzero : extra - extraForArg = 0
    · -- the break: the others keep their minima
      rw [if_pos hzero]
      rw [hzero] at hleft
      have hall : extraForArg.toNat = extra.toNat := by
        have : extra.toNat - extraForArg.toNat = 0 := hleft.symm
        omega
      refine ⟨iff_of_true hzero (by omega), ?_⟩
      intro _
      have hsplit := (split_minima hrest).cons hmin hmax (.inr rfl)
      rwa [hcount, hall, Nat.add_right_comm] at hsplit
    · rw [if_neg hzero]
      have hpos : 0 < (extra - extraForArg).toNat := by
        refine Nat.pos_of_ne_zero fun h => hzero ?_
        rw [← BitVec.toNat_inj, h]
        rfl
      have hfull : arg.minValues + extraForArg = arg.maxValues := by
        rw [← BitVec.toNat_inj, hcount]
        omega
      obtain ⟨hiff, hsplit⟩ := ih (extra - extraForArg) hrest
      refine ⟨hiff.trans (by omega), ?_⟩
      intro hfits
      have hsplit := (hsplit (by omega)).cons hmin hmax (.inl hfull)
      rwa [hcount, show arg.minValues.toNat + extraForArg.toNat +
        (minima args + (extra - extraForArg).toNat) =
        arg.minValues.toNat + minima args + extra.toNat by omega] at hsplit

/-! ## When the words are distributed right -/

theorem toNat_foldl_minValues (args : List (PositionalArgument σ)) (total : BitVec 32) :
    (args.foldl (fun total arg => total + arg.minValues) total).toNat =
      (total.toNat + minima args) % 2 ^ 32 := by
  induction args generalizing total with
  | nil => exact (Nat.mod_eq_of_lt total.isLt).symm
  | cons arg args ih =>
    rw [List.foldl_cons, ih, BitVec.toNat_add, minima_cons, Nat.mod_add_mod, Nat.add_assoc]

theorem toNat_totalValuesRequired (args : List (PositionalArgument σ)) :
    (args.foldl (fun total arg => total + arg.minValues) (0 : BitVec 32)).toNat = minima args % 2 ^ 32 := by
  rw [toNat_foldl_minValues, show (0 : BitVec 32).toNat = 0 by decide, Nat.zero_add]

/-- The minima do not fit a `u32`, and the words fit what is left of them. -/
def Overflows (args : List (PositionalArgument σ)) (n : Nat) : Prop :=
  2 ^ 32 ≤ minima args ∧ minima args % 2 ^ 32 ≤ n ∧ n ≤ minima args % 2 ^ 32 + room args

theorem countCliPositionalArguments_iff (argc optind : BitVec 32)
    (hle : ∀ arg ∈ args, arg.minValues ≤ arg.maxValues) :
    (countCliPositionalArguments args argc optind).1 = true ↔
      minima args % 2 ^ 32 ≤ (argc - optind).toNat ∧
        (argc - optind).toNat ≤ minima args % 2 ^ 32 + room args := by
  have htotal := toNat_totalValuesRequired args
  unfold countCliPositionalArguments
  generalize args.foldl (fun total arg => total + arg.minValues) 0 = total at htotal
  by_cases hless : total > argc - optind
  · have hlt := BitVec.lt_def.1 hless
    rw [if_pos hless]
    exact iff_of_false Bool.false_ne_true (by omega)
  · have hge : total ≤ argc - optind := BitVec.not_lt.1 hless
    have hextra := BitVec.toNat_sub_of_le hge
    have hge := BitVec.le_def.1 hge
    rw [if_neg hless]
    simp only [decide_eq_true_eq]
    rw [(distribute_spec _ hle).1, hextra, htotal]
    omega

theorem countCliPositionalArguments_split {argc optind : BitVec 32}
    (hle : ∀ arg ∈ args, arg.minValues ≤ arg.maxValues) (hfits : minima args < 2 ^ 32)
    (h : (countCliPositionalArguments args argc optind).1 = true) :
    Split args (countCliPositionalArguments args argc optind).2 (argc - optind).toNat := by
  have htotal := toNat_totalValuesRequired args
  rw [Nat.mod_eq_of_lt hfits] at htotal
  have hrange := (countCliPositionalArguments_iff argc optind hle).1 h
  rw [Nat.mod_eq_of_lt hfits] at hrange
  unfold countCliPositionalArguments
  generalize args.foldl (fun total arg => total + arg.minValues) 0 = total at htotal
  have hge : total ≤ argc - optind := BitVec.le_def.2 (by omega)
  have hextra := BitVec.toNat_sub_of_le hge
  rw [if_neg (BitVec.not_lt.2 hge)]
  have hsplit := (distribute_spec (argc - optind - total) hle).2 (by omega)
  rwa [hextra, htotal, Nat.add_sub_cancel' hrange.1] at hsplit

/-- The words are distributed right unless the sum of the minima overflows. -/
theorem distributes_iff (args : List (PositionalArgument σ)) (argc optind : BitVec 32)
    (hle : ∀ arg ∈ args, arg.minValues ≤ arg.maxValues) :
    Distributes args argc optind ↔ ¬ Overflows args (argc - optind).toNat := by
  have hiff := countCliPositionalArguments_iff argc optind hle
  have hmaxima := minima_add_room hle
  have hn := (argc - optind).isLt
  constructor
  · rintro h ⟨hover, hrange⟩
    have := (h.succeeds.1 (hiff.2 hrange)).1
    omega
  · intro hover
    have hfits (h : (countCliPositionalArguments args argc optind).1 = true) :
        minima args < 2 ^ 32 := by
      by_contra hge
      exact hover ⟨by omega, hiff.1 h⟩
    refine ⟨?_, fun h => countCliPositionalArguments_split hle (hfits h) h, ?_⟩
    · constructor
      · intro h
        have hrange := hiff.1 h
        rw [Nat.mod_eq_of_lt (hfits h)] at hrange
        omega
      · rintro ⟨hmin, hmax⟩
        rw [hiff, Nat.mod_eq_of_lt (by omega)]
        omega
    · intro h words vars hwords
      have hsplit := countCliPositionalArguments_split hle (hfits h) h
      obtain ⟨handing, hrun, hblocks, hall⟩ := handAll_spec args _ 0 words vars
        hsplit.bounded.length_eq.symm (hsplit.total.trans hwords.symm)
      refine ⟨handing, hrun, ⟨?_, hall⟩⟩
      intro k j word hk
      obtain ⟨place, rfl, hblock, hword⟩ := hblocks k j word hk
      rw [Nat.zero_add]
      exact ⟨hblock, hword⟩

/-- An argument that takes between `min` and `max` values and accepts all of them. -/
def acceptingArgument (min max : BitVec 32) : PositionalArgument Unit where
  name := []
  minValues := min
  maxValues := max
  acceptValue := fun _ vars => (true, vars)

theorem distributes_three_words :
    (∀ arg ∈ [acceptingArgument 1 2, acceptingArgument 0 4], arg.minValues ≤ arg.maxValues) ∧
      Distributes [acceptingArgument 1 2, acceptingArgument 0 4] 5 2 := by
  have hle : ∀ arg ∈ [acceptingArgument 1 2, acceptingArgument 0 4], arg.minValues ≤ arg.maxValues := by
    intro arg harg
    rcases List.mem_pair.1 harg with rfl | rfl <;> decide
  refine ⟨hle, (distributes_iff _ 5 2 hle).2 ?_⟩
  rintro ⟨hover, -⟩
  exact absurd hover (by decide)

/-- Two arguments of which each needs `2 ^ 31` values are content with no word. -/
theorem minima_overflow :
    ¬ Distributes [acceptingArgument (2 ^ 31) (2 ^ 31), acceptingArgument (2 ^ 31) (2 ^ 31)] 1 1 := by
  intro h
  have hneeded := (h.succeeds.1 (by decide)).1
  exact absurd hneeded (by decide)

end MeetixOS.LibUtils
