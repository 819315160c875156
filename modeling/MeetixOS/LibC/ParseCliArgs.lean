import Mathlib.Data.List.TakeWhile
import Mathlib.Tactic
import MeetixOS.LibC.Ctype

/-! # How a program splits its command line

`parse_cli_args` of the C library takes the one string that the kernel keeps for a new process and
splits it into arguments in three passes: a first one counts them, a second one records where each
one starts and ends it with a NUL, a third one removes the quotes and the backslashes from each. -/

namespace LibC

/-- The byte `'"'`. -/
def quote : UInt8 := 34

/-- The byte `'\\'`. -/
def backslash : UInt8 := 92

/-! ## The two macros -/

def skipWhitespace (pos : List UInt8) : List UInt8 := pos.dropWhile isspace

/-- `SKIP_ARGUMENT`: the bytes it steps over, and the rest. White space ends the argument unless
quoted or escaped. -/
def skipArgument : Bool → Bool → List UInt8 → List UInt8 × List UInt8
  | _, _, [] => ([], [])
  | instr, esc, c :: rest =>
    if c = quote ∧ esc = false then
      let (arg, pos) := skipArgument (!instr) false rest
      (c :: arg, pos)
    else if c = backslash ∧ esc = false then
      let (arg, pos) := skipArgument instr true rest
      (c :: arg, pos)
    else if isspace c = true ∧ instr = false ∧ esc = false then
      ([], c :: rest)
    else
      let (arg, pos) := skipArgument instr false rest
      (c :: arg, pos)

theorem skipArgument_append (instr esc : Bool) (pos : List UInt8) :
    (skipArgument instr esc pos).1 ++ (skipArgument instr esc pos).2 = pos := by
  induction pos generalizing instr esc with
  | nil => rfl
  | cons c rest ih =>
    simp only [skipArgument]
    split_ifs <;> simp [ih]

theorem skipArgument_ne_nil (c : UInt8) (rest : List UInt8) (hc : isspace c = false) :
    (skipArgument false false (c :: rest)).1 ≠ [] := by
  simp only [skipArgument]
  split_ifs <;> simp_all

theorem skipWhitespace_length (pos : List UInt8) : (skipWhitespace pos).length ≤ pos.length :=
  List.length_dropWhile_le _ _

theorem skipWhitespace_cases (pos : List UInt8) :
    skipWhitespace pos = [] ∨
      ∃ c rest, skipWhitespace pos = c :: rest ∧ isspace c = false := by
  unfold skipWhitespace
  cases h : pos.dropWhile isspace with
  | nil => exact Or.inl rfl
  | cons c rest =>
    refine Or.inr ⟨c, rest, rfl, ?_⟩
    have hne : pos.dropWhile isspace ≠ [] := by simp [h]
    have := List.head_dropWhile_not isspace hne
    simpa [h] using this

/-- The argument at the next byte that is not white space, and what follows it. -/
def nextArgument (pos : List UInt8) : List UInt8 × List UInt8 :=
  skipArgument false false (skipWhitespace pos)

theorem nextArgument_length (pos : List UInt8) :
    (nextArgument pos).1.length + (nextArgument pos).2.length ≤ pos.length := by
  have happ := skipArgument_append false false (skipWhitespace pos)
  have hle := skipWhitespace_length pos
  rw [← happ, List.length_append] at hle
  exact hle

variable {pos arg : List UInt8}

theorem nextArgument_nil (h : (nextArgument pos).1 = []) : (nextArgument pos).2 = [] := by
  unfold nextArgument at h ⊢
  rcases skipWhitespace_cases pos with hnil | ⟨c, rest, heq, hc⟩
  · rw [hnil]
    rfl
  · rw [heq] at h
    exact absurd h (skipArgument_ne_nil c rest hc)

theorem nextArgument_lt (hpos : pos ≠ []) : (nextArgument pos).2.length < pos.length := by
  have hlen := nextArgument_length pos
  have hpos' : 0 < pos.length := List.length_pos_of_ne_nil hpos
  by_cases h : (nextArgument pos).1 = []
  · rw [nextArgument_nil h]
    exact hpos'
  · have := List.length_pos_of_ne_nil h
    omega

/-! ## The three passes -/

/-- The first loop of `parse_cli_args`: how many arguments it counts behind the program's name. -/
def countArguments (cliPtr : List UInt8) : Nat :=
  if h : cliPtr = [] then 0 else countArguments (nextArgument cliPtr).2 + 1
termination_by cliPtr.length
decreasing_by exact nextArgument_lt h

/-- The second loop: the strings that `argv[1]`, `argv[2]`, … point to. The byte behind each becomes
its NUL. -/
def splitArguments (cliPtr : List UInt8) : List (List UInt8) :=
  if _h : cliPtr = [] then []
  else
    (nextArgument cliPtr).1 ::
      (if (nextArgument cliPtr).2 = [] then [] else splitArguments (nextArgument cliPtr).2.tail)
termination_by cliPtr.length
decreasing_by
  have := nextArgument_lt _h
  simp only [List.length_tail]
  omega

theorem countArguments_space {c : UInt8} (hc : isspace c = true)
    (hpos : pos ≠ []) : countArguments (c :: pos) = countArguments pos := by
  have hnext : nextArgument (c :: pos) = nextArgument pos := by
    simp [nextArgument, skipWhitespace, hc]
  rw [countArguments, dif_neg (by simp), hnext]
  conv_rhs => rw [countArguments, dif_neg hpos]

/-- The third loop on one argument: a backslash or a quote that no backslash precedes is removed. -/
def cleanupArgument : Bool → List UInt8 → List UInt8
  | _, [] => []
  | esc, c :: rest =>
    if esc = false ∧ c = backslash then cleanupArgument true rest
    else if esc = false ∧ c = quote then cleanupArgument false rest
    else c :: cleanupArgument false rest

/-- The third loop, over the entries that the first one counted: a null pointer among them is read,
which gives `none`. -/
def cleanupArguments : Nat → List (List UInt8) → Option (List (List UInt8))
  | 0, _ => some []
  | _ + 1, [] => none
  | n + 1, arg :: argv =>
    (cleanupArguments n argv).map fun args => cleanupArgument false arg :: args

/-- `parse_cli_args` on the string the kernel keeps: the arguments behind the program's name. -/
def parseCliArgs (rawCliArgs : List UInt8) : Option (List (List UInt8)) :=
  cleanupArguments (countArguments rawCliArgs) (splitArguments rawCliArgs)

/-! ## Arguments without special bytes -/

/-- A byte that the passes neither split at nor remove. -/
def Plain (c : UInt8) : Prop := isspace c = false ∧ c ≠ quote ∧ c ≠ backslash

instance (c : UInt8) : Decidable (Plain c) := inferInstanceAs (Decidable (_ ∧ _ ∧ _))

theorem skipArgument_plain (arg rest : List UInt8) (harg : ∀ c ∈ arg, Plain c)
    (hrest : ∀ c ∈ rest.head?, isspace c = true) :
    skipArgument false false (arg ++ rest) = (arg, rest) := by
  induction arg with
  | nil =>
    cases rest with
    | nil => rfl
    | cons c rest =>
      have hc : isspace c = true := hrest c rfl
      have hq : c ≠ quote := by
        rintro rfl
        exact absurd hc (by decide)
      have hb : c ≠ backslash := by
        rintro rfl
        exact absurd hc (by decide)
      simp [skipArgument, hc, hq, hb]
  | cons c arg ih =>
    obtain ⟨hc, hq, hb⟩ := harg c (by simp)
    have ih' := ih fun d hd => harg d (by simp [hd])
    simp [skipArgument, hc, hq, hb, ih']

theorem nextArgument_plain (rest : List UInt8) (hne : arg ≠ []) (harg : ∀ c ∈ arg, Plain c)
    (hrest : ∀ c ∈ rest.head?, isspace c = true) : nextArgument (arg ++ rest) = (arg, rest) := by
  unfold nextArgument
  have hskip : skipWhitespace (arg ++ rest) = arg ++ rest := by
    cases arg with
    | nil => exact absurd rfl hne
    | cons c arg =>
      have hc := (harg c (by simp)).1
      simp [skipWhitespace, hc]
  rw [hskip]
  exact skipArgument_plain arg rest harg hrest

theorem cleanupArgument_unchanged
    (harg : ∀ c ∈ arg, c ≠ quote ∧ c ≠ backslash) : cleanupArgument false arg = arg := by
  induction arg with
  | nil => rfl
  | cons c arg ih =>
    obtain ⟨hq, hb⟩ := harg c (by simp)
    have ih' := ih fun d hd => harg d (by simp [hd])
    simp [cleanupArgument, hq, hb, ih']

theorem cleanupArguments_unchanged {args : List (List UInt8)}
    (hargs : ∀ arg ∈ args, ∀ c ∈ arg, c ≠ quote ∧ c ≠ backslash) :
    cleanupArguments args.length args = some args := by
  induction args with
  | nil => rfl
  | cons arg args ih =>
    have ih' := ih fun other h => hargs other (by simp [h])
    simp [cleanupArguments, ih', cleanupArgument_unchanged (hargs arg (by simp))]

/-! ## What the passes can do to the length -/

theorem cleanupArgument_length (esc : Bool) (arg : List UInt8) :
    (cleanupArgument esc arg).length ≤ arg.length := by
  induction arg generalizing esc with
  | nil => exact Nat.le_refl _
  | cons c arg ih =>
    simp only [cleanupArgument]
    split_ifs
    · exact Nat.le_succ_of_le (ih true)
    · exact Nat.le_succ_of_le (ih false)
    · exact Nat.succ_le_succ (ih false)

/-- The cleanup keeps the length only of an argument without quotes and backslashes. -/
theorem cleanupArgument_length_eq (h : (cleanupArgument false arg).length = arg.length) :
    ∀ c ∈ arg, c ≠ quote ∧ c ≠ backslash := by
  induction arg with
  | nil => simp
  | cons c arg ih =>
    simp only [cleanupArgument, true_and] at h
    split_ifs at h with hb hq
    · have := cleanupArgument_length true arg
      simp only [List.length_cons] at h
      omega
    · have := cleanupArgument_length false arg
      simp only [List.length_cons] at h
      omega
    · intro d hd
      rcases List.mem_cons.mp hd with rfl | hd
      · exact ⟨hq, hb⟩
      · exact ih (by simpa using h) d hd

theorem skipArgument_no_space
    (h : ∀ c ∈ (skipArgument false false pos).1, c ≠ quote ∧ c ≠ backslash) :
    ∀ c ∈ (skipArgument false false pos).1, isspace c = false := by
  induction pos with
  | nil => simp [skipArgument]
  | cons c rest ih =>
    simp only [skipArgument, and_true] at h ⊢
    split_ifs at h ⊢ with hq hb hs
    · exact absurd hq (h c (by simp)).1
    · exact absurd hb (h c (by simp)).2
    · simp
    · intro d hd
      rcases List.mem_cons.mp hd with rfl | hd
      · simpa using hs
      · exact ih (fun e he => h e (by simp [he])) d hd

/-- The bytes that arguments take in a string, each with the byte behind it. -/
def spread (args : List (List UInt8)) : Nat := (args.map fun arg => arg.length + 1).sum

@[simp] theorem spread_nil : spread [] = 0 := rfl

@[simp] theorem spread_cons (arg : List UInt8) (args : List (List UInt8)) :
    spread (arg :: args) = arg.length + 1 + spread args := by
  simp [spread]

theorem splitArguments_spread (cliPtr : List UInt8) :
    spread (splitArguments cliPtr) ≤ cliPtr.length + 1 ∧
      ([] ∈ splitArguments cliPtr → spread (splitArguments cliPtr) ≤ cliPtr.length) := by
  fun_induction splitArguments cliPtr with
  | case1 => simp
  | case2 cliPtr hne ih =>
    have hlen := nextArgument_length cliPtr
    have hpos := List.length_pos_of_ne_nil hne
    by_cases hend : (nextArgument cliPtr).2 = []
    · simp only [hend, if_true, spread_cons, spread_nil, List.mem_singleton]
      rw [hend] at hlen
      refine ⟨by simpa using hlen, fun hnil => ?_⟩
      rw [← hnil]
      exact hpos
    · have hrest := List.length_pos_of_ne_nil hend
      have htail : (nextArgument cliPtr).2.tail.length = (nextArgument cliPtr).2.length - 1 :=
        List.length_tail
      rw [if_neg hend, spread_cons]
      obtain ⟨hall, hempty⟩ := ih
      refine ⟨by omega, fun hmem => ?_⟩
      rcases List.mem_cons.mp hmem with hnil | hmem
      · exact absurd (nextArgument_nil hnil.symm) hend
      · have := hempty hmem
        omega

theorem mem_splitArguments {cliPtr arg : List UInt8} (h : arg ∈ splitArguments cliPtr) :
    ∃ pos, arg = (nextArgument pos).1 := by
  fun_induction splitArguments cliPtr with
  | case1 => simp at h
  | case2 cliPtr hne ih =>
    rcases List.mem_cons.mp h with rfl | h
    · exact ⟨cliPtr, rfl⟩
    · by_cases hend : (nextArgument cliPtr).2 = []
      · simp [hend] at h
      · rw [if_neg hend] at h
        exact ih h

/-- The cleanup does not lengthen the arguments; where it keeps their length, each one is what it
was. -/
theorem cleanupArguments_spread {n : Nat} {argv args : List (List UInt8)}
    (h : cleanupArguments n argv = some args) :
    spread args ≤ spread argv ∧
      (spread args = spread argv → args = argv ∧
        ∀ arg ∈ argv, ∀ c ∈ arg, c ≠ quote ∧ c ≠ backslash) := by
  induction n generalizing argv args with
  | zero =>
    obtain rfl : [] = args := by simpa [cleanupArguments] using h
    refine ⟨Nat.zero_le _, fun heq => ?_⟩
    cases argv with
    | nil => simp
    | cons arg argv =>
      simp only [spread_nil, spread_cons] at heq
      omega
  | succ n ih =>
    cases argv with
    | nil => simp [cleanupArguments] at h
    | cons arg argv =>
      simp only [cleanupArguments, Option.map_eq_some_iff] at h
      obtain ⟨rest, hrest, rfl⟩ := h
      obtain ⟨hle, heq⟩ := ih hrest
      have hlen := cleanupArgument_length false arg
      simp only [spread_cons]
      refine ⟨by omega, fun hsum => ?_⟩
      have hkept : (cleanupArgument false arg).length = arg.length := by omega
      obtain ⟨rfl, hplain⟩ := heq (by omega)
      have harg := cleanupArgument_length_eq hkept
      refine ⟨?_, ?_⟩
      · rw [cleanupArgument_unchanged harg]
      · intro other hmem
        rcases List.mem_cons.mp hmem with rfl | hmem
        · exact harg
        · exact hplain other hmem

end LibC
