import Mathlib.Data.List.TakeWhile

/-! # Reading options from a command line

What `getopt_long` is documented to do with the words behind the program's name. A word of a dash and more
is read as options: behind two dashes the name of a long option, perhaps with `=` and its value; behind one
the characters of short options, the first of which that takes a value has the rest of the word or the next
word for it. The word of two dashes ends the options; other words are operands. -/

namespace MeetixOS.Lib.Getopt

/-! ## Tables of options -/

/-- The byte `'-'`. -/
def dash : UInt8 := 45

/-- The byte `'='`. -/
def equals : UInt8 := 61

/-- The byte `':'`. -/
def colon : UInt8 := 58

/-- `no_argument`, `required_argument` and `optional_argument`. -/
inductive HasArg where
  | no
  | required
  | optional
  deriving DecidableEq

/-- A long option, with what it stores through its `flag`. -/
structure LongOption where
  name : List UInt8
  hasArg : HasArg
  val : Nat

/-- The option characters with their colons, the long options, and whether an operand ends the
options. -/
structure Table where
  chars : List UInt8
  longs : List LongOption
  stop : Bool

/-- What the colons behind an option character say. -/
def hasArgOf (behind : List UInt8) : HasArg :=
  if behind.take 2 = [colon, colon] then .optional
  else if behind.take 1 = [colon] then .required
  else .no

/-- The option of a character. The colon is none. -/
def Table.lookupChar (t : Table) (c : UInt8) : Option HasArg :=
  if c = colon ∨ c ∉ t.chars then none else some (hasArgOf (t.chars.dropWhile (· ≠ c)).tail)

/-- The long option of a name. -/
def Table.lookupLong (t : Table) (name : List UInt8) : Option LongOption :=
  t.longs.find? fun option => option.name = name

/-! ## Reading -/

/-- What is returned for an option: its character or, through its flag, its value, each with `optarg`,
or the error. -/
inductive Answer where
  | char (c : UInt8) (optarg : Option (List UInt8))
  | flag (val : Nat) (optarg : Option (List UInt8))
  | error
  deriving DecidableEq

/-- Read a long option, given without its dashes: the answers, and the words behind. -/
def readLong (t : Table) (body : List UInt8) (words : List (List UInt8)) :
    List Answer × List (List UInt8) :=
  let value := body.dropWhile (· ≠ equals)
  match t.lookupLong (body.takeWhile (· ≠ equals)) with
  | none => ([.error], words)
  | some option =>
    if value = [] then
      if option.hasArg = .required then
        match words with
        | [] => ([.error], [])
        | word :: words => ([.flag option.val (some word)], words)
      else ([.flag option.val none], words)
    else if option.hasArg = .no then ([.error], words)
    else ([.flag option.val (some value.tail)], words)

/-- Read the short options of a word, given without its dash. -/
def readChars (t : Table) : List UInt8 → List (List UInt8) → List Answer × List (List UInt8)
  | [], words => ([], words)
  | c :: cs, words =>
    match t.lookupChar c with
    | none => (.error :: (readChars t cs words).1, (readChars t cs words).2)
    | some .no => (.char c none :: (readChars t cs words).1, (readChars t cs words).2)
    | some .optional => ([.char c (if cs = [] then none else some cs)], words)
    | some .required =>
      if cs = [] then
        match words with
        | [] => ([.error], [])
        | word :: words => ([.char c (some word)], words)
      else ([.char c (some cs)], words)

/-- Read the options of a word that starts with a dash. -/
def readOption (t : Table) (word : List UInt8) (words : List (List UInt8)) :
    List Answer × List (List UInt8) :=
  if word.take 2 = [dash, dash] then readLong t (word.drop 2) words else readChars t (word.drop 1) words

theorem readOption_length (t : Table) (word : List UInt8) (words : List (List UInt8)) :
    (readOption t word words).2.length ≤ words.length := by
  have hchars : ∀ cs, (readChars t cs words).2.length ≤ words.length := by
    intro cs
    induction cs with
    | nil => exact Nat.le_refl _
    | cons c cs ih =>
      unfold readChars
      split
      · exact ih
      · exact ih
      · exact Nat.le_refl _
      · split_ifs
        · cases words <;> simp
        · exact Nat.le_refl _
  unfold readOption
  split_ifs
  · unfold readLong
    dsimp only
    split
    · exact Nat.le_refl _
    · split_ifs
      · cases words <;> simp
      · exact Nat.le_refl _
      · exact Nat.le_refl _
      · exact Nat.le_refl _
  · exact hchars _

/-- Read a command line: the answers until the end of the options, and the operands. -/
def read (t : Table) : List (List UInt8) → List Answer × List (List UInt8)
  | [] => ([], [])
  | word :: words =>
    if word = [dash, dash] then ([], words)
    else if word.head? ≠ some dash ∨ word = [dash] then
      if t.stop then ([], word :: words) else ((read t words).1, word :: (read t words).2)
    else
      let first := readOption t word words
      (first.1 ++ (read t first.2).1, (read t first.2).2)
termination_by words => words.length
decreasing_by
  all_goals first
    | exact Nat.lt_succ_self _
    | exact Nat.lt_succ_of_le (readOption_length ..)

/-- Behind these words comes an option or an operand: whatever follows is read as if it stood alone. -/
def Complete (t : Table) (words : List (List UInt8)) : Prop :=
  ∃ answers operands, ∀ rest,
    read t (words ++ rest) = (answers ++ (read t rest).1, operands ++ (read t rest).2)

/-! ## One option -/

section

variable {t : Table} {c : UInt8} {value name : List UInt8} {words : List (List UInt8)}
  {option : LongOption}

theorem read_option {word : List UInt8} (hdash : word.head? = some dash) (hne : word ≠ [dash])
    (hend : word ≠ [dash, dash]) : read t (word :: words) =
      ((readOption t word words).1 ++ (read t (readOption t word words).2).1,
        (read t (readOption t word words).2).2) := by
  rw [read, if_neg hend, if_neg]
  rintro (hhead | hone)
  · exact hhead hdash
  · exact hne hone

theorem readOption_chars (hc : c ≠ dash) (cs : List UInt8) :
    readOption t (dash :: c :: cs) words = readChars t (c :: cs) words := by
  unfold readOption
  rw [if_neg]
  · rfl
  · simp [hc]

theorem read_chars (hc : c ≠ dash) (cs : List UInt8) : read t ((dash :: c :: cs) :: words) =
    ((readChars t (c :: cs) words).1 ++ (read t (readChars t (c :: cs) words).2).1,
      (read t (readChars t (c :: cs) words).2).2) := by
  rw [read_option rfl (by simp) (by simp [hc]), readOption_chars hc]

theorem read_char (hc : c ≠ dash) (hlookup : t.lookupChar c = some .no ∨ t.lookupChar c = some .optional)
    (words : List (List UInt8)) :
    read t ([dash, c] :: words) = (.char c none :: (read t words).1, (read t words).2) := by
  rw [read_chars hc]
  unfold readChars
  rcases hlookup with hno | hoptional
  · rw [hno]
    rfl
  · rw [hoptional]
    rfl

section

variable (hc : c ≠ dash) (hlookup : t.lookupChar c = some .required)
include hc hlookup

theorem read_char_word :
    read t ([dash, c] :: value :: words) =
      (.char c (some value) :: (read t words).1, (read t words).2) := by
  rw [read_chars hc]
  unfold readChars
  rw [hlookup]
  rfl

theorem read_char_attached (hvalue : value ≠ []) : read t ((dash :: c :: value) :: words) =
      (.char c (some value) :: (read t words).1, (read t words).2) := by
  rw [read_chars hc]
  unfold readChars
  rw [hlookup]
  simp only [if_neg hvalue]
  rfl

theorem read_char_missing : read t [[dash, c]] = ([.error], []) := by
  rw [read_chars hc]
  unfold readChars
  rw [hlookup]
  simp [read]

end

theorem read_long (hname : name ≠ []) : read t ((dash :: dash :: name) :: words) =
    ((readLong t name words).1 ++ (read t (readLong t name words).2).1,
      (read t (readLong t name words).2).2) := by
  rw [read_option rfl (by simp) (by simp [hname])]
  rfl

theorem takeWhile_equals (hequals : equals ∉ name) (rest : List UInt8) :
    (name ++ rest).takeWhile (· ≠ equals) = name ++ rest.takeWhile (· ≠ equals) ∧
      (name ++ rest).dropWhile (· ≠ equals) = rest.dropWhile (· ≠ equals) := by
  have hall : ∀ c ∈ name, decide (c ≠ equals) = true := by
    intro c hc
    rw [decide_eq_true_eq]
    rintro rfl
    exact hequals hc
  exact ⟨List.takeWhile_append_of_pos hall, List.dropWhile_append_of_pos hall⟩

theorem read_long_name (hname : name ≠ []) (hequals : equals ∉ name)
    (hlookup : t.lookupLong name = some option) (harg : option.hasArg ≠ .required) :
    read t ((dash :: dash :: name) :: words) =
      (.flag option.val none :: (read t words).1, (read t words).2) := by
  obtain ⟨htake, hdrop⟩ := takeWhile_equals hequals []
  rw [List.append_nil] at htake hdrop
  rw [read_long hname]
  unfold readLong
  simp only [htake, hdrop, List.takeWhile_nil, List.append_nil, List.dropWhile_nil, hlookup, if_true,
    if_neg harg]
  rfl

theorem read_long_word (hname : name ≠ []) (hequals : equals ∉ name)
    (hlookup : t.lookupLong name = some option) (harg : option.hasArg = .required) :
    read t ((dash :: dash :: name) :: value :: words) =
      (.flag option.val (some value) :: (read t words).1, (read t words).2) := by
  obtain ⟨htake, hdrop⟩ := takeWhile_equals hequals []
  rw [List.append_nil] at htake hdrop
  rw [read_long hname]
  unfold readLong
  simp only [htake, hdrop, List.takeWhile_nil, List.append_nil, List.dropWhile_nil, hlookup, if_true,
    harg]
  rfl

theorem read_long_attached (hequals : equals ∉ name)
    (hlookup : t.lookupLong name = some option) (harg : option.hasArg ≠ .no) :
    read t ((dash :: dash :: name ++ equals :: value) :: words) =
      (.flag option.val (some value) :: (read t words).1, (read t words).2) := by
  obtain ⟨htake, hdrop⟩ := takeWhile_equals hequals (equals :: value)
  rw [List.takeWhile_cons_of_neg (by simp), List.append_nil] at htake
  rw [List.cons_append, List.cons_append, read_long (by simp)]
  unfold readLong
  simp only [htake, hdrop, hlookup, if_neg harg]
  rfl

end

end MeetixOS.Lib.Getopt
