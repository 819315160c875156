import MeetixOS.Lib.Quoting
import MeetixOS.Lib.Rounds
import MeetixOS.Userspace.MxSh.RunCommand

/-! # Scripts of the shell

`MXScriptParser` reads a file into statements, each a list of pairs `key:value`. The parser keeps one
character, as a `char`, which stays `EOF` at the end of the file; here it is the file from that character
on, and its loops are given round by round. `document` says what they give: `none` where they never end,
which is in a comment without a newline behind it. -/

namespace MeetixOS.MxSh

open LibC MeetixOS.Lib

/-- The byte `'\n'`. -/
def newline : UInt8 := 10

/-- The byte `'#'`. -/
def hash : UInt8 := 35

/-- The byte `':'`. -/
def colon : UInt8 := 58

structure LsPair where
  key : List UInt8
  value : List UInt8
  deriving DecidableEq

structure LsStatement where
  pairs : List LsPair
  deriving DecidableEq

structure LsDocument where
  statements : List LsStatement
  deriving DecidableEq

namespace MXScriptParser

/-! ## The loops -/

/-- The loop over a comment. -/
def commentRounds (n : Nat) (input : List UInt8) : Option (List UInt8) :=
  rounds (fun input => some (if current input ≠ newline then .inl (step input) else .inr input)) n input

/-- The first loop of `MXScriptParser::statement`, over line ends, spaces and comments. -/
def skipRounds (n : Nat) (input : List UInt8) : Option (List UInt8) :=
  rounds (fun input =>
    if current input = newline ∨ isspace (current input) = true ∨ current input = hash then
      if current input = hash then (commentRounds n input).map fun input => .inl (step input)
      else some (.inl (step input))
    else some (.inr input)) n input

/-- The first loop of `key` and of `value`: white space in the line. -/
def blanksRounds (n : Nat) (input : List UInt8) : Option (List UInt8) :=
  rounds (fun input => some (
    if current input ≠ newline ∧ isspace (current input) = true then .inl (step input)
    else .inr input)) n input

/-- `MXScriptParser::key`. -/
def keyRounds (n : Nat) (input : List UInt8) : Option (List UInt8 × List UInt8) := do
  let input ← blanksRounds n input
  rounds (fun (ks, input) => some (
    if current input ≠ colon ∧ current input ≠ newline ∧ current input ≠ endOfInput then
      .inl (ks ++ [current input], step input)
    else .inr (ks, input))) n ([], input)

/-- The variables of `MXScriptParser::value`. -/
structure ValueState where
  instr : Bool
  esc : Bool
  ks : List UInt8
  input : List UInt8

/-- One round of the second loop of `MXScriptParser::value`, where `c` is the character at hand. -/
def valueRound (c : UInt8) (s : ValueState) : ValueState ⊕ (List UInt8 × List UInt8) :=
  if c = endOfInput then .inr (s.ks, s.input)
  else if c = quote ∧ s.esc = false then
    .inl { s with instr := !s.instr, esc := false, input := step s.input }
  else if c = backslash ∧ s.esc = false then .inl { s with esc := true, input := step s.input }
  else if isspace c = true ∧ s.instr = false ∧ s.esc = false then .inr (s.ks, s.input)
  else .inl { s with esc := false, ks := s.ks ++ [c], input := step s.input }

/-- `MXScriptParser::value`. -/
def valueRounds (n : Nat) (input : List UInt8) : Option (List UInt8 × List UInt8) := do
  let input ← blanksRounds n input
  rounds (fun s => some (valueRound (current s.input) s)) n ⟨false, false, [], input⟩

/-- `MXScriptParser::pair`; `none` inside stands for the null pointer. -/
def pairRounds (n : Nat) (input : List UInt8) : Option (Option LsPair × List UInt8) := do
  let (k, input) ← keyRounds n input
  if k = [] then some (none, input)
  else do
    let (v, input) ← valueRounds n (if current input = colon then step input else input)
    if v = [] then some (none, input) else some (some ⟨k, v⟩, input)

/-- `MXScriptParser::statement`. -/
def statementRounds (n : Nat) (input : List UInt8) : Option (Option LsStatement × List UInt8) := do
  let input ← skipRounds n input
  let (pairs, input) ← rounds (fun (pairs, input) =>
    (pairRounds n input).map fun
      | (some p, rest) => .inl (pairs ++ [p], rest)
      | (none, rest) => .inr (pairs, rest)) n (([] : List LsPair), input)
  if pairs = [] then some (none, input) else some (some ⟨pairs⟩, input)

/-- `MXScriptParser::document`, with at most `n` rounds in each loop. -/
def documentRounds (n : Nat) (input : List UInt8) : Option LsDocument :=
  rounds (fun (statements, input) =>
    (statementRounds n input).map fun
      | (some stat, rest) => .inl (statements ++ [stat], rest)
      | (none, _) => .inr ⟨statements⟩) n (([] : List LsStatement), input)

/-! ## What they give -/

/-- The end of a comment, if it has one. -/
def comment : List UInt8 → Option (List UInt8)
  | [] => none
  | c :: rest => if c = newline then some (c :: rest) else comment rest

/-- The white space and the comments in front of a statement; inside of a comment where the flag is set.
`none` where a comment has no end. -/
def skip : Bool → List UInt8 → Option (List UInt8)
  | true, [] => none
  | true, c :: rest => if c = newline then skip false rest else skip true rest
  | false, [] => some []
  | false, c :: rest =>
    if c = newline ∨ isspace c = true ∨ c = hash then
      if c = hash then skip true rest else skip false rest
    else some (c :: rest)

/-- White space in the line. -/
def lineBlank (c : UInt8) : Bool := c != newline && isspace c

/-- What a key is made of. -/
def keyByte (c : UInt8) : Bool := c != colon && c != newline && c != endOfInput

/-- How a value is quoted: outside of quotes white space ends it. -/
def valueQuoting : Quoting UInt8 where
  quote := quote
  escape := backslash
  finish := endOfInput
  stops := isspace
  quote_ne := quote_ne_backslash
  finish_ne := endOfInput_ne
  stops_not := by decide

def key (input : List UInt8) : List UInt8 × List UInt8 :=
  ((input.dropWhile lineBlank).takeWhile keyByte, (input.dropWhile lineBlank).dropWhile keyByte)

def value (input : List UInt8) : List UInt8 × List UInt8 :=
  valueQuoting.scan false false (input.dropWhile lineBlank)

/-- What stands behind a key. -/
def behindKey (input : List UInt8) : List UInt8 := if current input = colon then step input else input

def pair (input : List UInt8) : Option LsPair × List UInt8 :=
  if (key input).1 = [] then (none, (key input).2)
  else if (value (behindKey (key input).2)).1 = [] then (none, (value (behindKey (key input).2)).2)
  else (some ⟨(key input).1, (value (behindKey (key input).2)).1⟩, (value (behindKey (key input).2)).2)

theorem behindKey_length (input : List UInt8) : (behindKey input).length ≤ input.length := by
  unfold behindKey
  split
  · exact List.length_tail ▸ Nat.sub_le _ _
  · exact Nat.le_refl _

theorem value_length (input : List UInt8) : (value input).2.length ≤ input.length :=
  Nat.le_trans (Quoting.scan_length _ _ _) (List.length_dropWhile_le _ _)

theorem key_length (input : List UInt8) : (key input).1.length + (key input).2.length ≤ input.length := by
  have hsplit := congrArg List.length
    (List.takeWhile_append_dropWhile (p := keyByte) (l := input.dropWhile lineBlank))
  rw [List.length_append] at hsplit
  exact hsplit ▸ List.length_dropWhile_le _ _

theorem pair_missing {c : UInt8} (hc : c = newline ∨ c = endOfInput ∨ c = colon) (rest : List UInt8) :
    pair (c :: rest) = (none, c :: rest) := by
  have hblank : ¬lineBlank c = true := by
    rcases hc with rfl | rfl | rfl <;> decide
  have hbyte : ¬keyByte c = true := by
    rcases hc with rfl | rfl | rfl <;> decide
  rw [pair, key, List.dropWhile_cons_of_neg hblank,
    List.takeWhile_cons_of_neg hbyte, List.dropWhile_cons_of_neg hbyte, if_pos rfl]

theorem pair_length_le (input : List UInt8) : (pair input).2.length ≤ input.length := by
  have hkey := key_length input
  have hbehind := behindKey_length (key input).2
  have hvalue := value_length (behindKey (key input).2)
  unfold pair
  split_ifs <;> simp only <;> omega

variable {rest input : List UInt8}

theorem pair_length {p : LsPair} (h : pair input = (some p, rest)) :
    rest.length < input.length := by
  have hkey := key_length input
  have hbehind := behindKey_length (key input).2
  have hvalue := value_length (behindKey (key input).2)
  unfold pair at h
  split_ifs at h with hempty hvalueEmpty
  · simp at h
  · simp at h
  · obtain ⟨-, rfl⟩ := Prod.mk.inj h
    have hpos := List.length_pos_of_ne_nil hempty
    omega

/-- The pairs of a statement. -/
def pairs (input : List UInt8) : List LsPair × List UInt8 :=
  match _h : pair input with
  | (some p, rest) => (p :: (pairs rest).1, (pairs rest).2)
  | (none, rest) => ([], rest)
termination_by input.length
decreasing_by all_goals exact pair_length _h

theorem pairs_some {p : LsPair} (h : pair input = (some p, rest)) :
    pairs input = (p :: (pairs rest).1, (pairs rest).2) := by
  rw [pairs]
  split
  next heq =>
    rw [h] at heq
    cases heq
    rfl
  next heq => simp [h] at heq

theorem pairs_none (h : pair input = (none, rest)) : pairs input = ([], rest) := by
  rw [pairs]
  split
  next heq => simp [h] at heq
  next heq =>
    rw [h] at heq
    cases heq
    rfl

theorem pairs_length_le (input : List UInt8) : (pairs input).2.length ≤ input.length := by
  induction input using pairs.induct with
  | case1 input p rest h ih =>
    rw [pairs_some h]
    exact Nat.le_trans ih (Nat.le_of_lt (pair_length h))
  | case2 input rest h =>
    rw [pairs_none h]
    have hle := pair_length_le input
    rwa [h] at hle

theorem pairs_length (h : (pairs input).1 ≠ []) : (pairs input).2.length < input.length := by
  cases hpair : pair input with
  | mk first rest =>
    cases first with
    | none =>
      rw [pairs_none hpair] at h
      exact absurd rfl h
    | some p =>
      rw [pairs_some hpair]
      exact Nat.lt_of_le_of_lt (pairs_length_le rest) (pair_length hpair)

theorem skip_length {comment : Bool} (h : skip comment input = some rest) :
    rest.length ≤ input.length := by
  induction input generalizing comment with
  | nil =>
    cases comment with
    | true => cases h
    | false =>
      cases h
      exact Nat.le_refl _
  | cons c input ih =>
    cases comment with
    | true =>
      simp only [skip] at h
      split_ifs at h
      · exact Nat.le_succ_of_le (ih h)
      · exact Nat.le_succ_of_le (ih h)
    | false =>
      simp only [skip] at h
      split_ifs at h
      · exact Nat.le_succ_of_le (ih h)
      · exact Nat.le_succ_of_le (ih h)
      · cases h
        exact Nat.le_refl _

/-- `MXScriptParser::statement`, as the loops give it. -/
def statement (input : List UInt8) : Option (Option LsStatement × List UInt8) :=
  (skip false input).map fun input =>
    if (pairs input).1 = [] then (none, (pairs input).2) else (some ⟨(pairs input).1⟩, (pairs input).2)

/-- The statements of a file, where the reader does not end up in a comment without end. -/
def statements (input : List UInt8) : Option (List LsStatement) :=
  match _h : skip false input with
  | none => none
  | some input =>
    if _hpairs : (pairs input).1 = [] then some []
    else (statements (pairs input).2).map fun more => ⟨(pairs input).1⟩ :: more
termination_by input.length
decreasing_by exact Nat.lt_of_lt_of_le (pairs_length _hpairs) (skip_length _h)

/-- `MXScriptParser::document`, as the loops give it. -/
def document (input : List UInt8) : Option LsDocument := (statements input).map LsDocument.mk

/-! ## That they give it -/

theorem commentRounds_agrees (n : Nat) (input : List UInt8) :
    Agrees n input.length (commentRounds n input) (comment input) := by
  refine rounds_agrees List.length comment ?_ input
  intro input
  refine Or.inr ?_
  cases input with
  | nil =>
    -- the last character stays, and it is no newline
    exact Or.inr ⟨[], rfl, rfl, Or.inr rfl⟩
  | cons c rest =>
    by_cases hc : c = newline
    · subst hc
      exact Or.inl ⟨newline :: rest, rfl, rfl⟩
    · refine Or.inr ⟨rest, congrArg some (if_pos hc), ?_, Or.inl (Nat.lt_succ_self _)⟩
      rw [comment, if_neg hc]

theorem comment_spec (h : comment input = some rest) :
    rest.length ≤ input.length ∧ ∃ tail, rest = newline :: tail := by
  induction input with
  | nil => cases h
  | cons c input ih =>
    rw [comment] at h
    split at h
    next hc =>
      cases h
      exact ⟨Nat.le_refl _, input, by rw [hc]⟩
    next =>
      obtain ⟨hle, htail⟩ := ih h
      exact ⟨Nat.le_succ_of_le hle, htail⟩

theorem skip_true (input : List UInt8) :
    skip true input = (comment input).bind fun rest => skip false (step rest) := by
  induction input with
  | nil => rfl
  | cons c rest ih =>
    rw [skip, comment]
    split
    · rfl
    · exact ih

section

variable (n : Nat) (input : List UInt8)

theorem skipRounds_agrees : Agrees n input.length (skipRounds n input) (skip false input) := by
  refine rounds_agrees List.length (skip false) ?_ input
  intro input
  cases input with
  | nil => exact Or.inr (Or.inl ⟨[], rfl, rfl⟩)
  | cons c rest =>
    by_cases hskip : c = newline ∨ isspace c = true ∨ c = hash
    · by_cases hhash : c = hash
      · subst hhash
        have hresult : skip false (hash :: rest) =
            (comment (hash :: rest)).bind fun rest => skip false (step rest) := by
          rw [← skip_true]
          rfl
        have hbody : (if current (hash :: rest) = newline ∨ isspace (current (hash :: rest)) = true ∨
            current (hash :: rest) = hash then
              if current (hash :: rest) = hash then
                (commentRounds n (hash :: rest)).map fun input => Sum.inl (step input)
              else some (.inl (step (hash :: rest)))
            else some (.inr (hash :: rest))) =
            (commentRounds n (hash :: rest)).map fun input => (Sum.inl (step input) :
              List UInt8 ⊕ List UInt8) := rfl
        rw [hbody, hresult]
        rcases commentRounds_agrees n (hash :: rest) with hagree | ⟨hnone, hle⟩
        · rw [hagree]
          cases hcomment : comment (hash :: rest) with
          | none => exact Or.inl ⟨rfl, Or.inr rfl⟩
          | some behind =>
            obtain ⟨hlength, tail, rfl⟩ := comment_spec hcomment
            exact Or.inr (Or.inr ⟨tail, rfl, rfl, Or.inl (Nat.lt_of_succ_le hlength)⟩)
        · rw [hnone]
          exact Or.inl ⟨rfl, Or.inl hle⟩
      · refine Or.inr (Or.inr ⟨rest, ?_, ?_, Or.inl (Nat.lt_succ_self _)⟩)
        · exact (if_pos hskip).trans (if_neg hhash)
        · rw [skip, if_pos hskip, if_neg hhash]
    · refine Or.inr (Or.inl ⟨c :: rest, if_neg hskip, ?_⟩)
      rw [skip, if_neg hskip]

theorem blanksRounds_agrees :
    Agrees n input.length (blanksRounds n input) (some (input.dropWhile lineBlank)) := by
  refine rounds_agrees List.length (fun input => some (input.dropWhile lineBlank)) ?_ input
  intro input
  refine Or.inr ?_
  cases input with
  | nil => exact Or.inl ⟨[], rfl, rfl⟩
  | cons c rest =>
    by_cases hc : c ≠ newline ∧ isspace c = true
    · refine Or.inr ⟨rest, congrArg some (if_pos hc), ?_, Or.inl (Nat.lt_succ_self _)⟩
      simp [lineBlank, hc]
    · refine Or.inl ⟨c :: rest, congrArg some (if_neg hc), ?_⟩
      have hblank : lineBlank c = false := by simpa [lineBlank] using hc
      simp [hblank]

theorem keyRounds_agrees : Agrees n input.length (keyRounds n input) (some (key input)) := by
  have hblanks := List.length_dropWhile_le lineBlank input
  refine (blanksRounds_agrees n input).bind (g := fun input =>
    some (input.takeWhile keyByte, input.dropWhile keyByte)) ?_
  rintro x heq
  cases heq
  refine Agrees.mono (rounds_agrees (fun s : List UInt8 × List UInt8 => s.2.length)
    (fun s => some (s.1 ++ s.2.takeWhile keyByte, s.2.dropWhile keyByte)) ?_
    ([], input.dropWhile lineBlank)) hblanks
  rintro ⟨ks, input⟩
  refine Or.inr ?_
  cases input with
  | nil => exact Or.inl ⟨(ks, []), rfl, by simp⟩
  | cons c rest =>
    by_cases hc : c ≠ colon ∧ c ≠ newline ∧ c ≠ endOfInput
    · have hbyte : keyByte c = true := by
        simp [keyByte, hc]
      refine Or.inr ⟨(ks ++ [c], rest), congrArg some (if_pos hc), ?_, Or.inl (Nat.lt_succ_self _)⟩
      simp [hbyte]
    · have hbyte : keyByte c = false := by
        simp only [keyByte, Bool.and_eq_false_iff, bne_eq_false_iff_eq]
        tauto
      refine Or.inl ⟨(ks, c :: rest), congrArg some (if_neg hc), ?_⟩
      simp [hbyte]

theorem valueRounds_agrees : Agrees n input.length (valueRounds n input) (some (value input)) := by
  have hblanks := List.length_dropWhile_le lineBlank input
  refine (blanksRounds_agrees n input).bind (g := fun input =>
    some (valueQuoting.scan false false input)) ?_
  rintro x heq
  cases heq
  refine Agrees.mono (rounds_agrees (fun s : ValueState => s.input.length)
    (fun s : ValueState => some (s.ks ++ (valueQuoting.scan s.instr s.esc s.input).1,
      (valueQuoting.scan s.instr s.esc s.input).2)) ?_
    ⟨false, false, [], input.dropWhile lineBlank⟩) hblanks
  rintro ⟨instr, esc, ks, input⟩
  refine Or.inr ?_
  cases input with
  | nil => exact Or.inl ⟨(ks, []), rfl, by simp [Quoting.scan]⟩
  | cons c rest =>
    have hquote : valueQuoting.quote = quote := rfl
    have hescape : valueQuoting.escape = backslash := rfl
    have hfinish : valueQuoting.finish = endOfInput := rfl
    have hstops : valueQuoting.stops c = isspace c := rfl
    simp only [Quoting.scan, hquote, hescape, hfinish, hstops]
    show (∃ r, some (valueRound c _) = _ ∧ _) ∨ ∃ s', some (valueRound c _) = _ ∧ _
    unfold valueRound
    -- the branches of the round, in its order
    by_cases hend : c = endOfInput
    · refine Or.inl ⟨(ks, c :: rest), congrArg some (if_pos hend), ?_⟩
      simp [if_pos hend]
    rw [if_neg hend, if_neg hend]
    by_cases htoggle : c = quote ∧ esc = false
    · obtain ⟨rfl, rfl⟩ := htoggle
      refine Or.inr ⟨⟨!instr, false, ks, rest⟩, rfl, ?_, Or.inl (Nat.lt_succ_self _)⟩
      simp [quote_ne_backslash]
    rw [if_neg htoggle]
    by_cases hback : c = backslash ∧ esc = false
    · obtain ⟨rfl, rfl⟩ := hback
      refine Or.inr ⟨⟨instr, true, ks, rest⟩, rfl, ?_, Or.inl (Nat.lt_succ_self _)⟩
      simp
    have hback' : ¬(esc = false ∧ c = backslash) := fun h => hback h.symm
    have htoggle' : ¬(esc = false ∧ c = quote) := fun h => htoggle h.symm
    rw [if_neg hback, if_neg hback', if_neg htoggle']
    by_cases hspace : isspace c = true ∧ instr = false ∧ esc = false
    · refine Or.inl ⟨(ks, c :: rest), congrArg some (if_pos hspace), ?_⟩
      simp [hspace]
    · refine Or.inr ⟨⟨instr, false, ks ++ [c], rest⟩, congrArg some (if_neg hspace), ?_,
        Or.inl (Nat.lt_succ_self _)⟩
      have hspace' : ¬(esc = false ∧ instr = false ∧ isspace c = true) :=
        fun h => hspace ⟨h.2.2, h.2.1, h.1⟩
      rw [if_neg hspace']
      simp

theorem pairRounds_agrees : Agrees n input.length (pairRounds n input) (some (pair input)) := by
  have hkey := key_length input
  have hrest := Nat.le_trans (behindKey_length _) (Nat.le_trans (Nat.le_add_left _ _) hkey)
  have hbind := (keyRounds_agrees n input).bind (g := fun r =>
    if r.1 = [] then some (none, r.2)
    else (some (value (behindKey r.2))).bind fun v =>
      if v.1 = [] then some (none, v.2) else some (some (LsPair.mk r.1 v.1), v.2)) (f := fun r =>
    if r.1 = [] then some (none, r.2)
    else (valueRounds n (behindKey r.2)).bind fun v =>
      if v.1 = [] then some (none, v.2) else some (some (LsPair.mk r.1 v.1), v.2)) ?_
  · refine Eq.mp ?_ hbind
    congr 1
    simp only [Option.bind_some, pair]
    split_ifs <;> rfl
  · rintro r heq
    cases heq
    split
    · exact Or.inl rfl
    · exact Agrees.bind ((valueRounds_agrees n _).mono hrest) fun v _ => Or.inl rfl

theorem pairsRounds_agrees :
    Agrees n input.length (rounds (fun (s : List LsPair × List UInt8) =>
      (pairRounds n s.2).map fun
        | (some p, rest) => .inl (s.1 ++ [p], rest)
        | (none, rest) => .inr (s.1, rest)) n ([], input)) (some (pairs input)) := by
  refine rounds_agrees (fun s : List LsPair × List UInt8 => s.2.length)
    (fun s => some (s.1 ++ (pairs s.2).1, (pairs s.2).2)) ?_ ([], input)
  rintro ⟨found, input⟩
  rcases pairRounds_agrees n input with hagree | ⟨hnone, hle⟩
  · refine Or.inr ?_
    simp only [hagree]
    cases hpair : pair input with
    | mk first rest =>
      cases first with
      | some p =>
        refine Or.inr ⟨(found ++ [p], rest), rfl, ?_, Or.inl (pair_length hpair)⟩
        simp [pairs_some hpair]
      | none =>
        refine Or.inl ⟨(found, rest), rfl, ?_⟩
        simp [pairs_none hpair]
  · refine Or.inl ⟨?_, Or.inl hle⟩
    simp [hnone]

theorem statementRounds_agrees :
    Agrees n input.length (statementRounds n input) (statement input) := by
  have hbind := (skipRounds_agrees n input).bind (g := fun input =>
      (some (pairs input)).bind fun r =>
        if r.1 = [] then some (none, r.2) else some (some (LsStatement.mk r.1), r.2))
    (f := fun input => (rounds (fun (s : List LsPair × List UInt8) =>
        (pairRounds n s.2).map fun
          | (some p, rest) => .inl (s.1 ++ [p], rest)
          | (none, rest) => .inr (s.1, rest)) n ([], input)).bind fun r =>
        if r.1 = [] then some (none, r.2) else some (some (LsStatement.mk r.1), r.2)) ?_
  · refine Eq.mp ?_ hbind
    congr 1
    rw [statement]
    cases skip false input with
    | none => rfl
    | some rest =>
      simp only [Option.bind_some, Option.map_some]
      split_ifs <;> rfl
  · intro rest hrest
    exact Agrees.bind ((pairsRounds_agrees n rest).mono (skip_length hrest)) fun r _ => Or.inl rfl

end

theorem statement_some {stat : LsStatement} (h : statement input = some (some stat, rest)) :
    rest.length < input.length ∧ statements input = (statements rest).map fun more => stat :: more := by
  obtain ⟨behind, hskip, heq⟩ := Option.map_eq_some_iff.1 h
  split_ifs at heq with hpairs
  · cases heq
  · cases heq
    refine ⟨Nat.lt_of_lt_of_le (pairs_length hpairs) (skip_length hskip), ?_⟩
    rw [statements]
    split
    next hnone => simp [hskip] at hnone
    next hsome =>
      rw [hskip] at hsome
      cases hsome
      rw [dif_neg hpairs]

theorem statement_null (h : statement input = some (none, rest)) : statements input = some [] := by
  obtain ⟨behind, hskip, heq⟩ := Option.map_eq_some_iff.1 h
  split_ifs at heq with hpairs
  · rw [statements]
    split
    next hnone => simp [hskip] at hnone
    next hsome =>
      rw [hskip] at hsome
      cases hsome
      rw [dif_pos hpairs]
  · cases heq

theorem statement_none (h : statement input = none) : statements input = none := by
  have hskip := Option.map_eq_none_iff.1 h
  rw [statements]
  split
  · rfl
  next hsome =>
    rw [hskip] at hsome
    cases hsome

theorem skip_newline (input : List UInt8) : skip false (newline :: input) = skip false input := rfl

theorem statements_newline (input : List UInt8) : statements (newline :: input) = statements input := by
  have hsame : statement (newline :: input) = statement input := by
    rw [statement, skip_newline, ← statement]
  cases hstat : statement input with
  | none => rw [statement_none hstat, statement_none (hsame.trans hstat)]
  | some result =>
    obtain ⟨first, rest⟩ := result
    cases first with
    | none => rw [statement_null hstat, statement_null (hsame.trans hstat)]
    | some stat => rw [(statement_some hstat).2, (statement_some (hsame.trans hstat)).2]

theorem documentRounds_agrees (n : Nat) (input : List UInt8) :
    Agrees n input.length (documentRounds n input) (document input) := by
  refine rounds_agrees (fun s : List LsStatement × List UInt8 => s.2.length)
    (fun s => (statements s.2).map fun more => LsDocument.mk (s.1 ++ more)) ?_ ([], input)
  rintro ⟨found, input⟩
  rcases statementRounds_agrees n input with hagree | ⟨hnone, hle⟩
  · simp only [hagree]
    cases hstat : statement input with
    | none =>
      refine Or.inl ⟨rfl, Or.inr ?_⟩
      rw [statement_none hstat, Option.map_none]
    | some result =>
      obtain ⟨first, rest⟩ := result
      refine Or.inr ?_
      cases first with
      | some stat =>
        obtain ⟨hlength, hmore⟩ := statement_some hstat
        refine Or.inr ⟨(found ++ [stat], rest), rfl, ?_, Or.inl hlength⟩
        simp [hmore, Option.map_map, Function.comp_def]
      | none =>
        refine Or.inl ⟨⟨found⟩, rfl, ?_⟩
        simp [statement_null hstat]
  · refine Or.inl ⟨?_, Or.inl hle⟩
    simp [hnone]

end MXScriptParser

end MeetixOS.MxSh
