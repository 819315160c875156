import MeetixOS.Lib.Quoting
import MeetixOS.Lib.Rounds
import MeetixOS.Userspace.MxSh.RunCommand

/-! # Lines that the shell's parser reads back

A line that prints a pipeline, each program followed by its arguments in quotes, is read back as that
pipeline, unless the name of a program has the byte `0xFF` in it, which reads as the end of the line. The
loops of the parser are given here round by round as well: on every line each of them ends, in no more
rounds than the line has bytes, and one. -/

namespace MeetixOS.MxSh

open LibC MeetixOS.Lib

/-! ## The loops -/

/-- `Parser::skipWhitespace`, in at most `n` rounds. -/
def skipWhitespaceRounds (n : Nat) (input : List UInt8) : Option (List UInt8) :=
  rounds (fun input => some (if isspace (current input) then .inl (step input) else .inr input)) n input

/-- The variables of `Parser::argument`, with the input from the current character on. -/
structure ArgumentState where
  instr : Bool
  escaped : Bool
  arg : List UInt8
  input : List UInt8

/-- One round of the loop of `Parser::argument`, where `c` is the current character. -/
def argumentRound (c : UInt8) (s : ArgumentState) : ArgumentState ⊕ (List UInt8 × List UInt8) :=
  if c = endOfInput then .inr (s.arg, s.input)
  else if s.escaped = false ∧ c = backslash then .inl { s with escaped := true, input := step s.input }
  else if s.instr = true then
    if c = quote ∧ s.escaped = false then
      .inl { s with instr := false, escaped := false, input := step s.input }
    else .inl { s with escaped := false, arg := s.arg ++ [c], input := step s.input }
  else if s.escaped = false ∧ (c = pipe ∨ c = blank) then .inr (s.arg, s.input)
  else if c = quote ∧ s.escaped = false then
    .inl { s with instr := true, escaped := false, input := step s.input }
  else .inl { s with escaped := false, arg := s.arg ++ [c], input := step s.input }

/-- `Parser::argument`, with at most `n` rounds in each loop. -/
def argumentRounds (n : Nat) (input : List UInt8) : Option (Option (List UInt8) × List UInt8) := do
  let input ← skipWhitespaceRounds n input
  if current input = endOfInput ∨ current input = pipe then some (none, input)
  else do
    let (arg, input) ← rounds (fun s => some (argumentRound (current s.input) s)) n ⟨false, false, [], input⟩
    some (some arg, input)

/-- The loop of `Parser::programCall` over the arguments. -/
def argumentsRounds (n : Nat) (input : List UInt8) : Option (List (List UInt8) × List UInt8) :=
  rounds (fun (args, input) =>
    match argumentRounds n input with
    | none => none
    | some (some arg, rest) => some (.inl (args ++ [arg], rest))
    | some (none, rest) => some (.inr (args, rest))) n ([], input)

/-- The loop of `Parser::programCall` over the name of the program. -/
def programRounds (n : Nat) (input : List UInt8) : Option (List UInt8 × List UInt8) :=
  rounds (fun (program, input) => some (
    if current input ≠ endOfInput ∧ current input ≠ pipe ∧ isspace (current input) = false then
      .inl (program ++ [current input], step input)
    else .inr (program, input))) n ([], input)

/-- `Parser::programCall`, with at most `n` rounds in each loop. -/
def programCallRounds (n : Nat) (input : List UInt8) : Option (Option (ProgramCall × List UInt8)) := do
  let (program, input) ← programRounds n input
  if program = [] then some none
  else do
    let (args, input) ← argumentsRounds n input
    some (some (⟨program, args⟩, input))

/-- One round of the loop of `Parser::pipeExpression`. -/
def callRound (n : Nat) (s : List ProgramCall × List UInt8) :
    Option ((List ProgramCall × List UInt8) ⊕ Option (List ProgramCall)) := do
  let input ← skipWhitespaceRounds n s.2
  match ← programCallRounds n input with
  | none => some (.inr none)
  | some (call, behind) => do
      let rest ← skipWhitespaceRounds n behind
      if current rest = pipe then some (.inl (s.1 ++ [call], step rest))
      else if current rest = endOfInput then some (.inr (some (s.1 ++ [call])))
      else some (.inr none)

/-- `Parser::pipeExpression`, with at most `n` rounds in each loop. -/
def pipeExpressionRounds (n : Nat) (line : List UInt8) : Option (Option (List ProgramCall)) :=
  if line.isEmpty || line.all isblank then some none else rounds (callRound n) n ([], line)

variable {input rest tail : List UInt8} {n : Nat} {call : ProgramCall} {pipeline : List ProgramCall}

theorem skipWhitespaceRounds_eq (h : input.length < n) :
    skipWhitespaceRounds n input = some (skipWhitespace input) := by
  refine rounds_eq_some List.length skipWhitespace ?_ h
  intro input _
  cases input with
  | nil => exact Or.inl rfl
  | cons c rest =>
    cases hc : isspace c with
    | true =>
      refine Or.inr ⟨rest, ?_, Nat.lt_succ_self _, ?_⟩
      · simp [current, step, hc]
      · simp [skipWhitespace, hc]
    | false =>
      refine Or.inl ?_
      simp [current, skipWhitespace, hc]

theorem argumentLoop_rounds (s : ArgumentState) (h : s.input.length < n) :
    rounds (fun s => some (argumentRound (current s.input) s)) n s =
      some (argumentLoop s.instr s.escaped s.arg s.input) := by
  refine rounds_eq_some (fun s : ArgumentState => s.input.length)
    (fun s : ArgumentState => argumentLoop s.instr s.escaped s.arg s.input) ?_ h
  rintro ⟨instr, escaped, arg, input⟩ _
  cases input with
  | nil => exact Or.inl rfl
  | cons c rest =>
    show some (argumentRound c _) = _ ∨ ∃ s', some (argumentRound c _) = _ ∧ _
    simp only [argumentRound, step, List.tail_cons, argumentLoop]
    split_ifs with hend hescape hinstr hclose hstop hopen
    · exact Or.inl rfl
    · exact Or.inr ⟨_, rfl, Nat.lt_succ_self _, rfl⟩
    · exact Or.inr ⟨_, rfl, Nat.lt_succ_self _, rfl⟩
    · refine Or.inr ⟨_, rfl, Nat.lt_succ_self _, ?_⟩
      rw [hinstr]
    · exact Or.inl rfl
    · exact Or.inr ⟨_, rfl, Nat.lt_succ_self _, rfl⟩
    · refine Or.inr ⟨_, rfl, Nat.lt_succ_self _, ?_⟩
      rw [Bool.not_eq_true] at hinstr
      rw [hinstr]

theorem argumentRounds_eq (h : input.length < n) :
    argumentRounds n input = some (argument input) := by
  have hskip := skipWhitespace_length input
  simp only [argumentRounds, skipWhitespaceRounds_eq h, Option.bind_eq_bind, Option.bind_some, argument]
  split_ifs
  · rfl
  · rw [argumentLoop_rounds _ (Nat.lt_of_le_of_lt hskip h)]
    rfl

theorem arguments_some {input arg rest : List UInt8} (h : argument input = (some arg, rest)) :
    arguments input = (arg :: (arguments rest).1, (arguments rest).2) := by
  rw [arguments]
  split
  next heq => simp [h] at heq
  next heq =>
    rw [h] at heq
    cases heq
    rfl

theorem arguments_none (h : argument input = (none, rest)) : arguments input = ([], rest) := by
  rw [arguments]
  split
  next heq =>
    rw [h] at heq
    cases heq
    rfl
  next heq => simp [h] at heq

theorem argumentsRounds_eq (h : input.length < n) :
    argumentsRounds n input = some (arguments input) := by
  refine rounds_eq_some (fun s : List (List UInt8) × List UInt8 => s.2.length)
    (fun s => (s.1 ++ (arguments s.2).1, (arguments s.2).2)) ?_ h
  rintro ⟨args, input⟩ hlt
  simp only [argumentRounds_eq hlt]
  cases harg : argument input with
  | mk first rest =>
    cases first with
    | none =>
      refine Or.inl ?_
      simp [arguments_none harg]
    | some arg =>
      refine Or.inr ⟨_, rfl, argument_length harg, ?_⟩
      simp [arguments_some harg]

theorem programRounds_eq (h : input.length < n) :
    programRounds n input = some (input.takeWhile programByte, input.dropWhile programByte) := by
  refine rounds_eq_some (fun s : List UInt8 × List UInt8 => s.2.length)
    (fun s => (s.1 ++ s.2.takeWhile programByte, s.2.dropWhile programByte)) ?_ h
  rintro ⟨program, input⟩ _
  cases input with
  | nil =>
    refine Or.inl ?_
    simp [current]
  | cons c rest =>
    by_cases hc : c ≠ endOfInput ∧ c ≠ pipe ∧ isspace c = false
    · have hbyte : programByte c = true := by
        simp [programByte, hc]
      refine Or.inr ⟨(program ++ [c], rest), ?_, Nat.lt_succ_self _, ?_⟩
      · exact congrArg some (if_pos hc)
      · simp [hbyte]
    · have hbyte : programByte c = false := by
        simp only [programByte, Bool.and_eq_false_iff, bne_eq_false_iff_eq, Bool.not_eq_false']
        simp only [ne_eq, not_and_or, not_not, Bool.not_eq_false] at hc
        tauto
      refine Or.inl ((congrArg some (if_neg hc)).trans ?_)
      simp [hbyte]

theorem programCallRounds_eq (h : input.length < n) :
    programCallRounds n input = some (programCall input) := by
  have hdrop : (input.dropWhile programByte).length ≤ input.length := List.length_dropWhile_le _ _
  simp only [programCallRounds, programRounds_eq h, Option.bind_eq_bind, Option.bind_some, programCall]
  split_ifs
  · rfl
  · rw [argumentsRounds_eq (Nat.lt_of_le_of_lt hdrop h)]
    rfl

theorem pipeExpressionRounds_eq {line : List UInt8} (h : line.length < n) :
    pipeExpressionRounds n line = some (pipeExpression line) := by
  rw [pipeExpressionRounds, pipeExpression]
  split
  · rfl
  · refine rounds_eq_some (fun s : List ProgramCall × List UInt8 => s.2.length)
      (fun s => (calls s.2).map fun more => s.1 ++ more) ?_ h |>.trans ?_
    · rintro ⟨found, input⟩ hlt
      have hskip := skipWhitespace_length input
      have hinput := Nat.lt_of_le_of_lt hskip hlt
      simp only [callRound, skipWhitespaceRounds_eq hlt, programCallRounds_eq hinput,
        Option.bind_eq_bind, Option.bind_some]
      rw [calls]
      cases hcall : programCall (skipWhitespace input) with
      | none => exact Or.inl rfl
      | some result =>
        obtain ⟨call, behind⟩ := result
        have hbehind := programCall_length hcall
        have hrest := skipWhitespace_length behind
        simp only [skipWhitespaceRounds_eq (Nat.lt_trans hbehind hinput), Option.bind_some]
        split_ifs
        · refine Or.inr ⟨_, rfl, ?_, ?_⟩
          · simp only [step, List.length_tail]
            omega
          · simp [Option.map_map, Function.comp_def]
        · exact Or.inl (by simp)
        · exact Or.inl rfl
    · simp

/-! ## Printed lines -/

/-- How an argument is quoted: outside of quotes a blank or a pipe ends it. -/
def argumentQuoting : Quoting UInt8 where
  quote := quote
  escape := backslash
  finish := endOfInput
  stops := fun c => c == pipe || c == blank
  quote_ne := quote_ne_backslash
  finish_ne := endOfInput_ne
  stops_not := by decide

/-- A program and its arguments in quotes, each behind a blank. -/
def printCall (call : ProgramCall) : List UInt8 :=
  call.program ++ call.arguments.flatMap fun arg => blank :: argumentQuoting.quoted arg

/-- The calls with a pipe between two of them. -/
def printPipeline : List ProgramCall → List UInt8
  | [] => []
  | [call] => printCall call
  | call :: next :: more => printCall call ++ blank :: pipe :: blank :: printPipeline (next :: more)

/-- A call that can be printed: the program has a name without white space and without a pipe, and no
argument has the byte `0xFF`. -/
structure ProgramCall.Printable (call : ProgramCall) : Prop where
  named : call.program ≠ []
  name : ∀ c ∈ call.program, c ≠ pipe ∧ isspace c = false
  arguments : ∀ arg ∈ call.arguments, endOfInput ∉ arg

/-- What stands behind a call: nothing, or a pipe with a blank before it. -/
def BehindCall (tail : List UInt8) : Prop := tail = [] ∨ ∃ more, tail = blank :: pipe :: more

theorem argumentLoop_eq (instr escaped : Bool) (arg input : List UInt8) :
    argumentLoop instr escaped arg input =
      (arg ++ (argumentQuoting.scan instr escaped input).1,
        (argumentQuoting.scan instr escaped input).2) := by
  induction input generalizing instr escaped arg with
  | nil => simp [argumentLoop, Quoting.scan]
  | cons c rest ih =>
    have hquote : argumentQuoting.quote = quote := rfl
    have hescape : argumentQuoting.escape = backslash := rfl
    have hfinish : argumentQuoting.finish = endOfInput := rfl
    have hstops : argumentQuoting.stops c = true ↔ c = pipe ∨ c = blank := by
      simp [argumentQuoting]
    have hplain : ¬(quote = pipe ∨ quote = blank) := by decide
    simp only [argumentLoop, Quoting.scan, hquote, hescape, hfinish, hstops, ih]
    cases instr <;> cases escaped <;> split_ifs <;> simp_all

theorem skipWhitespace_of_not {c : UInt8} (h : isspace c = false) (rest : List UInt8) :
    skipWhitespace (c :: rest) = c :: rest := by
  simp [skipWhitespace, h]

theorem skipWhitespace_blank (input : List UInt8) :
    skipWhitespace (blank :: input) = skipWhitespace input := by
  have hblank : isspace blank = true := by decide
  simp [skipWhitespace, hblank]

theorem argument_quoted {arg rest : List UInt8} (harg : endOfInput ∉ arg)
    (hrest : argumentQuoting.Ended rest) :
    argument (blank :: (argumentQuoting.quoted arg ++ rest)) = (some arg, rest) := by
  have hskip : skipWhitespace (blank :: (argumentQuoting.quoted arg ++ rest)) =
      argumentQuoting.quoted arg ++ rest := by
    rw [skipWhitespace_blank]
    exact skipWhitespace_of_not (by decide) _
  have hcurrent : current (argumentQuoting.quoted arg ++ rest) = quote := rfl
  have hstart : ¬(quote = endOfInput ∨ quote = pipe) := by decide
  simp only [argument, hskip, hcurrent, if_neg hstart, argumentLoop_eq]
  rw [Quoting.scan_quoted harg hrest, List.nil_append]

theorem argument_behind (h : BehindCall tail) : argument tail = (none, skipWhitespace tail) := by
  rcases h with rfl | ⟨more, rfl⟩
  · rfl
  · have hskip : skipWhitespace (blank :: pipe :: more) = pipe :: more := by
      rw [skipWhitespace_blank]
      exact skipWhitespace_of_not (by decide) _
    simp [argument, hskip, current]

theorem arguments_quoted {args : List (List UInt8)}
    (hargs : ∀ arg ∈ args, endOfInput ∉ arg) (htail : BehindCall tail) :
    arguments (args.flatMap (fun arg => blank :: argumentQuoting.quoted arg) ++ tail) =
      (args, skipWhitespace tail) := by
  induction args with
  | nil => exact arguments_none (argument_behind htail)
  | cons arg args ih =>
    have hrest : argumentQuoting.Ended
        (args.flatMap (fun arg => blank :: argumentQuoting.quoted arg) ++ tail) := by
      cases args with
      | nil =>
        rcases htail with rfl | ⟨more, rfl⟩
        · exact Or.inl rfl
        · exact Or.inr ⟨blank, _, rfl, Or.inr rfl⟩
      | cons next args => exact Or.inr ⟨blank, _, rfl, Or.inr rfl⟩
    have hfirst := argument_quoted (hargs arg List.mem_cons_self) hrest
    rw [List.flatMap_cons, List.append_assoc, List.cons_append, arguments_some hfirst,
      ih fun other hother => hargs other (List.mem_cons_of_mem _ hother)]

theorem programCall_print (h : call.Printable)
    (hname : endOfInput ∉ call.program) (htail : BehindCall tail) :
    programCall (printCall call ++ tail) = some (call, skipWhitespace tail) := by
  have hbytes : ∀ c ∈ call.program, programByte c = true := by
    intro c hc
    have hend : c ≠ endOfInput := fun heq => hname (heq ▸ hc)
    simp [programByte, hend, h.name c hc]
  let rest := call.arguments.flatMap (fun arg => blank :: argumentQuoting.quoted arg) ++ tail
  have hrest : rest.takeWhile programByte = [] ∧ rest.dropWhile programByte = rest := by
    have hblank : programByte blank = false := by decide
    cases hargs : call.arguments with
    | nil =>
      rcases htail with rfl | ⟨more, rfl⟩
      · simp [rest, hargs]
      · simp [rest, hargs, hblank]
    | cons arg args => simp [rest, hargs, hblank]
  have hsplit : printCall call ++ tail = call.program ++ rest := by
    rw [printCall, List.append_assoc]
  simp only [programCall, hsplit, List.takeWhile_append_of_pos hbytes,
    List.dropWhile_append_of_pos hbytes, hrest, List.append_nil, if_neg h.named]
  rw [arguments_quoted h.arguments htail]

theorem calls_some {input behind : List UInt8}
    (h : programCall (skipWhitespace input) = some (call, behind)) :
    calls input =
      if current (skipWhitespace behind) = pipe then
        (calls (step (skipWhitespace behind))).map fun more => call :: more
      else if current (skipWhitespace behind) = endOfInput then some [call]
      else none := by
  rw [calls]
  split
  next heq => simp [h] at heq
  next heq =>
    rw [h] at heq
    cases heq
    rfl

theorem skipWhitespace_printPipeline (h : ∀ call ∈ pipeline, call.Printable) :
    skipWhitespace (printPipeline pipeline) = printPipeline pipeline := by
  cases pipeline with
  | nil => rfl
  | cons call more =>
    obtain ⟨hnamed, hname, -⟩ := h call List.mem_cons_self
    obtain ⟨c, name, hprogram⟩ := List.exists_cons_of_ne_nil hnamed
    have hc : isspace c = false := (hname c (by simp [hprogram])).2
    cases more with
    | nil | cons next more => simp [printPipeline, printCall, hprogram, skipWhitespace_of_not hc]

theorem calls_print (hne : pipeline ≠ [])
    (h : ∀ call ∈ pipeline, call.Printable) (hnames : ∀ call ∈ pipeline, endOfInput ∉ call.program)
    (hinput : skipWhitespace input = printPipeline pipeline) : calls input = some pipeline := by
  induction pipeline generalizing input with
  | nil => exact absurd rfl hne
  | cons call more ih =>
    have hcall := h call List.mem_cons_self
    have hname := hnames call List.mem_cons_self
    cases more with
    | nil =>
      have hread : programCall (skipWhitespace input) = some (call, []) := by
        have hlast := programCall_print hcall hname (Or.inl rfl)
        rw [List.append_nil] at hlast
        rw [hinput]
        exact hlast
      rw [calls_some hread]
      rfl
    | cons next more =>
      have hread : programCall (skipWhitespace input) =
          some (call, pipe :: blank :: printPipeline (next :: more)) := by
        rw [hinput, printPipeline, programCall_print hcall hname (Or.inr ⟨_, rfl⟩), skipWhitespace_blank,
          skipWhitespace_of_not (by decide)]
      have hskip : skipWhitespace (pipe :: blank :: printPipeline (next :: more)) =
          pipe :: blank :: printPipeline (next :: more) := skipWhitespace_of_not (by decide) _
      have hmore : ∀ other ∈ next :: more, other.Printable :=
        fun other hother => h other (List.mem_cons_of_mem _ hother)
      have hrest : calls (blank :: printPipeline (next :: more)) = some (next :: more) := by
        refine ih (List.cons_ne_nil _ _) hmore
          (fun other hother => hnames other (List.mem_cons_of_mem _ hother)) ?_
        rw [skipWhitespace_blank, skipWhitespace_printPipeline hmore]
      have hpipe : current (pipe :: blank :: printPipeline (next :: more)) = pipe := rfl
      rw [calls_some hread, hskip, if_pos hpipe]
      show (calls (blank :: printPipeline (next :: more))).map _ = _
      rw [hrest]
      rfl

/-! ## What is read -/

theorem programCall_name
    (h : programCall input = some (call, rest)) : endOfInput ∉ call.program := by
  simp only [programCall] at h
  split_ifs at h
  cases h
  intro hmem
  have hbyte := List.mem_takeWhile_imp hmem
  exact absurd hbyte (by decide)

theorem calls_names (h : calls input = some pipeline) :
    ∀ call ∈ pipeline, endOfInput ∉ call.program := by
  induction input using calls.induct generalizing pipeline with
  | case1 input hnone =>
    rw [calls] at h
    split at h
    · cases h
    next hcall =>
      rw [hnone] at hcall
      cases hcall
  | case2 input call behind hcall rest hpipe =>
    rename_i ih
    rw [calls_some hcall, if_pos hpipe] at h
    obtain ⟨more, hmore, rfl⟩ := Option.map_eq_some_iff.1 h
    intro other hother
    rcases List.mem_cons.1 hother with rfl | hother
    · exact programCall_name hcall
    · exact ih hmore other hother
  | case3 input call behind hcall rest hpipe =>
    rename_i hend
    rw [calls_some hcall, if_neg hpipe, if_pos hend] at h
    cases h
    intro other hother
    rw [List.mem_singleton.1 hother]
    exact programCall_name hcall
  | case4 input call behind hcall rest hpipe =>
    rename_i hend
    rw [calls_some hcall, if_neg hpipe, if_neg hend] at h
    cases h

theorem pipeExpression_of_named {line : List UInt8} {c : UInt8} (hc : c ∈ line) (hspace : isspace c = false) :
    pipeExpression line = calls line := by
  rw [pipeExpression, if_neg]
  rw [Bool.or_eq_true, not_or]
  refine ⟨?_, ?_⟩
  · intro hempty
    rw [List.isEmpty_iff.1 hempty] at hc
    cases hc
  · intro hall
    have hblank := List.all_eq_true.1 hall c hc
    simp only [isblank, Bool.or_eq_true, beq_iff_eq] at hblank
    rcases hblank with rfl | rfl
    · exact absurd hspace (by decide)
    · exact absurd hspace (by decide)

/-- The parser reads a printed pipeline back if and only if no program has the byte `0xFF` in its name;
and whatever a line is, all its loops end. -/
theorem pipeExpression_print_iff {pipeline : List ProgramCall} (hne : pipeline ≠ [])
    (hprintable : ∀ call ∈ pipeline, call.Printable) :
    (pipeExpression (printPipeline pipeline) = some pipeline ↔
      ∀ call ∈ pipeline, endOfInput ∉ call.program) ∧
    ∀ (line : List UInt8) (n : Nat), line.length < n →
      pipeExpressionRounds n line = some (pipeExpression line) := by
  refine ⟨⟨?_, ?_⟩, fun line n h => pipeExpressionRounds_eq h⟩
  · intro hread
    rw [pipeExpression] at hread
    split at hread
    · cases hread
    · exact calls_names hread
  · intro hnames
    have hcalls := calls_print hne hprintable hnames (skipWhitespace_printPipeline hprintable)
    obtain ⟨call, more, rfl⟩ := List.exists_cons_of_ne_nil hne
    obtain ⟨hnamed, hname, -⟩ := hprintable call List.mem_cons_self
    obtain ⟨c, name, hprogram⟩ := List.exists_cons_of_ne_nil hnamed
    have hmem : c ∈ printPipeline (call :: more) := by
      cases more with
      | nil | cons next more => simp [printPipeline, printCall, hprogram]
    rw [pipeExpression_of_named hmem (hname c (by simp [hprogram])).2, hcalls]

theorem pipeExpression_print_echo :
    pipeExpression (printPipeline [⟨[101, 99, 104, 111], [[97, 34, 98], []]⟩, ⟨[99, 97, 116], []⟩]) =
        some [⟨[101, 99, 104, 111], [[97, 34, 98], []]⟩, ⟨[99, 97, 116], []⟩] ∧
      pipeExpressionRounds 2 [34] = some (pipeExpression [34]) := by
  have hprintable : ∀ call ∈ ([⟨[101, 99, 104, 111], [[97, 34, 98], []]⟩, ⟨[99, 97, 116], []⟩] :
      List ProgramCall), call.Printable := by
    intro call hcall
    rcases List.mem_cons.1 hcall with rfl | hcall
    · exact ⟨by decide, by decide +kernel, by decide +kernel⟩
    · rw [List.mem_singleton.1 hcall]
      exact ⟨by decide, by decide +kernel, by decide +kernel⟩
  have hread := pipeExpression_print_iff (List.cons_ne_nil _ _) hprintable
  exact ⟨hread.1.2 (by decide), hread.2 [34] 2 (by decide)⟩

/-- The program whose name is `a` and the byte `0xFF` is read back as the program `a`. -/
theorem pipeExpression_print_cut : ∃ pipeline : List ProgramCall, pipeline ≠ [] ∧
    (∀ call ∈ pipeline, call.Printable) ∧ pipeExpression (printPipeline pipeline) ≠ some pipeline := by
  refine ⟨[⟨[97, 255], []⟩], List.cons_ne_nil _ _, ?_, ?_⟩
  · intro call hcall
    rw [List.mem_singleton.1 hcall]
    exact ⟨by decide, by decide +kernel, by decide +kernel⟩
  · have hcut : pipeExpression (printPipeline [⟨[97, 255], []⟩]) = some [⟨[97], []⟩] := by
      decide +kernel
    rw [hcut]
    decide

end MeetixOS.MxSh
