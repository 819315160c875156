import MeetixOS.LibC.ParseCliArgs

/-! # From the command line to the arguments of a program

The shell's `Parser` reads a line into calls and removes quotes and backslashes. `run_command` writes the
arguments of a call, with blanks between them, into the one string that the spawned program's
`parse_cli_args` takes apart again. The two agree exactly when the arguments have nothing in them that the
second reading interprets. -/

namespace MeetixOS.MxSh

open LibC

/-! ## The parser -/

/-- The value `-1` of the parser's `char current` at the end of the input; a byte `0xFF` of the input
reads the same. -/
def endOfInput : UInt8 := 0xFF

theorem quote_ne_backslash : quote ≠ backslash := by decide

theorem endOfInput_ne : endOfInput ≠ quote ∧ endOfInput ≠ backslash := by decide

/-- The byte `'|'`. -/
def pipe : UInt8 := 124

/-- The byte `' '`. -/
def blank : UInt8 := 32

/-- `current`, where the parser's position is the input from the current character on. -/
def current (input : List UInt8) : UInt8 := input.headD endOfInput

/-- `Parser::step`. -/
def step (input : List UInt8) : List UInt8 := input.tail

/-- The loop of `Parser::argument`: the argument read and the input behind it. -/
def argumentLoop : Bool → Bool → List UInt8 → List UInt8 → List UInt8 × List UInt8
  | _, _, arg, [] => (arg, [])
  | instr, escaped, arg, c :: rest =>
    if c = endOfInput then (arg, c :: rest)
    else if escaped = false ∧ c = backslash then argumentLoop instr true arg rest
    else if instr = true then
      if c = quote ∧ escaped = false then argumentLoop false false arg rest
      else argumentLoop true false (arg ++ [c]) rest
    else if escaped = false ∧ (c = pipe ∨ c = blank) then (arg, c :: rest)
    else if c = quote ∧ escaped = false then argumentLoop true false arg rest
    else argumentLoop false false (arg ++ [c]) rest

/-- `Parser::argument`: the argument, or `none` where the function returns false, and the input behind. -/
def argument (input : List UInt8) : Option (List UInt8) × List UInt8 :=
  let input := skipWhitespace input
  if current input = endOfInput ∨ current input = pipe then (none, input)
  else ((argumentLoop false false [] input).1, (argumentLoop false false [] input).2)

theorem argumentLoop_length (instr escaped : Bool) (arg input : List UInt8) :
    (argumentLoop instr escaped arg input).2.length ≤ input.length := by
  induction input generalizing instr escaped arg with
  | nil => simp [argumentLoop]
  | cons c rest ih =>
    simp only [argumentLoop]
    split_ifs <;> first | exact Nat.le_refl _ | exact Nat.le_succ_of_le (ih _ _ _)

theorem argument_length {input arg rest : List UInt8} (h : argument input = (some arg, rest)) :
    rest.length < input.length := by
  simp only [argument] at h
  have hskip := skipWhitespace_length input
  rcases skipWhitespace_cases input with hnil | ⟨c, tail, heq, hc⟩
  · simp [hnil, current] at h
  · rw [heq] at h hskip
    split_ifs at h with hend
    · simp at h
    · obtain ⟨-, rfl⟩ := Prod.mk.inj h
      have hcur : c ≠ endOfInput ∧ c ≠ pipe := by simpa [current] using hend
      have hblank : c ≠ blank := by
        rintro rfl
        exact absurd hc (by decide)
      simp only [List.length_cons] at hskip
      -- the byte at hand is none of those that end the argument
      have hloop : (argumentLoop false false [] (c :: tail)).2.length ≤ tail.length := by
        simp only [argumentLoop, hcur, hblank]
        split_ifs <;> first | exact argumentLoop_length _ _ _ _ | simp_all
      omega

theorem argument_length_le (input : List UInt8) : (argument input).2.length ≤ input.length := by
  have hskip := skipWhitespace_length input
  simp only [argument]
  split_ifs
  · exact hskip
  · exact Nat.le_trans (argumentLoop_length _ _ _ _) hskip

/-- The loop of `Parser::programCall` over the arguments, to the first `argument` that fails. -/
def arguments (input : List UInt8) : List (List UInt8) × List UInt8 :=
  match _h : argument input with
  | (none, rest) => ([], rest)
  | (some arg, rest) => (arg :: (arguments rest).1, (arguments rest).2)
termination_by input.length
decreasing_by all_goals exact argument_length _h

/-- `ProgramCall`: a program and its arguments. -/
structure ProgramCall where
  program : List UInt8
  arguments : List (List UInt8)
  deriving DecidableEq

/-- What the name of a program is made of. -/
def programByte (c : UInt8) : Bool := c != endOfInput && c != pipe && !isspace c

/-- `Parser::programCall`. -/
def programCall (input : List UInt8) : Option (ProgramCall × List UInt8) :=
  let program := input.takeWhile programByte
  if program = [] then none
  else
    let args := arguments (input.dropWhile programByte)
    some (⟨program, args.1⟩, args.2)

theorem arguments_length (input : List UInt8) : (arguments input).2.length ≤ input.length := by
  fun_induction arguments input with
  | case1 input rest h =>
    have := argument_length_le input
    rw [h] at this
    exact this
  | case2 input arg rest h ih =>
    exact Nat.le_trans ih (Nat.le_of_lt (argument_length h))

theorem programCall_length {input rest : List UInt8} {call : ProgramCall}
    (h : programCall input = some (call, rest)) : rest.length < input.length := by
  simp only [programCall] at h
  split_ifs at h with hprogram
  obtain ⟨-, rfl⟩ := Prod.mk.inj (Option.some.inj h)
  have hargs := arguments_length (input.dropWhile programByte)
  have hpos := List.length_pos_of_ne_nil hprogram
  have happ := congrArg List.length (List.takeWhile_append_dropWhile (p := programByte) (l := input))
  rw [List.length_append] at happ
  omega

/-- The loop of `Parser::pipeExpression`. -/
def calls (input : List UInt8) : Option (List ProgramCall) :=
  match _h : programCall (skipWhitespace input) with
  | none => none
  | some (call, behind) =>
    let rest := skipWhitespace behind
    if current rest = pipe then (calls (step rest)).map fun more => call :: more
    else if current rest = endOfInput then some [call]
    else none
termination_by input.length
decreasing_by
  have hcall := programCall_length _h
  have hskip := skipWhitespace_length input
  have hrest := skipWhitespace_length behind
  simp only [step, List.length_tail]
  omega

/-- `Parser::pipeExpression`: the calls of an accepted line. -/
def pipeExpression (input : List UInt8) : Option (List ProgramCall) :=
  if input.isEmpty || input.all isblank then none else calls input

/-! ## Handing the arguments over -/

/-- The loop of `run_command` that writes the arguments of a call into `args_ss`. -/
def joinLoop (isFirstArg : Bool) (argsSs : List UInt8) : List (List UInt8) → List UInt8
  | [] => argsSs
  | arg :: rest =>
    joinLoop false ((if isFirstArg then argsSs else argsSs ++ [blank]) ++ arg) rest

/-- The argument string of a call. -/
def joinArguments (args : List (List UInt8)) : List UInt8 := joinLoop true [] args

/-- `c_str()` read as a C string: the bytes before the first NUL. -/
def cString (bytes : List UInt8) : List UInt8 := bytes.takeWhile (· != 0)

def cliargsBufferLength : Nat := 1024

/-- The way of the argument string through the spawner's `writeCliArgs` and the kernel's `cliArgsStore`
and `cliArgsRelease`, which copy it through buffers of `CLIARGS_BUFFER_LENGTH` bytes without a check:
`none` where it and its NUL do not fit. A request too long for the spawner spawns no program. -/
def handOver (args : List UInt8) : Option (List UInt8) :=
  if args.length < cliargsBufferLength then some args else none

/-- The arguments that the program spawned for a call obtains. -/
def spawnedArguments (call : ProgramCall) : Option (List (List UInt8)) :=
  (handOver (cString (joinArguments call.arguments))).bind parseCliArgs

theorem joinLoop_append (argsSs : List UInt8) (args : List (List UInt8)) :
    joinLoop false argsSs args = argsSs ++ joinLoop false [] args := by
  induction args generalizing argsSs with
  | nil => simp [joinLoop]
  | cons arg args ih =>
    simp only [joinLoop, Bool.false_eq_true, if_false]
    rw [ih, ih ([] ++ [blank] ++ arg)]
    simp

@[simp] theorem joinArguments_nil : joinArguments [] = [] := rfl

theorem joinArguments_cons (arg : List UInt8) (args : List (List UInt8)) :
    joinArguments (arg :: args) = arg ++ joinLoop false [] args := by
  exact joinLoop_append arg args

theorem joinLoop_false (args : List (List UInt8)) :
    joinLoop false [] args = if args = [] then [] else blank :: joinArguments args := by
  cases args with
  | nil => rfl
  | cons arg args =>
    rw [joinArguments_cons, if_neg (by simp)]
    simp only [joinLoop, Bool.false_eq_true, if_false]
    rw [joinLoop_append]
    simp

variable {args : List (List UInt8)} {arg : List UInt8}

theorem joinArguments_length (h : args ≠ []) : (joinArguments args).length + 1 = spread args := by
  induction args with
  | nil => exact absurd rfl h
  | cons arg args ih =>
    rw [joinArguments_cons, joinLoop_false, spread_cons]
    split_ifs with hargs
    · simp [hargs]
    · have := ih hargs
      simp only [List.length_append, List.length_cons]
      omega

theorem mem_joinArguments {c : UInt8}
    (harg : arg ∈ args) (hc : c ∈ arg) : c ∈ joinArguments args := by
  induction args with
  | nil => simp at harg
  | cons first args ih =>
    rw [joinArguments_cons]
    rcases List.mem_cons.mp harg with rfl | harg
    · exact List.mem_append_left _ hc
    · rw [joinLoop_false, if_neg (List.ne_nil_of_mem harg)]
      exact List.mem_append_right _ (List.mem_cons_of_mem _ (ih harg))

/-! ## Both readings of the arguments -/

/-- An argument that the second reading takes as it is: it is not empty and has no white space, no
quote, no backslash and no NUL. -/
def Verbatim (arg : List UInt8) : Prop := arg ≠ [] ∧ ∀ c ∈ arg, Plain c ∧ c ≠ 0

instance (arg : List UInt8) : Decidable (Verbatim arg) := inferInstanceAs (Decidable (_ ∧ _))

theorem joinArguments_no_nul (h : ∀ arg ∈ args, Verbatim arg) :
    ∀ c ∈ joinArguments args, c ≠ 0 := by
  induction args with
  | nil => simp
  | cons arg args ih =>
    intro c hc
    rw [joinArguments_cons, joinLoop_false] at hc
    have ih' := ih fun other hother => h other (by simp [hother])
    rcases List.mem_append.mp hc with hc | hc
    · exact ((h arg (by simp)).2 c hc).2
    · split_ifs at hc
      · simp at hc
      · rcases List.mem_cons.mp hc with rfl | hc
        · decide
        · exact ih' c hc

theorem cString_joinArguments (h : ∀ arg ∈ args, Verbatim arg) :
    cString (joinArguments args) = joinArguments args := by
  unfold cString
  rw [List.takeWhile_eq_self_iff]
  intro c hc
  simpa using joinArguments_no_nul h c hc

theorem nextArgument_joinArguments (harg : Verbatim arg) :
    nextArgument (joinArguments (arg :: args)) = (arg, joinLoop false [] args) := by
  rw [joinArguments_cons]
  refine nextArgument_plain _ harg.1 (fun c hc => (harg.2 c hc).1) ?_
  rw [joinLoop_false]
  intro c hc
  split_ifs at hc
  · simp at hc
  · obtain rfl : blank = c := by simpa using hc
    decide

theorem joinArguments_ne_nil (harg : Verbatim arg) : joinArguments (arg :: args) ≠ [] := by
  rw [joinArguments_cons]
  intro h
  exact harg.1 (List.append_eq_nil_iff.mp h).1

theorem splitArguments_joinArguments
    (h : ∀ arg ∈ args, Verbatim arg) : splitArguments (joinArguments args) = args := by
  induction args with
  | nil => simp [splitArguments]
  | cons arg args ih =>
    have harg := h arg (by simp)
    have ih' := ih fun other hother => h other (by simp [hother])
    rw [splitArguments, dif_neg (joinArguments_ne_nil harg), nextArgument_joinArguments harg]
    simp only [joinLoop_false]
    by_cases hargs : args = []
    · simp [hargs]
    · simp [hargs, ih']

theorem countArguments_joinArguments
    (h : ∀ arg ∈ args, Verbatim arg) : countArguments (joinArguments args) = args.length := by
  induction args with
  | nil => simp [countArguments]
  | cons arg args ih =>
    have harg := h arg (by simp)
    have ih' := ih fun other hother => h other (by simp [hother])
    rw [countArguments, dif_neg (joinArguments_ne_nil harg), nextArgument_joinArguments harg]
    simp only [joinLoop_false, List.length_cons, Nat.add_right_cancel_iff]
    split_ifs with hargs
    · simp [hargs, countArguments]
    · obtain ⟨next, rest, rfl⟩ := List.exists_cons_of_ne_nil hargs
      have hnext := h next (by simp)
      rw [countArguments_space (by decide) (joinArguments_ne_nil hnext), ih']

/-- Arguments that survive are verbatim: the string has just enough bytes, and every pass can only
lose some. -/
theorem verbatim_of_parseCliArgs (h : parseCliArgs (cString (joinArguments args)) = some args) :
    ∀ arg ∈ args, Verbatim arg := by
  by_cases hargs : args = []
  · simp [hargs]
  have hjoin := joinArguments_length hargs
  have hcut : (cString (joinArguments args)).length ≤ (joinArguments args).length :=
    (List.takeWhile_prefix _).length_le
  obtain ⟨hsplit, hempty⟩ := splitArguments_spread (cString (joinArguments args))
  obtain ⟨hclean, hkept⟩ := cleanupArguments_spread h
  obtain ⟨heq, hspecial⟩ := hkept (by omega)
  have hfull : (cString (joinArguments args)).length = (joinArguments args).length := by omega
  intro arg harg
  rw [heq] at harg
  refine ⟨?_, fun c hc => ⟨?_, ?_⟩⟩
  · rintro rfl
    have := hempty harg
    omega
  · obtain ⟨pos, rfl⟩ := mem_splitArguments harg
    have hs := skipArgument_no_space (hspecial _ harg)
    exact ⟨hs c hc, hspecial _ harg c hc⟩
  · have hwhole := (List.takeWhile_prefix _).eq_of_length hfull
    have hall := List.takeWhile_eq_self_iff.mp hwhole
    simpa using hall c (mem_joinArguments (heq ▸ harg) hc)

theorem parseCliArgs_joinArguments (h : ∀ arg ∈ args, Verbatim arg) :
    parseCliArgs (joinArguments args) = some args := by
  unfold parseCliArgs
  rw [countArguments_joinArguments h, splitArguments_joinArguments h]
  exact cleanupArguments_unchanged fun arg harg c hc => ((h arg harg).2 c hc).1.2

theorem joinArguments_fits (args : List (List UInt8)) :
    (joinArguments args).length < cliargsBufferLength ↔ spread args ≤ cliargsBufferLength := by
  by_cases hargs : args = []
  · simp [hargs, cliargsBufferLength]
  · have := joinArguments_length hargs
    omega

/-- A program spawned for a call of an accepted line obtains the arguments that the shell parsed if and
only if none is empty or has white space, a quote, a backslash or a NUL in it, and they fit into the
buffer, with one byte behind each. -/
theorem spawnedArguments_eq_iff (line : List UInt8) (pipeline : List ProgramCall)
    (_hline : pipeExpression line = some pipeline) (call : ProgramCall) (_hcall : call ∈ pipeline) :
    spawnedArguments call = some call.arguments ↔
      (∀ arg ∈ call.arguments, Verbatim arg) ∧ spread call.arguments ≤ cliargsBufferLength := by
  simp only [spawnedArguments, handOver]
  constructor
  · intro h
    split_ifs at h with hfits
    · have hverbatim := verbatim_of_parseCliArgs h
      rw [cString_joinArguments hverbatim] at hfits
      exact ⟨hverbatim, (joinArguments_fits _).mp hfits⟩
    · simp at h
  · rintro ⟨hverbatim, hfits⟩
    rw [cString_joinArguments hverbatim, if_pos ((joinArguments_fits _).mpr hfits)]
    exact parseCliArgs_joinArguments hverbatim

theorem spawnedArguments_ls_grep :
    ∃ pipeline,
      pipeExpression [108, 115, 32, 45, 108, 32, 124, 32, 103, 114, 101, 112, 32, 97] =
        some pipeline ∧
      pipeline.map (·.arguments) = [[[45, 108]], [[97]]] ∧
      ∀ call ∈ pipeline, spawnedArguments call = some call.arguments := by
  have hline : pipeExpression [108, 115, 32, 45, 108, 32, 124, 32, 103, 114, 101, 112, 32, 97] =
      some [⟨[108, 115], [[45, 108]]⟩, ⟨[103, 114, 101, 112], [[97]]⟩] := by decide +kernel
  refine ⟨_, hline, rfl, fun call hcall => ?_⟩
  refine (spawnedArguments_eq_iff _ _ hline call hcall).mpr ?_
  rcases List.mem_cons.mp hcall with rfl | hcall
  · decide +kernel
  · obtain rfl := List.mem_singleton.mp hcall
    decide +kernel

/-- The lines `echo "a b"` and `echo ""`: one argument with a blank arrives as two, an empty one not at
all. -/
theorem spawnedArguments_quoted :
    (∃ call, pipeExpression [101, 99, 104, 111, 32, 34, 97, 32, 98, 34] = some [call] ∧
      call.arguments = [[97, 32, 98]] ∧ spawnedArguments call = some [[97], [98]]) ∧
    ∃ call, pipeExpression [101, 99, 104, 111, 32, 34, 34] = some [call] ∧
      call.arguments = [[]] ∧ spawnedArguments call = some [] := by
  refine ⟨⟨⟨[101, 99, 104, 111], [[97, 32, 98]]⟩, ?_⟩, ⟨⟨[101, 99, 104, 111], [[]]⟩, ?_⟩⟩ <;>
    decide +kernel

end MeetixOS.MxSh
