import MeetixOS.Lib.Getopt
import MeetixOS.LibC.Ctype
import MeetixOS.LibUtils.PositionalArguments

/-! # The two forms of an option

`ArgsParser` hands its options to `getopt_long` and finds them back from what this returns: a long
option by an index that is stored through `flag`, a short one by its character. The index counts the
options that have a long name, and the character `'?'` is also the error of `getopt_long`. -/

open LibC (charInt)

namespace MeetixOS.LibUtils

open Lib
open Lib.Getopt (Answer HasArg LongOption Table dash equals colon)

/-! ## The parser -/

/-- `ArgsParser::Option`, whose acceptor works on the program's variables. The short name is 0 and the
long name empty where the option has none. -/
structure ParserOption (σ : Type) where
  requiresArgument : Bool
  longName : Word
  shortName : UInt8
  acceptValue : Option Word → σ → Bool × σ

/-- `add_option` for a `bool`. -/
def boolOption {σ : Type} (setValue : Bool → σ → σ) (longName : Word) (shortName : UInt8) :
    ParserOption σ where
  requiresArgument := false
  longName := longName
  shortName := shortName
  acceptValue rawStr vars := (rawStr.isNone, setValue rawStr.isNone vars)

/-- `m_show_help` and `m_show_version`, and the variables of the program. -/
structure ParserVars (τ : Type) where
  showHelp : Bool
  showVersion : Bool
  program : τ

/-- The byte `'?'`. -/
def questionMark : UInt8 := 63

/-- The options that the constructor adds: `help` with `'?'`, and `version` with `'v'`. -/
def builtinOptions (τ : Type) : List (ParserOption (ParserVars τ)) :=
  [boolOption (fun value vars => { vars with showHelp := value }) [104, 101, 108, 112] questionMark,
    boolOption (fun value vars => { vars with showVersion := value })
      [118, 101, 114, 115, 105, 111, 110] 118]

/-- `ArgsParser`, with the options that were added, whose short names are distinct and whose long names
are. -/
structure ArgsParser (τ : Type) where
  addedOptions : List (ParserOption (ParserVars τ))
  positionalArgs : List (PositionalArgument (ParserVars τ))
  stopOnFirstNonOption : Bool
  shortNames : (builtinOptions τ ++ addedOptions).Pairwise fun a b =>
    a.shortName ≠ 0 → a.shortName ≠ b.shortName
  longNames : (builtinOptions τ ++ addedOptions).Pairwise fun a b =>
    a.longName ≠ [] → a.longName ≠ b.longName

section

variable {σ τ : Type}

/-- `m_options`. -/
def ArgsParser.options (parser : ArgsParser τ) : List (ParserOption (ParserVars τ)) :=
  builtinOptions τ ++ parser.addedOptions

/-- The long options that `construct_getopt_options` makes, from the index `index` on. -/
def longOptions : List (ParserOption σ) → Nat → List LongOption
  | [], _ => []
  | opt :: options, index =>
    if opt.longName = [] then longOptions options index
    else
      ⟨opt.longName, if opt.requiresArgument then .required else .no, index⟩ ::
        longOptions options (index + 1)

/-- What an option adds to the short options. -/
def ParserOption.short (opt : ParserOption σ) : List UInt8 :=
  if opt.shortName = 0 then []
  else if opt.requiresArgument then [opt.shortName, colon]
  else [opt.shortName]

/-- `construct_getopt_options`: the table that `getopt_long` is given. A `'+'` in front of the short
options makes it stop at the first operand. -/
def ArgsParser.constructGetoptOptions (parser : ArgsParser τ) : Table where
  chars := parser.options.flatMap ParserOption.short
  longs := longOptions parser.options 0
  stop := parser.stopOnFirstNonOption

/-- How `getopt_long` returns an option character: as a `char` or as an `unsigned char`, but not as the
-1 that is the end of the options. -/
structure CharCode where
  code : UInt8 → Int
  isChar : ∀ c, code c = charInt c ∨ code c = c.toNat
  ne_eof : ∀ c, code c ≠ -1

/-- What `getopt_long` returns. -/
def CharCode.optionId (chars : CharCode) : Answer → Int
  | .char c _ => chars.code c
  | .flag _ _ => 0
  | .error => charInt questionMark

/-- The option for an answer: `m_options[m_long_option_index]` if `getopt_long` has returned 0, and
otherwise the first one with the short name. -/
def findOption (options : List (ParserOption σ)) (id : Int) : Answer → Option Nat
  | .flag val _ => some val
  | _ => if id = 0 then none else options.findIdx? fun value => id = charInt value.shortName

/-- `optarg` with an answer. -/
def optarg : Answer → Option Word
  | .char _ value => value
  | .flag _ value => value
  | .error => none

/-- What `parse_options` leaves: the acceptors that it called, with what it gave them, the variables,
and its result. -/
structure ParsedOptions (σ : Type) where
  calls : List (Nat × Option Word)
  vars : σ
  succeeded : Bool

/-- The loop of `parse_options`; `none` where it uses an option that is not there. -/
def parseOptions (chars : CharCode) (options : List (ParserOption σ)) :
    List Answer → σ → Option (ParsedOptions σ)
  | [], vars => some ⟨[], vars, true⟩
  | answer :: answers, vars =>
    let id := chars.optionId answer
    if id = -1 then some ⟨[], vars, true⟩
    else if id = charInt questionMark then some ⟨[], vars, false⟩
    else do
      let index ← findOption options id answer
      let opt ← options[index]?
      let optionArg := if opt.requiresArgument then optarg answer else none
      let (accepted, vars) := opt.acceptValue optionArg vars
      if accepted then
        let more ← parseOptions chars options answers vars
        some { more with calls := (index, optionArg) :: more.calls }
      else some ⟨[(index, optionArg)], vars, false⟩

/-- How `parse` ends; it returns true only for `done`. -/
inductive ParseResult where
  | badOption
  | shownVersion
  | shownHelp
  | wrongCount
  | badValue
  | done
  deriving DecidableEq

/-- What `parse` leaves. -/
structure Parsed (σ : Type) where
  calls : List (Nat × Option Word)
  handed : List (Nat × Word)
  vars : σ
  result : ParseResult

/-- `parse`, for the words behind the program's name. -/
def ArgsParser.parse (parser : ArgsParser τ) (chars : CharCode) (words : List Word)
    (vars : ParserVars τ) : Option (Parsed (ParserVars τ)) := do
  let (answers, operands) := Getopt.read parser.constructGetoptOptions words
  let parsed ← parseOptions chars parser.options answers vars
  if parsed.succeeded = false then some ⟨parsed.calls, [], parsed.vars, .badOption⟩
  else if parsed.vars.showVersion then some ⟨parsed.calls, [], parsed.vars, .shownVersion⟩
  else if parsed.vars.showHelp then some ⟨parsed.calls, [], parsed.vars, .shownHelp⟩
  else
    -- `argc - optind` words are left
    let (enough, counts) :=
      countCliPositionalArguments parser.positionalArgs (BitVec.ofNat 32 operands.length) 0
    if enough = false then some ⟨parsed.calls, [], parsed.vars, .wrongCount⟩
    else
      let handing ← handAll (parser.positionalArgs.zip counts) 0 operands parsed.vars
      some ⟨parsed.calls, handing.handed, handing.vars,
        if handing.invalid.isSome then .badValue else .done⟩

/-- The acceptors of options that `parse` calls. -/
def ArgsParser.optionCalls (parser : ArgsParser τ) (chars : CharCode) (words : List Word)
    (vars : ParserVars τ) : Option (List (Nat × Option Word)) :=
  (parseOptions chars parser.options (Getopt.read parser.constructGetoptOptions words).1 vars).map
    ParsedOptions.calls

end

open ParserOption (short)

/-! ## The forms -/

variable {σ τ : Type}

/-- The option can be written in both forms: its short name is an option character and does not make the
word of two dashes, and its long name ends where a value starts. -/
structure ParserOption.HasForms (o : ParserOption σ) : Prop where
  short : o.shortName ≠ 0 ∧ o.shortName ≠ colon ∧ o.shortName ≠ dash
  long : o.longName ≠ [] ∧ equals ∉ o.longName

/-- The ways to write an option in its short form: `-c value` and `-cvalue`, or `-c`. -/
def ParserOption.shortForms (o : ParserOption σ) (value : Word) : List (List Word) :=
  if o.requiresArgument then
    [[dash, o.shortName], value] :: if value = [] then [] else [[dash :: o.shortName :: value]]
  else [[[dash, o.shortName]]]

/-- The ways to write it in its long form: `--name value` and `--name=value`, or `--name`. -/
def ParserOption.longForms (o : ParserOption σ) (value : Word) : List (List Word) :=
  if o.requiresArgument then
    [[dash :: dash :: o.longName, value], [dash :: dash :: o.longName ++ equals :: value]]
  else [[dash :: dash :: o.longName]]

/-- What the option's acceptor is to get. -/
def ParserOption.given (o : ParserOption σ) (value : Word) : Option Word :=
  if o.requiresArgument then some value else none

/-- Each form of an option calls its acceptor once, with its value, and among other words it makes no
difference which form is written. -/
structure FormsAgree (parser : ArgsParser τ) (chars : CharCode) (i : Nat)
    (o : ParserOption (ParserVars τ)) : Prop where
  calls : ∀ value, ∀ form ∈ o.shortForms value ++ o.longForms value, ∀ vars,
    parser.optionCalls chars form vars = some [(i, o.given value)]
  same : ∀ value, ∀ short ∈ o.shortForms value, ∀ long ∈ o.longForms value,
    ∀ before, Getopt.Complete parser.constructGetoptOptions before → ∀ behind vars,
      parser.parse chars (before ++ short ++ behind) vars =
        parser.parse chars (before ++ long ++ behind) vars

/-- The next short name is no colon that reads as one of the option's own. -/
def NextFits (o : ParserOption σ) (rest : List (ParserOption σ)) : Prop :=
  ∀ next, rest.find? (fun p => p.shortName ≠ 0) = some next → next.shortName = colon →
    o.requiresArgument = false ∧ next.requiresArgument = true

/-- The option is found in both forms: it is not called `-?`, its short name comes back as a `char`, no
colon behind it changes what it takes, and every option in front has a long name. -/
structure FormsFit (parser : ArgsParser τ) (chars : CharCode) (i : Nat)
    (o : ParserOption (ParserVars τ)) : Prop where
  noError : o.shortName ≠ questionMark
  isChar : chars.code o.shortName = charInt o.shortName
  next : NextFits o (parser.options.drop (i + 1))
  counted : ∀ p ∈ parser.options.take i, p.longName ≠ []

/-! ## Looking options up -/

section

variable {options before rest : List (ParserOption σ)} {o p : ParserOption σ} {c : UInt8}

theorem mem_short : c ∈ o.short ↔
    o.shortName ≠ 0 ∧ (c = o.shortName ∨ o.requiresArgument = true ∧ c = colon) := by
  unfold short
  split_ifs with hzero hrequires
  · simp [hzero]
  · simp [hzero, hrequires]
  · simp [hzero, hrequires]

theorem flatMap_short_cases (options : List (ParserOption σ)) :
    (options.find? (fun p => p.shortName ≠ 0) = none ∧ options.flatMap short = []) ∨
      ∃ next rest, options.find? (fun p => p.shortName ≠ 0) = some next ∧ next :: rest <:+ options ∧
        options.flatMap short =
          next.shortName :: ((if next.requiresArgument then [colon] else []) ++
            rest.flatMap short) := by
  induction options with
  | nil => exact .inl ⟨rfl, rfl⟩
  | cons p options ih =>
    by_cases hzero : p.shortName = 0
    · have hshort : p.short = [] := if_pos hzero
      rw [List.find?_cons_of_neg (by simpa using hzero), List.flatMap_cons, hshort, List.nil_append]
      rcases ih with hnone | ⟨next, rest, hfind, hsuffix, hflat⟩
      · exact .inl hnone
      · exact .inr ⟨next, rest, hfind, hsuffix.trans (List.suffix_cons _ _), hflat⟩
    · refine .inr ⟨p, options, by simp [hzero], List.suffix_refl _, ?_⟩
      rw [List.flatMap_cons, short, if_neg hzero]
      split_ifs <;> rfl

/-- What the short options say about an option: what it takes, if no colon of the next one is in the
way. -/
theorem hasArgOf_next (hdistinct : rest.Pairwise fun a b => a.shortName ≠ 0 → a.shortName ≠ b.shortName) :
    (NextFits o rest → (Getopt.hasArgOf ((if o.requiresArgument then [colon] else []) ++
      rest.flatMap short) = .required ↔ o.requiresArgument = true)) ∧
    (¬ NextFits o rest → Getopt.hasArgOf ((if o.requiresArgument then [colon] else []) ++
      rest.flatMap short) = if o.requiresArgument then .optional else .required) := by
  unfold NextFits
  rcases flatMap_short_cases rest with ⟨hfind, hflat⟩ | ⟨next, more, hfind, hsuffix, hflat⟩
  · rw [hflat, hfind]
    refine ⟨fun _ => ?_, fun hnot => absurd (by simp) hnot⟩
    by_cases hrequires : o.requiresArgument = true <;> simp [hrequires, Getopt.hasArgOf]
  · rw [hflat, hfind]
    by_cases hcolon : next.shortName = colon
    · -- the name reads as a colon of `o`, and the option's own colon as a second one
      have hmore : ∀ c, (more.flatMap short).head? = some c → c ≠ colon := by
        intro c hc
        rcases flatMap_short_cases more with ⟨-, hnil⟩ | ⟨later, last, -, hsuffix', hcons⟩
        · rw [hnil] at hc
          exact absurd hc (by simp)
        · rw [hcons, List.head?_cons, Option.some_inj] at hc
          have hpair := hdistinct.sublist hsuffix.sublist
          rw [List.pairwise_cons] at hpair
          have hne := hpair.1 later (hsuffix'.subset List.mem_cons_self)
          rw [← hc, ← hcolon]
          exact fun heq => hne (by rw [hcolon]; decide) heq.symm
      by_cases hrequires : o.requiresArgument = true
      · simp [hrequires, Getopt.hasArgOf, hcolon]
      · by_cases hnext : next.requiresArgument = true
        · simp [hrequires, Getopt.hasArgOf, hcolon, hnext]
        · cases hflat' : more.flatMap short with
          | nil => simp [hrequires, Getopt.hasArgOf, hcolon, hnext]
          | cons c cs =>
            have hc := hmore c (by rw [hflat']; rfl)
            simp [hrequires, Getopt.hasArgOf, hcolon, hnext, hc]
    · refine ⟨fun _ => ?_, fun hnot => absurd ?_ hnot⟩
      · by_cases hrequires : o.requiresArgument = true <;> simp [hrequires, Getopt.hasArgOf, hcolon]
      · rintro q hq
        obtain rfl := Option.some.inj hq
        exact fun heq => absurd heq hcolon

theorem lookupChar_short {t : Table}
    (hchars : t.chars = before.flatMap short ++ (o.short ++ rest.flatMap short))
    (hzero : o.shortName ≠ 0) (hcolon : o.shortName ≠ colon)
    (hbefore : ∀ p ∈ before, p.shortName ≠ 0 → p.shortName ≠ o.shortName) :
    t.lookupChar o.shortName = some (Getopt.hasArgOf ((if o.requiresArgument then [colon] else []) ++
      rest.flatMap short)) := by
  have hshort : o.short = o.shortName :: if o.requiresArgument then [colon] else [] := by
    unfold short
    rw [if_neg hzero]
    split_ifs <;> rfl
  have hall : ∀ c ∈ before.flatMap short, decide (c ≠ o.shortName) = true := by
    intro c hc
    obtain ⟨p, hp, hmem⟩ := List.mem_flatMap.1 hc
    rw [decide_eq_true_eq]
    obtain ⟨hne, rfl | ⟨-, rfl⟩⟩ := mem_short.1 hmem
    · exact hbefore p hp hne
    · exact Ne.symm hcolon
  unfold Getopt.Table.lookupChar
  rw [if_neg]
  · rw [hchars, List.dropWhile_append_of_pos hall, hshort, List.cons_append,
      List.dropWhile_cons_of_neg (by simp)]
    rfl
  · rw [hchars, hshort]
    simp [hcolon]

theorem find_longOptions (hlong : o.longName ≠ [])
    (hbefore : ∀ p ∈ before, p.longName ≠ [] → p.longName ≠ o.longName)
    (behind : List (ParserOption σ)) (index : Nat) :
    (longOptions (before ++ o :: behind) index).find? (fun option => option.name = o.longName) =
      some ⟨o.longName, if o.requiresArgument then .required else .no,
        index + before.countP fun p => p.longName ≠ []⟩ := by
  induction before generalizing index with
  | nil =>
    rw [List.nil_append, longOptions, if_neg hlong]
    simp
  | cons p before ih =>
    have ih := ih fun q hq => hbefore q (List.mem_cons_of_mem _ hq)
    rw [List.cons_append, longOptions]
    by_cases hnone : p.longName = []
    · rw [if_pos hnone, ih, List.countP_cons_of_neg (by simpa using hnone)]
    · have hne := hbefore p List.mem_cons_self hnone
      rw [if_neg hnone, List.find?_cons_of_neg (by simpa using hne), ih,
        List.countP_cons_of_pos (by simpa using hnone), Nat.add_assoc, Nat.add_comm 1]

theorem findIdx_short (hzero : o.shortName ≠ 0)
    (hbefore : ∀ p ∈ before, p.shortName ≠ 0 → p.shortName ≠ o.shortName)
    (behind : List (ParserOption σ)) :
    (before ++ o :: behind).findIdx? (fun value => charInt o.shortName = charInt value.shortName) =
      some before.length := by
  rw [List.findIdx?_append, List.findIdx?_eq_none_iff.2]
  · simp [List.findIdx?_cons]
  · intro p hp
    rw [decide_eq_false_iff_not]
    intro heq
    have hname : o.shortName = p.shortName := LibC.charInt_injective heq
    exact hbefore p hp (hname ▸ hzero) hname.symm

end

/-! ## Calling the acceptors -/

section

variable {chars : CharCode} {options : List (ParserOption σ)} {i : Nat} {o : ParserOption σ}
  {answer : Answer} {answers answers' : List Answer} {arg : Option Word} {vars : σ}

theorem CharCode.code_ne_zero {c : UInt8} (h : c ≠ 0) : chars.code c ≠ 0 := by
  have hc : c.toNat ≠ 0 := fun hzero => h (UInt8.toNat_inj.1 hzero)
  have hlt := c.toNat_lt
  have hchar := chars.isChar c
  unfold charInt at hchar
  split at hchar <;> omega

/-- The answer calls the acceptor of the option that is found, with this argument. -/
structure Names (chars : CharCode) (options : List (ParserOption σ)) (answer : Answer) (i : Nat)
    (arg : Option Word) : Prop where
  option : ∃ o, options[i]? = some o ∧ (if o.requiresArgument then optarg answer else none) = arg
  found : findOption options (chars.optionId answer) answer = some i
  noEnd : chars.optionId answer ≠ -1
  noError : chars.optionId answer ≠ charInt questionMark

theorem parseOptions_cons (h : Names chars options answer i arg) (answers : List Answer) (vars : σ) :
    ∃ o, options[i]? = some o ∧
    parseOptions chars options (answer :: answers) vars =
      if (o.acceptValue arg vars).1 then
        (parseOptions chars options answers (o.acceptValue arg vars).2).map fun more =>
          { more with calls := (i, arg) :: more.calls }
      else some ⟨[(i, arg)], (o.acceptValue arg vars).2, false⟩ := by
  obtain ⟨o, hoption, harg⟩ := h.option
  refine ⟨o, hoption, ?_⟩
  rw [parseOptions]
  simp only [if_neg h.noEnd, if_neg h.noError, h.found, hoption, harg, Option.bind_eq_bind,
    Option.bind_some]
  split_ifs
  · rw [Option.map_eq_bind]
    rfl
  · rfl

theorem names_of_calls {calls : List (Nat × Option Word)}
    (h : (parseOptions chars options (answer :: answers) vars).map ParsedOptions.calls =
      some ((i, arg) :: calls)) : Names chars options answer i arg := by
  rw [parseOptions] at h
  simp only [Option.bind_eq_bind] at h
  split_ifs at h with hend herror
  · exact absurd h (by simp)
  · exact absurd h (by simp)
  · obtain ⟨parsed, hparsed, hcalls⟩ := Option.map_eq_some_iff.1 h
    obtain ⟨index, hfound, hparsed⟩ := Option.bind_eq_some_iff.1 hparsed
    obtain ⟨o, hoption, hparsed⟩ := Option.bind_eq_some_iff.1 hparsed
    have hfirst : (index, if o.requiresArgument then optarg answer else none) = (i, arg) := by
      generalize (if o.requiresArgument = true then optarg answer else none) = optionArg at hparsed ⊢
      split_ifs at hparsed
      · obtain ⟨more, -, hmore⟩ := Option.bind_eq_some_iff.1 hparsed
        rw [← Option.some.inj hmore] at hcalls
        exact (List.cons.inj hcalls).1
      · rw [← Option.some.inj hparsed] at hcalls
        exact (List.cons.inj hcalls).1
    obtain ⟨rfl, rfl⟩ := Prod.mk.inj hfirst
    exact ⟨⟨o, hoption, rfl⟩, hfound, hend, herror⟩

theorem calls_of_names (h : Names chars options answer i arg) :
    (parseOptions chars options [answer] vars).map ParsedOptions.calls = some [(i, arg)] := by
  obtain ⟨o, -, heq⟩ := parseOptions_cons h [] vars
  rw [heq]
  split_ifs <;> rfl

theorem parseOptions_congr {answer' : Answer} (h : Names chars options answer i arg)
    (h' : Names chars options answer' i arg) :
    parseOptions chars options (answer :: answers) vars =
      parseOptions chars options (answer' :: answers) vars := by
  obtain ⟨o, ho, heq⟩ := parseOptions_cons h answers vars
  obtain ⟨o', ho', heq'⟩ := parseOptions_cons h' answers vars
  obtain rfl := Option.mem_unique ho ho'
  rw [heq, heq']

theorem parseOptions_append (before : List Answer)
    (h : ∀ vars, parseOptions chars options answers vars = parseOptions chars options answers' vars)
    (vars : σ) :
    parseOptions chars options (before ++ answers) vars =
      parseOptions chars options (before ++ answers') vars := by
  induction before generalizing vars with
  | nil => exact h vars
  | cons answer before ih =>
    simp only [List.cons_append, parseOptions, ih]

end

/-! ## Reading the forms -/

section

variable {parser : ArgsParser τ} {chars : CharCode} {i : Nat} {o : ParserOption (ParserVars τ)}

/-- How many options in front of the `i`-th have a long name. -/
def longBefore (parser : ArgsParser τ) (i : Nat) : Nat :=
  (parser.options.take i).countP fun p => p.longName ≠ []

section

variable (ho : parser.options[i]? = some o)
include ho

theorem options_split :
    parser.options = parser.options.take i ++ o :: parser.options.drop (i + 1) ∧
      (parser.options.take i).length = i := by
  obtain ⟨hlt, hget⟩ := List.getElem?_eq_some_iff.1 ho
  refine ⟨?_, by rw [List.length_take]; omega⟩
  rw [← hget, List.getElem_cons_drop, List.take_append_drop]

theorem names_before :
    (∀ p ∈ parser.options.take i, p.shortName ≠ 0 → p.shortName ≠ o.shortName) ∧
      (∀ p ∈ parser.options.take i, p.longName ≠ [] → p.longName ≠ o.longName) ∧
      (parser.options.drop (i + 1)).Pairwise fun a b => a.shortName ≠ 0 → a.shortName ≠ b.shortName := by
  obtain ⟨hsplit, -⟩ := options_split ho
  have hshort : parser.options.Pairwise _ := parser.shortNames
  have hlong : parser.options.Pairwise _ := parser.longNames
  rw [hsplit, List.pairwise_append, List.pairwise_cons] at hshort hlong
  exact ⟨fun p hp => hshort.2.2 p hp o List.mem_cons_self,
    fun p hp => hlong.2.2 p hp o List.mem_cons_self, hshort.2.1.2⟩

theorem lookupChar_option (hforms : o.HasForms) :
    parser.constructGetoptOptions.lookupChar o.shortName =
      some (Getopt.hasArgOf ((if o.requiresArgument then [colon] else []) ++
        (parser.options.drop (i + 1)).flatMap short)) := by
  obtain ⟨hsplit, -⟩ := options_split ho
  have hchars : parser.constructGetoptOptions.chars =
      (parser.options.take i).flatMap short ++
        (o.short ++ (parser.options.drop (i + 1)).flatMap short) := by
    show parser.options.flatMap short = _
    conv_lhs => rw [hsplit]
    rw [List.flatMap_append, List.flatMap_cons]
  exact lookupChar_short hchars hforms.short.1 hforms.short.2.1 (names_before ho).1

theorem lookupLong_option (hforms : o.HasForms) :
    parser.constructGetoptOptions.lookupLong o.longName =
      some ⟨o.longName, if o.requiresArgument then .required else .no, longBefore parser i⟩ := by
  obtain ⟨hsplit, -⟩ := options_split ho
  have hfind := find_longOptions hforms.long.1 (names_before ho).2.1 (parser.options.drop (i + 1)) 0
  rw [← hsplit, Nat.zero_add] at hfind
  exact hfind

theorem read_longForm (hforms : o.HasForms) {value : Word} {form : List Word}
    (hform : form ∈ o.longForms value) (words : List Word) :
    Getopt.read parser.constructGetoptOptions (form ++ words) =
      (.flag (longBefore parser i) (o.given value) ::
        (Getopt.read parser.constructGetoptOptions words).1,
        (Getopt.read parser.constructGetoptOptions words).2) := by
  have hlookup := lookupLong_option ho hforms
  obtain ⟨hname, hequals⟩ := hforms.long
  unfold ParserOption.longForms at hform
  unfold ParserOption.given
  by_cases hrequires : o.requiresArgument = true
  · rw [if_pos hrequires] at hform hlookup ⊢
    simp only [List.mem_cons, List.not_mem_nil, or_false] at hform
    rcases hform with rfl | rfl
    · exact Getopt.read_long_word hname hequals hlookup rfl
    · exact Getopt.read_long_attached hequals hlookup (by simp)
  · rw [if_neg hrequires] at hform hlookup ⊢
    obtain rfl := List.mem_singleton.1 hform
    exact Getopt.read_long_name hname hequals hlookup (by simp)

theorem read_shortForm (hforms : o.HasForms) (hnext : NextFits o (parser.options.drop (i + 1)))
    {value : Word} {form : List Word} (hform : form ∈ o.shortForms value) (words : List Word) :
    Getopt.read parser.constructGetoptOptions (form ++ words) =
      (.char o.shortName (o.given value) :: (Getopt.read parser.constructGetoptOptions words).1,
        (Getopt.read parser.constructGetoptOptions words).2) := by
  have hlookup := lookupChar_option ho hforms
  have hiff := (hasArgOf_next (names_before ho).2.2).1 hnext
  have hdash := hforms.short.2.2
  unfold ParserOption.shortForms at hform
  unfold ParserOption.given
  generalize Getopt.hasArgOf _ = hasArg at hlookup hiff
  by_cases hrequires : o.requiresArgument = true
  · rw [hiff.2 hrequires] at hlookup
    rw [if_pos hrequires] at hform ⊢
    rcases List.mem_cons.1 hform with rfl | hform
    · exact Getopt.read_char_word hdash hlookup
    · split_ifs at hform with hvalue
      · exact absurd hform (by simp)
      · obtain rfl := List.mem_singleton.1 hform
        exact Getopt.read_char_attached hdash hlookup hvalue
  · rw [if_neg hrequires] at hform ⊢
    obtain rfl := List.mem_singleton.1 hform
    refine Getopt.read_char hdash ?_ words
    cases hasArg with
    | no => exact .inl hlookup
    | required => exact absurd (hiff.1 rfl) hrequires
    | optional => exact .inr hlookup

end

/-! ## When the forms agree -/

theorem FormsFit.names (h : FormsFit parser chars i o) (ho : parser.options[i]? = some o)
    (hforms : o.HasForms) (value : Word) :
    Names chars parser.options (.char o.shortName (o.given value)) i (o.given value) ∧
      Names chars parser.options (.flag (longBefore parser i) (o.given value)) i (o.given value) := by
  obtain ⟨hsplit, hlength⟩ := options_split ho
  have hgiven : ∀ answer, optarg answer = o.given value →
      (if o.requiresArgument then optarg answer else none) = o.given value := by
    intro answer heq
    rw [heq]
    unfold ParserOption.given
    split_ifs <;> rfl
  constructor
  · refine ⟨⟨o, ho, hgiven _ rfl⟩, ?_, chars.ne_eof _, ?_⟩
    · have hfind := findIdx_short hforms.short.1 (names_before ho).1 (parser.options.drop (i + 1))
      rw [← hsplit, hlength] at hfind
      show (if chars.code o.shortName = 0 then none else parser.options.findIdx? fun value =>
        chars.code o.shortName = charInt value.shortName) = some i
      rw [if_neg (CharCode.code_ne_zero hforms.short.1), h.isChar]
      exact hfind
    · show chars.code o.shortName ≠ _
      rw [h.isChar]
      exact fun heq => h.noError (LibC.charInt_injective heq)
  · have hcount : longBefore parser i = i := by
      unfold longBefore
      conv_rhs => rw [← hlength]
      rw [List.countP_eq_length]
      intro p hp
      simpa using h.counted p hp
    rw [hcount]
    exact ⟨⟨o, ho, hgiven _ rfl⟩, rfl, show (0 : Int) ≠ -1 by decide,
      show 0 ≠ charInt questionMark by decide⟩

theorem FormsFit.agree (h : FormsFit parser chars i o) (ho : parser.options[i]? = some o)
    (hforms : o.HasForms) : FormsAgree parser chars i o where
  calls value form hform vars := by
    obtain ⟨hshort, hlong⟩ := h.names ho hforms value
    unfold ArgsParser.optionCalls
    rcases List.mem_append.1 hform with hform | hform
    · have hread := read_shortForm ho hforms h.next hform []
      rw [List.append_nil] at hread
      rw [hread, Getopt.read]
      exact calls_of_names hshort
    · have hread := read_longForm ho hforms hform []
      rw [List.append_nil] at hread
      rw [hread, Getopt.read]
      exact calls_of_names hlong
  same value short hshort long hlong before hbefore behind vars := by
    obtain ⟨hnames, hnames'⟩ := h.names ho hforms value
    obtain ⟨answers, operands, hcomplete⟩ := hbefore
    unfold ArgsParser.parse
    rw [List.append_assoc, List.append_assoc, hcomplete, hcomplete,
      read_shortForm ho hforms h.next hshort, read_longForm ho hforms hlong]
    dsimp only
    rw [parseOptions_append answers fun vars => parseOptions_congr hnames hnames']

theorem FormsAgree.fit (h : FormsAgree parser chars i o) (ho : parser.options[i]? = some o)
    (hforms : o.HasForms) (vars : ParserVars τ) : FormsFit parser chars i o := by
  obtain ⟨hsplit, hlength⟩ := options_split ho
  -- what a form's first answer has to name
  have hnames : ∀ value, ∀ form ∈ o.shortForms value ++ o.longForms value, ∀ answer answers,
      (Getopt.read parser.constructGetoptOptions form).1 = answer :: answers →
      Names chars parser.options answer i (o.given value) := by
    intro value form hform answer answers hread
    have hcalls := h.calls value form hform vars
    unfold ArgsParser.optionCalls at hcalls
    rw [hread] at hcalls
    exact names_of_calls hcalls
  have hnext : NextFits o (parser.options.drop (i + 1)) := by
    by_contra hnot
    have hlookup := lookupChar_option ho hforms
    rw [(hasArgOf_next (names_before ho).2.2).2 hnot] at hlookup
    have hdash := hforms.short.2.2
    by_cases hrequires : o.requiresArgument = true
    · -- the value is optional for `getopt_long`, so the next word is none
      rw [if_pos hrequires] at hlookup
      have hread := Getopt.read_char hdash (.inr hlookup) [[]]
      have hname := hnames [] [[dash, o.shortName], []]
        (List.mem_append_left _ (by simp [ParserOption.shortForms, hrequires])) _ _
        (congrArg Prod.fst hread)
      obtain ⟨o', -, hnone⟩ := hname.option
      rw [ParserOption.given, if_pos hrequires] at hnone
      split_ifs at hnone
      exact absurd hnone (by simp [optarg])
    · -- `getopt_long` misses a value
      rw [if_neg hrequires] at hlookup
      have hread := Getopt.read_char_missing hdash hlookup
      have hname := hnames [] [[dash, o.shortName]]
        (List.mem_append_left _ (by simp [ParserOption.shortForms, hrequires])) _ _
        (congrArg Prod.fst hread)
      exact hname.noError rfl
  have hshort : ∃ form, form ∈ o.shortForms [] := by
    unfold ParserOption.shortForms
    split_ifs <;> exact List.exists_mem_of_ne_nil _ (by simp)
  have hlong : ∃ form, form ∈ o.longForms [] := by
    unfold ParserOption.longForms
    split_ifs <;> exact List.exists_mem_of_ne_nil _ (by simp)
  obtain ⟨short, hshort⟩ := hshort
  obtain ⟨long, hlong⟩ := hlong
  have hread := read_shortForm ho hforms hnext hshort []
  have hread' := read_longForm ho hforms hlong []
  rw [List.append_nil] at hread hread'
  have hname := hnames [] short (List.mem_append_left _ hshort) _ _ (congrArg Prod.fst hread)
  have hname' := hnames [] long (List.mem_append_right _ hlong) _ _ (congrArg Prod.fst hread')
  refine ⟨?_, ?_, hnext, ?_⟩
  · intro heq
    refine hname.noError ?_
    rw [heq]
    rcases chars.isChar questionMark with hchar | hchar
    · exact hchar
    · exact hchar
  · have hfound := hname.found
    have hfound : (if chars.code o.shortName = 0 then none else parser.options.findIdx? fun value =>
      chars.code o.shortName = charInt value.shortName) = some i := hfound
    rw [if_neg (CharCode.code_ne_zero hforms.short.1), List.findIdx?_eq_some_iff_getElem] at hfound
    obtain ⟨hlt, heq, -⟩ := hfound
    obtain ⟨_, hget⟩ := List.getElem?_eq_some_iff.1 ho
    rw [hget, decide_eq_true_eq] at heq
    exact heq
  · have hcount : longBefore parser i = i := Option.some.inj hname'.found
    unfold longBefore at hcount
    conv_rhs at hcount => rw [← hlength]
    rw [List.countP_eq_length] at hcount
    intro p hp
    simpa using hcount p hp

/-- The two forms of an option mean the same if and only if the option is found back in both. -/
theorem forms_agree_iff (parser : ArgsParser τ) (chars : CharCode) (i : Nat)
    (o : ParserOption (ParserVars τ)) (ho : parser.options[i]? = some o) (hforms : o.HasForms)
    (vars : ParserVars τ) : FormsAgree parser chars i o ↔ FormsFit parser chars i o :=
  ⟨fun h => h.fit ho hforms vars, fun h => h.agree ho hforms⟩

end

/-- A `getopt_long` that returns option characters as `unsigned char`. -/
def unsignedChars : CharCode where
  code c := c.toNat
  isChar _ := .inr rfl
  ne_eof c := by omega

/-- A parser with an option for a string, `-o` and `--out`. -/
def outParser : ArgsParser (Option Word) where
  addedOptions := [⟨true, [111, 117, 116], 111, fun rawStr vars => (true, { vars with program := rawStr })⟩]
  positionalArgs := []
  stopOnFirstNonOption := false
  shortNames := by simp [builtinOptions, boolOption, questionMark]
  longNames := by simp [builtinOptions, boolOption]

theorem forms_agree_out : ∃ o, outParser.options[2]? = some o ∧ o.requiresArgument ∧
    FormsAgree outParser unsignedChars 2 o := by
  refine ⟨_, rfl, rfl,
    (forms_agree_iff outParser unsignedChars 2 _ rfl ?_ ⟨false, false, none⟩).2 ?_⟩
  · exact ⟨by decide, by decide⟩
  · refine ⟨by decide, by decide, fun next hnext => ?_, fun p hp => ?_⟩
    · cases hnext
    · obtain rfl | rfl : p = outParser.options[0] ∨ p = outParser.options[1] := by
        simpa [ArgsParser.options, builtinOptions, outParser] using hp
      · decide
      · decide

/-- `-?` and `--help`: the first one is taken for an error. -/
theorem forms_disagree_help : ∃ o, outParser.options[0]? = some o ∧
    ¬ FormsAgree outParser unsignedChars 0 o := by
  refine ⟨_, rfl, fun h => ?_⟩
  exact (h.fit rfl ⟨by decide, by decide⟩ ⟨false, false, none⟩).noError rfl

end MeetixOS.LibUtils
