import MeetixOS.Lib.Getopt
import MeetixOS.LibC.Ctype
import Mathlib.Data.List.Infix

/-! # Options of a command line, parsed word by word

`getopt_long` keeps its place in `optind` and, inside a word of several option characters, in a static
index. A call looks for the next word of options, reads one option of it and, unless the option string
starts with `+`, moves the words it is done with before the operands it stepped over. -/


namespace LibC.OptionsParser

open MeetixOS.Lib.Getopt (HasArg colon dash equals hasArgOf)

abbrev Word := List UInt8

/-- The byte `'+'`. -/
def plus : UInt8 := 43

/-- `struct option`. The `flag` is a variable of the caller, by number. -/
structure OptionEntry where
  name : Word
  hasArg : Int
  flag : Option Nat
  val : Int

def noArgument : Int := 0

def requiredArgument : Int := 1

def optionalArgument : Int := 2

/-- The parameters of the calls: the option string, the entries before the one without a name, and
whether there is a place for the index of a long option. -/
structure Table where
  shortOptions : Word
  longOptions : List OptionEntry
  hasLongOptionIndex : Bool

/-- `m_stop_on_first_non_option`. -/
def Table.stopOnFirstNonOption (t : Table) : Bool := t.shortOptions.head? == some plus

/-- What the calls read and write: the words of `argv` before its null pointer, the variables of the
library, and those of the caller. -/
structure State where
  argv : List Word
  optind : Nat
  optreset : Bool
  multiOptionArgumentIndex : Nat
  optarg : Option Word
  optopt : Int
  flags : Nat → Int
  longOptionIndex : Nat

/-- What the constructor does to the variables. -/
def State.construct (s : State) : State :=
  let s := if s.optreset ∨ s.optind = 0 then
      { s with optreset := false, optind := 1, multiOptionArgumentIndex := 0 }
    else s
  { s with optopt := 0, optarg := none }

/-! ## Finding the next option -/

/-- `find_next_option`, on the words from an index on: whether there is one, and `m_arg_index`. -/
def findNextOption (stop : Bool) : List Word → Nat → Bool × Nat
  | [], argIndex => (false, argIndex)
  | word :: words, argIndex =>
    if word.head? ≠ some dash then
      if stop then (false, argIndex) else findNextOption stop words (argIndex + 1)
    else if word = [dash] then findNextOption stop words (argIndex + 1)
    else if word = [dash, dash] then (false, argIndex)
    else (true, argIndex)

/-! ## Long options -/

/-- `lookup_long_option`, from an index of the table on: the entry, and the state with `optarg` and the
index written. -/
def lookupLongOption (t : Table) (rawOption : Word) : List OptionEntry → Nat → State →
    Option OptionEntry × State
  | [], _, s => (none, s)
  | longOption :: rest, i, s =>
    if longOption.name <+: rawOption then
      let s := if t.hasLongOptionIndex then { s with longOptionIndex := i } else s
      let behind := rawOption.drop longOption.name.length
      if behind = [] then (some longOption, { s with optarg := none })
      else if behind.head? = some equals then (some longOption, { s with optarg := some behind.tail })
      else lookupLongOption t rawOption rest (i + 1) s
    else lookupLongOption t rawOption rest (i + 1) s

/-- What handling an option gives: the code that is returned, `m_consumed_arguments` and the state. -/
structure Handled where
  res : Int
  consumedArguments : Nat
  state : State

/-- The code `'?'`. -/
def questionMark : Int := 63

/-- The report of a long option, through its flag or as the code. -/
def reportLong (option : OptionEntry) (consumed : Nat) (s : State) : Handled :=
  match option.flag with
  | some flag => ⟨0, consumed, { s with flags := Function.update s.flags flag option.val }⟩
  | none => ⟨option.val, consumed, s⟩

/-- `handle_long_option`, for the word at an index of `argv`. -/
def handleLongOption (t : Table) (argIndex : Nat) (word : Word) (s : State) : Handled :=
  let found := lookupLongOption t (word.drop 2) t.longOptions 0 { s with optopt := 0 }
  match found.1 with
  | none => ⟨questionMark, 0, found.2⟩
  | some option =>
    if option.hasArg = noArgument then
      if found.2.optarg.isSome then ⟨questionMark, 0, found.2⟩ else reportLong option 1 found.2
    else if option.hasArg = requiredArgument then
      if found.2.optarg.isSome then reportLong option 1 found.2
      else if argIndex + 1 < s.argv.length then
        reportLong option 2 { found.2 with optarg := s.argv[argIndex + 1]? }
      else ⟨questionMark, 0, found.2⟩
    else if option.hasArg = optionalArgument then reportLong option 1 found.2
    else ⟨questionMark, 0, found.2⟩

/-! ## Short options -/

/-- The loop of `split_short_options`: the parts of a text between the occurrences of a character. -/
def splitLoop (option : UInt8) : Word → Word → List Word
  | part, [] => [part]
  | part, c :: rest =>
    if c = option then part :: splitLoop option [] rest else splitLoop option (part ++ [c]) rest

def splitShortOptions (t : Table) (option : UInt8) : List Word :=
  if t.shortOptions = [] then [] else splitLoop option [] t.shortOptions

/-- `lookup_short_option`: what the option needs, or `none` where it is not found. There is no result
where the second of the parts is read and there is only one. -/
def lookupShortOption (t : Table) (option : UInt8) : Option (Option Int) :=
  let parts := splitShortOptions t option
  if parts = [] then some none
  else match parts[1]? with
    | none => none
    | some part =>
      if part.take 2 = [colon, colon] then some (some optionalArgument)
      else if part.take 1 = [colon] then some (some requiredArgument)
      else some (some noArgument)

/-- The place in a word at which the next short option is read, past the dash. -/
def skipDash (multi : Nat) : Nat := if multi = 0 then 1 else multi

/-- `handle_short_option`, for the word at an index of `argv`. There is no result where it reads behind
the end of the word or of the parts of the option string. -/
def handleShortOption (t : Table) (argIndex : Nat) (word : Word) (s : State) : Option Handled :=
  let multi := skipDash s.multiOptionArgumentIndex
  match word[multi]? with
  | none => none
  | some option =>
    let s := { s with multiOptionArgumentIndex := multi + 1 }
    match lookupShortOption t option with
    | none => none
    | some none => some ⟨questionMark, 0, { s with optopt := charInt option }⟩
    | some (some needsValue) =>
      if multi + 1 < word.length then
        if needsValue = noArgument then some ⟨charInt option, 0, { s with optarg := none }⟩
        else some ⟨charInt option, 1,
          { s with optarg := some (word.drop (multi + 1)), multiOptionArgumentIndex := 0 }⟩
      else
        let s := { s with multiOptionArgumentIndex := 0 }
        if needsValue ≠ requiredArgument then some ⟨charInt option, 1, { s with optarg := none }⟩
        else if argIndex + 1 < s.argv.length then
          some ⟨charInt option, 2, { s with optarg := s.argv[argIndex + 1]? }⟩
        else some ⟨questionMark, 0, s⟩

/-! ## One call -/

/-- `shift_argv`: the consumed words are moved before the words from `optind` on. -/
def shiftArgv (argv : List Word) (optind argIndex consumed : Nat) : List Word :=
  if optind = argIndex ∨ consumed = 0 then argv
  else argv.take optind ++ (argv.drop argIndex).take consumed ++ (argv.drop optind).take (argIndex - optind)
    ++ argv.drop (argIndex + consumed)

/-- The end of `next_option`, behind an option or where there is none. -/
def Handled.finish (t : Table) (argIndex : Nat) (h : Handled) : Int × State :=
  if h.res = questionMark then (h.res, h.state)
  else
    let s := h.state
    let s := if t.stopOnFirstNonOption then s
      else { s with argv := shiftArgv s.argv s.optind argIndex h.consumedArguments }
    (h.res, { s with optind := s.optind + h.consumedArguments })

/-- `next_option`. There is no result where the word is read and `argv` has none at the index, as at its
null pointer. -/
def nextOption (t : Table) (s : State) : Option (Int × State) :=
  let found := findNextOption t.stopOnFirstNonOption (s.argv.drop s.optind) s.optind
  match s.argv[found.2]? with
  | none => none
  | some word =>
    let handled := if found.1 then
        if word.take 2 = [dash, dash] then some (handleLongOption t found.2 word s)
        else handleShortOption t found.2 word s
      else some ⟨-1, if word = [dash, dash] then 1 else 0, s⟩
    handled.map (·.finish t found.2)

def getoptLong (t : Table) (s : State) : Option (Int × State) := nextOption t s.construct

/-! ## What a call reads -/

/-- A word from which options are read. -/
def IsOption (word : Word) : Prop := word.head? = some dash ∧ word ≠ [dash] ∧ word ≠ [dash, dash]

/-- A word that the search steps over. -/
def SteppedOver (stop : Bool) (word : Word) : Prop :=
  word = [dash] ∨ stop = false ∧ word.head? ≠ some dash

section

variable {stop : Bool} {skipped words rest : List Word} {word : Word}

theorem findNextOption_append (h : ∀ w ∈ skipped, SteppedOver stop w) (words : List Word) (i : Nat) :
    findNextOption stop (skipped ++ words) i = findNextOption stop words (i + skipped.length) := by
  induction skipped generalizing i with
  | nil => rfl
  | cons w skipped ih =>
    have hrest := ih (fun v hv => h v (List.mem_cons_of_mem w hv)) (i + 1)
    rw [List.cons_append, findNextOption, List.length_cons, Nat.add_comm skipped.length 1,
      ← Nat.add_assoc, ← hrest]
    rcases h w List.mem_cons_self with hdash | ⟨hstop, hhead⟩
    · simp [hdash]
    · simp [hhead, hstop]

theorem findNextOption_option (h : IsOption word) (i : Nat) :
    findNextOption stop (word :: rest) i = (true, i) := by
  obtain ⟨hhead, hone, htwo⟩ := h
  simp [findNextOption, hhead, hone, htwo]

theorem findNextOption_end (i : Nat) : findNextOption stop ([dash, dash] :: rest) i = (false, i) := by
  simp [findNextOption]

theorem findNextOption_operand (hstop : stop = true) (h : word.head? ≠ some dash) (i : Nat) :
    findNextOption stop (word :: rest) i = (false, i) := by
  simp [findNextOption, h, hstop]

theorem shiftArgv_append (front skipped words : List Word) (k : Nat) :
    shiftArgv (front ++ (skipped ++ words)) front.length (front.length + skipped.length) k =
      front ++ (words.take k ++ (skipped ++ words.drop k)) := by
  unfold shiftArgv
  split
  next h =>
    rcases h with h | h
    · have hnil : skipped = [] := List.eq_nil_of_length_eq_zero (by omega)
      simp [hnil]
    · simp [h]
  next h =>
    have hdrop (n : Nat) : (front ++ (skipped ++ words)).drop (front.length + skipped.length + n) =
        words.drop n := by
      rw [← List.append_assoc, ← List.length_append, List.drop_append]
      simp
    rw [hdrop, List.take_left, ← Nat.add_zero (front.length + skipped.length), hdrop, List.drop_left]
    simp

end

/-! ## Where the parser stands -/

/-- The words, the place among them and the place inside of one, when nothing asks for a reset. -/
structure Stands (s : State) (argv : List Word) (optind multi : Nat) : Prop where
  not_reset : s.optreset = false
  argv_eq : s.argv = argv
  optind_eq : s.optind = optind
  multi_eq : s.multiOptionArgumentIndex = multi

section

variable {t : Table} {s : State} {argv front skipped rest : List Word} {optind multi : Nat} {word : Word}

theorem Stands.construct (h : Stands s argv optind multi) (hpos : 0 < optind) :
    Stands s.construct argv optind multi ∧ s.construct.optarg = none := by
  have hno : ¬(s.optreset = true ∨ s.optind = 0) := by
    rw [h.not_reset, h.optind_eq]
    simp only [Bool.false_eq_true, false_or]
    exact hpos.ne'
  unfold State.construct
  rw [if_neg hno]
  exact ⟨⟨h.not_reset, h.argv_eq, h.optind_eq, h.multi_eq⟩, rfl⟩

/-- The words of `argv` when `k` words behind the ones stepped over have been consumed. -/
def moved (stop : Bool) (front skipped words : List Word) (k : Nat) : List Word :=
  if stop then front ++ (skipped ++ words) else front ++ (words.take k ++ (skipped ++ words.drop k))

theorem moved_zero (stop : Bool) (front skipped words : List Word) :
    moved stop front skipped words 0 = front ++ (skipped ++ words) := by
  simp [moved]

theorem finish_question (s' : State) (argIndex k : Nat) :
    Handled.finish t argIndex ⟨questionMark, k, s'⟩ = (questionMark, s') := by
  simp [Handled.finish]

theorem finish_spec {words : List Word} {s' : State} {code : Int} (k : Nat)
    (h : Stands s' (front ++ (skipped ++ words)) front.length multi) (hcode : code ≠ questionMark) :
    ∃ s'', Handled.finish t (front.length + skipped.length) ⟨code, k, s'⟩ = (code, s'') ∧
      Stands s'' (moved t.stopOnFirstNonOption front skipped words k) (front.length + k) multi := by
  obtain ⟨hreset, hargv, hoptind, hmulti⟩ := h
  unfold Handled.finish
  rw [if_neg hcode]
  refine ⟨_, rfl, ?_⟩
  unfold moved
  split_ifs with hstop
  · exact ⟨hreset, hargv, by simp [hoptind], hmulti⟩
  · refine ⟨hreset, ?_, by simp [hoptind], hmulti⟩
    simp only [hargv, hoptind]
    exact shiftArgv_append front skipped words k

theorem getoptLong_option (h : Stands s (front ++ (skipped ++ word :: rest)) front.length multi)
    (hpos : 0 < front.length) (hskip : ∀ w ∈ skipped, SteppedOver t.stopOnFirstNonOption w)
    (hword : IsOption word) :
    getoptLong t s = (if word.take 2 = [dash, dash] then
        some (handleLongOption t (front.length + skipped.length) word s.construct)
      else handleShortOption t (front.length + skipped.length) word s.construct).map
        (·.finish t (front.length + skipped.length)) := by
  obtain ⟨⟨-, hargv, hoptind, -⟩, -⟩ := h.construct hpos
  unfold getoptLong nextOption
  rw [hargv, hoptind, List.drop_left, findNextOption_append hskip, findNextOption_option hword]
  simp

theorem getoptLong_end (h : Stands s (front ++ (skipped ++ [dash, dash] :: rest)) front.length multi)
    (hpos : 0 < front.length) (hskip : ∀ w ∈ skipped, SteppedOver t.stopOnFirstNonOption w) :
    ∃ s', getoptLong t s = some (-1, s') ∧ Stands s'
      (moved t.stopOnFirstNonOption front skipped ([dash, dash] :: rest) 1) (front.length + 1) multi := by
  obtain ⟨hs, -⟩ := h.construct hpos
  obtain ⟨s', hfinish, hs'⟩ := finish_spec 1 hs (show (-1 : Int) ≠ questionMark by decide)
  refine ⟨s', ?_, hs'⟩
  unfold getoptLong nextOption
  rw [hs.argv_eq, hs.optind_eq, List.drop_left, findNextOption_append hskip, findNextOption_end]
  simp [hfinish]

theorem getoptLong_operand (h : Stands s (front ++ (skipped ++ word :: rest)) front.length multi)
    (hpos : 0 < front.length) (hskip : ∀ w ∈ skipped, SteppedOver t.stopOnFirstNonOption w)
    (hstop : t.stopOnFirstNonOption = true) (hword : word.head? ≠ some dash) :
    ∃ s', getoptLong t s = some (-1, s') := by
  obtain ⟨hs, -⟩ := h.construct hpos
  have hne : word ≠ [dash, dash] := by
    rintro rfl
    exact hword rfl
  obtain ⟨s', hfinish, -⟩ := finish_spec (t := t) 0 hs (show (-1 : Int) ≠ questionMark by decide)
  refine ⟨s', ?_⟩
  unfold getoptLong nextOption
  rw [hs.argv_eq, hs.optind_eq, List.drop_left, findNextOption_append hskip,
    findNextOption_operand hstop hword]
  simp [hne, hfinish]

theorem getoptLong_null (h : Stands s argv optind multi) (hpos : 0 < optind)
    (hskip : ∀ w ∈ argv.drop optind, SteppedOver t.stopOnFirstNonOption w) : getoptLong t s = none := by
  obtain ⟨hs, -⟩ := h.construct hpos
  have hfind := findNextOption_append hskip [] optind
  rw [List.append_nil, findNextOption] at hfind
  have hend : argv[optind + (argv.drop optind).length]? = none := by
    rw [List.getElem?_eq_none_iff, List.length_drop]
    omega
  unfold getoptLong nextOption
  rw [hs.argv_eq, hs.optind_eq, hfind]
  simp only [hend]

end

/-! ## Options of the table -/

/-- The long option that a word names, given without its dashes: the first whose name is the whole of it
or is followed by `=`. -/
def Table.named (t : Table) (body : Word) : Option OptionEntry :=
  t.longOptions.find? fun option => option.name = body ∨ option.name ++ [equals] <+: body

/-- What a short option takes. A colon in the option string is no option and takes nothing. -/
def Table.takes (t : Table) (c : UInt8) : HasArg :=
  if c = colon then .no else hasArgOf (t.shortOptions.dropWhile (· ≠ c)).tail

section

variable {t : Table} {s : State} {argv : List Word} {optind multi : Nat} {raw : Word} {c : UInt8}

theorem behind_name (name raw : Word) (h : name <+: raw) :
    (raw.drop name.length = [] ↔ name = raw) ∧
      ((raw.drop name.length).head? = some equals ↔ name ++ [equals] <+: raw) := by
  obtain ⟨behind, rfl⟩ := h
  rw [List.drop_left, List.prefix_append_right_inj]
  constructor
  · simp
  · cases behind with
    | nil => simp
    | cons c behind => simp [eq_comm]

theorem lookupLongOption_spec (t : Table) (raw : Word) (entries : List OptionEntry) (i : Nat)
    (h : Stands s argv optind multi) (harg : s.optarg = none) :
    ∃ s', lookupLongOption t raw entries i s =
        (entries.find? fun option => option.name = raw ∨ option.name ++ [equals] <+: raw, s') ∧
      Stands s' argv optind multi ∧ ∀ option,
        entries.find? (fun option => option.name = raw ∨ option.name ++ [equals] <+: raw) = some option →
          (s'.optarg.isSome ↔ option.name ≠ raw) := by
  induction entries generalizing i s with
  | nil => exact ⟨s, rfl, h, by simp⟩
  | cons longOption rest ih =>
    unfold lookupLongOption
    by_cases hname : longOption.name <+: raw
    · rw [if_pos hname]
      obtain ⟨hwhole, hvalue⟩ := behind_name longOption.name raw hname
      -- The index is written whether or not the name ends there.
      set s₁ := (if t.hasLongOptionIndex = true then { s with longOptionIndex := i } else s) with hs₁
      have h₁ : Stands s₁ argv optind multi ∧ s₁.optarg = none := by
        rw [hs₁]
        split
        · exact ⟨⟨h.not_reset, h.argv_eq, h.optind_eq, h.multi_eq⟩, harg⟩
        · exact ⟨h, harg⟩
      rw [List.find?_cons]
      simp only [hwhole, hvalue]
      by_cases hraw : longOption.name = raw
      · refine ⟨{ s₁ with optarg := none }, by simp [hraw],
          ⟨h₁.1.not_reset, h₁.1.argv_eq, h₁.1.optind_eq, h₁.1.multi_eq⟩, ?_⟩
        intro option hoption
        simp only [hraw, true_or, decide_true, Option.some.injEq] at hoption
        simp [← hoption, hraw]
      · by_cases heq : longOption.name ++ [equals] <+: raw
        · refine ⟨{ s₁ with optarg := some (raw.drop longOption.name.length).tail }, by simp [hraw,
            heq],
            ⟨h₁.1.not_reset, h₁.1.argv_eq, h₁.1.optind_eq, h₁.1.multi_eq⟩, ?_⟩
          intro option hoption
          simp only [heq, or_true, decide_true, Option.some.injEq] at hoption
          simp [← hoption, hraw]
        · simp only [hraw, heq, or_self, decide_false, if_false]
          exact ih (i + 1) h₁.1 h₁.2
    · rw [if_neg hname, List.find?_cons]
      have hraw : longOption.name ≠ raw := by
        rintro hraw
        exact hname (hraw ▸ List.prefix_rfl)
      have heq : ¬longOption.name ++ [equals] <+: raw := by
        intro heq
        exact hname ((List.prefix_append _ _).trans heq)
      simp only [hraw, heq, or_self, decide_false]
      exact ih (i + 1) h harg

theorem splitLoop_eq (part text : Word) :
    splitLoop c part text = if c ∈ text then
        (part ++ text.takeWhile (· ≠ c)) :: splitLoop c [] (text.dropWhile (· ≠ c)).tail
      else [part ++ text] := by
  induction text generalizing part with
  | nil => simp [splitLoop]
  | cons x text ih =>
    rw [splitLoop]
    by_cases hx : x = c
    · simp [hx]
    · rw [if_neg hx, ih]
      simp [hx, Ne.symm hx]

theorem take_colons (hc : c ≠ colon) (rest : Word) :
    ((rest.takeWhile (· ≠ c)).take 2 = [colon, colon] ↔ rest.take 2 = [colon, colon]) ∧
      ((rest.takeWhile (· ≠ c)).take 1 = [colon] ↔ rest.take 1 = [colon]) := by
  rcases rest with _ | ⟨x, _ | ⟨y, rest⟩⟩
  · simp
  · by_cases hx : x = c
    · simp [hx, hc]
    · simp [hx]
  · by_cases hx : x = c
    · simp [hx, hc]
    · by_cases hy : y = c
      · simp [hx, hy, hc]
      · simp [hx, hy]

theorem splitShortOptions_second (hc : c ∈ t.shortOptions) : ∃ behind,
    (splitShortOptions t c)[1]? = some behind ∧
      (behind.take 2 = [colon, colon] ↔ t.takes c = .optional) ∧
      (behind.take 2 ≠ [colon, colon] → (behind.take 1 = [colon] ↔ t.takes c = .required)) := by
  have hne : t.shortOptions ≠ [] := List.ne_nil_of_mem hc
  set rest := (t.shortOptions.dropWhile (· ≠ c)).tail with hrest
  refine ⟨rest.takeWhile (· ≠ c), ?_, ?_⟩
  · unfold splitShortOptions
    rw [if_neg hne, splitLoop_eq, if_pos hc, ← hrest, splitLoop_eq]
    by_cases hmem : c ∈ rest
    · simp [hmem]
    · have hall : rest.takeWhile (· ≠ c) = rest := by
        rw [List.takeWhile_eq_self_iff]
        intro x hx
        simp only [ne_eq, decide_not, Bool.not_eq_true', decide_eq_false_iff_not]
        rintro rfl
        exact hmem hx
      rw [if_neg hmem, hall]
      simp
  · unfold Table.takes hasArgOf
    by_cases hcolon : c = colon
    · -- Up to the next colon there is none.
      subst hcolon
      have hnone : (rest.takeWhile (· ≠ colon)).take 1 ≠ [colon] := by
        cases rest with
        | nil => simp
        | cons x rest => by_cases hx : x = colon <;> simp [hx]
      have htwo : (rest.takeWhile (· ≠ colon)).take 2 ≠ [colon, colon] := by
        intro h
        have hone := congrArg (List.take 1) h
        rw [List.take_take] at hone
        exact hnone hone
      exact ⟨iff_of_false htwo (by simp), fun _ => iff_of_false hnone (by simp)⟩
    · obtain ⟨htwo, hone⟩ := take_colons hcolon rest
      constructor
      · split_ifs <;> simp_all
      · intro h
        split_ifs <;> simp_all

end

/-! ## What becomes of a word of options -/

/-- What the calls do with a word of options: they read it without end or not at all, give the last
answer in the middle of it, or consume it, perhaps with the next word, and return a code. -/
inductive Outcome where
  | bad
  | cut
  | taken (withNext : Bool) (code : Int)
  deriving DecidableEq

/-- The words that are consumed. -/
def consumed (withNext : Bool) : Nat := withNext.toNat + 1

/-- A code at the end of a word, where `'?'` leaves the word unread. -/
def Outcome.ofCode (withNext : Bool) (code : Int) : Outcome :=
  if code = questionMark then .bad else .taken withNext code

/-- What is returned for a long option. -/
def OptionEntry.code (option : OptionEntry) : Int := if option.flag.isSome then 0 else option.val

/-- The outcome of a word given without its two dashes; `more` says that another word is behind it. -/
def longOutcome (t : Table) (more : Bool) (body : Word) : Outcome :=
  match t.named body with
  | none => .bad
  | some option =>
    if option.hasArg = noArgument then
      if option.name = body then .ofCode false option.code else .bad
    else if option.hasArg = requiredArgument then
      if option.name ≠ body then .ofCode false option.code
      else if more then .ofCode true option.code
      else .bad
    else if option.hasArg = optionalArgument then .ofCode false option.code
    else .bad

/-- The outcome of the characters of a word from one of them on. -/
def charsOutcome (t : Table) (more : Bool) : Word → Outcome
  | [] => .bad
  | c :: cs =>
    if c ∉ t.shortOptions then .bad
    else match t.takes c with
      | .no =>
        if cs = [] then .ofCode false (charInt c)
        else if charInt c = -1 then .cut
        else charsOutcome t more cs
      | .optional => .ofCode false (charInt c)
      | .required =>
        if cs ≠ [] then .ofCode false (charInt c)
        else if more then .ofCode true (charInt c)
        else .bad

/-- The outcome of a word of options. -/
def wordOutcome (t : Table) (more : Bool) (word : Word) : Outcome :=
  if word.take 2 = [dash, dash] then longOutcome t more (word.drop 2)
  else charsOutcome t more (word.drop 1)

section

variable {t : Table} {s : State} {argv : List Word} {optind multi argIndex : Nat} {word : Word}
  {c : UInt8} {cs : Word} {withNext withNext' : Bool} {code code' : Int}

theorem ofCode_eq_taken : Outcome.ofCode withNext code = .taken withNext' code' ↔
    withNext = withNext' ∧ code = code' ∧ code ≠ questionMark := by
  unfold Outcome.ofCode
  split_ifs with h
  · simp [h]
  · simp [h]

theorem reportLong_spec (option : OptionEntry) (k : Nat) (h : Stands s argv optind multi) :
    ∃ s', reportLong option k s = ⟨option.code, k, s'⟩ ∧ Stands s' argv optind multi := by
  unfold reportLong OptionEntry.code
  cases option.flag with
  | none => exact ⟨s, rfl, h⟩
  | some flag => exact ⟨_, rfl, h.not_reset, h.argv_eq, h.optind_eq, h.multi_eq⟩

theorem handleLongOption_spec (argIndex : Nat) (word : Word) (h : Stands s argv optind multi)
    (harg : s.optarg = none) :
    ∃ code k s', handleLongOption t argIndex word s = ⟨code, k, s'⟩ ∧ Stands s' argv optind multi ∧
      ((code = questionMark ∧
          longOutcome t (decide (argIndex + 1 < argv.length)) (word.drop 2) = .bad) ∨
        ∃ withNext, k = consumed withNext ∧ code ≠ questionMark ∧
          longOutcome t (decide (argIndex + 1 < argv.length)) (word.drop 2) = .taken withNext code) := by
  have h₀ : Stands { s with optopt := 0 } argv optind multi :=
    ⟨h.not_reset, h.argv_eq, h.optind_eq, h.multi_eq⟩
  obtain ⟨s₁, hlookup, h₁, harg₁⟩ :=
    lookupLongOption_spec t (word.drop 2) t.longOptions 0 h₀ harg
  unfold handleLongOption longOutcome Table.named
  rw [hlookup]
  cases hfind : t.longOptions.find? fun option =>
      option.name = word.drop 2 ∨ option.name ++ [equals] <+: word.drop 2 with
  | none => exact ⟨_, _, _, rfl, h₁, .inl ⟨rfl, rfl⟩⟩
  | some option =>
    have hvalue := harg₁ option hfind
    -- A report with a code other than `'?'` is of the outcome that is given.
    have hreport (withNext : Bool) (s₂ : State) (h₂ : Stands s₂ argv optind multi) :
        ∃ code k s', reportLong option (consumed withNext) s₂ = ⟨code, k, s'⟩ ∧
          Stands s' argv optind multi ∧
          ((code = questionMark ∧ Outcome.ofCode withNext option.code = .bad) ∨
            ∃ withNext', k = consumed withNext' ∧ code ≠ questionMark ∧
              Outcome.ofCode withNext option.code = .taken withNext' code) := by
      obtain ⟨s', hs', hstands⟩ := reportLong_spec option (consumed withNext) h₂
      refine ⟨_, _, s', hs', hstands, ?_⟩
      by_cases hcode : option.code = questionMark
      · exact .inl ⟨hcode, if_pos hcode⟩
      · exact .inr ⟨withNext, rfl, hcode, if_neg hcode⟩
    by_cases hno : option.hasArg = noArgument
    · simp only [if_pos hno]
      by_cases hname : option.name = word.drop 2
      · rw [if_neg (fun hsome => hvalue.1 hsome hname), if_pos hname]
        exact hreport false s₁ h₁
      · rw [if_pos (hvalue.2 hname), if_neg hname]
        exact ⟨_, _, _, rfl, h₁, .inl ⟨rfl, rfl⟩⟩
    simp only [if_neg hno]
    by_cases hrequired : option.hasArg = requiredArgument
    · simp only [if_pos hrequired]
      by_cases hname : option.name = word.drop 2
      · rw [if_neg (fun hsome => hvalue.1 hsome hname), if_neg (not_not.2 hname), h.argv_eq]
        by_cases hmore : argIndex + 1 < argv.length
        · rw [if_pos hmore, if_pos (decide_eq_true hmore)]
          exact hreport true _ ⟨h₁.not_reset, h₁.argv_eq, h₁.optind_eq, h₁.multi_eq⟩
        · rw [if_neg hmore]
          exact ⟨_, _, _, rfl, h₁, .inl ⟨rfl, if_neg (by simpa using hmore)⟩⟩
      · rw [if_pos (hvalue.2 hname), if_pos hname]
        exact hreport false s₁ h₁
    simp only [if_neg hrequired]
    by_cases hoptional : option.hasArg = optionalArgument
    · simp only [if_pos hoptional]
      exact hreport false s₁ h₁
    · rw [if_neg hoptional]
      exact ⟨_, _, _, rfl, h₁, .inl ⟨rfl, if_neg hoptional⟩⟩

theorem lookupShortOption_mem (hc : c ∈ t.shortOptions) : lookupShortOption t c = some (some
    (match t.takes c with
      | .no => noArgument
      | .optional => optionalArgument
      | .required => requiredArgument)) := by
  obtain ⟨behind, hget, hoptional, hrequired⟩ := splitShortOptions_second hc
  have hne : splitShortOptions t c ≠ [] := by
    intro hnil
    simp [hnil] at hget
  unfold lookupShortOption
  simp only [if_neg hne, hget]
  by_cases htwo : behind.take 2 = [colon, colon]
  · rw [if_pos htwo, hoptional.1 htwo]
  · rw [if_neg htwo]
    by_cases hone : behind.take 1 = [colon]
    · rw [if_pos hone, (hrequired htwo).1 hone]
    · rw [if_neg hone]
      cases htakes : t.takes c with
      | no => rfl
      | optional => exact absurd (hoptional.2 htakes) htwo
      | required => exact absurd ((hrequired htwo).2 htakes) hone

theorem lookupShortOption_empty (hempty : t.shortOptions = []) : lookupShortOption t c = some none := by
  simp [lookupShortOption, splitShortOptions, hempty]

theorem lookupShortOption_not_mem (hc : c ∉ t.shortOptions) (hne : t.shortOptions ≠ []) :
    lookupShortOption t c = none := by
  simp [lookupShortOption, splitShortOptions, splitLoop_eq, hc, hne]

theorem getElem?_skipDash (hdrop : word.drop (skipDash multi) = c :: cs) :
    word[skipDash multi]? = some c ∧ (skipDash multi + 1 < word.length ↔ cs ≠ []) ∧
      word.drop (skipDash multi + 1) = cs := by
  have hlength := congrArg List.length hdrop
  rw [List.length_drop, List.length_cons] at hlength
  refine ⟨?_, ?_, ?_⟩
  · rw [← List.head?_drop, hdrop]
    rfl
  · rw [← List.length_pos_iff]
    omega
  · rw [← List.drop_drop, hdrop]
    rfl

theorem handleShortOption_end (h : Stands s argv optind multi) (hdrop : word.drop (skipDash multi) = []) :
    handleShortOption t argIndex word s = none := by
  have hget : word[skipDash multi]? = none := by
    rw [← List.head?_drop, hdrop]
    rfl
  unfold handleShortOption
  simp [h.multi_eq, hget]

theorem handleShortOption_unknown (h : Stands s argv optind multi)
    (hdrop : word.drop (skipDash multi) = c :: cs) (hc : c ∉ t.shortOptions) :
    (handleShortOption t argIndex word s = none) ∨
      t.shortOptions = [] ∧ ∃ s', handleShortOption t argIndex word s = some ⟨questionMark, 0, s'⟩ ∧
        Stands s' argv optind (skipDash multi + 1) := by
  obtain ⟨hget, -, -⟩ := getElem?_skipDash hdrop
  unfold handleShortOption
  simp only [h.multi_eq, hget]
  by_cases hempty : t.shortOptions = []
  · rw [lookupShortOption_empty hempty]
    exact .inr ⟨hempty, _, rfl, h.not_reset, h.argv_eq, h.optind_eq, rfl⟩
  · rw [lookupShortOption_not_mem hc hempty]
    exact .inl rfl

section

variable (argIndex : Nat) (h : Stands s argv optind multi)
  (hdrop : word.drop (skipDash multi) = c :: cs) (hc : c ∈ t.shortOptions)
include h hdrop hc

theorem handleShortOption_inner (hno : t.takes c = .no) (hcs : cs ≠ []) :
    ∃ s', handleShortOption t argIndex word s = some ⟨charInt c, 0, s'⟩ ∧
      Stands s' argv optind (skipDash multi + 1) := by
  obtain ⟨hget, hlast, -⟩ := getElem?_skipDash hdrop
  unfold handleShortOption
  simp only [h.multi_eq, hget, lookupShortOption_mem hc, hno, if_pos (hlast.2 hcs), if_true]
  exact ⟨_, rfl, h.not_reset, h.argv_eq, h.optind_eq, rfl⟩

theorem handleShortOption_last (hend : t.takes c = .no → cs = []) :
    ∃ code k s', handleShortOption t argIndex word s = some ⟨code, k, s'⟩ ∧ Stands s' argv optind 0 ∧
      ((code = questionMark ∧
          charsOutcome t (decide (argIndex + 1 < argv.length)) (c :: cs) = .bad) ∨
        ∃ withNext, k = consumed withNext ∧ code ≠ questionMark ∧
          charsOutcome t (decide (argIndex + 1 < argv.length)) (c :: cs) = .taken withNext code) := by
  obtain ⟨hget, hlast, hrest⟩ := getElem?_skipDash hdrop
  have hcode (withNext : Bool) : (charInt c = questionMark ∧ Outcome.ofCode withNext (charInt c) = .bad) ∨
      ∃ withNext', consumed withNext = consumed withNext' ∧ charInt c ≠ questionMark ∧
        Outcome.ofCode withNext (charInt c) = .taken withNext' (charInt c) := by
    by_cases hquestion : charInt c = questionMark
    · exact .inl ⟨hquestion, if_pos hquestion⟩
    · exact .inr ⟨withNext, rfl, hquestion, if_neg hquestion⟩
  unfold handleShortOption charsOutcome
  simp only [h.multi_eq, hget, lookupShortOption_mem hc, hlast, hrest, h.argv_eq, hc, not_true_eq_false,
    if_false]
  cases htakes : t.takes c with
  | no =>
    simp only [hend htakes, ne_eq, not_true_eq_false, if_false, if_true]
    exact ⟨_, _, _, rfl, ⟨h.not_reset, rfl, h.optind_eq, rfl⟩, hcode false⟩
  | optional =>
    by_cases hcs : cs = []
    · simp only [hcs, ne_eq, not_true_eq_false, if_false]
      exact ⟨_, _, _, rfl, ⟨h.not_reset, rfl, h.optind_eq, rfl⟩, hcode false⟩
    · simp only [ne_eq, hcs, not_false_eq_true, if_true]
      exact ⟨_, _, _, rfl, ⟨h.not_reset, rfl, h.optind_eq, rfl⟩, hcode false⟩
  | required =>
    by_cases hcs : cs = []
    · simp only [hcs, ne_eq, not_true_eq_false, if_false]
      by_cases hmore : argIndex + 1 < argv.length
      · simp only [if_pos hmore, decide_eq_true hmore, if_true]
        exact ⟨_, _, _, rfl, ⟨h.not_reset, rfl, h.optind_eq, rfl⟩, hcode true⟩
      · simp only [if_neg hmore, decide_eq_false hmore]
        exact ⟨_, _, _, rfl, ⟨h.not_reset, rfl, h.optind_eq, rfl⟩, .inl ⟨rfl, rfl⟩⟩
    · simp only [ne_eq, hcs, not_false_eq_true, if_true]
      exact ⟨_, _, _, rfl, ⟨h.not_reset, rfl, h.optind_eq, rfl⟩, hcode false⟩

end

end

end LibC.OptionsParser
