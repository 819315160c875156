import MeetixOS.LibC.ParseCliArgs

/-! # What a command line means

Every byte of a command line separates arguments, belongs to one, or only says how others are meant: quotes
and backslashes do, unless behind a backslash, and white space separates unless in quotes or behind a
backslash. The arguments are the longest runs of bytes that do not separate. `parse_cli_args` finds them,
except that separators at the end give it one more. -/

namespace LibC

/-! ## Words -/

section

variable {α : Type} {separates : α → Bool} {word rest : List α}

/-- The longest runs of elements that do not separate. -/
def words (separates : α → Bool) (xs : List α) : List (List α) :=
  (xs.splitOnP separates).filter fun run => !run.isEmpty

@[simp] theorem words_nil : words separates [] = [] := by
  simp [words]

theorem words_cons_separator {x : α} (h : separates x = true) :
    words separates (x :: rest) = words separates rest := by
  rw [words, List.splitOnP_cons_eq_if_modifyHead, if_pos h]
  simp [words]

theorem words_word (h : ∀ x ∈ word, separates x = false) (hne : word ≠ []) :
    words separates word = [word] := by
  rw [words, List.splitOnP_eq_singleton h]
  simp [hne]

theorem words_word_separator {x : α} (h : ∀ x ∈ word, separates x = false) (hne : word ≠ [])
    (hx : separates x = true) : words separates (word ++ x :: rest) = word :: words separates rest := by
  rw [words, List.splitOnP_append_cons_of_forall_mem h x hx]
  simp [hne, words]

theorem words_separators {spaces : List α}
    (h : ∀ x ∈ spaces, separates x = true) : words separates (spaces ++ rest) = words separates rest := by
  induction spaces with
  | nil => rfl
  | cons x spaces ih =>
    rw [List.cons_append, words_cons_separator (h x List.mem_cons_self)]
    exact ih fun y hy => h y (List.mem_cons_of_mem x hy)

end

/-! ## Classes of bytes -/

/-- What a byte of the command line is. -/
inductive ByteClass where
  | separator
  | special
  | literal
  deriving DecidableEq

/-- The bytes with their classes, inside of quotes or not, and behind a backslash or not. -/
def classify : Bool → Bool → List UInt8 → List (ByteClass × UInt8)
  | _, _, [] => []
  | instr, esc, c :: rest =>
    if esc then (.literal, c) :: classify instr false rest
    else if c = quote then (.special, c) :: classify (!instr) false rest
    else if c = backslash then (.special, c) :: classify instr true rest
    else if isspace c && !instr then (.separator, c) :: classify instr false rest
    else (.literal, c) :: classify instr false rest

/-- Whether a classified byte separates arguments. -/
def Separates (c : ByteClass × UInt8) : Bool := c.1 = .separator

/-- The text of an argument. -/
def literals (run : List (ByteClass × UInt8)) : List UInt8 :=
  (run.filter fun c => c.1 = .literal).map Prod.snd

/-- The arguments of a command line. -/
def commandArguments (raw : List UInt8) : List (List UInt8) :=
  (words Separates (classify false false raw)).map literals

/-- The last byte of the command line separates. -/
def EndsInSeparator (raw : List UInt8) : Prop :=
  ∃ c, (classify false false raw).getLast? = some c ∧ Separates c = true

/-- The entries of `argv` behind the program's name, as the second pass leaves them. -/
def argvEntries (raw : List UInt8) : List (Option (List UInt8)) :=
  (splitArguments raw).map some ++ [none]

/-- `argv[1]`, … `argv[argc - 1]` are the arguments, `argv[argc]` is null and no entry in front of it,
where `argc` is what the first pass has counted. -/
structure ParsesCommandLine (raw : List UInt8) : Prop where
  arguments : parseCliArgs raw = some (commandArguments raw)
  terminated : (argvEntries raw)[countArguments raw]? = some none
  filled : ∀ i < countArguments raw, ∃ arg, (argvEntries raw)[i]? = some (some arg)

/-! ## The passes and the classes -/

theorem skipArgument_classify (instr esc : Bool) (pos : List UInt8) :
    ∃ run, classify instr esc pos = run ++ classify false false (skipArgument instr esc pos).2 ∧
      run.map Prod.snd = (skipArgument instr esc pos).1 ∧
      (∀ c ∈ run, Separates c = false) ∧
      literals run = cleanupArgument esc (skipArgument instr esc pos).1 := by
  induction pos generalizing instr esc with
  | nil => exact ⟨[], rfl, rfl, by simp, rfl⟩
  | cons c rest ih =>
    -- the byte behind a backslash is literal, and the others are told apart in the same order
    cases esc with
    | true =>
      obtain ⟨run, happ, hmap, hsep, hlit⟩ := ih instr false
      refine ⟨(.literal, c) :: run, ?_, ?_, ?_, ?_⟩
      · simp [classify, skipArgument, happ]
      · simp [skipArgument, hmap]
      · simpa [Separates] using hsep
      · simpa [skipArgument, cleanupArgument, literals] using hlit
    | false =>
      by_cases hquote : c = quote
      · obtain ⟨run, happ, hmap, hsep, hlit⟩ := ih (!instr) false
        have hback : c ≠ backslash := by
          rw [hquote]
          decide
        refine ⟨(.special, c) :: run, ?_, ?_, ?_, ?_⟩
        · simp [classify, skipArgument, hquote, happ]
        · simp [skipArgument, hquote, hmap]
        · simpa [Separates] using hsep
        · subst hquote
          simpa [skipArgument, cleanupArgument, literals, hback] using hlit
      · by_cases hback : c = backslash
        · obtain ⟨run, happ, hmap, hsep, hlit⟩ := ih instr true
          subst hback
          refine ⟨(.special, backslash) :: run, ?_, ?_, ?_, ?_⟩
          · simp [classify, skipArgument, hquote, happ]
          · simp [skipArgument, hquote, hmap]
          · simpa [Separates] using hsep
          · simpa [skipArgument, cleanupArgument, literals, hquote] using hlit
        · by_cases hspace : isspace c = true ∧ instr = false
          · obtain ⟨hspace, rfl⟩ := hspace
            exact ⟨[], by simp [skipArgument, hquote, hback, hspace],
              by simp [skipArgument, hquote, hback, hspace], by simp,
              by simp [skipArgument, hquote, hback, hspace, cleanupArgument, literals]⟩
          · obtain ⟨run, happ, hmap, hsep, hlit⟩ := ih instr false
            have hnot : (isspace c && !instr) = false := by
              simpa using hspace
            refine ⟨(.literal, c) :: run, ?_, ?_, ?_, ?_⟩
            · simp [classify, skipArgument, hquote, hback, hspace, hnot, happ]
            · simp [skipArgument, hquote, hback, hspace, hmap]
            · simpa [Separates] using hsep
            · simpa [skipArgument, cleanupArgument, literals, hquote, hback, hspace] using hlit

theorem skipArgument_rest (instr esc : Bool) (pos : List UInt8) :
    (skipArgument instr esc pos).2 = [] ∨
      ∃ c rest, (skipArgument instr esc pos).2 = c :: rest ∧ isspace c = true ∧
        classify false false (c :: rest) = (.separator, c) :: classify false false rest := by
  induction pos generalizing instr esc with
  | nil => exact .inl rfl
  | cons c rest ih =>
    rw [skipArgument]
    split_ifs with hquote hback hspace
    · exact ih (!instr) false
    · exact ih instr true
    · refine .inr ⟨c, rest, rfl, hspace.1, ?_⟩
      have hne : c ≠ quote := fun h => hquote ⟨h, hspace.2.2⟩
      have hne' : c ≠ backslash := fun h => hback ⟨h, hspace.2.2⟩
      simp [classify, hne, hne', hspace.1]
    · exact ih instr false

theorem classify_space {c : UInt8} {rest : List UInt8} (h : isspace c = true) :
    classify false false (c :: rest) = (.separator, c) :: classify false false rest := by
  have hquote : c ≠ quote := by
    rintro rfl
    exact absurd h (by decide)
  have hback : c ≠ backslash := by
    rintro rfl
    exact absurd h (by decide)
  simp [classify, hquote, hback, h]

theorem classify_snd (instr esc : Bool) (pos : List UInt8) :
    (classify instr esc pos).map Prod.snd = pos := by
  induction pos generalizing instr esc with
  | nil => rfl
  | cons c rest ih =>
    rw [classify]
    split_ifs <;> simp [ih]

theorem classify_skipWhitespace (pos : List UInt8) :
    ∃ spaces, (∀ c ∈ spaces, Separates c = true) ∧
      classify false false pos = spaces ++ classify false false (skipWhitespace pos) := by
  induction pos with
  | nil => exact ⟨[], by simp, rfl⟩
  | cons c rest ih =>
    by_cases h : isspace c = true
    · obtain ⟨spaces, hsep, happ⟩ := ih
      refine ⟨(.separator, c) :: spaces, ?_, ?_⟩
      · simpa [Separates] using hsep
      · rw [classify_space h, happ, List.cons_append]
        simp [skipWhitespace, h]
    · exact ⟨[], by simp, by simp [skipWhitespace, h]⟩

theorem commandArguments_next {pos : List UInt8} (h : (nextArgument pos).1 ≠ []) :
    commandArguments pos =
      cleanupArgument false (nextArgument pos).1 :: commandArguments (nextArgument pos).2 := by
  obtain ⟨run, happ, hmap, hsep, hlit⟩ := skipArgument_classify false false (skipWhitespace pos)
  have hne : run ≠ [] := by
    rintro rfl
    exact h hmap.symm
  obtain ⟨spaces, hspaces, hclassify⟩ := classify_skipWhitespace pos
  rw [commandArguments, hclassify, words_separators hspaces, happ, nextArgument, ← hlit]
  rcases skipArgument_rest false false (skipWhitespace pos) with hnil | ⟨c, rest, hrest, -, hclass⟩
  · rw [hnil]
    simp [classify, words_word hsep hne, commandArguments]
  · rw [hrest, hclass, words_word_separator hsep hne (by rfl), commandArguments, hclass,
      words_cons_separator (by rfl), List.map_cons]

theorem endsInSeparator_next {pos : List UInt8} (h : (nextArgument pos).1 ≠ []) :
    EndsInSeparator pos ↔ EndsInSeparator (nextArgument pos).2 := by
  obtain ⟨run, happ, hmap, hsep, -⟩ := skipArgument_classify false false (skipWhitespace pos)
  have hne : run ≠ [] := by
    rintro rfl
    exact h hmap.symm
  obtain ⟨spaces, -, hclassify⟩ := classify_skipWhitespace pos
  unfold EndsInSeparator
  rw [hclassify, happ, nextArgument, List.getLast?_append, List.getLast?_append]
  cases hlast : (classify false false (skipArgument false false (skipWhitespace pos)).2).getLast? with
  | some c => simp
  | none =>
    have hrun : run.getLast? = some (run.getLast hne) := List.getLast?_eq_some_getLast hne
    simp [hrun, hsep _ (List.getLast_mem hne)]

theorem blank_of_nextArgument {pos : List UInt8} (hpos : pos ≠ []) (h : (nextArgument pos).1 = []) :
    EndsInSeparator pos ∧ commandArguments pos = [] := by
  obtain ⟨spaces, hspaces, hclassify⟩ := classify_skipWhitespace pos
  have hskip : skipWhitespace pos = [] := by
    rcases skipWhitespace_cases pos with hnil | ⟨c, rest, heq, hc⟩
    · exact hnil
    · rw [nextArgument, heq] at h
      exact absurd h (skipArgument_ne_nil c rest hc)
  rw [hskip, classify, List.append_nil] at hclassify
  have hne : spaces ≠ [] := by
    rintro rfl
    have := classify_snd false false pos
    rw [hclassify] at this
    exact hpos this.symm
  refine ⟨⟨spaces.getLast hne, ?_, hspaces _ (List.getLast_mem hne)⟩, ?_⟩
  · rw [hclassify, List.getLast?_eq_some_getLast hne]
  · have hwords : words Separates (spaces ++ []) = words Separates [] := words_separators hspaces
    rw [List.append_nil, words_nil] at hwords
    rw [commandArguments, hclassify, hwords, List.map_nil]

theorem countArguments_eq (raw : List UInt8) :
    (EndsInSeparator raw → countArguments raw = (commandArguments raw).length + 1) ∧
      (¬ EndsInSeparator raw → countArguments raw = (commandArguments raw).length) := by
  fun_induction countArguments raw with
  | case1 =>
    refine ⟨?_, fun _ => by simp [commandArguments, classify]⟩
    rintro ⟨c, hc, -⟩
    simp [classify] at hc
  | case2 raw hne ih =>
    by_cases h : (nextArgument raw).1 = []
    · obtain ⟨hends, hnil⟩ := blank_of_nextArgument hne h
      refine ⟨fun _ => ?_, fun hnot => absurd hends hnot⟩
      rw [hnil, nextArgument_nil h]
      simp [countArguments]
    · rw [endsInSeparator_next h, commandArguments_next h, List.length_cons]
      exact ⟨fun hends => by rw [ih.1 hends], fun hnot => by rw [ih.2 hnot]⟩

theorem splitArguments_cleanup {raw : List UInt8} (h : ¬ EndsInSeparator raw) :
    (splitArguments raw).map (cleanupArgument false) = commandArguments raw := by
  fun_induction splitArguments raw with
  | case1 => simp [commandArguments, classify]
  | case2 raw hne ih =>
    have harg : (nextArgument raw).1 ≠ [] := fun hnil => h (blank_of_nextArgument hne hnil).1
    rw [endsInSeparator_next harg] at h
    rw [commandArguments_next harg, List.map_cons]
    congr 1
    by_cases hend : (nextArgument raw).2 = []
    · rw [if_pos hend, hend]
      simp [commandArguments, classify]
    · rw [if_neg hend]
      rcases skipArgument_rest false false (skipWhitespace raw) with hnil | ⟨c, rest, hrest, -, hclass⟩
      · exact absurd hnil hend
      · have hrest : (nextArgument raw).2 = c :: rest := hrest
        rw [hrest] at h ih ⊢
        have hrest' : ¬ EndsInSeparator rest := by
          rintro ⟨d, hd, hsep⟩
          refine h ⟨d, ?_, hsep⟩
          rw [hclass, List.getLast?_cons, hd]
          rfl
        rw [List.tail_cons] at ih ⊢
        rw [ih hrest', commandArguments, commandArguments, hclass, words_cons_separator (by rfl)]

theorem cleanupArguments_all (argv : List (List UInt8)) :
    cleanupArguments argv.length argv = some (argv.map (cleanupArgument false)) := by
  induction argv with
  | nil => rfl
  | cons arg argv ih => simp [cleanupArguments, ih]

theorem cleanupArguments_length {n : Nat} {argv args : List (List UInt8)}
    (h : cleanupArguments n argv = some args) : args.length = n := by
  induction n generalizing argv args with
  | zero =>
    obtain rfl : [] = args := by simpa [cleanupArguments] using h
    rfl
  | succ n ih =>
    cases argv with
    | nil => simp [cleanupArguments] at h
    | cons arg argv =>
      obtain ⟨rest, hrest, rfl⟩ := Option.map_eq_some_iff.1 h
      rw [List.length_cons, ih hrest]

theorem parsesCommandLine_iff (raw : List UInt8) : ParsesCommandLine raw ↔ ¬ EndsInSeparator raw := by
  constructor
  · intro h hends
    have hlen := cleanupArguments_length h.arguments
    rw [(countArguments_eq raw).1 hends] at hlen
    omega
  · intro h
    have hsplit := splitArguments_cleanup h
    have hcount : countArguments raw = (splitArguments raw).length := by
      rw [(countArguments_eq raw).2 h, ← hsplit, List.length_map]
    refine ⟨?_, ?_, ?_⟩
    · rw [parseCliArgs, hcount, cleanupArguments_all, hsplit]
    · rw [argvEntries, hcount, List.getElem?_append_right (by simp)]
      simp
    · intro i hi
      rw [hcount] at hi
      refine ⟨(splitArguments raw)[i], ?_⟩
      rw [argvEntries, List.getElem?_append_left (by simpa using hi)]
      simp [hi]

/-! ## Quoting -/

/-- The bytes of a string with a backslash in front of each quote and each backslash. -/
def escape (s : List UInt8) : List UInt8 :=
  s.flatMap fun c => if c = quote ∨ c = backslash then [backslash, c] else [c]

/-- A string in quotes. -/
def quoteArgument (s : List UInt8) : List UInt8 := quote :: (escape s ++ [quote])

/-- The strings in quotes, with a blank between them. -/
def joinQuoted : List (List UInt8) → List UInt8
  | [] => []
  | [s] => quoteArgument s
  | s :: args => quoteArgument s ++ 32 :: joinQuoted args

theorem classify_escape (s rest : List UInt8) :
    ∃ run, classify true false (escape s ++ rest) = run ++ classify true false rest ∧
      (∀ c ∈ run, Separates c = false) ∧ literals run = s := by
  induction s with
  | nil => exact ⟨[], rfl, by simp, rfl⟩
  | cons c s ih =>
    obtain ⟨run, happ, hsep, hlit⟩ := ih
    have hescape : escape (c :: s) =
        (if c = quote ∨ c = backslash then [backslash, c] else [c]) ++ escape s := by
      simp [escape]
    have hne : backslash ≠ quote := by decide
    rw [hescape, List.append_assoc]
    split_ifs with h
    · refine ⟨(.special, backslash) :: (.literal, c) :: run, ?_, ?_, ?_⟩
      · simp [classify, hne, happ]
      · simpa [Separates] using hsep
      · simpa [literals] using hlit
    · obtain ⟨hquote, hback⟩ := not_or.1 h
      refine ⟨(.literal, c) :: run, ?_, ?_, ?_⟩
      · simp [classify, hquote, hback, happ]
      · simpa [Separates] using hsep
      · simpa [literals] using hlit

theorem classify_quoteArgument (s rest : List UInt8) :
    ∃ run, classify false false (quoteArgument s ++ rest) = run ++ classify false false rest ∧
      run ≠ [] ∧ (∀ c ∈ run, Separates c = false) ∧ literals run = s := by
  obtain ⟨run, happ, hsep, hlit⟩ := classify_escape s (quote :: rest)
  refine ⟨(.special, quote) :: (run ++ [(.special, quote)]), ?_, by simp, ?_, ?_⟩
  · have hshape : quoteArgument s ++ rest = quote :: (escape s ++ quote :: rest) := by
      simp [quoteArgument]
    rw [hshape, classify, if_neg (by simp), if_pos rfl]
    simp [happ, classify]
  · intro c hc
    simp only [List.mem_cons, List.mem_append, List.not_mem_nil, or_false] at hc
    rcases hc with rfl | hc | rfl
    · rfl
    · exact hsep c hc
    · rfl
  · simpa [literals] using hlit

theorem joinQuoted_ne_nil {args : List (List UInt8)} (h : args ≠ []) : joinQuoted args ≠ [] := by
  cases args with
  | nil => exact absurd rfl h
  | cons s args => cases args <;> simp [joinQuoted, quoteArgument]

theorem commandArguments_joinQuoted (args : List (List UInt8)) :
    commandArguments (joinQuoted args) = args ∧ ¬ EndsInSeparator (joinQuoted args) := by
  fun_induction joinQuoted args with
  | case1 =>
    refine ⟨by simp [commandArguments, classify], ?_⟩
    rintro ⟨c, hc, -⟩
    simp [classify] at hc
  | case2 s =>
    obtain ⟨run, happ, hne, hsep, hlit⟩ := classify_quoteArgument s []
    rw [List.append_nil, classify, List.append_nil] at happ
    refine ⟨?_, ?_⟩
    · rw [commandArguments, happ, words_word hsep hne, List.map_singleton, hlit]
    · rintro ⟨c, hc, hcsep⟩
      rw [happ] at hc
      have := hsep c (List.mem_of_getLast? hc)
      rw [hcsep] at this
      exact absurd this (by simp)
  | case3 s args hargs ih =>
    obtain ⟨run, happ, hne, hsep, hlit⟩ := classify_quoteArgument s (32 :: joinQuoted args)
    rw [classify_space (by decide)] at happ
    refine ⟨?_, ?_⟩
    · rw [commandArguments, happ, words_word_separator hsep hne (by rfl), List.map_cons, hlit]
      exact congrArg _ ih.1
    · rintro ⟨c, hc, hcsep⟩
      refine ih.2 ⟨c, ?_, hcsep⟩
      -- the rest of the line is not empty, so its last byte is the last one
      have hrest : classify false false (joinQuoted args) ≠ [] := by
        intro hnil
        have hsnd := classify_snd false false (joinQuoted args)
        rw [hnil] at hsnd
        exact joinQuoted_ne_nil hargs hsnd.symm
      rw [happ, List.getLast?_append, List.getLast?_cons,
        List.getLast?_eq_some_getLast hrest] at hc
      rw [List.getLast?_eq_some_getLast hrest]
      exact hc

/-- `parse_cli_args` is right on exactly the lines that do not end in a separator, and so on every line
of quoted strings, whose arguments are the strings. -/
theorem commandLine_parsed_iff (raw : List UInt8) (args : List (List UInt8)) :
    (ParsesCommandLine raw ↔ ¬ EndsInSeparator raw) ∧
      ParsesCommandLine (joinQuoted args) ∧ commandArguments (joinQuoted args) = args := by
  refine ⟨parsesCommandLine_iff raw, ?_⟩
  obtain ⟨hargs, hends⟩ := commandArguments_joinQuoted args
  exact ⟨(parsesCommandLine_iff _).2 hends, hargs⟩

/-- Behind `"a "` the first pass counts an argument that the second one does not find. -/
theorem commandLine_trailing_blank : ¬ ParsesCommandLine [97, 32] := by
  rw [parsesCommandLine_iff]
  exact fun h => h ⟨(.separator, 32), by decide, by decide⟩

end LibC
