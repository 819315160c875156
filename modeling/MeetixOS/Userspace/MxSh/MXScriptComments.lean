import MeetixOS.Userspace.MxSh.MXScript

/-! # Scripts that end inside a comment

A reader that goes over a script character by character, without looking ahead, and remembers only where
it is: between statements, in a comment, in a key or in a value. `document` gives a result if and only if
the file does not leave this reader in a comment; the loop over a comment looks for a newline and not for
the end of the file. -/

namespace MeetixOS.MxSh

open LibC MeetixOS.Lib
open MXScriptParser (behindKey document documentRounds_agrees keyByte lineBlank pair pair_missing pairs
  skip statement statements valueQuoting)

/-- Where a reader of a script is; `empty` says that the key or the value at hand has no character
yet. -/
inductive ScriptPlace
  | between
  | comment
  | key (started empty : Bool)
  | beforeValue (started : Bool)
  | value (started empty instr esc : Bool)
  | finished
  deriving DecidableEq

namespace ScriptPlace

/-- Where the reader is when something is missing: a statement with a pair ends, without one the file
does. -/
def missing (started : Bool) : ScriptPlace := if started then between else finished

/-- From a place at the start of a key. -/
def nextKey (started empty : Bool) (c : UInt8) : ScriptPlace :=
  if c = newline then missing started
  else if c = endOfInput then finished
  else if c = colon then if empty then finished else beforeValue started
  else if empty = true ∧ isspace c = true then key started true
  else key started false

/-- From a place in a value. -/
def nextValue (started empty instr esc : Bool) (c : UInt8) : ScriptPlace :=
  if c = endOfInput then finished
  else if c = quote ∧ esc = false then value started empty (!instr) false
  else if c = backslash ∧ esc = false then value started empty instr true
  else if isspace c = true ∧ instr = false ∧ esc = false then
    if empty then missing started
    else if c = newline then between
    else key true true
  else value started false instr false

/-- The place behind a character. -/
def next (place : ScriptPlace) (c : UInt8) : ScriptPlace :=
  match place with
  | between =>
    if c = hash then comment
    else if c = newline ∨ isspace c = true then between
    else nextKey false true c
  | comment => if c = newline then between else comment
  | key started empty => nextKey started empty c
  | beforeValue started =>
    if c ≠ newline ∧ isspace c = true then beforeValue started
    else nextValue started true false false c
  | value started empty instr esc => nextValue started empty instr esc c
  | finished => finished

/-- The place behind a text. -/
def behind (place : ScriptPlace) (text : List UInt8) : ScriptPlace := text.foldl next place

end ScriptPlace

/-- A file that ends inside a comment: where a statement could start, it has a `#` without a newline
behind it. -/
def EndsInComment (content : List UInt8) : Prop := ScriptPlace.between.behind content = .comment

instance (content : List UInt8) : Decidable (EndsInComment content) := inferInstanceAs (Decidable (_ = _))

namespace ScriptPlace

variable {started : Bool} {input rest : List UInt8}

@[simp] theorem behind_cons (place : ScriptPlace) (c : UInt8) (text : List UInt8) :
    place.behind (c :: text) = (place.next c).behind text := rfl

theorem behind_finished (text : List UInt8) : finished.behind text = finished := by
  induction text with
  | nil => rfl
  | cons c text ih => exact ih

theorem missing_ne (started : Bool) : missing started ≠ comment := by
  cases started <;> decide

theorem behind_endOfInput {place : ScriptPlace} (hplace : place.next endOfInput = finished) :
    place.behind (endOfInput :: rest) ≠ comment := by
  rw [behind_cons, hplace, behind_finished]
  decide

theorem missing_endOfInput (started : Bool) : (missing started).next endOfInput = finished := by
  cases started <;> decide

/-! ## The parts of a statement -/

/-- The place behind a value, at the character that ends it. -/
def behindValue (started empty : Bool) : ScriptPlace := if empty then missing started else key true true

section

variable (started empty : Bool)

theorem behindValue_ne : behindValue started empty ≠ comment := by
  cases started <;> cases empty <;> decide

theorem behindValue_endOfInput : (behindValue started empty).next endOfInput = finished := by
  cases started <;> cases empty <;> decide

theorem behindValue_space {c : UInt8} (hc : isspace c = true) :
    nextValue started empty false false c = (behindValue started empty).next c := by
  have hend : c ≠ endOfInput := by
    rintro rfl
    exact absurd hc (by decide)
  have hquote : c ≠ quote := by
    rintro rfl
    exact absurd hc (by decide)
  have hback : c ≠ backslash := by
    rintro rfl
    exact absurd hc (by decide)
  have hhash : c ≠ hash := by
    rintro rfl
    exact absurd hc (by decide)
  have hcolon : c ≠ colon := by
    rintro rfl
    exact absurd hc (by decide)
  cases empty with
  | true => cases started <;> simp [nextValue, behindValue, missing, next, hend, hquote, hback,
    hhash, hc]
  | false =>
    simp only [nextValue, behindValue, next, nextKey, hend, hquote, hback, hcolon, hc, missing]
    simp

end

theorem behind_value (started empty instr esc : Bool) (input : List UInt8) :
    (value started empty instr esc).behind input = comment ↔
      (behindValue started (empty && (valueQuoting.scan instr esc input).1.isEmpty)).behind
        (valueQuoting.scan instr esc input).2 = comment := by
  induction input generalizing empty instr esc with
  | nil =>
    refine ⟨fun h => ?_, fun h => absurd h (behindValue_ne _ _)⟩
    cases h
  | cons c rest ih =>
    have hfinish : valueQuoting.finish = endOfInput := rfl
    have hquote : valueQuoting.quote = quote := rfl
    have hescape : valueQuoting.escape = backslash := rfl
    have hstops : valueQuoting.stops c = isspace c := rfl
    rw [behind_cons, Quoting.scan, hfinish, hquote, hescape, hstops]
    show (nextValue started empty instr esc c).behind rest = comment ↔ _
    by_cases hend : c = endOfInput
    · subst hend
      refine ⟨fun h => ?_, fun h => absurd h (behind_endOfInput (behindValue_endOfInput _ _))⟩
      rw [nextValue, if_pos rfl, behind_finished] at h
      cases h
    rw [if_neg hend, nextValue, if_neg hend]
    by_cases htoggle : c = quote ∧ esc = false
    · obtain ⟨rfl, rfl⟩ := htoggle
      exact ih empty (!instr) false
    rw [if_neg htoggle]
    by_cases hback : c = backslash ∧ esc = false
    · obtain ⟨rfl, rfl⟩ := hback
      exact ih empty instr true
    have hback' : ¬(esc = false ∧ c = backslash) := fun h => hback h.symm
    have htoggle' : ¬(esc = false ∧ c = quote) := fun h => htoggle h.symm
    rw [if_neg hback, if_neg hback', if_neg htoggle']
    by_cases hspace : isspace c = true ∧ instr = false ∧ esc = false
    · obtain ⟨hc, rfl, rfl⟩ := hspace
      have hstep := behindValue_space started empty hc
      rw [nextValue, if_neg hend, if_neg htoggle, if_neg hback] at hstep
      rw [hstep, if_pos ⟨rfl, rfl, hc⟩, List.isEmpty_nil, Bool.and_true, behind_cons]
    · have hspace' : ¬(esc = false ∧ instr = false ∧ isspace c = true) :=
        fun h => hspace ⟨h.2.2, h.2.1, h.1⟩
      rw [if_neg hspace, if_neg hspace', List.isEmpty_cons, Bool.and_false]
      exact ih false instr false

theorem behind_beforeValue (started : Bool) (input : List UInt8) :
    (beforeValue started).behind input = comment ↔
      (behindValue started (MXScriptParser.value input).1.isEmpty).behind (MXScriptParser.value input).2 =
        comment := by
  induction input with
  | nil =>
    refine ⟨fun h => ?_, fun h => (behindValue_ne started true h).elim⟩
    cases h
  | cons c rest ih =>
    by_cases hc : c ≠ newline ∧ isspace c = true
    · have hblank : lineBlank c = true := by simp [lineBlank, hc]
      have hvalue : MXScriptParser.value (c :: rest) = MXScriptParser.value rest := by
        simp [MXScriptParser.value, hblank]
      rw [hvalue, ← ih, behind_cons]
      simp [next, if_pos hc]
    · have hblank : lineBlank c = false := by simpa [lineBlank] using hc
      have hvalue : MXScriptParser.value (c :: rest) =
          valueQuoting.scan false false (c :: rest) := by
        simp [MXScriptParser.value, hblank]
      have hscan := behind_value started true false false (c :: rest)
      rw [Bool.true_and] at hscan
      rw [hvalue, ← hscan, behind_cons, behind_cons]
      simp [next, if_neg hc]

theorem missing_newline (started : Bool) : (missing started).next newline = missing started := by
  cases started <;> decide

theorem value_missing {c : UInt8} (hc : c = newline ∨ c = endOfInput) (rest : List UInt8) :
    MXScriptParser.value (behindKey (c :: rest)) = ([], c :: rest) := by
  have hended : valueQuoting.Ended (c :: rest) := by
    refine Or.inr ⟨c, rest, rfl, ?_⟩
    rcases hc with rfl | rfl
    · exact Or.inr (by decide)
    · exact Or.inl rfl
  have hblank : lineBlank c = false := by
    rcases hc with rfl | rfl <;> decide
  have hkey : behindKey (c :: rest) = c :: rest := by
    rcases hc with rfl | rfl <;> rfl
  rw [hkey, MXScriptParser.value, List.dropWhile_cons_of_neg (by simp [hblank]),
    Quoting.scan_ended hended]

section

variable (started : Bool)

theorem behind_key_rest (input : List UInt8) :
    (key started false).behind input = comment ↔
      (behindValue started (MXScriptParser.value (behindKey
        (input.dropWhile keyByte))).1.isEmpty).behind
        (MXScriptParser.value (behindKey (input.dropWhile keyByte))).2 =
        comment := by
  induction input with
  | nil =>
    refine ⟨fun h => ?_, fun h => (behindValue_ne started true h).elim⟩
    cases h
  | cons c rest ih =>
    show (nextKey started false c).behind rest = comment ↔ _
    unfold nextKey
    by_cases hnewline : c = newline
    · subst hnewline
      rw [if_pos rfl, List.dropWhile_cons_of_neg (by decide), value_missing (Or.inl rfl)]
      show _ ↔ ((missing started).next newline).behind rest = comment
      rw [missing_newline]
    by_cases hend : c = endOfInput
    · subst hend
      rw [if_neg hnewline, if_pos rfl, behind_finished, List.dropWhile_cons_of_neg (by decide),
        value_missing (Or.inr rfl)]
      refine ⟨fun h => ?_, fun h => absurd h (behind_endOfInput (behindValue_endOfInput _ _))⟩
      cases h
    by_cases hcolon : c = colon
    · subst hcolon
      exact behind_beforeValue started rest
    · have hbyte : keyByte c = true := by
        simp [keyByte, hnewline, hend, hcolon]
      rw [if_neg hnewline, if_neg hend, if_neg hcolon, List.dropWhile_cons_of_pos hbyte]
      exact ih

/-- Behind a pair another one may follow; where there is none, the statement is at its end. -/
def behindPair (started found : Bool) : ScriptPlace := if found then key true true else missing started

theorem behindPair_value {input : List UInt8} (h : (MXScriptParser.key input).1 ≠ []) :
    behindPair started (pair input).1.isSome =
        behindValue started
          (MXScriptParser.value (behindKey (MXScriptParser.key input).2)).1.isEmpty ∧
      (pair input).2 =
        (MXScriptParser.value (behindKey (MXScriptParser.key input).2)).2 := by
  rw [pair, if_neg h]
  split
  next hempty => exact ⟨by rw [hempty]; rfl, rfl⟩
  next hvalue => exact ⟨by rw [List.isEmpty_eq_false_iff.2 hvalue]; rfl, rfl⟩

theorem behind_key (input : List UInt8) :
    (key started true).behind input = comment ↔
      (behindPair started (pair input).1.isSome).behind (pair input).2 =
        comment := by
  induction input with
  | nil =>
    refine ⟨fun h => ?_, fun h => (missing_ne started h).elim⟩
    cases h
  | cons c rest ih =>
    show (nextKey started true c).behind rest = comment ↔ _
    unfold nextKey
    by_cases hnewline : c = newline
    · subst hnewline
      rw [if_pos rfl, pair_missing (Or.inl rfl)]
      show _ ↔ ((missing started).next newline).behind rest = comment
      rw [missing_newline]
    by_cases hend : c = endOfInput
    · subst hend
      rw [if_neg hnewline, if_pos rfl, behind_finished, pair_missing (Or.inr (Or.inl rfl))]
      refine ⟨fun h => ?_, fun h => absurd h (behind_endOfInput (missing_endOfInput _))⟩
      cases h
    by_cases hcolon : c = colon
    · subst hcolon
      rw [if_neg hnewline, if_neg hend, if_pos rfl, if_pos rfl, behind_finished,
        pair_missing (Or.inr (Or.inr rfl))]
      have hfinished : (missing started).next colon = finished := by
        cases started <;> decide
      show _ ↔ ((missing started).next colon).behind rest = comment
      rw [hfinished, behind_finished]
    rw [if_neg hnewline, if_neg hend, if_neg hcolon]
    by_cases hspace : isspace c = true
    · have hblank : lineBlank c = true := by
        simp [lineBlank, hspace, hnewline]
      have hkey : MXScriptParser.key (c :: rest) = MXScriptParser.key rest := by
        simp [MXScriptParser.key, List.dropWhile_cons_of_pos hblank]
      have hpair : pair (c :: rest) = pair rest := by
        rw [pair, hkey, ← pair]
      rw [if_pos ⟨rfl, hspace⟩, hpair]
      exact ih
    · have hblank : ¬lineBlank c = true := by
        simp [lineBlank, hspace]
      have hbyte : keyByte c = true := by
        simp [keyByte, hnewline, hend, hcolon]
      have hkey : MXScriptParser.key (c :: rest) =
          (c :: rest.takeWhile keyByte, rest.dropWhile keyByte) := by
        simp [MXScriptParser.key, List.dropWhile_cons_of_neg hblank,
          List.takeWhile_cons_of_pos hbyte, List.dropWhile_cons_of_pos hbyte]
      have hne : (MXScriptParser.key (c :: rest)).1 ≠ [] := by
        rw [hkey]
        exact List.cons_ne_nil _ _
      obtain ⟨hplace, hrest⟩ := behindPair_value started hne
      rw [if_neg fun h => hspace h.2, hplace, hrest, hkey]
      exact behind_key_rest started rest

theorem behind_pairs (input : List UInt8) :
    (key started true).behind input = comment ↔
      (missing (started || !(pairs input).1.isEmpty)).behind
        (pairs input).2 = comment := by
  induction input using MXScriptParser.pairs.induct generalizing started with
  | case1 input p rest h ih =>
    rw [behind_key, h, MXScriptParser.pairs_some h]
    have hmore := ih true
    rw [List.isEmpty_cons, Bool.not_false, Bool.or_true]
    exact hmore
  | case2 input rest h =>
    rw [behind_key, h, MXScriptParser.pairs_none h, List.isEmpty_nil, Bool.not_true, Bool.or_false]
    exact Iff.rfl

end

/-- The place in front of a statement, inside of a comment where the flag is set. -/
def inFront (inComment : Bool) : ScriptPlace := if inComment then comment else between

theorem behind_skip (inComment : Bool) (input : List UInt8) :
    (inFront inComment).behind input = comment ↔
      ∀ rest, skip inComment input = some rest → (key false true).behind rest = comment := by
  induction input generalizing inComment with
  | nil =>
    cases inComment with
    | true =>
      refine ⟨fun _ rest h => ?_, fun _ => rfl⟩
      cases h
    | false =>
      refine ⟨fun h => ?_, fun h => ?_⟩
      · cases h
      · cases h [] rfl
  | cons c rest ih =>
    cases inComment with
    | true =>
      show (if c = newline then between else comment).behind rest = comment ↔ _
      rw [skip]
      split
      · exact ih false
      · exact ih true
    | false =>
      show (if c = hash then comment else if c = newline ∨ isspace c = true then between
        else nextKey false true c).behind rest = comment ↔ _
      rw [skip]
      by_cases hhash : c = hash
      · rw [if_pos hhash, if_pos (Or.inr (Or.inr hhash)), if_pos hhash]
        exact ih true
      rw [if_neg hhash]
      by_cases hspace : c = newline ∨ isspace c = true
      · have hskip : c = newline ∨ isspace c = true ∨ c = hash := hspace.imp_right Or.inl
        rw [if_pos hspace, if_pos hskip, if_neg hhash]
        exact ih false
      · have hskip : ¬(c = newline ∨ isspace c = true ∨ c = hash) := by
          rintro (h | h | h)
          · exact hspace (Or.inl h)
          · exact hspace (Or.inr h)
          · exact hhash h
        rw [if_neg hspace, if_neg hskip]
        constructor
        · rintro h behind heq
          cases heq
          exact h
        · exact fun h => h _ rfl

end ScriptPlace

open ScriptPlace

theorem endsInComment_iff {content rest : List UInt8} (h : skip false content = some rest) :
    EndsInComment content ↔
      (missing !(pairs rest).1.isEmpty).behind (pairs rest).2 = .comment := by
  have hskip := behind_skip false content
  have hpairs := behind_pairs false rest
  rw [Bool.false_or] at hpairs
  rw [← hpairs]
  constructor
  · exact fun hend => hskip.1 hend rest h
  · intro hend
    refine hskip.2 fun behind heq => ?_
    rw [h] at heq
    cases heq
    exact hend

theorem statements_eq_none_iff (content : List UInt8) :
    statements content = none ↔ EndsInComment content := by
  induction content using MXScriptParser.statements.induct with
  | case1 content hskip =>
    have hend : EndsInComment content := by
      refine (behind_skip false content).2 fun rest h => ?_
      rw [hskip] at h
      cases h
    have hstatement : statement content = none := by
      rw [statement, hskip, Option.map_none]
    rw [MXScriptParser.statement_none hstatement]
    exact ⟨fun _ => hend, fun _ => rfl⟩
  | case2 content rest hskip hpairs =>
    have hstatement : statement content = some (none, (pairs rest).2) := by
      rw [statement, hskip, Option.map_some, if_pos hpairs]
    rw [MXScriptParser.statement_null hstatement, endsInComment_iff hskip, hpairs]
    show _ ↔ finished.behind _ = comment
    rw [behind_finished]
    simp
  | case3 content rest hskip hpairs ih =>
    have hstatement : statement content =
        some (some ⟨(pairs rest).1⟩, (pairs rest).2) := by
      rw [statement, hskip, Option.map_some, if_neg hpairs]
    rw [(MXScriptParser.statement_some hstatement).2, Option.map_eq_none_iff, ih, endsInComment_iff hskip,
      List.isEmpty_eq_false_iff.2 hpairs]
    exact Iff.rfl

/-- The loops of the parser end, if and only if the file does not end inside a comment. -/
theorem document_ends_iff (content : List UInt8) :
    (∃ n doc, MXScriptParser.documentRounds n content = some doc) ↔ ¬EndsInComment content := by
  rw [← statements_eq_none_iff]
  constructor
  · rintro ⟨n, doc, hdoc⟩ hnone
    have hdocument : document content = none := by
      rw [document, hnone, Option.map_none]
    rw [(documentRounds_agrees n content).eq_none hdocument] at hdoc
    cases hdoc
  · intro hsome
    obtain ⟨statements, hstatements⟩ := Option.ne_none_iff_exists'.1 hsome
    have hdocument : document content = some ⟨statements⟩ := by
      rw [document, hstatements, Option.map_some]
    exact ⟨content.length + 1, _,
      (documentRounds_agrees _ content).eq_some hdocument (Nat.lt_succ_self _)⟩

/-- The text `k:v a:"" #`: the pair without a value ends the statement, and the comment has no end. -/
example : EndsInComment [107, 58, 118, 32, 97, 58, 34, 34, 32, 35] := by decide

/-- A file that is the one character `#`: no number of rounds is enough. -/
theorem document_hangs : ¬∃ n doc, MXScriptParser.documentRounds n [35] = some doc := by
  rintro ⟨n, doc, hdoc⟩
  have hstatements : statements [35] = none := by
    refine MXScriptParser.statement_none ?_
    rfl
  have hdocument : document [35] = none := by
    rw [document, hstatements, Option.map_none]
  rw [(documentRounds_agrees n [35]).eq_none hdocument] at hdoc
  cases hdoc

end MeetixOS.MxSh
