import MeetixOS.LibC.OptionsParser
import MeetixOS.Lib.CallsUntil
import Mathlib.Data.List.Perm.Basic

/-! # Command lines whose options are read to the end

`getopt_long` is called until it returns `-1`. An unknown option or a missing value leaves the parser where
it is, so that the calls never end, and the end of `argv` is read through its null pointer, so that only
the word of two dashes, an operand that ends the options, or the code `-1` of an option ends them. -/

open List (length_append length_cons length_drop)

namespace LibC.OptionsParser

open MeetixOS.Lib.Getopt (colon dash hasArgOf)
open MeetixOS.Lib

/-! ## The calls for one word -/

/-- The parser comes to a word of options, perhaps inside of it. -/
structure AtWord (t : Table) (s : State) (front skipped : List Word) (word : Word) (rest : List Word)
    (multi : Nat) : Prop where
  stands : Stands s (front ++ (skipped ++ word :: rest)) front.length multi
  behind_program : 0 < front.length
  skipped_over : ∀ w ∈ skipped, SteppedOver t.stopOnFirstNonOption w
  option : IsOption word

section

variable {t : Table} {s f : State} {front skipped rest : List Word} {word : Word} {multi : Nat}
  {c : UInt8} {cs : Word} {withNext : Bool} {code : Int}

theorem more_iff (front skipped rest : List Word) (word : Word) :
    decide (front.length + skipped.length + 1 < (front ++ (skipped ++ word :: rest)).length) =
      decide (rest ≠ []) := by
  rw [decide_eq_decide, ← List.length_pos_iff]
  simp only [length_append, length_cons]
  omega

theorem AtWord.again {s' : State} {multi' : Nat} (h : AtWord t s front skipped word rest multi)
    (hs' : Stands s' (front ++ (skipped ++ word :: rest)) front.length multi') :
    AtWord t s' front skipped word rest multi' :=
  ⟨hs', h.behind_program, h.skipped_over, h.option⟩

/-- What a call does that handles the last option of a word: nothing after an error, and else it
consumes what the outcome says. -/
def Concludes (t : Table) (s : State) (front skipped : List Word) (word : Word) (rest : List Word)
    (multi : Nat) (outcome : Outcome) : Prop :=
  ∃ code s', getoptLong t s = some (code, s') ∧
    ((code = questionMark ∧ outcome = .bad ∧ AtWord t s' front skipped word rest multi) ∨
      ∃ withNext, outcome = .taken withNext code ∧
        Stands s' (moved t.stopOnFirstNonOption front skipped (word :: rest) (consumed withNext))
          (front.length + consumed withNext) multi)

theorem AtWord.long (h : AtWord t s front skipped word rest multi) (hlong : word.take 2 = [dash, dash]) :
    Concludes t s front skipped word rest multi (longOutcome t (decide (rest ≠ [])) (word.drop 2)) := by
  obtain ⟨hstands, harg⟩ := h.stands.construct h.behind_program
  obtain ⟨code, k, s', hhandle, hs', hcases⟩ := handleLongOption_spec
    (front.length + skipped.length) word hstands harg
  rw [more_iff] at hcases
  have hcall := getoptLong_option h.stands h.behind_program h.skipped_over h.option
  rw [if_pos hlong, hhandle, Option.map_some] at hcall
  rcases hcases with ⟨rfl, hbad⟩ | ⟨withNext, rfl, hcode, htaken⟩
  · rw [finish_question] at hcall
    exact ⟨_, s', hcall, .inl ⟨rfl, hbad, h.again hs'⟩⟩
  · obtain ⟨s'', hfinish, hs''⟩ := finish_spec (consumed withNext) hs' hcode
    rw [hfinish] at hcall
    exact ⟨_, s'', hcall, .inr ⟨withNext, htaken, hs''⟩⟩

section

variable (h : AtWord t s front skipped word rest multi) (hshort : word.take 2 ≠ [dash, dash])
  (hdrop : word.drop (skipDash multi) = c :: cs) (hc : c ∈ t.shortOptions)
include h hshort hdrop hc

theorem AtWord.last (hend : t.takes c = .no → cs = []) :
    Concludes t s front skipped word rest 0 (charsOutcome t (decide (rest ≠ [])) (c :: cs)) := by
  obtain ⟨hstands, -⟩ := h.stands.construct h.behind_program
  obtain ⟨code, k, s', hhandle, hs', hcases⟩ := handleShortOption_last
    (front.length + skipped.length) hstands hdrop hc hend
  rw [more_iff] at hcases
  have hcall := getoptLong_option h.stands h.behind_program h.skipped_over h.option
  rw [if_neg hshort, hhandle, Option.map_some] at hcall
  rcases hcases with ⟨rfl, hbad⟩ | ⟨withNext, rfl, hcode, htaken⟩
  · rw [finish_question] at hcall
    exact ⟨_, s', hcall, .inl ⟨rfl, hbad, h.again hs'⟩⟩
  · obtain ⟨s'', hfinish, hs''⟩ := finish_spec (consumed withNext) hs' hcode
    rw [hfinish] at hcall
    exact ⟨_, s'', hcall, .inr ⟨withNext, htaken, hs''⟩⟩

theorem AtWord.inner (hno : t.takes c = .no) (hcs : cs ≠ []) :
    ∃ s', getoptLong t s = some (charInt c, s') ∧
      AtWord t s' front skipped word rest (skipDash multi + 1) := by
  obtain ⟨hstands, -⟩ := h.stands.construct h.behind_program
  obtain ⟨s', hhandle, hs'⟩ := handleShortOption_inner
    (front.length + skipped.length) hstands hdrop hc hno hcs
  have hcall := getoptLong_option h.stands h.behind_program h.skipped_over h.option
  rw [if_neg hshort, hhandle, Option.map_some] at hcall
  by_cases hcode : charInt c = questionMark
  · rw [hcode, finish_question] at hcall
    rw [hcode]
    exact ⟨s', hcall, h.again hs'⟩
  · obtain ⟨s'', hfinish, hs''⟩ := finish_spec 0 hs' hcode
    rw [moved_zero] at hs''
    rw [hfinish] at hcall
    exact ⟨s'', hcall, h.again hs''⟩

end

theorem skipDash_succ (multi : Nat) : skipDash (skipDash multi + 1) = skipDash multi + 1 := by
  simp [skipDash]

theorem charsOutcome_empty (hempty : t.shortOptions = []) (more : Bool) (cs : Word) :
    charsOutcome t more cs = .bad := by
  cases cs with
  | nil => rfl
  | cons c cs => simp [charsOutcome, hempty]

theorem charsOutcome_inner (hc : c ∈ t.shortOptions) (hno : t.takes c = .no) (hcs : cs ≠ [])
    (more : Bool) :
    charsOutcome t more (c :: cs) = if charInt c = -1 then .cut else charsOutcome t more cs := by
  rw [charsOutcome]
  simp [hc, hno, hcs]

theorem AtWord.not_ends (h : AtWord t s front skipped word rest 0)
    (hbad : wordOutcome t (decide (rest ≠ [])) word = .bad) : ¬EndsAt (getoptLong t) (-1) s f := by
  unfold wordOutcome at hbad
  by_cases hlong : word.take 2 = [dash, dash]
  · rw [if_pos hlong] at hbad
    refine not_endsAt_of_trap (fun s => AtWord t s front skipped word rest 0) ?_ h
    intro s h r s' hcall
    obtain ⟨code, s'', hcall', hcases⟩ := h.long hlong
    rw [hcall', Option.some.injEq, Prod.mk.injEq] at hcall
    obtain ⟨rfl, rfl⟩ := hcall
    rw [hbad] at hcases
    rcases hcases with ⟨rfl, -, hs''⟩ | ⟨withNext, htaken, -⟩
    · exact ⟨by decide, hs''⟩
    · cases htaken
  · rw [if_neg hlong] at hbad
    -- The parser stays in the word, and what is left of it is as bad as the whole.
    refine not_endsAt_of_trap (fun s => ∃ multi, AtWord t s front skipped word rest multi ∧
      charsOutcome t (decide (rest ≠ [])) (word.drop (skipDash multi)) = .bad) ?_ ⟨0, h, hbad⟩
    rintro s ⟨multi, h, hleft⟩ r s' hcall
    obtain ⟨hstands, -⟩ := h.stands.construct h.behind_program
    have hoption := getoptLong_option h.stands h.behind_program h.skipped_over h.option
    rw [if_neg hlong, hcall] at hoption
    cases hdrop : word.drop (skipDash multi) with
    | nil =>
      rw [handleShortOption_end hstands hdrop] at hoption
      cases hoption
    | cons c cs =>
      have hrest := (getElem?_skipDash hdrop).2.2
      by_cases hc : c ∈ t.shortOptions
      · by_cases hend : t.takes c = .no → cs = []
        · obtain ⟨code, s'', hcall', hcases⟩ := h.last hlong hdrop hc hend
          rw [hcall', Option.some.injEq, Prod.mk.injEq] at hcall
          obtain ⟨rfl, rfl⟩ := hcall
          rcases hcases with ⟨rfl, -, hs''⟩ | ⟨withNext, htaken, -⟩
          · exact ⟨by decide, 0, hs'', hbad⟩
          · rw [hdrop, htaken] at hleft
            cases hleft
        · rw [Classical.not_imp] at hend
          obtain ⟨s'', hcall', hs''⟩ := h.inner hlong hdrop hc hend.1 hend.2
          rw [hcall', Option.some.injEq, Prod.mk.injEq] at hcall
          obtain ⟨rfl, rfl⟩ := hcall
          rw [hdrop, charsOutcome_inner hc hend.1 hend.2] at hleft
          split_ifs at hleft with hcode
          exact ⟨hcode, _, hs'', by rwa [skipDash_succ, hrest]⟩
      · rcases handleShortOption_unknown hstands hdrop hc with hnone | ⟨hempty, s'', hhandle, hs''⟩
        · rw [hnone] at hoption
          cases hoption
        · rw [hhandle, Option.map_some, finish_question, Option.some.injEq, Prod.mk.injEq] at hoption
          obtain ⟨rfl, rfl⟩ := hoption
          exact ⟨by decide, _, h.again hs'', charsOutcome_empty hempty _ _⟩

/-- The options of a word before a cut are read one by one, and the calls end at the cut. -/
theorem AtWord.ends_of_cut_left {left : Word} (h : AtWord t s front skipped word rest multi)
    (hshort : word.take 2 ≠ [dash, dash]) (hleft : word.drop (skipDash multi) = left)
    (hcut : charsOutcome t (decide (rest ≠ [])) left = .cut) :
    ∃ s', s'.argv = front ++ (skipped ++ word :: rest) ∧ s'.optind = front.length ∧
      ∀ f, EndsAt (getoptLong t) (-1) s f ↔ f = s' := by
  induction left generalizing s multi with
  | nil => simp [charsOutcome] at hcut
  | cons c cs ih =>
    by_cases hc : c ∈ t.shortOptions
    · by_cases hend : t.takes c = .no → cs = []
      · have hcall := h.last hshort hleft hc hend
        rw [hcut] at hcall
        obtain ⟨code, s', -, ⟨-, hbad, -⟩ | ⟨withNext, htaken, -⟩⟩ := hcall
        · cases hbad
        · cases htaken
      · rw [Classical.not_imp] at hend
        obtain ⟨s', hcall, hs'⟩ := h.inner hshort hleft hc hend.1 hend.2
        rw [charsOutcome_inner hc hend.1 hend.2] at hcut
        split_ifs at hcut with hcode
        · rw [hcode] at hcall
          exact ⟨s', hs'.stands.argv_eq, hs'.stands.optind_eq, fun f => endsAt_of_last hcall⟩
        · have hrest : word.drop (skipDash (skipDash multi + 1)) = cs := by
            rw [skipDash_succ, (getElem?_skipDash hleft).2.2]
          obtain ⟨s'', hargv, hoptind, hends⟩ := ih hs' hrest hcut
          exact ⟨s'', hargv, hoptind, fun f => (endsAt_of_more hcall hcode).trans (hends f)⟩
    · simp [charsOutcome, hc] at hcut

theorem AtWord.ends_of_cut (h : AtWord t s front skipped word rest 0)
    (hcut : wordOutcome t (decide (rest ≠ [])) word = .cut) :
    ∃ s', s'.argv = front ++ (skipped ++ word :: rest) ∧ s'.optind = front.length ∧
      ∀ f, EndsAt (getoptLong t) (-1) s f ↔ f = s' := by
  unfold wordOutcome at hcut
  by_cases hlong : word.take 2 = [dash, dash]
  · rw [if_pos hlong] at hcut
    have hcall := h.long hlong
    rw [hcut] at hcall
    obtain ⟨code, s', -, ⟨-, hbad, -⟩ | ⟨withNext, htaken, -⟩⟩ := hcall
    · cases hbad
    · cases htaken
  · rw [if_neg hlong] at hcut
    exact h.ends_of_cut_left hlong rfl hcut

/-- A consumed word is left behind: the calls end there, or go on with the words behind it. -/
def LeavesBehind (t : Table) (s : State) (front skipped : List Word) (word : Word) (rest : List Word)
    (withNext : Bool) (code : Int) : Prop :=
  ∃ s', Stands s' (moved t.stopOnFirstNonOption front skipped (word :: rest) (consumed withNext))
      (front.length + consumed withNext) 0 ∧
    ∀ f, EndsAt (getoptLong t) (-1) s f ↔ if code = -1 then f = s' else EndsAt (getoptLong t) (-1) s' f

theorem Concludes.leavesBehind (h : Concludes t s front skipped word rest 0 (.taken withNext code)) :
    LeavesBehind t s front skipped word rest withNext code := by
  obtain ⟨code', s', hcall, ⟨-, hbad, -⟩ | ⟨withNext', heq, hs'⟩⟩ := h
  · cases hbad
  · obtain ⟨rfl, rfl⟩ := Outcome.taken.inj heq
    refine ⟨s', hs', ?_⟩
    intro f
    split_ifs with hcode
    · rw [hcode] at hcall
      exact endsAt_of_last hcall
    · exact endsAt_of_more hcall hcode

theorem AtWord.leavesBehind_left {left : Word} (h : AtWord t s front skipped word rest multi)
    (hshort : word.take 2 ≠ [dash, dash]) (hleft : word.drop (skipDash multi) = left)
    (htaken : charsOutcome t (decide (rest ≠ [])) left = .taken withNext code) :
    LeavesBehind t s front skipped word rest withNext code := by
  induction left generalizing s multi with
  | nil => simp [charsOutcome] at htaken
  | cons c cs ih =>
    by_cases hc : c ∈ t.shortOptions
    · by_cases hend : t.takes c = .no → cs = []
      · have hcall := h.last hshort hleft hc hend
        rw [htaken] at hcall
        exact hcall.leavesBehind
      · rw [Classical.not_imp] at hend
        obtain ⟨s', hcall, hs'⟩ := h.inner hshort hleft hc hend.1 hend.2
        rw [charsOutcome_inner hc hend.1 hend.2] at htaken
        split_ifs at htaken with hcode
        have hrest : word.drop (skipDash (skipDash multi + 1)) = cs := by
          rw [skipDash_succ, (getElem?_skipDash hleft).2.2]
        obtain ⟨s'', hs'', hends⟩ := ih hs' hrest htaken
        exact ⟨s'', hs'', fun f => (endsAt_of_more hcall hcode).trans (hends f)⟩
    · simp [charsOutcome, hc] at htaken

theorem AtWord.leavesBehind (h : AtWord t s front skipped word rest 0)
    (htaken : wordOutcome t (decide (rest ≠ [])) word = .taken withNext code) :
    LeavesBehind t s front skipped word rest withNext code := by
  unfold wordOutcome at htaken
  by_cases hlong : word.take 2 = [dash, dash]
  · rw [if_pos hlong] at htaken
    have hcall := h.long hlong
    rw [htaken] at hcall
    exact hcall.leavesBehind
  · rw [if_neg hlong] at htaken
    exact h.leavesBehind_left hlong rfl htaken

end

/-! ## How the words are to be arranged -/

instance : DecidablePred IsOption := fun word =>
  inferInstanceAs (Decidable (word.head? = some dash ∧ word ≠ [dash] ∧ word ≠ [dash, dash]))

/-- Whether the first short option of a word that takes a value ends it, and the value is the next word. -/
def Table.charsTakeNext (t : Table) : Word → Bool
  | [] => false
  | c :: cs =>
    if c ∉ t.shortOptions then t.charsTakeNext cs
    else match t.takes c with
      | .no => t.charsTakeNext cs
      | .optional => false
      | .required => cs = []

/-- Whether an option has the next word for its value. -/
def Table.takesNext (t : Table) (word : Word) : Bool :=
  if word.take 2 = [dash, dash] then
    match t.named (word.drop 2) with
    | none => false
    | some option => option.hasArg = requiredArgument ∧ option.name = word.drop 2
  else t.charsTakeNext (word.drop 1)

/-- The options with their values and the word that ends them, and the other words. -/
def arrange (t : Table) : List Word → List Word × List Word
  | [] => ([], [])
  | word :: rest =>
    if word = [dash, dash] then ([word], rest)
    else if IsOption word then
      let arranged := arrange t (rest.drop (t.takesNext word).toNat)
      (word :: (rest.take (t.takesNext word).toNat ++ arranged.1), arranged.2)
    else ((arrange t rest).1, word :: (arrange t rest).2)
termination_by words => words.length
decreasing_by
  all_goals
    simp only [length_drop, length_cons]
    omega

/-- Calls without a `+` arrange the words: up to the word of two dashes every option is read, and none
has the last answer for its code unless only operands follow. -/
def Arranges (t : Table) : List Word → Prop
  | [] => False
  | word :: rest =>
    if word = [dash, dash] then True
    else if IsOption word then
      match wordOutcome t (decide (rest ≠ [])) word with
      | .bad => False
      | .cut => False
      | .taken withNext code =>
        if code = -1 then (arrange t (rest.drop withNext.toNat)).1 = []
        else Arranges t (rest.drop withNext.toNat)
    else Arranges t rest
termination_by words => words.length
decreasing_by
  all_goals
    simp only [length_drop, length_cons]
    omega

/-- Calls with a `+` end: the options before the first operand, or before the word of two dashes, are
read, or one has the last answer for its code. A single dash stepped over is not consumed. -/
def Stops (t : Table) (words : List Word) : Prop :=
  match _h : words.dropWhile (· = [dash]) with
  | [] => False
  | word :: rest =>
    if IsOption word then
      match wordOutcome t (decide (rest ≠ [])) word with
      | .bad => False
      | .cut => True
      | .taken withNext code => code = -1 ∨ Stops t (words.drop (consumed withNext))
    else True
termination_by words.length
decreasing_by
  have hlength := (List.dropWhile_sublist (· = [dash]) (l := words)).length_le
  rw [_h, length_cons] at hlength
  rw [length_drop]
  unfold consumed
  omega

section

variable {t : Table} {more withNext : Bool} {code : Int} {word : Word}

theorem arrange_perm (t : Table) (words : List Word) :
    ((arrange t words).1 ++ (arrange t words).2).Perm words := by
  induction words using arrange.induct t with
  | case1 | case2 rest => simp [arrange]
  | case3 word rest hend hoption ih =>
    rw [arrange, if_neg hend, if_pos hoption]
    have hrest := (ih.append_left (rest.take (t.takesNext word).toNat)).cons word
    rwa [List.take_append_drop, ← List.append_assoc, ← List.cons_append] at hrest
  | case4 word rest hend hoption ih =>
    rw [arrange, if_neg hend, if_neg hoption]
    exact List.perm_middle.trans (ih.cons word)

theorem arrange_sublist (t : Table) (words : List Word) :
    (arrange t words).1.Sublist words ∧ (arrange t words).2.Sublist words := by
  induction words using arrange.induct t with
  | case1 | case2 rest => simp [arrange]
  | case3 word rest hend hoption ih =>
    rw [arrange, if_neg hend, if_pos hoption]
    have hrest := ih.1.append_left (rest.take (t.takesNext word).toNat)
    rw [List.take_append_drop] at hrest
    exact ⟨hrest.cons_cons word, (ih.2.trans (List.drop_sublist _ _)).cons word⟩
  | case4 word rest hend hoption ih =>
    rw [arrange, if_neg hend, if_neg hoption]
    exact ⟨ih.1.cons word, ih.2.cons_cons word⟩

theorem arrange_eq_self {words : List Word} (h : (arrange t words).1 = []) :
    (arrange t words).2 = words := by
  have hlength := (arrange_perm t words).length_eq
  rw [h, List.nil_append] at hlength
  exact (arrange_sublist t words).2.eq_of_length hlength

theorem takesNext_of_taken (h : wordOutcome t more word = .taken withNext code) :
    t.takesNext word = withNext ∧ (withNext = true → more = true) := by
  have hcode {withNext' : Bool} {code' : Int} (h : Outcome.ofCode withNext' code' = .taken withNext code) :
      withNext' = withNext := (ofCode_eq_taken.1 h).1
  unfold wordOutcome at h
  unfold Table.takesNext
  by_cases hlong : word.take 2 = [dash, dash]
  · rw [if_pos hlong] at h ⊢
    unfold longOutcome at h
    cases hnamed : t.named (word.drop 2) with
    | none => simp [hnamed] at h
    | some option =>
      rw [hnamed] at h
      dsimp only at h ⊢
      split_ifs at h with hno hname hrequired hname hmore hoptional
      · simp [← hcode h, hno, noArgument, requiredArgument]
      · simp [← hcode h, hname]
      · simp [← hcode h, hrequired, not_not.1 hname, hmore]
      · simp [← hcode h, hrequired]
  · rw [if_neg hlong] at h ⊢
    generalize word.drop 1 = left at h
    induction left with
    | nil => simp [charsOutcome] at h
    | cons c cs ih =>
      unfold charsOutcome at h
      unfold Table.charsTakeNext
      by_cases hc : c ∈ t.shortOptions
      · simp only [hc, not_true_eq_false, if_false] at h ⊢
        cases htakes : t.takes c with
        | no =>
          simp only [htakes] at h ⊢
          split_ifs at h with hcs hcut
          · simp [← hcode h, hcs, Table.charsTakeNext]
          · exact ih h
        | optional =>
          simp only [htakes] at h ⊢
          simp [← hcode h]
        | required =>
          simp only [htakes] at h ⊢
          split_ifs at h with hcs hmore
          · simp [← hcode h, hcs]
          · simp [← hcode h, not_not.1 hcs, hmore]
      · simp [hc] at h

end

/-! ## Runs -/

section

variable {t : Table} {s : State}

theorem runs_arrange (hstop : t.stopOnFirstNonOption = false) (words : List Word) {s : State}
    {front skipped : List Word} (h : Stands s (front ++ (skipped ++ words)) front.length 0)
    (hpos : 0 < front.length) (hskip : ∀ w ∈ skipped, SteppedOver false w) :
    (∃ f, EndsAt (getoptLong t) (-1) s f ∧
        f.argv = front ++ ((arrange t words).1 ++ (skipped ++ (arrange t words).2)) ∧
        f.optind = front.length + (arrange t words).1.length) ↔ Arranges t words := by
  induction words using arrange.induct t generalizing s front skipped with
  | case1 =>
    rw [Arranges, iff_false]
    rintro ⟨f, hends, -⟩
    exact not_endsAt_of_none (getoptLong_null h hpos (by simpa [hstop] using hskip)) hends
  | case2 rest =>
    rw [Arranges, if_pos rfl, iff_true]
    obtain ⟨s', hcall, hs'⟩ := getoptLong_end h hpos (hstop ▸ hskip)
    refine ⟨s', .last hcall, ?_, ?_⟩
    · rw [hs'.argv_eq, arrange, if_pos rfl, hstop]
      rfl
    · rw [hs'.optind_eq, arrange, if_pos rfl]
      rfl
  | case3 word rest hend hoption ih =>
    have hat : AtWord t s front skipped word rest 0 := ⟨h, hpos, hstop ▸ hskip, hoption⟩
    rw [Arranges, if_neg hend, if_pos hoption, arrange, if_neg hend, if_pos hoption]
    cases houtcome : wordOutcome t (decide (rest ≠ [])) word with
    | bad =>
      simp only [iff_false]
      rintro ⟨f, hends, -⟩
      exact hat.not_ends houtcome hends
    | cut =>
      -- The word itself is an option, and `optind` stays before it.
      simp only [iff_false]
      rintro ⟨f, hends, -, hoptind⟩
      obtain ⟨s', -, hs', hunique⟩ := hat.ends_of_cut houtcome
      rw [(hunique f).1 hends, hs', length_cons] at hoptind
      omega
    | taken withNext code =>
      obtain ⟨hnext, hmore⟩ := takesNext_of_taken houtcome
      obtain ⟨s', hs', hleaves⟩ := hat.leavesBehind houtcome
      rw [hnext] at ih ⊢
      have hlength : (word :: rest.take withNext.toNat).length = consumed withNext := by
        cases withNext with
        | false => simp [consumed]
        | true =>
          have hne : 0 < rest.length := List.length_pos_iff.2 (by simpa using hmore rfl)
          simp only [consumed, length_cons, List.length_take, Bool.toNat_true]
          omega
      have hmoved : moved t.stopOnFirstNonOption front skipped (word :: rest) (consumed withNext) =
          (front ++ word :: rest.take withNext.toNat) ++ (skipped ++ rest.drop withNext.toNat) := by
        rw [hstop]
        simp [moved, consumed]
      have hfront : front.length + consumed withNext =
          (front ++ word :: rest.take withNext.toNat).length := by
        rw [length_append, hlength]
      rw [hmoved, hfront] at hs'
      dsimp only
      by_cases hcode : code = -1
      · rw [if_pos hcode]
        constructor
        · rintro ⟨f, hends, -, hoptind⟩
          rw [(hleaves f).trans (by rw [if_pos hcode])] at hends
          rw [hends, hs'.optind_eq] at hoptind
          rw [← List.length_eq_zero_iff]
          simp only [length_append, length_cons] at hoptind
          omega
        · intro hnone
          refine ⟨s', (hleaves s').2 (by rw [if_pos hcode]), ?_, ?_⟩
          · rw [hs'.argv_eq, hnone, arrange_eq_self hnone]
            simp
          · rw [hs'.optind_eq, hnone]
            simp
      · rw [if_neg hcode, ← ih hs' (hfront ▸ Nat.lt_add_right _ hpos) hskip]
        refine exists_congr ?_
        intro f
        rw [(hleaves f).trans (by rw [if_neg hcode])]
        simp [length_append, Nat.add_assoc, Nat.add_comm, Nat.add_left_comm]
  | case4 word rest hend hoption ih =>
    have hover : SteppedOver false word := by
      unfold SteppedOver
      by_contra hnot
      rw [not_or, not_and] at hnot
      exact hoption ⟨not_not.1 (hnot.2 rfl), hnot.1, hend⟩
    rw [Arranges, if_neg hend, if_neg hoption, arrange, if_neg hend, if_neg hoption]
    have hs : Stands s (front ++ ((skipped ++ [word]) ++ rest)) front.length 0 := by simpa using h
    rw [← ih hs hpos (by
      intro w hw
      rcases List.mem_append.1 hw with hw | hw
      · exact hskip w hw
      · rwa [List.mem_singleton.1 hw])]
    simp

theorem runs_stop (hstop : t.stopOnFirstNonOption = true) (words : List Word) {s : State}
    {front : List Word} (h : Stands s (front ++ words) front.length 0) (hpos : 0 < front.length) :
    (∃ f, EndsAt (getoptLong t) (-1) s f) ↔ Stops t words := by
  induction hn : words.length using Nat.strong_induction_on generalizing words s front with
  | _ n ih =>
    have hsplit := List.takeWhile_append_dropWhile (p := fun word : Word => word = [dash]) (l := words)
    have hskip : ∀ w ∈ words.takeWhile (· = [dash]), SteppedOver t.stopOnFirstNonOption w := by
      intro w hw
      have hdash := List.mem_takeWhile_imp hw
      exact .inl (by simpa using hdash)
    rw [Stops]
    split
    next hdrop =>
      rw [hdrop, List.append_nil] at hsplit
      rw [iff_false]
      rintro ⟨f, hends⟩
      rw [hsplit] at hskip
      exact not_endsAt_of_none (getoptLong_null h hpos (by simpa using hskip)) hends
    next word rest hdrop =>
      rw [hdrop] at hsplit
      rw [← hsplit] at h
      by_cases hoption : IsOption word
      · rw [if_pos hoption]
        have hat : AtWord t s front _ word rest 0 := ⟨h, hpos, hskip, hoption⟩
        cases houtcome : wordOutcome t (decide (rest ≠ [])) word with
        | bad =>
          simp only [iff_false]
          rintro ⟨f, hends⟩
          exact hat.not_ends houtcome hends
        | cut =>
          obtain ⟨s', -, -, hunique⟩ := hat.ends_of_cut houtcome
          simp only [iff_true]
          exact ⟨s', (hunique s').2 rfl⟩
        | taken withNext code =>
          obtain ⟨hnext, hmore⟩ := takesNext_of_taken houtcome
          obtain ⟨s', hs', hleaves⟩ := hat.leavesBehind houtcome
          dsimp only
          by_cases hcode : code = -1
          · simp only [hcode, true_or, iff_true]
            exact ⟨s', (hleaves s').2 (if_pos hcode ▸ rfl)⟩
          · -- The place moves by the consumed words, from before those that were stepped over.
            have hle : consumed withNext ≤ words.length := by
              rw [← hsplit, length_append, length_cons]
              cases withNext with
              | false =>
                simp only [consumed, Bool.toNat_false]
                omega
              | true =>
                have hne : 0 < rest.length := List.length_pos_iff.2 (by simpa using hmore rfl)
                simp only [consumed, Bool.toNat_true]
                omega
            have hmoved : moved t.stopOnFirstNonOption front (words.takeWhile (· = [dash]))
                (word :: rest) (consumed withNext) =
                  (front ++ words.take (consumed withNext)) ++ words.drop (consumed withNext) := by
              rw [List.append_assoc, List.take_append_drop, hstop, moved, if_pos rfl, hsplit]
            have hfront : front.length + consumed withNext =
                (front ++ words.take (consumed withNext)).length := by
              rw [length_append, List.length_take, Nat.min_eq_left hle]
            rw [hmoved, hfront] at hs'
            have hless : (words.drop (consumed withNext)).length < n := by
              rw [length_drop]
              unfold consumed at hle ⊢
              omega
            rw [← ih _ hless (words.drop (consumed withNext)) hs'
              (hfront ▸ Nat.lt_add_right _ hpos) rfl]
            simp only [hcode, false_or]
            refine exists_congr ?_
            intro f
            rw [hleaves f, if_neg hcode]
      · rw [if_neg hoption, iff_true]
        by_cases hend : word = [dash, dash]
        · rw [hend] at h
          obtain ⟨s', hcall, -⟩ := getoptLong_end h hpos hskip
          exact ⟨s', .last hcall⟩
        · have hone : word ≠ [dash] := by
            have hhead := List.head?_dropWhile_not (fun word : Word => word = [dash]) words
            rw [hdrop] at hhead
            simpa using hhead
          have hhead : word.head? ≠ some dash := fun hhead => hoption ⟨hhead, hone, hend⟩
          obtain ⟨s', hcall⟩ := getoptLong_operand h hpos hskip hstop hhead
          exact ⟨s', .last hcall⟩

/-- The calls of `getopt_long` from a reset to the answer `-1` end, and without a `+` the options and
their values come before the operands, each in order, with `optind` at the first operand. -/
def ParsesRight (t : Table) (s : State) : Prop :=
  ∃ f, EndsAt (getoptLong t) (-1) s f ∧ (t.stopOnFirstNonOption = false →
    f.argv.Perm s.argv ∧
    f.argv = s.argv.take 1 ++ ((arrange t s.argv.tail).1 ++ (arrange t s.argv.tail).2) ∧
    f.optind = 1 + (arrange t s.argv.tail).1.length)

theorem endsAt_reset (hreset : s.optreset = true ∨ s.optind = 0) : ∃ s₁,
    Stands s₁ s.argv 1 0 ∧ ∀ f, EndsAt (getoptLong t) (-1) s f ↔ EndsAt (getoptLong t) (-1) s₁ f := by
  refine ⟨{ s with optreset := false, optind := 1, multiOptionArgumentIndex := 0 },
    ⟨rfl, rfl, rfl, rfl⟩, ?_⟩
  intro f
  apply endsAt_congr
  unfold getoptLong State.construct
  simp [hreset]

/-- The calls of `getopt_long` from a reset end, and arrange `argv`, if and only if every word of options
read is known and has its values, and a word of two dashes or, with a `+`, an operand ends them. -/
theorem parsesRight_iff (t : Table) (s : State) (hreset : s.optreset = true ∨ s.optind = 0) :
    ParsesRight t s ↔
      if t.stopOnFirstNonOption then Stops t s.argv.tail else Arranges t s.argv.tail := by
  obtain ⟨s₁, hs₁, hends⟩ := endsAt_reset (t := t) hreset
  unfold ParsesRight
  simp only [hends]
  cases hargv : s.argv with
  | nil =>
    rw [hargv] at hs₁
    have hnone : getoptLong t s₁ = none := getoptLong_null hs₁ Nat.one_pos (by simp)
    have hleft : ¬if t.stopOnFirstNonOption then Stops t [] else Arranges t [] := by
      split_ifs <;> simp [Stops, Arranges]
    refine iff_of_false ?_ hleft
    rintro ⟨f, hends, -⟩
    exact not_endsAt_of_none hnone hends
  | cons program words =>
    rw [hargv] at hs₁
    have hstart : Stands s₁ ([program] ++ ([] ++ words)) [program].length 0 := hs₁
    cases hstop : t.stopOnFirstNonOption with
    | true =>
      simp only [if_true, Bool.true_eq_false, false_implies, and_true, List.tail_cons]
      exact runs_stop hstop words hstart Nat.one_pos
    | false =>
      simp only [Bool.false_eq_true, if_false, true_implies, List.tail_cons]
      rw [← runs_arrange hstop words hstart Nat.one_pos (by simp)]
      refine exists_congr ?_
      intro f
      constructor
      · rintro ⟨hends, -, hf, hoptind⟩
        exact ⟨hends, hf, hoptind⟩
      · rintro ⟨hends, hf, hoptind⟩
        refine ⟨hends, ?_, hf, hoptind⟩
        rw [hf]
        exact (arrange_perm t words).cons program

/-- The variables of the library before its first call, with a reset asked for. -/
def State.start (argv : List Word) : State where
  argv := argv
  optind := 1
  optreset := true
  multiOptionArgumentIndex := 0
  optarg := none
  optopt := 0
  flags := fun _ => 0
  longOptionIndex := 0

theorem parsesRight_iff_ls : ParsesRight ⟨[97], [], false⟩
    (State.start [[108, 115], [102, 105, 108, 101], [45, 97], [45, 45]]) :=
  (parsesRight_iff _ _ (.inl rfl)).2 (by
    simp [State.start, Table.stopOnFirstNonOption, plus, Arranges, IsOption, dash, wordOutcome,
      charsOutcome,
      Table.takes, colon, hasArgOf, Outcome.ofCode, charInt, questionMark])

/-- `ls -a`, with the option string `a`: behind the option, the null pointer of `argv` is read. -/
theorem line_without_dashes_not_parsed :
    ¬ParsesRight ⟨[97], [], false⟩ (State.start [[108, 115], [45, 97]]) := by
  rintro ⟨f, hends, -⟩
  have hfirst : getoptLong ⟨[97], [], false⟩ (State.start [[108, 115], [45, 97]]) =
      some (97, { State.start [[108, 115], [45, 97]] with optind := 2, optreset := false }) := rfl
  rw [endsAt_of_more hfirst (by decide)] at hends
  exact not_endsAt_of_none rfl hends

end

end LibC.OptionsParser
