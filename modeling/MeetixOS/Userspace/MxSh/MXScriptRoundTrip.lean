import MeetixOS.Userspace.MxSh.MXScript

/-! # Scripts that the parser reads back

A text that prints each pair as its key, a colon and its value in quotes, the pairs of a statement with
one space between them and each statement on a line, is read back as the document that was printed, unless
a key has the byte `0xFF` in it, which reads as the end of the file. -/

open List (cons_append mem_cons mem_cons_self not_mem_nil)

namespace MeetixOS.MxSh

open LibC MeetixOS.Lib LsDocument

/-! ## Printed documents -/

/-- A key and its value in quotes. -/
def LsPair.print (p : LsPair) : List UInt8 :=
  p.key ++ colon :: MXScriptParser.valueQuoting.quoted p.value

/-- The pairs with a space between two of them. -/
def printPairs : List LsPair → List UInt8
  | [] => []
  | [p] => p.print
  | p :: next :: more => p.print ++ blank :: printPairs (next :: more)

/-- Each statement on a line. -/
def LsDocument.print (doc : LsDocument) : List UInt8 :=
  doc.statements.flatMap fun stat => printPairs stat.pairs ++ [newline]

/-- The key is not empty, has no colon and no newline and starts with neither white space nor `#`, and
the value is not empty and has no byte `0xFF`. -/
structure LsPair.Printable (p : LsPair) : Prop where
  key : p.key ≠ []
  bytes : ∀ c ∈ p.key, c ≠ colon ∧ c ≠ newline
  start : ∀ c ∈ p.key.head?, isspace c = false ∧ c ≠ hash
  value : p.value ≠ []
  text : endOfInput ∉ p.value

/-- A document that can be printed. -/
def LsDocument.Printable (doc : LsDocument) : Prop :=
  ∀ stat ∈ doc.statements, stat.pairs ≠ [] ∧ ∀ p ∈ stat.pairs, p.Printable

/-- No key has the byte `0xFF`. -/
def LsDocument.KeysClear (doc : LsDocument) : Prop :=
  ∀ stat ∈ doc.statements, ∀ p ∈ stat.pairs, endOfInput ∉ p.key

namespace MXScriptParser

/-! ## What is read back -/

theorem pair_print {p : LsPair} {front rest : List UInt8} (hp : p.Printable) (hkey : endOfInput ∉ p.key)
    (hfront : ∀ c ∈ front, lineBlank c = true) (hrest : valueQuoting.Ended rest) :
    pair (front ++ (p.print ++ rest)) = (some p, rest) := by
  have hbytes : ∀ c ∈ p.key, keyByte c = true := by
    intro c hc
    have hend : c ≠ endOfInput := fun heq => hkey (heq ▸ hc)
    simp [keyByte, hend, hp.bytes c hc]
  have htext : p.print ++ rest = p.key ++ colon :: (valueQuoting.quoted p.value ++ rest) := by
    rw [LsPair.print, List.append_assoc, cons_append]
  have hskip : (p.key ++ colon :: (valueQuoting.quoted p.value ++ rest)).dropWhile lineBlank =
      p.key ++ colon :: (valueQuoting.quoted p.value ++ rest) := by
    obtain ⟨c, more, hcons⟩ := List.exists_cons_of_ne_nil hp.key
    have hc : ¬lineBlank c = true := by
      have hstart := (hp.start c (by rw [hcons]; rfl)).1
      simp [lineBlank, hstart]
    rw [hcons, cons_append, List.dropWhile_cons_of_neg hc]
  have hcolon : ¬keyByte colon = true := by decide
  have hread : key (front ++ (p.print ++ rest)) =
      (p.key, colon :: (valueQuoting.quoted p.value ++ rest)) := by
    rw [key, List.dropWhile_append_of_pos hfront, htext, hskip, List.takeWhile_append_of_pos hbytes,
      List.dropWhile_append_of_pos hbytes, List.takeWhile_cons_of_neg hcolon,
      List.dropWhile_cons_of_neg hcolon, List.append_nil]
  have hvalue : value (behindKey (colon :: (valueQuoting.quoted p.value ++ rest))) = (p.value, rest) := by
    exact Quoting.scan_quoted hp.text hrest
  rw [pair, hread, if_neg hp.key, hvalue, if_neg hp.value]

theorem pairs_print {stat : List LsPair} (hstat : ∀ p ∈ stat, p.Printable)
    (hkeys : ∀ p ∈ stat, endOfInput ∉ p.key) {front : List UInt8}
    (hfront : ∀ c ∈ front, lineBlank c = true) (hne : stat ≠ []) (text : List UInt8) :
    pairs (front ++ (printPairs stat ++ newline :: text)) = (stat, newline :: text) := by
  induction stat generalizing front with
  | nil => exact absurd rfl hne
  | cons p more ih =>
    have hp := hstat p mem_cons_self
    have hkey := hkeys p mem_cons_self
    cases more with
    | nil =>
      have hended : valueQuoting.Ended (newline :: text) := Or.inr ⟨newline, text, rfl, Or.inr (by decide)⟩
      rw [printPairs, pairs_some (pair_print hp hkey hfront hended),
        pairs_none (pair_missing (Or.inl rfl) text)]
    | cons next more =>
      have hended : valueQuoting.Ended (blank :: (printPairs (next :: more) ++ newline :: text)) :=
        Or.inr ⟨blank, _, rfl, Or.inr (by decide)⟩
      have hblank : ∀ c ∈ [blank], lineBlank c = true := List.forall_mem_singleton.2 (by decide)
      have hmore := ih (fun other hother => hstat other (List.mem_cons_of_mem _ hother))
        (fun other hother => hkeys other (List.mem_cons_of_mem _ hother)) hblank (List.cons_ne_nil _ _)
      rw [List.singleton_append] at hmore
      rw [printPairs, List.append_assoc, cons_append, pairs_some (pair_print hp hkey hfront hended),
        hmore]

theorem skip_printPairs {stat : List LsPair} (hstat : ∀ p ∈ stat, p.Printable) (hne : stat ≠ [])
    (text : List UInt8) : skip false (printPairs stat ++ text) = some (printPairs stat ++ text) := by
  obtain ⟨p, more, rfl⟩ := List.exists_cons_of_ne_nil hne
  have hp := hstat p mem_cons_self
  obtain ⟨c, name, hname⟩ := List.exists_cons_of_ne_nil hp.key
  obtain ⟨hspace, hhash⟩ := hp.start c (by rw [hname]; rfl)
  have hnewline := (hp.bytes c (by rw [hname]; exact mem_cons_self)).2
  obtain ⟨tail, htail⟩ : ∃ tail, printPairs (p :: more) ++ text = c :: tail := by
    cases more with
    | nil | cons next more => exact ⟨_, by rw [printPairs, LsPair.print, hname]; rfl⟩
  rw [htail, skip, if_neg]
  rintro (h | h | h)
  · exact hnewline h
  · rw [hspace] at h
    cases h
  · exact hhash h

theorem document_print {doc : LsDocument} (hdoc : doc.Printable) (hkeys : doc.KeysClear) :
    document doc.print = some doc := by
  obtain ⟨stats⟩ := doc
  suffices hread : statements (print ⟨stats⟩) = some stats by
    rw [document, hread, Option.map_some]
  induction stats with
  | nil =>
    have hpairs : pairs [] = ([], []) := pairs_none rfl
    refine statement_null (?_ : statement [] = some (none, []))
    simp [statement, skip, hpairs]
  | cons stat more ih =>
    obtain ⟨hne, hstat⟩ := hdoc stat mem_cons_self
    have hkey := hkeys stat mem_cons_self
    have htext : print ⟨stat :: more⟩ =
        printPairs stat.pairs ++ newline :: print ⟨more⟩ := by
      rw [print, List.flatMap_cons, List.append_assoc, List.singleton_append]
      rfl
    have hblank : ∀ c ∈ ([] : List UInt8), lineBlank c = true := by simp
    have hpairs := pairs_print hstat hkey hblank hne (print ⟨more⟩)
    rw [List.nil_append] at hpairs
    have hstatement : statement (print ⟨stat :: more⟩) =
        some (some stat, newline :: print ⟨more⟩) := by
      rw [statement, htext, skip_printPairs hstat hne, Option.map_some, hpairs, if_neg hne]
    rw [(statement_some hstatement).2, statements_newline,
      ih (fun other hother => hdoc other (List.mem_cons_of_mem _ hother))
        (fun other hother => hkeys other (List.mem_cons_of_mem _ hother)), Option.map_some]

/-! ## What is read -/

theorem pair_key {input rest : List UInt8} {p : LsPair} (h : pair input = (some p, rest)) :
    endOfInput ∉ p.key := by
  unfold pair at h
  split_ifs at h
  · cases h
  · cases h
  · cases h
    intro hmem
    exact absurd (List.mem_takeWhile_imp hmem) (by decide)

theorem pairs_keys (input : List UInt8) : ∀ p ∈ (pairs input).1, endOfInput ∉ p.key := by
  induction input using pairs.induct with
  | case1 input p rest h ih =>
    rw [pairs_some h]
    intro other hother
    rcases mem_cons.1 hother with rfl | hother
    · exact pair_key h
    · exact ih other hother
  | case2 input rest h =>
    rw [pairs_none h]
    exact fun p hp => absurd hp not_mem_nil

theorem statements_keys (input : List UInt8) :
    ∀ stats, statements input = some stats → KeysClear ⟨stats⟩ := by
  induction input using statements.induct with
  | case1 input hskip =>
    intro stats h
    rw [statement_none (by rw [statement, hskip, Option.map_none])] at h
    cases h
  | case2 input rest hskip hpairs =>
    intro stats h
    rw [statement_null (by rw [statement, hskip, Option.map_some, if_pos hpairs])] at h
    cases h
    exact fun stat hstat => absurd hstat not_mem_nil
  | case3 input rest hskip hpairs ih =>
    intro stats h
    have hstatement : statement input = some (some ⟨(pairs rest).1⟩, (pairs rest).2) := by
      rw [statement, hskip, Option.map_some, if_neg hpairs]
    rw [(statement_some hstatement).2] at h
    obtain ⟨more, hmore, rfl⟩ := Option.map_eq_some_iff.1 h
    intro stat hstat
    rcases mem_cons.1 hstat with rfl | hstat
    · exact pairs_keys rest
    · exact ih more hmore stat hstat

end MXScriptParser

open MXScriptParser

/-- The parser reads a printed document back if and only if no key has the byte `0xFF`. -/
theorem document_print_iff {doc : LsDocument} (hdoc : doc.Printable) :
    (∃ n, documentRounds n doc.print = some doc) ↔ doc.KeysClear := by
  constructor
  · rintro ⟨n, hread⟩
    rcases documentRounds_agrees n doc.print with hagree | ⟨hnone, -⟩
    · obtain ⟨stats, hstats, rfl⟩ := Option.map_eq_some_iff.1 (hagree.symm.trans hread)
      exact statements_keys _ stats hstats
    · rw [hnone] at hread
      cases hread
  · intro hkeys
    exact ⟨_, (documentRounds_agrees _ doc.print).eq_some (document_print hdoc hkeys) (Nat.lt_succ_self _)⟩

theorem document_print_two : ∃ n, documentRounds n
    (print ⟨[⟨[⟨[97], [120, 32, 121]⟩, ⟨[98], [34]⟩]⟩, ⟨[⟨[99, 32], [10]⟩]⟩]⟩) =
      some ⟨[⟨[⟨[97], [120, 32, 121]⟩, ⟨[98], [34]⟩]⟩, ⟨[⟨[99, 32], [10]⟩]⟩]⟩ := by
  have hpair : ∀ p ∈ [LsPair.mk [97] [120, 32, 121], ⟨[98], [34]⟩, ⟨[99, 32], [10]⟩], p.Printable := by
    intro p hp
    simp only [mem_cons, not_mem_nil, or_false] at hp
    rcases hp with rfl | rfl | rfl
    · exact ⟨by decide, by decide +kernel, by decide +kernel, by decide, by decide⟩
    · exact ⟨by decide, by decide +kernel, by decide +kernel, by decide, by decide⟩
    · exact ⟨by decide, by decide +kernel, by decide +kernel, by decide, by decide⟩
  refine (document_print_iff ?_).2 (by unfold KeysClear; decide)
  intro stat hstat
  simp only [mem_cons, not_mem_nil, or_false] at hstat
  rcases hstat with rfl | rfl
  · refine ⟨by decide, fun p hp => hpair p ?_⟩
    simp only [mem_cons, not_mem_nil, or_false] at hp ⊢
    tauto
  · refine ⟨by decide, fun p hp => hpair p ?_⟩
    tauto

/-- The pair with the key `a` and `0xFF` is printed as `a`, `0xFF`, `:"b"`; the parser gives no document
with this pair, however many rounds its loops have. -/
theorem document_print_lost : ∃ doc : LsDocument, doc.Printable ∧
    ¬∃ n, documentRounds n doc.print = some doc := by
  refine ⟨⟨[⟨[⟨[97, 255], [98]⟩]⟩]⟩, ?_, ?_⟩
  · intro stat hstat
    rw [List.mem_singleton.1 hstat]
    refine ⟨by decide, fun p hp => ?_⟩
    rw [List.mem_singleton.1 hp]
    exact ⟨by decide, by decide +kernel, by decide +kernel, by decide, by decide⟩
  · rintro ⟨n, hread⟩
    rcases documentRounds_agrees n _ with hagree | ⟨hnone, -⟩
    · obtain ⟨stats, hstats, heq⟩ := Option.map_eq_some_iff.1 (hagree.symm.trans hread)
      have hclear := statements_keys _ stats hstats
      rw [heq] at hclear
      exact hclear _ mem_cons_self _ mem_cons_self (by decide)
    · rw [hnone] at hread
      cases hread

end MeetixOS.MxSh
