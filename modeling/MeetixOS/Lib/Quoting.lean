import Mathlib.Data.List.Basic

/-! # Quoted values

A text in which a value may be enclosed in quotes. Outside of quotes some elements end a value; inside
they belong to it. An escape element takes the one behind it as it is, in both places, and one element
ends every text. `quoted` writes a value, `scan` reads one back. -/

namespace MeetixOS.Lib

variable {α : Type} [DecidableEq α]

/-- The elements with a meaning: no two of them are the same, and none of those that end a value is a
quote or an escape. -/
structure Quoting (α : Type) where
  quote : α
  escape : α
  finish : α
  stops : α → Bool
  quote_ne : quote ≠ escape
  finish_ne : finish ≠ quote ∧ finish ≠ escape
  stops_not : stops quote = false ∧ stops escape = false

namespace Quoting

variable (Q : Quoting α)

/-- Read a value, and what is left of the text. `inside` says whether a quote is open, `escaped`
whether an escape came last. -/
def scan : Bool → Bool → List α → List α × List α
  | _, _, [] => ([], [])
  | inside, escaped, c :: rest =>
    if c = Q.finish then ([], c :: rest)
    else if escaped = false ∧ c = Q.escape then scan inside true rest
    else if escaped = false ∧ c = Q.quote then scan (!inside) false rest
    else if escaped = false ∧ inside = false ∧ Q.stops c = true then ([], c :: rest)
    else (c :: (scan inside false rest).1, (scan inside false rest).2)

/-- An element in quotes. -/
def escapedElement (c : α) : List α := if c = Q.quote ∨ c = Q.escape then [Q.escape, c] else [c]

/-- A value in quotes. -/
def quoted (value : List α) : List α := Q.quote :: (value.flatMap Q.escapedElement ++ [Q.quote])

/-- The text goes on with nothing that belongs to a value. -/
def Ended (rest : List α) : Prop := rest = [] ∨ ∃ c tail, rest = c :: tail ∧ (c = Q.finish ∨ Q.stops c = true)

variable {Q}

theorem scan_ended {rest : List α} (h : Q.Ended rest) : Q.scan false false rest = ([], rest) := by
  rcases h with rfl | ⟨c, tail, rfl, rfl | hstop⟩
  · rfl
  · simp [scan]
  · have hescape : c ≠ Q.escape := by
      rintro rfl
      rw [Q.stops_not.2] at hstop
      cases hstop
    have hquote : c ≠ Q.quote := by
      rintro rfl
      rw [Q.stops_not.1] at hstop
      cases hstop
    simp [scan, hescape, hquote, hstop]

theorem scan_escapedElement {c : α} (hc : c ≠ Q.finish) (text : List α) :
    Q.scan true false (Q.escapedElement c ++ text) =
      (c :: (Q.scan true false text).1, (Q.scan true false text).2) := by
  unfold escapedElement
  split
  next hspecial =>
    -- behind an escape the element has no meaning
    simp [scan, Q.finish_ne.2.symm, hc]
  next hplain =>
    rw [not_or] at hplain
    simp [scan, hc, hplain]

theorem scan_inside {value : List α} (hvalue : Q.finish ∉ value) (text : List α) :
    Q.scan true false (value.flatMap Q.escapedElement ++ text) =
      (value ++ (Q.scan true false text).1, (Q.scan true false text).2) := by
  induction value with
  | nil => rfl
  | cons c value ih =>
    rw [List.mem_cons, not_or] at hvalue
    rw [List.flatMap_cons, List.append_assoc, scan_escapedElement (Ne.symm hvalue.1), ih hvalue.2]
    rfl

theorem scan_quote (inside : Bool) (text : List α) :
    Q.scan inside false (Q.quote :: text) = Q.scan (!inside) false text := by
  simp [scan, Q.finish_ne.1.symm, Q.quote_ne]

/-- A value that was written in quotes is read back, with what stands behind it. -/
theorem scan_quoted {value rest : List α} (hvalue : Q.finish ∉ value) (hrest : Q.Ended rest) :
    Q.scan false false (Q.quoted value ++ rest) = (value, rest) := by
  rw [quoted, List.cons_append, scan_quote, List.append_assoc, Bool.not_false, scan_inside hvalue,
    List.singleton_append, scan_quote, Bool.not_true, scan_ended hrest, List.append_nil]

theorem scan_length (inside escaped : Bool) (text : List α) :
    (Q.scan inside escaped text).2.length ≤ text.length := by
  induction text generalizing inside escaped with
  | nil => simp [scan]
  | cons c rest ih =>
    simp only [scan]
    split_ifs <;> first | exact Nat.le_refl _ | exact Nat.le_succ_of_le (ih _ _)

end Quoting

end MeetixOS.Lib
