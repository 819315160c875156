import Mathlib.Data.Option.Basic

/-! # Slots that hold resources

A `Holding` says which resource each slot holds, if any, and which resources are free. It is `Safe` where
no held resource is free and a slot that counts as sole shares its resource with no other. Free resources
are put into slots, all different (`Safe.fill`), slots are emptied (`Safe.drop`), and slots that are not
sole take part in what other such slots hold (`Safe.share`). -/

namespace MeetixOS.Lib

/-- Which slot holds which resource, and which resources are free. -/
structure Holding (σ π : Type) where
  held : σ → Option π
  free : π → Prop

namespace Holding

variable {σ π : Type} {h h' : Holding σ π} {sole sole' : σ → Prop}

/-- No held resource is free, and the sole slots do not share theirs. -/
structure Safe (h : Holding σ π) (sole : σ → Prop) : Prop where
  taken : ∀ i q, h.held i = some q → ¬ h.free q
  alone : ∀ i j q, h.held i = some q → h.held j = some q → sole i → j = i

/-- Slots are filled with different free resources; the others keep what they held, and become sole
only if they were. -/
theorem Safe.fill (hs : h.Safe sole)
    (hheld : ∀ i q, h'.held i = some q → h.held i = some q ∧ (sole' i → sole i) ∨ h.free q)
    (happart : ∀ i j q, h.free q → h'.held i = some q → h'.held j = some q → j = i)
    (hfree : ∀ i q, h'.held i = some q → ¬ h'.free q) : h'.Safe sole' := by
  refine ⟨hfree, ?_⟩
  intro i j q hi hj hsole
  rcases hheld i q hi with ⟨hi', hkept⟩ | hq
  · rcases hheld j q hj with ⟨hj', -⟩ | hq
    · exact hs.alone i j q hi' hj' (hkept hsole)
    · exact absurd hq (hs.taken i q hi')
  · exact happart i j q hq hi hj

theorem Safe.drop (hs : h.Safe sole)
    (hheld : ∀ i q, h'.held i = some q → h.held i = some q ∧ (sole' i → sole i))
    (hfree : ∀ i q, h'.held i = some q → h'.free q → h.free q) : h'.Safe sole' := by
  refine ⟨?_, ?_⟩
  · intro i q hi hq
    exact hs.taken i q (hheld i q hi).1 (hfree i q hi hq)
  · intro i j q hi hj hsole
    exact hs.alone i j q (hheld i q hi).1 (hheld j q hj).1 ((hheld i q hi).2 hsole)

/-- Slots that are not sole get the resource of another slot, which is not sole either any more. -/
theorem Safe.share (hs : h.Safe sole)
    (hheld : ∀ i q, h'.held i = some q → h.held i = some q ∧ (sole' i → sole i) ∨
      ¬ sole' i ∧ ∃ j, h.held j = some q ∧ ¬ sole' j)
    (hfree : ∀ q, h'.free q → h.free q) : h'.Safe sole' := by
  refine ⟨?_, ?_⟩
  · intro i q hi hq
    rcases hheld i q hi with ⟨hi', -⟩ | ⟨-, j, hj, -⟩
    · exact hs.taken i q hi' (hfree q hq)
    · exact hs.taken j q hj (hfree q hq)
  · intro i j q hi hj hsole
    rcases hheld i q hi with ⟨hi', hkept⟩ | ⟨hnot, -⟩
    · rcases hheld j q hj with ⟨hj', -⟩ | ⟨-, k, hk, hnot⟩
      · exact hs.alone i j q hi' hj' (hkept hsole)
      · -- the slot that the resource comes from would be the sole one
        obtain rfl := hs.alone i k q hi' hk (hkept hsole)
        exact absurd hsole hnot
    · exact absurd hsole hnot

end Holding

end MeetixOS.Lib
