import MeetixOS.Lib.Window
import Mathlib.Tactic

/-! # Byte streams

A file of bytes with one position, read and written byte by byte, and the loops that move whole
elements through any machine that can move single bytes. `Simulates` relates two machines that
return the same and stay related; it passes from the single byte to the loops
(`Simulates.getElements`, `Simulates.putElements`). -/

namespace MeetixOS.Lib

/-! ## A file of bytes -/

/-- A file with one position. -/
structure ByteStream where
  content : List UInt8
  position : Nat
  deriving DecidableEq

namespace ByteStream

/-- Read the byte at the position; at the end there is none. -/
def get (t : ByteStream) : Option UInt8 × ByteStream :=
  match t.content[t.position]? with
  | some c => (some c, { t with position := t.position + 1 })
  | none => (none, t)

/-- Write a byte at the position. -/
def put (c : UInt8) (t : ByteStream) : Option UInt8 × ByteStream :=
  (some c, ⟨overwrite t.content t.position [c], t.position + 1⟩)

end ByteStream

/-! ## Elements -/

section

variable {σ τ β : Type}

/-- Read the bytes of one element behind those there are; false where the bytes end before it does. -/
def getElement (get : σ → Option (Option UInt8 × σ)) :
    Nat → List UInt8 → σ → Option ((Bool × List UInt8) × σ)
  | 0, buffer, s => some ((true, buffer), s)
  | n + 1, buffer, s =>
    (get s).bind fun r =>
      match r.1 with
      | none => some ((false, buffer), r.2)
      | some c => getElement get n (buffer ++ [c]) r.2

/-- Read elements of a size, to the first that is not complete: how many there are, counted from `e` on,
and all bytes read. -/
def getElements (get : σ → Option (Option UInt8 × σ)) (size : Nat) :
    Nat → Nat → List UInt8 → σ → Option ((Nat × List UInt8) × σ)
  | 0, e, buffer, s => some ((e, buffer), s)
  | n + 1, e, buffer, s =>
    (getElement get size buffer s).bind fun r =>
      if r.1.1 then getElements get size n (e + 1) r.1.2 r.2 else some ((e, r.1.2), r.2)

/-- Write the bytes of one element; false where one of them cannot be written. -/
def putElement (put : UInt8 → σ → Option (Option UInt8 × σ)) :
    List UInt8 → σ → Option (Bool × σ)
  | [], s => some (true, s)
  | c :: rest, s =>
    (put c s).bind fun r =>
      match r.1 with
      | none => some (false, r.2)
      | some _ => putElement put rest r.2

/-- Write elements of a size, to the first that cannot be written; `none` where the data end before the
elements do. -/
def putElements (put : UInt8 → σ → Option (Option UInt8 × σ)) (size : Nat) :
    Nat → Nat → List UInt8 → σ → Option (Nat × σ)
  | 0, e, _, s => some (e, s)
  | n + 1, e, data, s =>
    if data.length < size then none
    else
      (putElement put (data.take size) s).bind fun r =>
        if r.1 then putElements put size n (e + 1) (data.drop size) r.2 else some (e, r.2)

/-- From related states both complete, return the same, and are related again. -/
def Simulates (R : σ → τ → Prop) (f : σ → Option (β × σ)) (g : τ → Option (β × τ)) : Prop :=
  ∀ s t, R s t → ∃ b s' t', f s = some (b, s') ∧ g t = some (b, t') ∧ R s' t'

variable {R : σ → τ → Prop}

theorem Simulates.pure (b : β) : Simulates R (fun s => some (b, s)) fun t => some (b, t) :=
  fun s t hR => ⟨b, s, t, rfl, rfl, hR⟩

theorem Simulates.bind {γ : Type} {f : σ → Option (β × σ)} {g : τ → Option (β × τ)}
    {k : β × σ → Option (γ × σ)} {l : β × τ → Option (γ × τ)} (h : Simulates R f g)
    (hk : ∀ b, Simulates R (fun s => k (b, s)) fun t => l (b, t)) :
    Simulates R (fun s => (f s).bind k) fun t => (g t).bind l := by
  intro s t hR
  obtain ⟨b, s1, t1, hs, ht, hR1⟩ := h s t hR
  obtain ⟨c, s2, t2, hs2, ht2, hR2⟩ := hk b s1 t1 hR1
  exact ⟨c, s2, t2, by simp [hs, hs2], by simp [ht, ht2], hR2⟩

section

variable {get : σ → Option (Option UInt8 × σ)} {get' : τ → Option (Option UInt8 × τ)}

theorem Simulates.getElement (h : Simulates R get get') (n : Nat) (buffer : List UInt8) :
    Simulates R (getElement get n buffer) (getElement get' n buffer) := by
  induction n generalizing buffer with
  | zero => exact Simulates.pure _
  | succ n ih =>
    refine h.bind fun c => ?_
    cases c with
    | none => exact Simulates.pure _
    | some c => exact ih (buffer ++ [c])

theorem Simulates.getElements (h : Simulates R get get') (size n e : Nat) (buffer : List UInt8) :
    Simulates R (getElements get size n e buffer) (getElements get' size n e buffer) := by
  induction n generalizing e buffer with
  | zero => exact Simulates.pure _
  | succ n ih =>
    refine (h.getElement size buffer).bind fun r => ?_
    obtain ⟨whole, bytes⟩ := r
    cases whole with
    | false => exact Simulates.pure (e, bytes)
    | true => exact ih (e + 1) bytes

end

section

variable {put : UInt8 → σ → Option (Option UInt8 × σ)}
  {put' : UInt8 → τ → Option (Option UInt8 × τ)}

theorem Simulates.putElement (h : ∀ c, Simulates R (put c) (put' c)) (data : List UInt8) :
    Simulates R (putElement put data) (putElement put' data) := by
  induction data with
  | nil => exact Simulates.pure _
  | cons c data ih =>
    refine (h c).bind fun written => ?_
    cases written with
    | none => exact Simulates.pure _
    | some _ => exact ih

theorem Simulates.putElements (h : ∀ c, Simulates R (put c) (put' c)) {size n : Nat} (e : Nat)
    {data : List UInt8} (hdata : size * n ≤ data.length) :
    Simulates R (putElements put size n e data) (putElements put' size n e data) := by
  induction n generalizing e data with
  | zero => exact Simulates.pure _
  | succ n ih =>
    rw [Nat.mul_succ] at hdata
    have hsize : ¬ data.length < size := by omega
    have hrest : size * n ≤ (data.drop size).length := by
      rw [List.length_drop]
      omega
    simp only [Lib.putElements, if_neg hsize]
    refine (Simulates.putElement h (data.take size)).bind fun whole => ?_
    cases whole with
    | false => exact Simulates.pure e
    | true => exact ih (e + 1) hrest

end

end

end MeetixOS.Lib
