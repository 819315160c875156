import MeetixOS.LibC.StreamRefinement
import MeetixOS.LibC.Unbuffered
import Mathlib.Data.List.TakeWhile

/-! # Reading lines

`fgets` and `readline` take bytes from `fgetc` and store them with a NUL behind them. `fgets` does not
look for the newline, and `readline` does not keep a byte for the NUL and tells the end of the file by
a `char`, so that each is right on some contents of the stream only. -/

open Option (bind_some map_some)
open List (length_take nil_append)

namespace LibC

open MeetixOS.Lib

/-- The byte `'\n'`. -/
def newline : UInt8 := 10

/-- `EOF` as a `char`, which is also what the byte 0xFF is as a `char`. -/
def eofChar : UInt8 := 255

/-! ## The two functions -/

section

variable {σ : Type}

/-- Store a byte into the caller's buffer. -/
def storeAt (buffer : List UInt8) (i : Nat) (c : UInt8) : Option (List UInt8) :=
  if i < buffer.length then some (buffer.set i c) else none

/-- The loop of `fgets`, where `p` counts the bytes stored. -/
def fgetsLoop (fgetc : σ → Option (Option UInt8 × σ)) :
    Nat → Nat → List UInt8 → σ → Option ((Nat × List UInt8) × σ)
  | 0, p, s, stream => some ((p, s), stream)
  | n + 1, p, s, stream =>
    (fgetc stream).bind fun r =>
      match r.1 with
      | none => some ((p, s), r.2)
      | some c => (storeAt s p c).bind fun s => fgetsLoop fgetc n (p + 1) s r.2

/-- `fgets`: whether it returns null, which it does not, and the buffer. -/
def fgets (fgetc : σ → Option (Option UInt8 × σ)) (n : Nat) (s : List UInt8) (stream : σ) :
    Option ((Bool × List UInt8) × σ) :=
  (fgetsLoop fgetc (n - 1) 0 s stream).bind fun r =>
    (storeAt r.1.2 r.1.1 0).map fun s => ((false, s), r.2)

/-- The loop of `readline` with `len - count` bytes left, where `c` is the last `char` read. The `int`
`count` is compared and indexes as an `usize`. -/
def readlineLoop (fgetc : σ → Option (Option UInt8 × σ)) :
    Nat → Nat → UInt8 → List UInt8 → σ → Option ((UInt8 × Nat × List UInt8) × σ)
  | 0, count, c, buffer, stream => some ((c, count, buffer), stream)
  | n + 1, count, _, buffer, stream =>
    (fgetc stream).bind fun r =>
      let c := r.1.getD eofChar
      if c = newline ∨ c = eofChar then some ((c, count, buffer), r.2)
      else (storeAt buffer count c).bind fun buffer => readlineLoop fgetc n (count + 1) c buffer r.2

/-- `readline`: whether it returns false, and the buffer. For a buffer of at least one byte the first
round sets `c`. -/
def readline (fgetc : σ → Option (Option UInt8 × σ)) (buffer : List UInt8) (len : Nat) (stream : σ) :
    Option ((Bool × List UInt8) × σ) :=
  if len = 0 then some ((true, buffer), stream)
  else
    (readlineLoop fgetc len 0 0 buffer stream).bind fun r =>
      (storeAt r.1.2.2 r.1.2.1 0).map fun buffer => ((r.1.1 == eofChar, buffer), r.2)

/-! ## What they are for -/

/-- What a function that reads a line does: it stores these bytes with a NUL behind them, takes so many
bytes of the stream, and reports the end of the file where there is no byte. -/
def ReadsLine (R : σ → ByteStream → Prop) (outcome : Option ((Bool × List UInt8) × σ))
    (buffer : List UInt8) (t : ByteStream) (stored : List UInt8) (taken : Nat) : Prop :=
  ∃ eof stream, outcome = some ((eof, stored ++ 0 :: buffer.drop (stored.length + 1)), stream) ∧
    stored.length < buffer.length ∧ R stream { t with position := t.position + taken } ∧
    (eof = true ↔ t.content.drop t.position = [])

/-- What `fgets` is to store: the line with its newline, but at most `n - 1` bytes. -/
def fgetsBytes (n : Nat) (rest : List UInt8) : List UInt8 :=
  (rest.takeWhile (· ≠ newline) ++ (rest.dropWhile (· ≠ newline)).take 1).take (n - 1)

/-- What `readline` is to store: the line without its newline, but at most `n - 1` bytes. -/
def readlineBytes (n : Nat) (rest : List UInt8) : List UInt8 :=
  (rest.takeWhile (· ≠ newline)).take (n - 1)

/-- How many bytes `readline` is to take: those it stores, and a newline that follows them. -/
def readlineTaken (n : Nat) (rest : List UInt8) : Nat :=
  let stored := (readlineBytes n rest).length
  if rest[stored]? = some newline then stored + 1 else stored

/-- `fgets` is right: there is a byte, and no newline in front of another byte that it stores. -/
def FgetsFits (n : Nat) (rest : List UInt8) : Prop :=
  rest ≠ [] ∧ ∀ i, i + 1 < min (n - 1) rest.length → rest[i]? ≠ some newline

/-- `readline` is right: there is no byte, or a newline within `n` bytes and no byte 0xFF in front. -/
def ReadlineFits (n : Nat) (rest : List UInt8) : Prop :=
  rest = [] ∨ ∃ i < n, rest[i]? = some newline ∧ ∀ j < i, rest[j]? ≠ some eofChar

/-! ## The loops -/

theorem storeAt_append (done : List UInt8) (x c : UInt8) (tail : List UInt8) :
    storeAt (done ++ x :: tail) done.length c = some ((done ++ [c]) ++ tail) := by
  unfold storeAt
  simp

theorem storeAt_length (buffer : List UInt8) (c : UInt8) : storeAt buffer buffer.length c = none :=
  if_neg (lt_irrefl _)

variable {fgetc : σ → Option (Option UInt8 × σ)} {R : σ → ByteStream → Prop} {stream : σ}
  {t : ByteStream}

section

variable (h : Simulates R fgetc fun t => some t.get) (ht : R stream t)
include h ht

theorem fgetc_byte {c : UInt8} {rest : List UInt8} (hrest : t.content.drop t.position = c :: rest) :
    ∃ stream', fgetc stream = some (some c, stream') ∧
      R stream' { t with position := t.position + 1 } ∧ t.content.drop (t.position + 1) = rest := by
  obtain ⟨b, stream', t', hfgetc, hget, hR⟩ := h stream t ht
  have hc : t.content[t.position]? = some c := by
    rw [← List.head?_drop, hrest]
    rfl
  simp only [ByteStream.get, hc, Option.some.injEq, Prod.mk.injEq] at hget
  obtain ⟨rfl, rfl⟩ := hget
  refine ⟨stream', hfgetc, hR, ?_⟩
  rw [← List.drop_drop, hrest]
  rfl

theorem fgetc_end (hrest : t.content.drop t.position = []) :
    ∃ stream', fgetc stream = some (none, stream') ∧ R stream' t := by
  obtain ⟨b, stream', t', hfgetc, hget, hR⟩ := h stream t ht
  have hnone : t.content[t.position]? = none := by
    rw [← List.head?_drop, hrest]
    rfl
  simp only [ByteStream.get, hnone, Option.some.injEq, Prod.mk.injEq] at hget
  obtain ⟨rfl, rfl⟩ := hget
  exact ⟨stream', hfgetc, hR⟩

theorem fgetsLoop_eq (n : Nat) (done tail : List UInt8) (hroom : n ≤ tail.length) :
    ∃ stream', fgetsLoop fgetc n done.length (done ++ tail) stream =
        some ((done.length + min n (t.content.drop t.position).length,
          done ++ (t.content.drop t.position).take n ++
            tail.drop (min n (t.content.drop t.position).length)), stream') ∧
      R stream' { t with position := t.position + min n (t.content.drop t.position).length } := by
  induction n generalizing stream t done tail with
  | zero => exact ⟨stream, by simp [fgetsLoop], by simpa using ht⟩
  | succ n ih =>
    cases hrest : t.content.drop t.position with
    | nil =>
      obtain ⟨stream', hfgetc, hR⟩ := fgetc_end h ht hrest
      exact ⟨stream', by simp [fgetsLoop, hfgetc], by simpa using hR⟩
    | cons c rest =>
      cases tail with
      | nil => exact absurd hroom (by simp)
      | cons x tail =>
        obtain ⟨stream1, hfgetc, hR1, hrest1⟩ := fgetc_byte h ht hrest
        obtain ⟨stream', hloop, hR⟩ := ih hR1 (done ++ [c]) tail (Nat.le_of_succ_le_succ hroom)
        simp only [hrest1, List.length_append, List.length_singleton] at hloop hR
        refine ⟨stream', ?_, ?_⟩
        · rw [fgetsLoop, hfgetc]
          simp only [bind_some, storeAt_append, hloop, List.length_cons]
          simp [Nat.add_min_add_right, Nat.add_assoc, Nat.add_comm 1]
        · rw [List.length_cons, Nat.add_min_add_right, Nat.add_comm _ 1, ← Nat.add_assoc]
          exact hR

theorem readlineLoop_eq (n : Nat) (last : UInt8) (done tail : List UInt8) {rest : List UInt8}
    (hroom : n ≤ tail.length) (hrest : t.content.drop t.position = rest) :
    ∃ c k stream', readlineLoop fgetc n done.length last (done ++ tail) stream =
        some ((c, done.length + k, done ++ rest.take k ++ tail.drop k), stream') ∧
      k ≤ rest.length ∧ (∀ j < k, rest[j]? ≠ some newline ∧ rest[j]? ≠ some eofChar) ∧
      (k = n ∨
        k < n ∧ rest[k]? = some c ∧ (c = newline ∨ c = eofChar) ∧
          R stream' { t with position := t.position + (k + 1) } ∨
        k < n ∧ k = rest.length ∧ c = eofChar ∧ R stream' { t with position := t.position + k }) := by
  induction n generalizing stream t done tail rest last with
  | zero => exact ⟨last, 0, stream, by simp [readlineLoop], by simp, by simp, .inl rfl⟩
  | succ n ih =>
    cases rest with
    | nil =>
      obtain ⟨stream', hfgetc, hR⟩ := fgetc_end h ht hrest
      refine ⟨eofChar, 0, stream', ?_, by simp, by simp, .inr (.inr ⟨by omega, rfl, rfl, hR⟩)⟩
      simp [readlineLoop, hfgetc]
    | cons b rest =>
      obtain ⟨stream1, hfgetc, hR1, hrest1⟩ := fgetc_byte h ht hrest
      by_cases hstop : b = newline ∨ b = eofChar
      · refine ⟨b, 0, stream1, ?_, by simp, by simp, .inr (.inl ⟨by omega, rfl, hstop, hR1⟩)⟩
        simp [readlineLoop, hfgetc, hstop]
      · cases tail with
        | nil => exact absurd hroom (by simp)
        | cons x tail =>
          obtain ⟨c, k, stream', hloop, hle, hnot, hcases⟩ :=
            ih hR1 b (done ++ [b]) tail (Nat.le_of_succ_le_succ hroom) hrest1
          refine ⟨c, k + 1, stream', ?_, by simpa using hle, ?_, ?_⟩
          · rw [List.length_append, List.length_singleton] at hloop
            rw [readlineLoop, hfgetc]
            simp only [bind_some, Option.getD_some, if_neg hstop, storeAt_append, hloop]
            simp [Nat.add_assoc, Nat.add_comm 1]
          · intro j hj
            cases j with
            | zero => simpa using not_or.1 hstop
            | succ j => simpa using hnot j (Nat.lt_of_succ_lt_succ hj)
          · rcases hcases with rfl | ⟨hlt, hc, hstop', hR⟩ | ⟨hlt, hend, hc, hR⟩
            · exact .inl rfl
            · refine .inr (.inl ⟨by omega, by simpa using hc, hstop', ?_⟩)
              rw [Nat.add_comm (k + 1) 1, ← Nat.add_assoc]
              exact hR
            · refine .inr (.inr ⟨by omega, by simp [hend], hc, ?_⟩)
              rw [Nat.add_comm k 1, ← Nat.add_assoc]
              exact hR

end

/-! ## The first newline -/

section

variable {rest : List UInt8} {n k : Nat}

theorem takeWhile_newline (hnot : ∀ j < k, rest[j]? ≠ some newline) (hk : rest[k]? = some newline) :
    rest.takeWhile (· ≠ newline) = rest.take k := by
  obtain ⟨hlt, hget⟩ := List.getElem?_eq_some_iff.1 hk
  have hsplit : rest = rest.take k ++ newline :: rest.drop (k + 1) := by
    rw [← hget, List.getElem_cons_drop, List.take_append_drop]
  have hall : ∀ b ∈ rest.take k, decide (b ≠ newline) = true := by
    intro b hb
    obtain ⟨j, hj, rfl⟩ := List.getElem_of_mem hb
    rw [length_take] at hj
    rw [decide_eq_true_eq, List.getElem_take]
    intro heq
    refine hnot j (by omega) ?_
    rw [List.getElem?_eq_getElem (by omega), heq]
  conv_lhs => rw [hsplit]
  rw [List.takeWhile_append_of_pos hall, List.takeWhile_cons_of_neg (by simp), List.append_nil]

theorem fgetsBytes_eq (n : Nat) (rest : List UInt8) :
    fgetsBytes n rest = rest.take (min (n - 1) ((rest.takeWhile (· ≠ newline)).length + 1)) := by
  have hline : rest.takeWhile (· ≠ newline) ++ (rest.dropWhile (· ≠ newline)).take 1 =
      rest.take ((rest.takeWhile (· ≠ newline)).length + 1) := by
    conv_rhs => rw [← List.takeWhile_append_dropWhile (p := (· ≠ newline)) (l := rest)]
    rw [List.take_append]
    simp
  rw [fgetsBytes, hline, List.take_take]

theorem getElem?_takeWhile_length (h : (rest.takeWhile (· ≠ newline)).length < rest.length) :
    rest[(rest.takeWhile (· ≠ newline)).length]? = some newline := by
  induction rest with
  | nil => exact absurd h (by simp)
  | cons b rest ih =>
    by_cases hb : b = newline
    · simp [hb]
    · simp only [ne_eq, hb, not_false_eq_true, decide_true, List.takeWhile_cons_of_pos,
        List.length_cons, List.getElem?_cons_succ] at h ⊢
      exact ih (Nat.lt_of_succ_lt_succ h)

end

/-! ## When the functions are right -/

variable {buffer : List UInt8}

section

variable (h : Simulates R fgetc fun t => some t.get)
include h

theorem fgets_eq (ht : R stream t) (hbuffer : buffer ≠ []) {stored : List UInt8}
    (hstored : stored = (t.content.drop t.position).take (buffer.length - 1)) :
    ∃ stream', fgets fgetc buffer.length buffer stream =
        some ((false, stored ++ 0 :: buffer.drop (stored.length + 1)), stream') ∧
      R stream' { t with position := t.position + stored.length } ∧ stored.length < buffer.length := by
  have hpos : 0 < buffer.length := List.length_pos_of_ne_nil hbuffer
  obtain ⟨stream', hloop, hR⟩ :=
    fgetsLoop_eq h ht (buffer.length - 1) [] buffer (Nat.sub_le ..)
  have hlength : stored.length = min (buffer.length - 1) (t.content.drop t.position).length := by
    rw [hstored, length_take]
  rw [← hlength] at hloop hR
  have hlt : stored.length < buffer.length := by omega
  refine ⟨stream', ?_, hR, hlt⟩
  rw [List.length_nil, nil_append, nil_append, ← hstored, Nat.zero_add,
    ← List.getElem_cons_drop hlt] at hloop
  rw [fgets, hloop, bind_some, storeAt_append, map_some, List.append_assoc]
  rfl

theorem fgets_readsLine_iff (hunique : ∀ stream t t', R stream t → R stream t' → t = t')
    (ht : R stream t) (hbuffer : buffer ≠ []) :
    ReadsLine R (fgets fgetc buffer.length buffer stream) buffer t
        (fgetsBytes buffer.length (t.content.drop t.position))
        (fgetsBytes buffer.length (t.content.drop t.position)).length ↔
      FgetsFits buffer.length (t.content.drop t.position) := by
  obtain ⟨stream', hfgets, hR, hlt⟩ := fgets_eq h ht hbuffer rfl
  generalize hrest : t.content.drop t.position = rest at *
  rw [fgetsBytes_eq]
  constructor
  · rintro ⟨eof, stream'', houtcome, -, hR', heof⟩
    obtain ⟨⟨rfl, -⟩, rfl⟩ : (false = eof ∧ _) ∧ stream' = stream'' := by
      simpa using hfgets.symm.trans houtcome
    have hposition := congrArg ByteStream.position (hunique _ _ _ hR hR')
    simp only [length_take] at hposition
    refine ⟨fun hnil => absurd (heof.2 (hrest.trans hnil)) (by simp), fun i hi hnewline => ?_⟩
    -- the line would end before the bytes that are stored
    have hle : (rest.takeWhile (· ≠ newline)).length ≤ i := by
      by_contra hlt
      have hmem := List.getElem_mem (l := rest.takeWhile (· ≠ newline)) (n := i) (by omega)
      have hne := List.mem_takeWhile_imp hmem
      have hget := (List.takeWhile_prefix (p := (· ≠ newline)) (l := rest)).getElem (i := i) (by omega)
      rw [List.getElem?_eq_getElem (by omega), Option.some_inj] at hnewline
      rw [hget, hnewline] at hne
      exact absurd hne (by simp)
    omega
  · rintro ⟨hne, hnewline⟩
    have hle : min (buffer.length - 1) rest.length ≤ (rest.takeWhile (· ≠ newline)).length + 1 := by
      by_contra hlt
      exact hnewline _ (by omega) (getElem?_takeWhile_length (by omega))
    have hsame : rest.take (min (buffer.length - 1) ((rest.takeWhile (· ≠ newline)).length + 1)) =
        rest.take (buffer.length - 1) := by
      rw [List.take_eq_take_iff]
      omega
    rw [hsame]
    exact ⟨false, stream', hfgets, hlt, hR, iff_of_false (by simp) fun hnil => hne (hrest.symm.trans hnil)⟩

theorem readline_readsLine_iff (ht : R stream t) (hbuffer : buffer ≠ []) :
    ReadsLine R (readline fgetc buffer buffer.length stream) buffer t
        (readlineBytes buffer.length (t.content.drop t.position))
        (readlineTaken buffer.length (t.content.drop t.position)) ↔
      ReadlineFits buffer.length (t.content.drop t.position) := by
  have hpos : 0 < buffer.length := List.length_pos_of_ne_nil hbuffer
  obtain ⟨c, k, stream', hloop, hle, hnot, hcases⟩ :=
    readlineLoop_eq h ht buffer.length 0 [] buffer le_rfl rfl
  simp only [List.length_nil, nil_append, Nat.zero_add] at hloop
  unfold ReadsLine
  generalize hrest : t.content.drop t.position = rest at *
  -- what `readline` returns where it does not fill the buffer
  have houtcome : ∀ (hlt : k < buffer.length), readline fgetc buffer buffer.length stream =
      some ((c == eofChar, rest.take k ++ 0 :: buffer.drop (k + 1)), stream') := by
    intro hlt
    rw [← List.getElem_cons_drop hlt] at hloop
    have hlength : (rest.take k).length = k := by
      rw [length_take]
      omega
    have hstore := storeAt_append (rest.take k) buffer[k] 0 (buffer.drop (k + 1))
    rw [hlength] at hstore
    rw [readline, if_neg (by omega), hloop, bind_some, hstore, map_some,
      List.append_assoc]
    rfl
  constructor
  · rintro ⟨eof, stream'', heq, -, -, heof⟩
    rcases hcases with rfl | ⟨hlt, hc, hstop, -⟩ | ⟨hlt, hend, rfl, -⟩
    · -- the NUL has no room
      have hlength : (rest.take buffer.length ++ buffer.drop buffer.length).length = buffer.length := by
        rw [List.drop_length, List.append_nil, length_take]
        omega
      have hstore := storeAt_length (rest.take buffer.length ++ buffer.drop buffer.length) 0
      rw [hlength] at hstore
      rw [readline, if_neg (by omega), hloop, bind_some, hstore] at heq
      exact absurd heq (by simp)
    · rw [houtcome hlt] at heq
      obtain ⟨⟨rfl, -⟩, -⟩ : ((c == eofChar) = eof ∧ _) ∧ stream' = stream'' := by simpa using heq
      have hne : rest ≠ [] := by
        rintro rfl
        exact absurd hc (by simp)
      rcases hstop with rfl | rfl
      · exact .inr ⟨k, hlt, hc, fun j hj => (hnot j hj).2⟩
      · exact absurd (heof.1 (by simp)) hne
    · rw [houtcome hlt] at heq
      obtain ⟨⟨rfl, -⟩, -⟩ : ((eofChar == eofChar) = eof ∧ _) ∧ stream' = stream'' := by
        simpa using heq
      exact .inl (heof.1 (by simp))
  · rintro (rfl | ⟨i, hi, hnewline, hbefore⟩)
    · obtain rfl : k = 0 := by simpa using hle
      rcases hcases with hk | ⟨-, hc, -⟩ | ⟨hlt, -, rfl, hR⟩
      · omega
      · exact absurd hc (by simp)
      · exact ⟨true, stream', by simpa [readlineBytes] using houtcome hlt, by simpa [readlineBytes],
          by simpa [readlineTaken, readlineBytes] using hR, by simp⟩
    · have hki : k ≤ i := by
        by_contra hlt
        exact (hnot i (by omega)).1 hnewline
      rcases hcases with hk | ⟨hlt, hc, hstop, hR⟩ | ⟨hlt, hend, -⟩
      · omega
      · obtain rfl : c = newline := by
          refine hstop.resolve_right ?_
          rintro rfl
          rcases Nat.lt_or_eq_of_le hki with hlti | rfl
          · exact hbefore k hlti hc
          · exact absurd (hc.symm.trans hnewline) (by decide)
        have hbytes : readlineBytes buffer.length rest = rest.take k := by
          rw [readlineBytes, takeWhile_newline (fun j hj => (hnot j hj).1) hc, List.take_take,
            Nat.min_eq_right (by omega)]
        have hlength : (rest.take k).length = k := by
          rw [length_take]
          omega
        refine ⟨false, stream', ?_, by rwa [hbytes, hlength], ?_, ?_⟩
        · rw [hbytes, hlength]
          exact houtcome hlt
        · rw [readlineTaken, hbytes, hlength, if_pos hc]
          exact hR
        · refine iff_of_false (by simp) ?_
          rintro rfl
          exact absurd hc (by simp)
      · obtain ⟨hlt', -⟩ := List.getElem?_eq_some_iff.1 hnewline
        omega

end

end

/-! ## Streams open for reading -/

namespace FILE

variable {s : FILE} {t t' : ByteStream}

/-- The stream stands for the file and is open for reading, with a buffer or without one. -/
structure ReadsFrom (s : FILE) (t : ByteStream) : Prop where
  modeRead : s.modeRead = true
  modeWrite : s.directionWrite = true → s.modeWrite = true
  stands : { s with modeWrite := true }.Represents t ∨
    s.Unbuffered ∧ t = ⟨s.backend.content, s.backend.position⟩

theorem Represents.unique (h : s.Represents t) (h' : s.Represents t') : t = t' := by
  obtain ⟨content, position⟩ := t
  obtain ⟨content', position'⟩ := t'
  rcases h.holds with hread | hcollect <;> rcases h'.holds with hread' | hcollect'
  · have hcontent := hread.content_eq.symm.trans hread'.content_eq
    have hposition := hread.position_eq.symm.trans hread'.position_eq
    simp only at hcontent hposition
    rw [hcontent, show position = position' by omega]
  · exact absurd (hread.directionRead.symm.trans hcollect'.directionRead) (by simp)
  · exact absurd (hread'.directionRead.symm.trans hcollect.directionRead) (by simp)
  · have hcontent := hcollect.content_eq.trans hcollect'.content_eq.symm
    have hposition := hcollect.position_eq.trans hcollect'.position_eq.symm
    simp only at hcontent hposition
    rw [hcontent, hposition]

theorem ReadsFrom.unique (h : s.ReadsFrom t) (h' : s.ReadsFrom t') : t = t' := by
  rcases h.stands with hrep | ⟨hunbuffered, rfl⟩ <;> rcases h'.stands with hrep' | ⟨hunbuffered', rfl⟩
  · exact hrep.unique hrep'
  · exact absurd hunbuffered'.mode (hrep.buffered hunbuffered'.bufferSet).1
  · exact absurd hunbuffered.mode (hrep'.buffered hunbuffered.bufferSet).1
  · rfl

theorem initBuffer_modeWrite (b : Bool) :
    ({ s with modeWrite := b } : FILE).initBuffer = { s.initBuffer with modeWrite := b } := by
  unfold FILE.initBuffer
  split_ifs <;> rfl

theorem fillBuffer_modeWrite (b : Bool) : ({ s with modeWrite := b } : FILE).fillBuffer =
    s.fillBuffer.map fun r => (r.1, { r.2 with modeWrite := b }) := by
  unfold FILE.fillBuffer
  dsimp only
  split_ifs <;> rfl

theorem takeByte_modeWrite (b : Bool) : ({ s with modeWrite := b } : FILE).takeByte =
    s.takeByte.map fun r => (r.1, { r.2 with modeWrite := b }) := by
  unfold FILE.takeByte
  rw [Option.map_map]
  rfl

theorem fgetc_modeWrite (hwrite : s.directionWrite = false)
    (hmode : s.initBuffer.bufferMode ≠ .unbuffered) (b : Bool) :
    ({ s with modeWrite := b } : FILE).fgetc =
      s.fgetc.map fun r => (r.1, { r.2 with modeWrite := b }) := by
  have hinit : s.initBuffer.directionWrite = false := by
    unfold FILE.initBuffer
    split_ifs
    · exact hwrite
    · exact hwrite
  unfold FILE.fgetc
  rw [initBuffer_modeWrite]
  generalize s.initBuffer = s at *
  have hflush : s.fflushWrite = some (true, s) := if_pos hinit
  have hflush' : ({ s with modeWrite := b } : FILE).fflushWrite = some (true, { s with modeWrite := b }) :=
    if_pos hinit
  simp only [if_neg hmode, hflush, hflush', bind_some, Bool.true_eq_false, if_false]
  split_ifs with hempty
  · have hfill := fillBuffer_modeWrite (s := { s with directionRead := true }) b
    rw [hfill, Option.bind_map, Option.map_bind]
    congr 1
    funext q
    simp only [Function.comp_apply]
    split_ifs
    · rfl
    · exact takeByte_modeWrite b
  · exact takeByte_modeWrite (s := { s with directionRead := true }) b

theorem fgetc_directionWrite {c : Option UInt8} {s' : FILE} (hwrite : s.directionWrite = false)
    (hmode : s.initBuffer.bufferMode ≠ .unbuffered) (h : s.fgetc = some (c, s')) :
    s'.directionWrite = false := by
  have hinit : s.initBuffer.directionWrite = false := by
    unfold FILE.initBuffer
    split_ifs
    · exact hwrite
    · exact hwrite
  unfold FILE.fgetc at h
  generalize s.initBuffer = s at *
  have hflush : s.fflushWrite = some (true, s) := if_pos hinit
  have htake : ∀ {q q' : FILE} {c : Option UInt8}, q.takeByte = some (c, q') →
      q'.directionWrite = q.directionWrite := by
    intro q q' c htake
    obtain ⟨byte, -, heq⟩ := Option.map_eq_some_iff.1 htake
    rw [← (Prod.mk.inj heq).2]
  simp only [if_neg hmode, hflush, bind_some, Bool.true_eq_false, if_false] at h
  split_ifs at h with hempty
  · obtain ⟨q, hfill, hrest⟩ := Option.bind_eq_some_iff.1 h
    have hq : q.2.directionWrite = false := by
      unfold FILE.fillBuffer at hfill
      dsimp only at hfill
      split_ifs at hfill <;> obtain rfl := Option.some.inj hfill <;> exact hinit
    split_ifs at hrest
    · rw [← (Prod.mk.inj (Option.some.inj hrest)).2]
      exact hq
    · rw [htake hrest]
      exact hq
  · rw [htake h]
    exact hinit

theorem readDirect_one (b : Backend) : ∃ b', readDirect 1 [] b =
    some ((b.content.drop b.position).take 1, b') ∧ b'.content = b.content ∧
      b'.position = b.position + ((b.content.drop b.position).take 1).length := by
  obtain ⟨n, hn, hle, hpos, hread⟩ := Backend.read_eq 1 b
  by_cases hend : b.content.length ≤ b.position
  · have hnil := List.drop_eq_nil_of_le hend
    obtain rfl : n = 0 := by omega
    refine ⟨(b.read 1).2, ?_, by rw [hread], by rw [hread, hnil]; rfl⟩
    rw [readDirect, if_pos (by simp), dif_pos (by rw [hread]; simp), hnil, List.take_nil]
  · obtain rfl : n = 1 := by
      omega
    have hlength : ((b.content.drop b.position).take 1).length = 1 := by
      rw [length_take, List.length_drop]
      omega
    refine ⟨(b.read 1).2, ?_, by rw [hread], by rw [hread, hlength]⟩
    have hbytes : (b.read 1).1 = (b.content.drop b.position).take 1 := by rw [hread]
    have hne : (b.read 1).1 ≠ [] := by
      rw [hbytes]
      exact List.ne_nil_of_length_pos (by omega)
    rw [readDirect, if_pos (by simp), dif_neg hne, if_neg (by rw [hbytes, hlength]; simp),
      nil_append, hbytes, readDirect, if_neg (by omega)]

theorem Unbuffered.fgetc (h : s.Unbuffered) (hmode : s.modeRead = true) :
    ∃ s', s.fgetc = some ((s.backend.content.drop s.backend.position).head?, s') ∧ s'.Unbuffered ∧
      s'.modeRead = true ∧ s'.backend.content = s.backend.content ∧
      s'.backend.position =
        s.backend.position + ((s.backend.content.drop s.backend.position).take 1).length := by
  obtain ⟨b, hread, hcontent, hposition⟩ := readDirect_one s.backend
  have hfile := h.inFile
  unfold FILE.fgetc
  simp only [h.initBuffer_eq, h.mode, if_true, hmode, Bool.true_eq_false, if_false]
  unfold FILE.freadUnbuffered
  rw [h.fflushWrite, bind_some, if_neg (by simp), Nat.mod_eq_of_lt (by omega), Nat.mul_one, hread]
  refine ⟨{ s with
    directionWrite := false, bufferedBytesWrite := 0, backend := b, directionRead := true },
    ?_, ?_, hmode, hcontent, hposition⟩
  · simp only [map_some]
    cases hrest : s.backend.content.drop s.backend.position <;> simp
  · exact
      { bufferSet := h.bufferSet
        mode := h.mode
        write_eq := rfl
        read_eq := h.read_eq
        offset_eq := h.offset_eq
        modeRead := fun _ => hmode
        modeWrite := fun hfalse => absurd hfalse (by simp)
        inFile := by
          rw [hposition, hcontent, length_take, List.length_drop]
          omega }

theorem simulates_fgetc_reads : Simulates ReadsFrom FILE.fgetc fun t => some t.get := by
  intro s t h
  rcases h.stands with hrep | ⟨hunbuffered, rfl⟩
  · obtain ⟨c, s', t', hfgetc, hget, hrep'⟩ := simulates_fgetc _ t hrep
    have hmode : s.initBuffer.bufferMode ≠ .unbuffered := by
      obtain ⟨hinit, hset⟩ := hrep.initBuffer
      rw [initBuffer_modeWrite] at hinit hset
      exact (hinit.buffered hset).1
    by_cases hwrite : s.directionWrite = true
    · have hsame : ({ s with modeWrite := true } : FILE) = s := by
        rw [← h.modeWrite hwrite]
      have hsame' : ({ s' with modeWrite := true } : FILE) = s' := by
        rw [← hrep'.modeWrite]
      rw [hsame] at hfgetc
      exact ⟨c, s', t', hfgetc, hget, hrep'.modeRead, fun _ => hrep'.modeWrite, .inl (hsame' ▸ hrep')⟩
    · have hwrite : s.directionWrite = false := by simpa using hwrite
      rw [fgetc_modeWrite hwrite hmode] at hfgetc
      obtain ⟨⟨c0, s0⟩, hfgetc0, heq⟩ := Option.map_eq_some_iff.1 hfgetc
      obtain ⟨rfl, rfl⟩ := Prod.mk.inj heq
      refine ⟨c0, s0, t', hfgetc0, hget, hrep'.modeRead, fun htrue => ?_, .inl hrep'⟩
      rw [fgetc_directionWrite hwrite hmode hfgetc0] at htrue
      exact absurd htrue (by simp)
  · obtain ⟨s', hfgetc, h', hmode', hcontent, hposition⟩ := hunbuffered.fgetc h.modeRead
    refine ⟨_, s', ⟨s'.backend.content, s'.backend.position⟩, hfgetc, ?_, hmode', h'.modeWrite,
      .inr ⟨h', rfl⟩⟩
    rw [hcontent, hposition, List.head?_drop]
    unfold ByteStream.get
    cases hbyte : s.backend.content[s.backend.position]? with
    | none =>
      have hend := List.getElem?_eq_none_iff.1 hbyte
      simp [hbyte, List.drop_eq_nil_of_le hend]
    | some c =>
      obtain ⟨hlt, -⟩ := List.getElem?_eq_some_iff.1 hbyte
      have hlength : ((s.backend.content.drop s.backend.position).take 1).length = 1 := by
        rw [length_take, List.length_drop]
        omega
      simp only [hbyte, hlength]

/-! ## Lines of a stream -/

/-- On a stream open for reading `fgets` is right if and only if there is a byte and no newline before
the last one stored, and `readline` if and only if there is no byte, or a newline within the buffer's
length and no byte 0xFF before it. -/
theorem lines_read_iff (h : s.ReadsFrom t) (buffer : List UInt8) (hbuffer : 1 ≤ buffer.length) :
    (ReadsLine ReadsFrom (fgets FILE.fgetc buffer.length buffer s) buffer t
        (fgetsBytes buffer.length (t.content.drop t.position))
        (fgetsBytes buffer.length (t.content.drop t.position)).length ↔
      FgetsFits buffer.length (t.content.drop t.position)) ∧
    (ReadsLine ReadsFrom (readline FILE.fgetc buffer buffer.length s) buffer t
        (readlineBytes buffer.length (t.content.drop t.position))
        (readlineTaken buffer.length (t.content.drop t.position)) ↔
      ReadlineFits buffer.length (t.content.drop t.position)) := by
  have hne : buffer ≠ [] := List.ne_nil_of_length_pos hbuffer
  exact ⟨fgets_readsLine_iff simulates_fgetc_reads (fun _ _ _ => ReadsFrom.unique) h hne,
    readline_readsLine_iff simulates_fgetc_reads h hne⟩

/-- A stream that is open for reading these bytes, with a buffer of eight bytes. -/
def readStream (content : List UInt8) : FILE :=
  { (opened ⟨content, 0, fun _ => 8, 0⟩).setvbuf (List.replicate 8 0) .full with modeWrite := false }

theorem readStream_readsFrom (content : List UInt8) : (readStream content).ReadsFrom ⟨content, 0⟩ where
  modeRead := rfl
  modeWrite hfalse := absurd hfalse (by simp [readStream, opened, setvbuf])
  stands := by
    refine .inl ⟨.inr ?_, rfl, rfl, fun _ => ⟨by simp [readStream, setvbuf], by
      simp [readStream, setvbuf]⟩, Nat.zero_le _⟩
    exact ⟨rfl, fun _ => rfl, fun _ => rfl, rfl, rfl, Nat.zero_le _,
      by simp [readStream, setvbuf, opened], rfl⟩

theorem lines_read_one :
    ReadsLine ReadsFrom (fgets FILE.fgetc 4 [0, 0, 0, 0] (readStream [97, 10])) [0, 0, 0, 0]
        ⟨[97, 10], 0⟩ [97, 10] 2 ∧
      ReadsLine ReadsFrom (readline FILE.fgetc [0, 0, 0, 0] 4 (readStream [97, 10])) [0, 0, 0, 0]
        ⟨[97, 10], 0⟩ [97] 2 := by
  obtain ⟨hfgets, hreadline⟩ :=
    lines_read_iff (readStream_readsFrom [97, 10]) [0, 0, 0, 0] (by decide)
  refine ⟨hfgets.2 ⟨by simp, fun i hi => ?_⟩, hreadline.2 (.inr ⟨1, by decide, rfl, ?_⟩)⟩
  · obtain rfl : i = 0 := by
      simp at hi
      omega
    decide
  · intro j hj
    obtain rfl : j = 0 := by omega
    decide

/-- `fgets` does not stop behind the first of two lines, and `readline` takes the byte 0xFF for the end
of the file. -/
theorem lines_read_wrong :
    ¬ ReadsLine ReadsFrom (fgets FILE.fgetc 4 [0, 0, 0, 0] (readStream [10, 97])) [0, 0, 0, 0]
        ⟨[10, 97], 0⟩ [10] 1 ∧
      ¬ ReadsLine ReadsFrom (readline FILE.fgetc [0, 0, 0, 0] 4 (readStream [255, 10])) [0, 0, 0, 0]
        ⟨[255, 10], 0⟩ [255] 2 := by
  have hbuffer : ([0, 0, 0, 0] : List UInt8) ≠ [] := by simp
  constructor
  · intro hfgets
    have hfits := (fgets_readsLine_iff simulates_fgetc_reads (fun _ _ _ => ReadsFrom.unique)
      (readStream_readsFrom [10, 97]) hbuffer).1 hfgets
    exact hfits.2 0 (by decide) rfl
  · intro hreadline
    rcases (readline_readsLine_iff simulates_fgetc_reads (readStream_readsFrom [255, 10])
      hbuffer).1 hreadline with hnil | ⟨i, hi, hnewline, hbefore⟩
    · exact absurd hnil (by simp)
    · cases i with
      | zero => exact absurd hnewline (by decide)
      | succ i => exact hbefore 0 (Nat.succ_pos i) rfl

end FILE

end LibC
