import MeetixOS.LibC.Stdio

/-! # Unbuffered streams

`fread` and `fwrite` of a stream without buffering call the backend until the request is done, and a call
may move fewer bytes than it is asked for. Every call asks for the whole request again, behind what is
already done: the loops are right where the transfers add up to the request without passing over it. -/

namespace LibC

open MeetixOS.Lib Backend

/-! ## Sums of transfers -/

theorem bmod_natCast_le (n m : Nat) : Int.bmod n m ≤ n := by
  have hmod : (n : Int) % m ≤ n := by
    exact Int.ofNat_le.2 (Nat.mod_le n m)
  rw [Int.bmod_def]
  split
  · exact hmod
  · exact (Int.sub_le_self _ (Int.natCast_nonneg m)).trans hmod

section

variable {β : Type} (call : β → Nat × β) {total done : Nat} {b : β}

/-- What the first `n` calls transfer. -/
def transferred : Nat → β → Nat
  | 0, _ => 0
  | n + 1, b => (call b).1 + transferred n (call b).2

/-- Behind `done` bytes, the transfers do not pass the total, and none starts behind what an `int` can
count. One of nothing ends them. -/
def Lands (total done : Nat) (b : β) : Prop :=
  ∀ n, done + transferred call n b < total →
    transferred call (n + 1) b = transferred call n b ∨
      done + transferred call (n + 1) b ≤ total ∧ done + transferred call n b < 2 ^ 31

variable {call}

theorem lands_iff : Lands call total done b ↔
    (done < total → (call b).1 = 0 ∨ done + (call b).1 ≤ total ∧ done < 2 ^ 31) ∧
      Lands call total (done + (call b).1) (call b).2 := by
  constructor
  · intro h
    refine ⟨fun hlt => by simpa [transferred] using h 0 hlt, ?_⟩
    intro n hn
    have := h (n + 1)
    simp only [transferred] at this hn ⊢
    omega
  · rintro ⟨hfirst, hrest⟩ n hn
    cases n with
    | zero => simpa [transferred] using hfirst hn
    | succ n =>
      have := hrest n
      simp only [transferred] at this hn ⊢
      omega

theorem lands_of_done (h : total ≤ done) : Lands call total done b := by
  intro n hn
  omega

end

/-! ## Reading -/

namespace Backend

variable {b : Backend} {total : Nat}

/-- A call that asks for `total` bytes. -/
def readCall (total : Nat) (b : Backend) : Nat × Backend :=
  ((b.read total).1.length, (b.read total).2)

theorem read_of_end (h : (b.read total).1 = []) (n : Nat) : transferred (readCall total) n b = 0 := by
  induction n generalizing b with
  | zero => rfl
  | succ n ih =>
    have hnext : ((b.read total).2.read total).1 = [] := by
      obtain ⟨k, -, -, hpos, heq⟩ := read_eq total b
      obtain ⟨l, hle, hle', -, heq'⟩ := read_eq total (b.read total).2
      rw [heq] at h heq' hle'
      rw [List.take_eq_nil_iff, List.drop_eq_nil_iff] at h
      rw [heq, heq', List.take_eq_nil_iff, List.drop_eq_nil_iff]
      simp only at hle' ⊢
      omega
    show (b.read total).1.length + transferred (readCall total) n (b.read total).2 = 0
    rw [ih hnext, h]
    rfl

end Backend

namespace FILE

theorem readDirect_isSome_iff (total : Nat) (done : List UInt8) (b : Backend) :
    (readDirect total done b).isSome = true ↔ Lands (readCall total) total done.length b := by
  fun_induction readDirect total done b with
  | case1 done b hlt r hend =>
    refine iff_of_true rfl ?_
    intro n hn
    rw [read_of_end hend, read_of_end hend]
    exact .inl rfl
  | case2 done b hlt r hmore hpass =>
    refine iff_of_false (by simp) ?_
    intro hlands
    have hpos : 0 < r.1.length := List.length_pos_of_ne_nil hmore
    have hfirst : r.1.length = 0 ∨ done.length + r.1.length ≤ total ∧ done.length < 2 ^ 31 :=
      (lands_iff.1 hlands).1 hlt
    omega
  | case3 done b hlt r hmore hpass ih =>
    have hstep : Lands (readCall total) total (done.length + r.1.length) r.2 ↔
        Lands (readCall total) total done.length b := by
      rw [lands_iff (b := b)]
      refine (and_iff_right fun _ => .inr ?_).symm
      show done.length + r.1.length ≤ total ∧ done.length < 2 ^ 31
      omega
    rw [ih, List.length_append, hstep]
  | case4 done b hge => exact iff_of_true rfl (lands_of_done (by omega))

theorem readDirect_spec {total : Nat} {done : List UInt8} {b : Backend} {d : List UInt8 × Backend}
    (hdone : done.length ≤ total) (h : readDirect total done b = some d) :
    ∃ n, d.1 = done ++ (b.content.drop b.position).take n ∧ d.1.length = done.length + n ∧
      d.1.length ≤ total ∧ d.2.position = b.position + n ∧ d.2.content = b.content ∧
      n ≤ b.content.length - b.position := by
  fun_induction readDirect total done b with
  | case1 done b hlt r hend =>
    obtain rfl := Option.some.inj h
    obtain ⟨n, -, hle, -, hread⟩ := read_eq total b
    have hr : r = b.read total := rfl
    rw [hread] at hr
    rw [hr] at hend
    have hzero : n = 0 := by
      have := congrArg List.length hend
      simp only [List.length_take, List.length_drop, List.length_nil] at this
      omega
    exact ⟨0, by simp, by simp, hdone, by simp [hr, hzero], by rw [hr], Nat.zero_le _⟩
  | case2 done b hlt r hmore hpass => exact absurd h (by simp)
  | case3 done b hlt r hmore hpass ih =>
    obtain ⟨k, -, hle, -, hread⟩ := read_eq total b
    have hr : r = b.read total := rfl
    rw [hread] at hr
    have hlen : r.1.length = k := by
      rw [hr]
      simp only [List.length_take, List.length_drop]
      omega
    obtain ⟨n, hbytes, hlength, hmost, hposition, hcontent, hrest⟩ :=
      ih (by rw [List.length_append]; omega) h
    rw [List.length_append, hlen] at hlength
    rw [hr] at hrest
    simp only at hrest
    refine ⟨k + n, ?_, by omega, hmost, ?_, by rw [hcontent, hr], by omega⟩
    · rw [hbytes, hr, List.append_assoc, List.take_add, List.drop_drop]
    · rw [hposition, hr]
      exact Nat.add_assoc _ _ _
  | case4 done b hge =>
    obtain rfl := Option.some.inj h
    exact ⟨0, by simp, rfl, hdone, rfl, rfl, Nat.zero_le _⟩

/-! ## Unbuffered streams -/

/-- An unbuffered stream: nothing is read ahead or collected, and it moved only in the directions it is
open for. -/
structure Unbuffered (s : FILE) : Prop where
  bufferSet : s.bufferSet = true
  mode : s.bufferMode = .unbuffered
  write_eq : s.bufferedBytesWrite = 0
  read_eq : s.bufferedBytesRead = 0
  offset_eq : s.bufferedBytesReadOffset = 0
  modeRead : s.directionRead = true → s.modeRead = true
  modeWrite : s.directionWrite = true → s.modeWrite = true
  inFile : s.backend.position ≤ s.backend.content.length

variable {s : FILE} {size count : Nat}

theorem Unbuffered.initBuffer_eq (h : s.Unbuffered) : s.initBuffer = s := by
  rw [FILE.initBuffer, if_pos h.bufferSet]

theorem Unbuffered.fflushWrite (h : s.Unbuffered) :
    s.fflushWrite = some (true, { s with directionWrite := false, bufferedBytesWrite := 0 }) := by
  unfold FILE.fflushWrite
  by_cases hwrite : s.directionWrite = false
  · rw [if_pos hwrite, ← hwrite, ← h.write_eq]
  · have hmode := h.modeWrite (by simpa using hwrite)
    rw [if_neg hwrite, hmode, if_neg (by simp), h.write_eq, if_neg (by omega), List.take_zero]
    simp [writeAll]

theorem Unbuffered.restorePosition (h : s.Unbuffered) :
    ∃ position ≤ s.backend.position, s.restorePosition = { s.backend with position := position } := by
  have hcur : s.backend.seekCur ≤ s.backend.position := bmod_natCast_le _ _
  unfold FILE.restorePosition
  simp only [h.read_eq, h.offset_eq, Nat.sub_self, Int.natCast_zero, Int.sub_zero]
  generalize s.backend.seekCur = current at hcur
  by_cases hpos : 0 ≤ current
  · rw [if_pos hpos, if_neg (Int.not_lt.2 hpos)]
    exact ⟨current.toNat, by omega, rfl⟩
  · rw [if_neg hpos]
    exact ⟨s.backend.position, le_refl _, rfl⟩

theorem Unbuffered.fflushRead (h : s.Unbuffered) :
    ∃ s' : FILE, s.fflushRead = (true, s') ∧ s'.Unbuffered ∧ s'.modeWrite = s.modeWrite ∧
      s'.backend.content = s.backend.content ∧ s'.backend.transfer = s.backend.transfer ∧
      s'.backend.calls = s.backend.calls := by
  unfold FILE.fflushRead
  by_cases hread : s.directionRead = false
  · rw [if_pos hread]
    exact ⟨s, rfl, h, rfl, rfl, rfl, rfl⟩
  · have hmode := h.modeRead (by simpa using hread)
    obtain ⟨position, hle, hback⟩ := h.restorePosition
    have hfile := h.inFile
    rw [if_neg hread, hmode, if_neg (by simp), hback]
    refine ⟨_, rfl, ?_, rfl, rfl, rfl, rfl⟩
    exact
      { bufferSet := h.bufferSet
        mode := h.mode
        write_eq := h.write_eq
        read_eq := rfl
        offset_eq := rfl
        modeRead := fun hfalse => absurd hfalse (by simp)
        modeWrite := h.modeWrite
        inFile := by
          show position ≤ s.backend.content.length
          omega }

/-! ## `fread` -/

/-- `fread` stores nothing outside of the `size * count` bytes, what it stores are the next bytes of the
    file, and it returns how many elements of them are complete. -/
def ReadsElements (s : FILE) (size count : Nat) : Prop :=
  ∃ n bytes s', s.fread size count = some ((n, bytes), s') ∧ n = bytes.length / size ∧
    bytes.length ≤ size * count ∧
    bytes = (s.backend.content.drop s.backend.position).take bytes.length ∧
    s'.backend.position = s.backend.position + bytes.length

theorem fread_unbuffered_iff (h : s.Unbuffered) (hmemory : size * count ≤ 0xC0000000) :
    s.ReadsElements size count ↔ size * count = 0 ∨
      s.modeRead = true ∧ Lands (readCall (size * count)) (size * count) 0 s.backend := by
  by_cases hnone : size = 0 ∨ count = 0
  · have hzero : size * count = 0 := Nat.mul_eq_zero.2 hnone
    refine iff_of_true ⟨0, [], s, ?_, by simp, by simp, by simp, by simp⟩ (.inl hzero)
    rw [FILE.fread, if_pos hnone]
  · have hpos : size * count ≠ 0 := fun hzero => hnone (Nat.mul_eq_zero.1 hzero)
    rw [or_iff_right hpos]
    unfold ReadsElements FILE.fread
    rw [if_neg hnone]
    by_cases hmode : s.modeRead = true
    · rw [hmode, if_neg (by simp), and_iff_right rfl]
      simp only [h.initBuffer_eq, h.mode, if_true]
      unfold FILE.freadUnbuffered
      rw [h.fflushWrite, Option.bind_some, if_neg (by simp), Nat.mod_eq_of_lt (by omega)]
      have hsome := readDirect_isSome_iff (size * count) [] s.backend
      rw [List.length_nil] at hsome
      rw [← hsome]
      constructor
      · rintro ⟨n, bytes, s', heq, -⟩
        rw [Option.map_eq_some_iff] at heq
        obtain ⟨d, hd, -⟩ := heq
        rw [show readDirect (size * count) [] s.backend = some d from hd]
        rfl
      · intro hdirect
        obtain ⟨d, hd⟩ := Option.isSome_iff_exists.1 hdirect
        obtain ⟨n, hbytes, hlength, hmost, hposition, -, -⟩ := readDirect_spec (Nat.zero_le _) hd
        rw [List.length_nil, Nat.zero_add] at hlength
        refine ⟨d.1.length / size, d.1, _, by rw [hd]; rfl, rfl, hmost, ?_, ?_⟩
        · rw [hlength]
          exact hbytes
        · rw [hlength]
          exact hposition
    · rw [if_pos (by simpa using hmode)]
      refine iff_of_false ?_ fun hboth => hmode hboth.1
      rintro ⟨n, bytes, s', heq, hn, -⟩
      obtain ⟨⟨rfl, rfl⟩, -⟩ : (eofCount = n ∧ [] = bytes) ∧ s = s' := by simpa using heq
      rw [List.length_nil, Nat.zero_div] at hn
      exact absurd hn (by decide)

/-! ## `fwrite` -/

end FILE

namespace Backend

variable {b c : Backend} {total most : Nat}

/-- What a call takes that is handed `total` bytes. -/
def writeCall (total : Nat) (b : Backend) : Nat × Backend :=
  (b.moved total, { b with calls := b.calls + 1 })

theorem moved_moved (b : Backend) (most : Nat) : b.moved (b.moved most) = b.moved most := by
  unfold moved
  split_ifs <;> omega

theorem transferred_writeCall (htransfer : b.transfer = c.transfer) (hcalls : b.calls = c.calls)
    (n : Nat) : transferred (writeCall total) n b = transferred (writeCall total) n c := by
  induction n generalizing b c with
  | zero => rfl
  | succ n ih =>
    have hmoved : b.moved total = c.moved total := by rw [moved, htransfer, hcalls, ← moved]
    have hrest := ih (b := { b with calls := b.calls + 1 }) (c := { c with calls := c.calls + 1 })
      htransfer (congrArg (· + 1) hcalls)
    show b.moved total + transferred _ n _ = c.moved total + transferred _ n _
    rw [hmoved]
    exact congrArg (c.moved total + ·) hrest

theorem write_moved {bytes : List UInt8} (h : bytes.length = b.moved total) :
    b.write bytes = (b.moved total,
      { b with
        content := overwrite b.content b.position bytes
        position := b.position + b.moved total
        calls := b.calls + 1 }) := by
  rw [write, h, moved_moved, List.take_of_length_le (by omega)]

end Backend

namespace FILE

variable {s : FILE} {size count : Nat}

theorem writeDirect_spec {data : List UInt8} {done : Nat} {b : Backend} (hdone : done ≤ data.length)
    (hfile : b.position ≤ b.content.length) :
    (Lands (writeCall data.length) data.length done b →
        ∃ b', writeDirect data data.length done b = some (some data.length, b') ∧
          b'.content = overwrite b.content b.position (data.drop done) ∧
          b'.position = b.position + (data.length - done)) ∧
      (¬ Lands (writeCall data.length) data.length done b →
        writeDirect data data.length done b = none) := by
  generalize htotal : data.length = total at hdone ⊢
  fun_induction writeDirect data total done b with
  | case1 done b hlt hpass =>
    refine ⟨fun hlands => ?_, fun _ => rfl⟩
    have hpos : 0 < b.moved total := b.moved_pos (by omega)
    have hfirst : b.moved total = 0 ∨ done + b.moved total ≤ total ∧ done < 2 ^ 31 :=
      (lands_iff.1 hlands).1 hlt
    omega
  | case2 done b hlt hpass r hzero =>
    have hlen : ((data.drop done).take (b.moved total)).length = b.moved total := by
      rw [List.length_take, List.length_drop]
      omega
    have hr : r = _ := write_moved hlen
    have hpos : 0 < b.moved total := b.moved_pos (by omega)
    rw [hr] at hzero
    exact absurd hzero (by simpa using Nat.pos_iff_ne_zero.1 hpos)
  | case3 done b hlt hpass r hmore ih =>
    have hlen : ((data.drop done).take (b.moved total)).length = b.moved total := by
      rw [List.length_take, List.length_drop]
      omega
    have hr : r = _ := write_moved hlen
    have hstep : Lands (writeCall total) total done b ↔
        Lands (writeCall total) total (done + r.1) r.2 := by
      rw [lands_iff, and_iff_right fun _ => .inr (by
        show done + b.moved total ≤ total ∧ done < 2 ^ 31
        omega), hr]
      unfold Lands
      simp [writeCall, transferred_writeCall (b := { b with calls := b.calls + 1 })
        (c := { b with
          content := overwrite b.content b.position ((data.drop done).take (b.moved total))
          position := b.position + b.moved total
          calls := b.calls + 1 }) rfl rfl]
    have hfile' : r.2.position ≤ r.2.content.length := by
      rw [hr]
      rw [length_overwrite hfile, hlen]
      exact Nat.le_max_right _ _
    have hr1 : r.1 = b.moved total := by rw [hr]
    obtain ⟨hright, hwrong⟩ := ih hfile' (by omega)
    rw [hstep]
    refine ⟨fun hlands => ?_, hwrong⟩
    obtain ⟨b', hrun, hcontent, hposition⟩ := hright hlands
    refine ⟨b', hrun, ?_, ?_⟩
    · have happ : overwrite (overwrite b.content b.position ((data.drop done).take (b.moved total))) _
          (data.drop (done + b.moved total)) = _ := overwrite_append hfile
      rw [hlen, ← List.drop_drop, List.take_append_drop] at happ
      rw [hcontent, hr1, ← happ, hr, List.drop_drop]
    · rw [hposition, hr]
      show b.position + b.moved total + (total - (done + b.moved total)) = _
      omega
  | case4 done b hge =>
    obtain rfl : done = total := by omega
    refine ⟨fun _ => ⟨b, rfl, ?_, by simp⟩, fun hnot => absurd (lands_of_done (le_refl _)) hnot⟩
    rw [← htotal, List.drop_length, overwrite_nil]

/-- `fwrite` reads nothing outside of the caller's bytes, replaces the bytes of the file by all of them
and returns how many elements they are. -/
def WritesElements (s : FILE) (data : List UInt8) (size count : Nat) : Prop :=
  ∃ s' position, s.fwrite data size count = some (data.length / size, s') ∧
    s'.backend.content = overwrite s.backend.content position data ∧
    s'.backend.position = position + data.length

theorem fwrite_unbuffered_iff {data : List UInt8} (h : s.Unbuffered) (hdata : data.length = size * count)
    (hmemory : size * count ≤ 0xC0000000) :
    s.WritesElements data size count ↔ size * count = 0 ∨
      s.modeWrite = true ∧ Lands (writeCall (size * count)) (size * count) 0 s.backend := by
  by_cases hnone : size = 0 ∨ count = 0
  · have hzero : size * count = 0 := Nat.mul_eq_zero.2 hnone
    obtain rfl : data = [] := List.eq_nil_of_length_eq_zero (by omega)
    refine iff_of_true ⟨s, s.backend.position, ?_, by simp, by simp⟩ (.inl hzero)
    rw [FILE.fwrite, if_pos hnone, List.length_nil, Nat.zero_div]
  · have hpos : size * count ≠ 0 := fun hzero => hnone (Nat.mul_eq_zero.1 hzero)
    rw [or_iff_right hpos]
    unfold WritesElements FILE.fwrite
    rw [if_neg hnone]
    by_cases hmode : s.modeWrite = true
    · rw [hmode, if_neg (by simp), and_iff_right rfl]
      simp only [h.initBuffer_eq, h.mode, if_true]
      unfold FILE.fwriteUnbuffered
      obtain ⟨s1, hflush, h1, -, hcontent, htransfer, hcalls⟩ := h.fflushRead
      simp only [hflush]
      rw [if_neg (by simp), Nat.mod_eq_of_lt (by omega), ← hdata]
      have hlands : Lands (writeCall data.length) data.length 0 s.backend ↔
          Lands (writeCall data.length) data.length 0 s1.backend := by
        unfold Lands
        simp only [transferred_writeCall htransfer.symm hcalls.symm]
      obtain ⟨hright, hwrong⟩ := writeDirect_spec (Nat.zero_le data.length) h1.inFile
      rw [hlands]
      constructor
      · rintro ⟨s', position, heq, -⟩
        by_contra hnot
        rw [hwrong hnot] at heq
        exact absurd heq (by simp)
      · intro hgood
        obtain ⟨b', hrun, hcontent', hposition'⟩ := hright hgood
        refine ⟨_, s1.backend.position, by rw [hrun]; rfl, ?_, hposition'⟩
        rw [← hcontent]
        exact hcontent'
    · rw [if_pos (by simpa using hmode)]
      refine iff_of_false ?_ fun hboth => hmode hboth.1
      rintro ⟨s', position, heq, -⟩
      have hn : eofCount = data.length / size := (Prod.mk.inj (Option.some.inj heq)).1
      have hle : data.length / size ≤ data.length := Nat.div_le_self _ _
      have heof : eofCount = 4294967295 := rfl
      omega

/-! ## Both directions -/

/-- An unbuffered `fread` or `fwrite` of some elements is right exactly where the stream is open for it
and the transfers of the calls, each of which asks for the whole request, add up to the request. -/
theorem unbuffered_transfers_iff (s : FILE) (data : List UInt8) (size count : Nat) (h : s.Unbuffered)
    (hdata : data.length = size * count) (hmemory : size * count ≤ 0xC0000000) :
    (s.ReadsElements size count ↔ size * count = 0 ∨
      s.modeRead = true ∧ Lands (readCall (size * count)) (size * count) 0 s.backend) ∧
    (s.WritesElements data size count ↔ size * count = 0 ∨
      s.modeWrite = true ∧ Lands (writeCall (size * count)) (size * count) 0 s.backend) :=
  ⟨fread_unbuffered_iff h hmemory, fwrite_unbuffered_iff h hdata hmemory⟩

theorem unbuffered_setvbuf (buffer : List UInt8) (hread : s.directionRead = true → s.modeRead = true)
    (hwrite : s.directionWrite = true → s.modeWrite = true)
    (hfile : s.backend.position ≤ s.backend.content.length) :
    (s.setvbuf buffer .unbuffered).Unbuffered :=
  ⟨rfl, rfl, rfl, rfl, rfl, hread, hwrite, hfile⟩

/-- A stream without buffering on four bytes, whose backend moves as many bytes as `transfer` says. -/
def unbufferedStream (transfer : Nat → Nat) : FILE :=
  (FILE.opened ⟨[1, 2, 3, 4], 0, transfer, 0⟩).setvbuf [] .unbuffered

theorem unbuffered_unbufferedStream (transfer : Nat → Nat) : (unbufferedStream transfer).Unbuffered :=
  unbuffered_setvbuf [] (fun _ => rfl) (fun _ => rfl) (Nat.zero_le _)

theorem unbuffered_transfers_at_once :
    (unbufferedStream fun _ => 8).ReadsElements 1 2 ∧
      (unbufferedStream fun _ => 8).WritesElements [7, 8] 1 2 := by
  obtain ⟨hread, hwrite⟩ := unbuffered_transfers_iff (unbufferedStream fun _ => 8) [7, 8] 1 2
    (unbuffered_unbufferedStream _) rfl (by decide)
  refine ⟨hread.2 (.inr ⟨rfl, ?_⟩), hwrite.2 (.inr ⟨rfl, ?_⟩)⟩
  · exact lands_iff.2 ⟨fun _ => .inr (by decide), lands_of_done (by decide)⟩
  · exact lands_iff.2 ⟨fun _ => .inr (by decide), lands_of_done (by decide)⟩

/-- The first call moves one byte of two, the second one, which is asked for two again, two more. -/
theorem unbuffered_transfer_split :
    ¬ (unbufferedStream fun call => call + 1).ReadsElements 1 2 ∧
      ¬ (unbufferedStream fun call => call + 1).WritesElements [7, 8] 1 2 := by
  have h := unbuffered_unbufferedStream fun call => call + 1
  refine ⟨fun hread => ?_, fun hwrite => ?_⟩
  · rcases (fread_unbuffered_iff h (by decide)).1 hread with hzero | ⟨-, hlands⟩
    · exact absurd hzero (by decide)
    · exact absurd (hlands 1) (by decide)
  · rcases (fwrite_unbuffered_iff h rfl (by decide)).1 hwrite with hzero | ⟨-, hlands⟩
    · exact absurd hzero (by decide)
    · exact absurd (hlands 1) (by decide)

end FILE

end LibC
