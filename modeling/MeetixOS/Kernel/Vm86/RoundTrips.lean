import Mathlib.Data.Nat.Bitwise
import MeetixOS.Kernel.Vm86.Virtual8086Monitor

/-! # Round trips through the stack

`INT` and the `IRET` at the start of its handler, `PUSHF` and `POPF`. The register and the linear pointer
part where the stack pointer wraps around: what is written below the start of the segment is then read
back from its end. `round_trips_iff` says that the round trips hold otherwise, and there only if the right
words happen to lie at the end of the segment. -/

namespace MeetixOS.Kernel

/-! ## Words in memory -/

variable {memory : Nat → UInt8}

theorem u32_ne_add {a k : Nat} (hpos : 0 < k) (hk : k < 2 ^ 32) : u32 a ≠ u32 (a + k) := by
  rw [u32, u32]
  omega

theorem u32_add_two_pow (a : Nat) : u32 (a + 2 ^ 32) = u32 a := by
  rw [u32, u32]
  omega

theorem setShort_of_ne {a b value : Nat} (hlow : b ≠ u32 a) (hhigh : b ≠ u32 (a + 1)) :
    setShort memory a value b = memory b := by
  rw [setShort, Function.update_of_ne hhigh, Function.update_of_ne hlow]

theorem shortAt_lt (a : Nat) : shortAt memory a < 2 ^ 16 := by
  rw [shortAt]
  have hlow := (memory (u32 a)).toNat_lt
  have hhigh := (memory (u32 (a + 1))).toNat_lt
  omega

theorem shortAt_setShort (a value : Nat) : shortAt (setShort memory a value) a = u16 value := by
  have hne : u32 a ≠ u32 (a + 1) := u32_ne_add (by decide) (by decide)
  rw [shortAt, setShort, Function.update_self, Function.update_of_ne hne, Function.update_self,
    UInt8.toNat_ofNat', UInt8.toNat_ofNat', Nat.shiftRight_eq_div_pow, u16]
  omega

variable {a top size ip : Nat}

theorem shortAt_congr {memory' : Nat → UInt8} (hlow : memory' (u32 a) = memory (u32 a))
    (hhigh : memory' (u32 (a + 1)) = memory (u32 (a + 1))) : shortAt memory' a = shortAt memory a := by
  rw [shortAt, shortAt, hlow, hhigh]

theorem shortAt_add_two_pow (a : Nat) : shortAt memory (a + 2 ^ 32) = shortAt memory a := by
  rw [shortAt, shortAt, u32_add_two_pow, Nat.add_right_comm, u32_add_two_pow]

theorem shortAt_setShort_of_lt {a b value : Nat} (hlt : a + 2 ≤ b) (hle : b + 2 ≤ a + 2 ^ 32) :
    shortAt (setShort memory b value) a = shortAt memory a := by
  refine shortAt_congr (setShort_of_ne ?_ ?_) (setShort_of_ne ?_ ?_)
  all_goals
    simp only [u32]
    omega

theorem shortAt_setShorts (memory : Nat → UInt8) (a v w x : Nat) :
    shortAt (setShort (setShort (setShort memory a v) (a + 2) w) (a + 4) x) a = u16 v ∧
      shortAt (setShort (setShort (setShort memory a v) (a + 2) w) (a + 4) x) (a + 2) = u16 w ∧
      shortAt (setShort (setShort (setShort memory a v) (a + 2) w) (a + 4) x) (a + 4) = u16 x := by
  refine ⟨?_, ?_, shortAt_setShort _ _⟩
  · rw [shortAt_setShort_of_lt (by omega) (by omega), shortAt_setShort_of_lt (by omega) (by omega),
      shortAt_setShort]
  · rw [shortAt_setShort_of_lt (by omega) (by omega), shortAt_setShort]

/-- The addresses of the `size` bytes below `top`. -/
def Below (top size a : Nat) : Prop := ∃ i < size, a = u32 (top + 2 ^ 32 - size + i)

theorem setShorts_of_not_below (v w x : Nat) (h : ¬ Below top 6 a) :
    setShort (setShort (setShort memory (top + 2 ^ 32 - 6) v) (top + 2 ^ 32 - 6 + 2) w)
      (top + 2 ^ 32 - 6 + 4) x a = memory a := by
  have hne : ∀ i < 6, a ≠ u32 (top + 2 ^ 32 - 6 + i) := fun i hi heq => h ⟨i, hi, heq⟩
  have hfirst : a ≠ u32 (top + 2 ^ 32 - 6) := by
    rw [← Nat.add_zero (top + 2 ^ 32 - 6)]
    exact hne 0 (by decide)
  rw [setShort_of_ne (hne 4 (by decide)) (hne 5 (by decide)),
    setShort_of_ne (hne 2 (by decide)) (hne 3 (by decide)),
    setShort_of_ne hfirst (hne 1 (by decide))]

instance (top size a : Nat) : Decidable (Below top size a) :=
  inferInstanceAs (Decidable (∃ i < size, _))

/-- The linear address is the one that was written, or one segment higher. -/
theorem linear_espDown (ss esp size : Nat) (hsize : size ≤ 2 ^ 16) :
    segmentOffsetToLinear ss (espDown esp size) + size =
      segmentOffsetToLinear ss esp + if size ≤ u16 esp then 0 else 2 ^ 16 := by
  rw [segmentOffsetToLinear, segmentOffsetToLinear, espDown]
  split
  all_goals
    simp only [u16, u32] at *
    omega

theorem u16_espUp_espDown (esp : Nat) (hsize : size ≤ 2 ^ 16) :
    u16 (espUp (espDown esp size) size) = u16 esp := by
  simp only [espUp, espDown, u16, u32]
  omega

theorem not_below_of_wrapped {top sp size : Nat} (hsize : size ≤ 2 ^ 16) (hsp : sp + size = top + 2 ^ 16)
    {i : Nat} (hi : i < 2 ^ 16) : ¬ Below top size (u32 (sp + i)) := by
  rintro ⟨j, hj, heq⟩
  simp only [u32] at heq
  omega

theorem shortAt_of_not_wrapped (memory : Nat → UInt8) {top sp size : Nat} (hsp : sp + size = top)
    (i : Nat) : shortAt memory (top + 2 ^ 32 - size + i) = shortAt memory (sp + i) := by
  rw [← shortAt_add_two_pow (sp + i)]
  congr 1
  omega

/-! ## Flags -/

theorem getIf_eq_testBit (flags : Nat) : getIf flags = flags.testBit 9 := by
  rw [getIf, eflagIf, Nat.one_shiftLeft, Nat.and_two_pow]
  cases flags.testBit 9 <;> simp

theorem getIf_u16 (flags : Nat) : getIf (u16 flags) = getIf flags := by
  rw [getIf_eq_testBit, getIf_eq_testBit, u16, Nat.testBit_mod_two_pow]
  simp

theorem getIf_setIf (cpuIf : Bool) (flags : Nat) : getIf (setIf cpuIf flags) = cpuIf := by
  rw [getIf_eq_testBit, setIf]
  cases cpuIf with
  | true =>
    have hflag : eflagIf.testBit 9 = true := by decide
    rw [if_pos rfl, Nat.testBit_or, hflag, Bool.or_true]
  | false =>
    rw [if_neg (by decide), Nat.testBit_and]
    have hmask : (2 ^ 32 - 1 - eflagIf).testBit 9 = false := by decide
    rw [hmask, Bool.and_false]

theorem getIf_longAt (a : Nat) : getIf (longAt memory a) = getIf (shortAt memory a) := by
  rw [getIf_eq_testBit, getIf_eq_testBit, longAt, Nat.add_comm,
    Nat.testBit_two_pow_mul_add _ (shortAt_lt a), if_pos (by decide)]

/-! ## Instructions in memory -/

/-- The bytes of instructions, from the address `ip` on. -/
def Code (memory : Nat → UInt8) (ip : Nat) (bytes : List UInt8) : Prop :=
  ∀ i b, bytes[i]? = some b → memory (u32 (ip + i)) = b

/-- An override of the operand or of the address size. -/
def IsOverride (b : UInt8) : Prop := b = 0x66 ∨ b = 0x67

instance (b : UInt8) : Decidable (IsOverride b) := inferInstanceAs (Decidable (_ ∨ _))

theorem code_cons {b : UInt8} {bytes : List UInt8} :
    Code memory ip (b :: bytes) ↔ memory (u32 ip) = b ∧ Code memory (ip + 1) bytes := by
  constructor
  · intro h
    refine ⟨h 0 b rfl, fun i c hc => ?_⟩
    rw [Nat.add_assoc, Nat.add_comm 1]
    exact h (i + 1) c hc
  · rintro ⟨hb, hrest⟩ i c hc
    cases i with
    | zero =>
      cases hc
      exact hb
    | succ i =>
      rw [← Nat.add_assoc, Nat.add_right_comm]
      exact hrest i c hc

theorem code_append {bytes more : List UInt8} (h : Code memory ip (bytes ++ more)) :
    Code memory (ip + bytes.length) more := by
  intro i b hb
  rw [Nat.add_assoc]
  refine h (bytes.length + i) b ?_
  rw [List.getElem?_append_right (Nat.le_add_right _ _), Nat.add_sub_cancel_left, hb]

variable {overrides rest : List UInt8}

theorem overrides_length_lt {opcode : UInt8}
    (hcode : Code memory ip (overrides ++ opcode :: rest)) (hoverrides : ∀ b ∈ overrides, IsOverride b)
    (hopcode : ¬ IsOverride opcode) : overrides.length < 2 ^ 32 := by
  by_contra hlong
  have hlast := (code_cons.1 (code_append hcode)).1
  have hlt : overrides.length - 2 ^ 32 < overrides.length := by omega
  have hfirst := hcode (overrides.length - 2 ^ 32) overrides[overrides.length - 2 ^ 32]
    (by rw [List.getElem?_append_left hlt, List.getElem?_eq_getElem hlt])
  have hsame : u32 (ip + overrides.length) = u32 (ip + (overrides.length - 2 ^ 32)) := by
    rw [← u32_add_two_pow (ip + (overrides.length - 2 ^ 32)), Nat.add_assoc ip,
      Nat.sub_add_cancel (Nat.le_of_not_lt hlong)]
  rw [hsame, hfirst] at hlast
  exact hopcode (hlast ▸ hoverrides _ (List.getElem_mem hlt))

namespace Vm86

variable {answer : List PortAccess → Nat} {m : Vm86}

variable {ip rounds sp length : Nat} {operands32 : Bool} {overrides : List UInt8} {n : UInt8}

theorem handleFrom_overrides (answer : List PortAccess → Nat) (sp : Nat) (operands32 : Bool)
    (hcode : Code m.memory ip (overrides ++ rest))
    (hoverrides : ∀ b ∈ overrides, IsOverride b) (hrounds : overrides.length < rounds) :
    ∃ eip, u16 eip = u16 (m.ctx.eip + overrides.length) ∧
      handleFrom answer sp rounds (u32 ip) operands32 m =
        handleFrom answer sp (rounds - overrides.length) (u32 (ip + overrides.length))
          (operands32 || overrides.contains 0x66) { m with ctx := { m.ctx with eip } } := by
  induction overrides generalizing m ip rounds operands32 with
  | nil => exact ⟨m.ctx.eip, rfl, by simp⟩
  | cons b overrides ih =>
    obtain ⟨rounds, rfl⟩ : ∃ k, rounds = k + 1 := ⟨rounds - 1, by omega⟩
    rw [List.cons_append] at hcode
    obtain ⟨hb, hcode⟩ := code_cons.1 hcode
    rw [List.length_cons] at hrounds ⊢
    obtain ⟨eip, heip, hrest⟩ := ih (m := m.skip 1) (operands32 || b == 0x66) hcode
      (fun c hc => hoverrides c (List.mem_cons_of_mem _ hc)) (Nat.lt_of_succ_lt_succ hrounds)
    refine ⟨eip, ?_, ?_⟩
    · rw [heip, skip]
      simp only [u16, u32]
      omega
    · have hround : handleFrom answer sp (rounds + 1) (u32 ip) operands32 m =
          handleFrom answer sp rounds (u32 (ip + 1)) (operands32 || b == 0x66) (m.skip 1) := by
        rw [handleFrom, hb, u32_add_u32]
        rcases hoverrides b List.mem_cons_self with rfl | rfl
        · rw [if_pos rfl]
          simp
        · rw [if_neg (by decide), if_pos rfl]
          simp
      rw [hround, hrest, Nat.add_sub_add_right, Nat.add_assoc ip, Nat.add_comm 1]
      simp only [skip, List.contains_cons, Bool.or_assoc, BEq.comm]

theorem handleGpf_overrides (answer : List PortAccess → Nat) {opcode : UInt8}
    (hcode : Code m.memory (segmentOffsetToLinear m.ctx.cs m.ctx.eip) (overrides ++ opcode :: rest))
    (hoverrides : ∀ b ∈ overrides, IsOverride b) (hopcode : ¬ IsOverride opcode) :
    ∃ eip rounds, u16 eip = u16 (m.ctx.eip + overrides.length) ∧
      m.memory (u32 (segmentOffsetToLinear m.ctx.cs m.ctx.eip + overrides.length)) = opcode ∧
      m.handleGpf answer =
        handleFrom answer (segmentOffsetToLinear m.ctx.ss m.ctx.esp) (rounds + 1)
          (u32 (segmentOffsetToLinear m.ctx.cs m.ctx.eip + overrides.length))
          (overrides.contains 0x66) { m with ctx := { m.ctx with eip } } := by
  have hlength := overrides_length_lt hcode hoverrides hopcode
  obtain ⟨eip, heip, hloop⟩ := handleFrom_overrides answer
    (segmentOffsetToLinear m.ctx.ss m.ctx.esp) false hcode hoverrides hlength
  refine ⟨eip, 2 ^ 32 - overrides.length - 1, heip, (code_cons.1 (code_append hcode)).1, ?_⟩
  have hip : u32 (segmentOffsetToLinear m.ctx.cs m.ctx.eip) =
      segmentOffsetToLinear m.ctx.cs m.ctx.eip := by
    refine u32_of_lt ?_
    rw [segmentOffsetToLinear, Nat.shiftLeft_eq, u16, u16]
    omega
  rw [hip, Bool.false_or] at hloop
  rw [handleGpf, hloop, Nat.sub_add_cancel (by omega)]

/-! ## `INT` and `IRET` -/

/-- `INT n` behind overrides, with a handler that starts with `IRET`. What is pushed lies apart from the
instructions and from the entry of the table. -/
structure IntSetup (m : Vm86) (overrides : List UInt8) (n : UInt8) : Prop where
  code : Code m.memory (segmentOffsetToLinear m.ctx.cs m.ctx.eip) (overrides ++ [0xCD, n])
  onlyOverrides : ∀ b ∈ overrides, IsOverride b
  handler : Code m.memory (segmentOffsetToLinear (farPtrSegment (ivtEntry m.memory n))
    (farPtrOffset (ivtEntry m.memory n))) [0xCF]
  cs_lt : m.ctx.cs < 2 ^ 16
  level_lt : m.information.interruptRecursionLevel < 2 ^ 32
  code_apart : ∀ i < overrides.length + 2, ¬ Below (segmentOffsetToLinear m.ctx.ss m.ctx.esp) 6
    (u32 (segmentOffsetToLinear m.ctx.cs m.ctx.eip + i))
  ivt_apart : ∀ i < 4, ¬ Below (segmentOffsetToLinear m.ctx.ss m.ctx.esp) 6
    (u32 (4 * n.toNat + i))
  handler_apart : ¬ Below (segmentOffsetToLinear m.ctx.ss m.ctx.esp) 6
    (u32 (segmentOffsetToLinear (farPtrSegment (ivtEntry m.memory n))
      (farPtrOffset (ivtEntry m.memory n))))

/-- The state in which the handler starts, behind an `INT` of `length` bytes. -/
structure Called (m : Vm86) (length : Nat) (n : UInt8) (called : Vm86) : Prop where
  ss : called.ctx.ss = m.ctx.ss
  esp : called.ctx.esp = espDown m.ctx.esp 6
  cs : called.ctx.cs = farPtrSegment (ivtEntry m.memory n)
  eip : called.ctx.eip = farPtrOffset (ivtEntry m.memory n)
  level : called.information.interruptRecursionLevel =
    u32 (m.information.interruptRecursionLevel + 1)
  pushedEip : shortAt called.memory (segmentOffsetToLinear m.ctx.ss m.ctx.esp + 2 ^ 32 - 6) =
    u16 (m.ctx.eip + length)
  pushedCs : shortAt called.memory (segmentOffsetToLinear m.ctx.ss m.ctx.esp + 2 ^ 32 - 6 + 2) =
    u16 m.ctx.cs
  pushedIf : getIf (shortAt called.memory
    (segmentOffsetToLinear m.ctx.ss m.ctx.esp + 2 ^ 32 - 6 + 4)) = m.information.cpuIf
  same : ∀ a, ¬ Below (segmentOffsetToLinear m.ctx.ss m.ctx.esp) 6 a → called.memory a = m.memory a

theorem handleFrom_int (h : m.memory ip = 0xCD) :
    handleFrom answer sp (rounds + 1) ip operands32 m = some (.successful, m.int sp ip) := by
  rw [handleFrom, h]
  rfl

theorem handleFrom_iret (h : m.memory ip = 0xCF) :
    handleFrom answer sp (rounds + 1) ip operands32 m = some (m.iret sp) := by
  rw [handleFrom, h]
  rfl

theorem IntSetup.called (answer : List PortAccess → Nat) (h : IntSetup m overrides n) :
    ∃ called, m.handleGpf answer = some (.successful, called) ∧
      Called m (overrides.length + 2) n called := by
  obtain ⟨eip, rounds, heip, hopcode, hloop⟩ :=
    handleGpf_overrides answer h.code h.onlyOverrides (by decide)
  rw [handleFrom_int (m := { m with ctx := { m.ctx with eip } }) hopcode] at hloop
  refine ⟨_, hloop, ?_⟩
  set sp := segmentOffsetToLinear m.ctx.ss m.ctx.esp with hsp
  set ip := segmentOffsetToLinear m.ctx.cs m.ctx.eip + overrides.length with hip
  obtain ⟨hpushedEip, hpushedCs, hpushedFlags⟩ := shortAt_setShorts m.memory
    (sp + 2 ^ 32 - 6) (u16 (eip + 2)) (u16 m.ctx.cs) (setIf m.information.cpuIf (u16 m.ctx.eflags))
  have hsame : ∀ a, ¬ Below sp 6 a → _ = m.memory a := fun a ha =>
    setShorts_of_not_below (u16 (eip + 2)) (u16 m.ctx.cs)
      (setIf m.information.cpuIf (u16 m.ctx.eflags)) ha
  -- the number of the interrupt and its entry are read behind the writes to the stack
  have hnumber : m.memory (u32 (u32 ip + 1)) = n := by
    rw [u32_add_u32]
    exact (code_cons.1 (code_cons.1 (code_append h.code)).2).1
  have hnumberApart : ¬ Below sp 6 (u32 (u32 ip + 1)) := by
    rw [u32_add_u32, hip, Nat.add_assoc]
    exact h.code_apart _ (by omega)
  have hentry : ∀ memory' : Nat → UInt8, (∀ a, ¬ Below sp 6 a → memory' a = m.memory a) →
      ivtEntry memory' (memory' (u32 (u32 ip + 1))) = ivtEntry m.memory n := by
    intro memory' hsame
    have hlow : shortAt memory' (4 * n.toNat) = shortAt m.memory (4 * n.toNat) :=
      shortAt_congr (hsame _ (h.ivt_apart 0 (by decide))) (hsame _ (h.ivt_apart 1 (by decide)))
    have hhigh := shortAt_congr (hsame _ (h.ivt_apart 2 (by decide))) (hsame _ (h.ivt_apart 3 (by decide)))
    rw [hsame _ hnumberApart, hnumber, ivtEntry, ivtEntry, longAt, longAt, hlow, hhigh]
  have hreturn : u16 (u16 (eip + 2)) = u16 (m.ctx.eip + (overrides.length + 2)) := by
    rw [u16, u16] at heip
    simp only [u16]
    omega
  exact
    { ss := rfl
      esp := rfl
      cs := congrArg farPtrSegment (hentry _ hsame)
      eip := congrArg farPtrOffset (hentry _ hsame)
      level := rfl
      pushedEip := hpushedEip.trans hreturn
      pushedCs := hpushedCs.trans (by simp only [u16]; omega)
      pushedIf := by
        show getIf (shortAt (setShort _ _ _) _) = _
        rw [hpushedFlags, getIf_u16, getIf_setIf]
      same := hsame }

theorem iret_spec (sp : Nat) (m : Vm86) :
    (m.iret sp).2.ctx.eip = shortAt m.memory sp ∧ (m.iret sp).2.ctx.cs = shortAt m.memory (sp + 2) ∧
      (m.iret sp).2.ctx.esp = espUp m.ctx.esp 6 ∧
      (m.iret sp).2.information.cpuIf = getIf (shortAt m.memory (sp + 4)) ∧
      (m.iret sp).2.information.interruptRecursionLevel =
        m.information.interruptRecursionLevel - 1 := by
  rw [iret]
  dsimp only
  split
  next hlevel => exact ⟨rfl, rfl, rfl, rfl, by rw [hlevel]⟩
  next => exact ⟨rfl, rfl, rfl, rfl, rfl⟩

theorem Called.handleGpf (answer : List PortAccess → Nat) {called : Vm86}
    (h : IntSetup m overrides n) (hcalled : Called m length n called) :
    ∃ result returned, called.handleGpf answer = some (result, returned) ∧
      returned.ctx.eip =
        shortAt called.memory (segmentOffsetToLinear m.ctx.ss (espDown m.ctx.esp 6)) ∧
      returned.ctx.cs =
        shortAt called.memory (segmentOffsetToLinear m.ctx.ss (espDown m.ctx.esp 6) + 2) ∧
      returned.ctx.esp = espUp (espDown m.ctx.esp 6) 6 ∧
      returned.information.cpuIf =
        getIf (shortAt called.memory (segmentOffsetToLinear m.ctx.ss (espDown m.ctx.esp 6) + 4)) ∧
      returned.information.interruptRecursionLevel =
        called.information.interruptRecursionLevel - 1 := by
  have hcode : Code called.memory (segmentOffsetToLinear called.ctx.cs called.ctx.eip)
      ([] ++ 0xCF :: []) := by
    rw [List.nil_append, hcalled.cs, hcalled.eip, code_cons, hcalled.same _ h.handler_apart]
    exact ⟨(code_cons.1 h.handler).1, nofun⟩
  obtain ⟨eip, rounds, -, hopcode, hloop⟩ :=
    handleGpf_overrides answer hcode (fun _ hb => absurd hb List.not_mem_nil) (by decide)
  rw [handleFrom_iret (m := { called with ctx := { called.ctx with eip } }) hopcode, hcalled.ss,
    hcalled.esp] at hloop
  have hspec := iret_spec (segmentOffsetToLinear m.ctx.ss (espDown m.ctx.esp 6))
    { called with ctx := { called.ctx with eip } }
  rw [← hcalled.esp]
  exact ⟨_, _, hloop, hcalled.esp ▸ hspec⟩

/-- Three words that lead back behind an `INT` of `length` bytes. -/
def LeadsBack (m : Vm86) (length : Nat) (memory : Nat → UInt8) (sp : Nat) : Prop :=
  shortAt memory sp = u16 (m.ctx.eip + length) ∧ shortAt memory (sp + 2) = u16 m.ctx.cs ∧
    getIf (shortAt memory (sp + 4)) = m.information.cpuIf

instance (m : Vm86) (length : Nat) (memory : Nat → UInt8) (sp : Nat) :
    Decidable (m.LeadsBack length memory sp) :=
  inferInstanceAs (Decidable (_ ∧ _ ∧ _))

/-- `INT` and `IRET` are emulated, and lead back behind the `INT`, of `length` bytes, with the registers
as they were. -/
def IntReturns (answer : List PortAccess → Nat) (m : Vm86) (length : Nat) : Prop :=
  ∃ called result returned, m.handleGpf answer = some (.successful, called) ∧
    called.handleGpf answer = some (result, returned) ∧
    returned.ctx.eip = u16 (m.ctx.eip + length) ∧ returned.ctx.cs = m.ctx.cs ∧
    u16 returned.ctx.esp = u16 m.ctx.esp ∧ returned.information.cpuIf = m.information.cpuIf ∧
    returned.information.interruptRecursionLevel = m.information.interruptRecursionLevel

section

variable {called : Vm86} (h : Called m length n called)
include h

theorem Called.leadsBack (hsp : sp + 6 = segmentOffsetToLinear m.ctx.ss m.ctx.esp) :
    m.LeadsBack length called.memory sp := by
  have hread := fun i => shortAt_of_not_wrapped called.memory hsp i
  refine ⟨?_, (hread 2).symm.trans h.pushedCs, (congrArg getIf (hread 4)).symm.trans h.pushedIf⟩
  rw [← Nat.add_zero sp, ← hread, Nat.add_zero]
  exact h.pushedEip

theorem Called.leadsBack_wrapped (hsp : sp + 6 = segmentOffsetToLinear m.ctx.ss m.ctx.esp + 2 ^ 16) :
    m.LeadsBack length called.memory sp ↔ m.LeadsBack length m.memory sp := by
  have hbyte : ∀ i < 2 ^ 16, called.memory (u32 (sp + i)) = m.memory (u32 (sp + i)) := fun i hi =>
    h.same _ (not_below_of_wrapped (by decide) hsp hi)
  have hword : ∀ i < 6, shortAt called.memory (sp + i) = shortAt m.memory (sp + i) := fun i hi =>
    shortAt_congr (hbyte i (by omega)) (by rw [Nat.add_assoc]; exact hbyte (i + 1) (by omega))
  have hfirst := hword 0 (by decide)
  rw [Nat.add_zero] at hfirst
  rw [LeadsBack, LeadsBack, hfirst, hword 2 (by decide), hword 4 (by decide)]

theorem Called.leadsBack_iff :
    m.LeadsBack length called.memory (segmentOffsetToLinear m.ctx.ss (espDown m.ctx.esp 6)) ↔
      6 ≤ u16 m.ctx.esp ∨
        m.LeadsBack length m.memory (segmentOffsetToLinear m.ctx.ss (espDown m.ctx.esp 6)) := by
  have hsp := linear_espDown m.ctx.ss m.ctx.esp 6 (by decide)
  by_cases hwrap : 6 ≤ u16 m.ctx.esp
  · rw [if_pos hwrap, Nat.add_zero] at hsp
    exact iff_of_true (h.leadsBack hsp) (.inl hwrap)
  · rw [if_neg hwrap] at hsp
    rw [or_iff_right hwrap, h.leadsBack_wrapped hsp]

end

theorem int_returns_iff (h : IntSetup m overrides n) :
    IntReturns answer m (overrides.length + 2) ↔
      (6 ≤ u16 m.ctx.esp ∨ m.LeadsBack (overrides.length + 2) m.memory
        (segmentOffsetToLinear m.ctx.ss (espDown m.ctx.esp 6))) ∧
      m.information.interruptRecursionLevel + 1 < 2 ^ 32 := by
  obtain ⟨called, hcall, hcalled⟩ := h.called answer
  obtain ⟨result, returned, hreturn, heip, hcs, hesp, hif, hlevel⟩ :=
    hcalled.handleGpf answer h
  have hcsSame : u16 m.ctx.cs = m.ctx.cs := Nat.mod_eq_of_lt h.cs_lt
  have hlevelIff : u32 (m.information.interruptRecursionLevel + 1) - 1 =
      m.information.interruptRecursionLevel ↔ m.information.interruptRecursionLevel + 1 < 2 ^ 32 := by
    have hlt := h.level_lt
    rw [u32]
    omega
  rw [← hcalled.leadsBack_iff, ← hlevelIff, ← hcalled.level]
  constructor
  · rintro ⟨called', result', returned', hcall', hreturn', heip', hcs', -, hif', hlevel'⟩
    cases hcall.symm.trans hcall'
    cases hreturn.symm.trans hreturn'
    exact ⟨⟨heip.symm.trans heip', (hcs.symm.trans hcs').trans hcsSame.symm, hif.symm.trans hif'⟩,
      hlevel.symm.trans hlevel'⟩
  · rintro ⟨⟨hback, hbackCs, hbackIf⟩, hbackLevel⟩
    refine ⟨called, result, returned, hcall, hreturn, heip.trans hback, (hcs.trans hbackCs).trans hcsSame,
      ?_, hif.trans hbackIf, hlevel.trans hbackLevel⟩
    rw [hesp, u16_espUp_espDown _ (by decide)]

/-! ## `PUSHF` and `POPF` -/

/-- How many bytes `PUSHF` and `POPF` move. -/
def operandSize (overrides : List UInt8) : Nat := if overrides.contains 0x66 then 4 else 2

/-- `PUSHF` and, behind it, `POPF` with an operand of the same size. What is pushed lies apart from the
`POPF`. -/
structure FlagsSetup (m : Vm86) (pushOverrides popOverrides : List UInt8) : Prop where
  push : Code m.memory (segmentOffsetToLinear m.ctx.cs m.ctx.eip) (pushOverrides ++ [0x9C])
  pop : Code m.memory (segmentOffsetToLinear m.ctx.cs (m.ctx.eip + pushOverrides.length + 1))
    (popOverrides ++ [0x9D])
  onlyPushOverrides : ∀ b ∈ pushOverrides, IsOverride b
  onlyPopOverrides : ∀ b ∈ popOverrides, IsOverride b
  sameSize : popOverrides.contains 0x66 = pushOverrides.contains 0x66
  pop_apart : ∀ i < popOverrides.length + 1,
    ¬ Below (segmentOffsetToLinear m.ctx.ss m.ctx.esp) (operandSize pushOverrides)
      (u32 (segmentOffsetToLinear m.ctx.cs (m.ctx.eip + pushOverrides.length + 1) + i))

/-- The state behind a `PUSHF` of `size` bytes, `length` bytes long. -/
structure Pushed (m : Vm86) (length size : Nat) (pushed : Vm86) : Prop where
  ss : pushed.ctx.ss = m.ctx.ss
  cs : pushed.ctx.cs = m.ctx.cs
  esp : pushed.ctx.esp = espDown m.ctx.esp size
  eip : u16 pushed.ctx.eip = u16 (m.ctx.eip + length)
  pushedIf : getIf (shortAt pushed.memory
    (segmentOffsetToLinear m.ctx.ss m.ctx.esp + 2 ^ 32 - size)) = m.information.cpuIf
  same : ∀ a, ¬ Below (segmentOffsetToLinear m.ctx.ss m.ctx.esp) size a →
    pushed.memory a = m.memory a

theorem handleFrom_pushf (h : m.memory ip = 0x9C) :
    handleFrom answer sp (rounds + 1) ip operands32 m = some (.successful, m.pushf sp operands32) := by
  rw [handleFrom, h]
  rfl

theorem handleFrom_popf (h : m.memory ip = 0x9D) :
    handleFrom answer sp (rounds + 1) ip operands32 m = some (.successful, m.popf sp operands32) := by
  rw [handleFrom, h]
  rfl

theorem getIf_setShort (a flags : Nat) (cpuIf : Bool) :
    getIf (shortAt (setShort memory a (setIf cpuIf flags)) a) = cpuIf := by
  rw [shortAt_setShort, getIf_u16, getIf_setIf]

theorem getIf_setLong (a flags : Nat) (cpuIf : Bool) :
    getIf (shortAt (setLong memory a (setIf cpuIf flags)) a) = cpuIf := by
  rw [setLong, shortAt_setShort_of_lt (Nat.le_refl _) (by omega), getIf_setShort]

theorem setShort_of_not_below {top value a : Nat} (h : ¬ Below top 2 a) :
    setShort memory (top + 2 ^ 32 - 2) value a = memory a := by
  have hne : ∀ i < 2, a ≠ u32 (top + 2 ^ 32 - 2 + i) := fun i hi heq => h ⟨i, hi, heq⟩
  have hfirst : a ≠ u32 (top + 2 ^ 32 - 2) := by
    rw [← Nat.add_zero (top + 2 ^ 32 - 2)]
    exact hne 0 (by decide)
  exact setShort_of_ne hfirst (hne 1 (by decide))

theorem setLong_of_not_below {top value a : Nat} (h : ¬ Below top 4 a) :
    setLong memory (top + 2 ^ 32 - 4) value a = memory a := by
  have hne : ∀ i < 4, a ≠ u32 (top + 2 ^ 32 - 4 + i) := fun i hi heq => h ⟨i, hi, heq⟩
  have hfirst : a ≠ u32 (top + 2 ^ 32 - 4) := by
    rw [← Nat.add_zero (top + 2 ^ 32 - 4)]
    exact hne 0 (by decide)
  rw [setLong, setShort_of_ne (hne 2 (by decide)) (hne 3 (by decide)),
    setShort_of_ne hfirst (hne 1 (by decide))]

theorem pushed_pushf (m : Vm86) (operands32 : Bool) {eip length : Nat}
    (heip : u16 eip = u16 (m.ctx.eip + length)) :
    Pushed m (length + 1) (if operands32 then 4 else 2)
      ({ m with ctx := { m.ctx with eip } }.pushf (segmentOffsetToLinear m.ctx.ss m.ctx.esp)
        operands32) := by
  have hnext : u16 (u32 (eip + 1)) = u16 (m.ctx.eip + (length + 1)) := by
    simp only [u16, u32] at heip ⊢
    omega
  cases operands32 with
  | true =>
    exact
      { ss := rfl
        cs := rfl
        esp := rfl
        eip := hnext
        pushedIf := getIf_setLong _ _ _
        same := fun a ha => setLong_of_not_below ha }
  | false =>
    exact
      { ss := rfl
        cs := rfl
        esp := rfl
        eip := hnext
        pushedIf := getIf_setShort _ _ _
        same := fun a ha => setShort_of_not_below ha }

theorem popf_spec (sp : Nat) (operands32 : Bool) (m : Vm86) :
    (m.popf sp operands32).ctx.esp = espUp m.ctx.esp (if operands32 then 4 else 2) ∧
      (m.popf sp operands32).information.cpuIf = getIf (shortAt m.memory sp) := by
  cases operands32 with
  | true => exact ⟨rfl, getIf_longAt sp⟩
  | false => exact ⟨rfl, rfl⟩

theorem Pushed.getIf_eq {length size : Nat} {pushed : Vm86} (h : Pushed m length size pushed)
    (hsize : size ≤ 4) :
    getIf (shortAt pushed.memory (segmentOffsetToLinear m.ctx.ss (espDown m.ctx.esp size))) =
        m.information.cpuIf ↔
      size ≤ u16 m.ctx.esp ∨
        getIf (shortAt m.memory (segmentOffsetToLinear m.ctx.ss (espDown m.ctx.esp size))) =
          m.information.cpuIf := by
  have hsp := linear_espDown m.ctx.ss m.ctx.esp size (by omega)
  generalize segmentOffsetToLinear m.ctx.ss (espDown m.ctx.esp size) = sp at hsp ⊢
  by_cases hwrap : size ≤ u16 m.ctx.esp
  · rw [if_pos hwrap, Nat.add_zero] at hsp
    have hread := shortAt_of_not_wrapped pushed.memory hsp 0
    rw [Nat.add_zero, Nat.add_zero] at hread
    refine iff_of_true ?_ (.inl hwrap)
    rw [← hread]
    exact h.pushedIf
  · rw [if_neg hwrap] at hsp
    have hbyte : ∀ i < 2 ^ 16, pushed.memory (u32 (sp + i)) = m.memory (u32 (sp + i)) := fun i hi =>
      h.same _ (not_below_of_wrapped (by omega) hsp hi)
    have hfirst := hbyte 0 (by decide)
    rw [Nat.add_zero] at hfirst
    rw [or_iff_right hwrap, shortAt_congr hfirst (hbyte 1 (by decide))]

/-- `PUSHF` and `POPF` are emulated, and leave the stack pointer and the flag as they were. -/
def FlagsReturn (answer : List PortAccess → Nat) (m : Vm86) : Prop :=
  ∃ pushed popped, m.handleGpf answer = some (.successful, pushed) ∧
    pushed.handleGpf answer = some (.successful, popped) ∧ u16 popped.ctx.esp = u16 m.ctx.esp ∧
    popped.information.cpuIf = m.information.cpuIf

theorem flags_return_iff {pushOverrides popOverrides : List UInt8}
    (h : FlagsSetup m pushOverrides popOverrides) :
    FlagsReturn answer m ↔ operandSize pushOverrides ≤ u16 m.ctx.esp ∨
      getIf (shortAt m.memory (segmentOffsetToLinear m.ctx.ss
        (espDown m.ctx.esp (operandSize pushOverrides)))) = m.information.cpuIf := by
  have hsize : operandSize pushOverrides ≤ 4 := by
    rw [operandSize]
    split <;> omega
  obtain ⟨eip, rounds, heip, hopcode, hpush⟩ :=
    handleGpf_overrides answer h.push h.onlyPushOverrides (by decide)
  rw [handleFrom_pushf (m := { m with ctx := { m.ctx with eip } }) hopcode] at hpush
  have hpushed : Pushed m (pushOverrides.length + 1) (operandSize pushOverrides) _ :=
    pushed_pushf m (pushOverrides.contains 0x66) heip
  revert hpush
  generalize ({ m with ctx := { m.ctx with eip } } : Vm86).pushf
    (segmentOffsetToLinear m.ctx.ss m.ctx.esp) (pushOverrides.contains 0x66) = pushed at hpushed ⊢
  intro hpush
  have hip : segmentOffsetToLinear pushed.ctx.cs pushed.ctx.eip =
      segmentOffsetToLinear m.ctx.cs (m.ctx.eip + pushOverrides.length + 1) := by
    rw [segmentOffsetToLinear, hpushed.eip, hpushed.cs, segmentOffsetToLinear, Nat.add_assoc]
  have hcode : Code pushed.memory (segmentOffsetToLinear pushed.ctx.cs pushed.ctx.eip)
      (popOverrides ++ [0x9D]) := by
    intro i b hb
    obtain ⟨hi, -⟩ := List.getElem?_eq_some_iff.1 hb
    rw [List.length_append, List.length_singleton] at hi
    rw [hip, hpushed.same _ (h.pop_apart i hi)]
    exact h.pop i b hb
  obtain ⟨eip', rounds', -, hopcode', hpop⟩ :=
    handleGpf_overrides answer hcode h.onlyPopOverrides (by decide)
  rw [handleFrom_popf (m := { pushed with ctx := { pushed.ctx with eip := eip' } }) hopcode',
    h.sameSize, hpushed.ss, hpushed.esp] at hpop
  obtain ⟨hesp, hif⟩ := popf_spec
    (segmentOffsetToLinear m.ctx.ss (espDown m.ctx.esp (operandSize pushOverrides)))
    (pushOverrides.contains 0x66) { pushed with ctx := { pushed.ctx with eip := eip' } }
  revert hpop
  generalize ({ pushed with ctx := { pushed.ctx with eip := eip' } } : Vm86).popf
    (segmentOffsetToLinear m.ctx.ss (espDown m.ctx.esp (operandSize pushOverrides)))
    (pushOverrides.contains 0x66) = popped at hesp hif ⊢
  intro hpop
  dsimp only at hesp hif
  rw [← hpushed.getIf_eq hsize, ← hif]
  constructor
  · rintro ⟨pushed', popped', hpush', hpop', -, hif'⟩
    cases hpush.symm.trans hpush'
    cases hpop.symm.trans hpop'
    exact hif'
  · intro hif'
    refine ⟨pushed, popped, hpush, hpop, ?_, hif'⟩
    rw [hesp, hpushed.esp]
    exact u16_espUp_espDown _ (by omega)

/-! ## Round trips -/

/-- `INT` and `IRET` restore the registers, and `PUSHF` and `POPF` the flag, if and only if the stack
pointer does not wrap below what is pushed, or the right words lie where it comes out; and the level of
an `INT` can be counted. -/
theorem round_trips_iff (answer : List PortAccess → Nat) :
    (∀ (m : Vm86) (overrides : List UInt8) (n : UInt8), IntSetup m overrides n →
      (IntReturns answer m (overrides.length + 2) ↔
        (6 ≤ u16 m.ctx.esp ∨ m.LeadsBack (overrides.length + 2) m.memory
          (segmentOffsetToLinear m.ctx.ss (espDown m.ctx.esp 6))) ∧
        m.information.interruptRecursionLevel + 1 < 2 ^ 32)) ∧
      ∀ (m : Vm86) (pushOverrides popOverrides : List UInt8),
        FlagsSetup m pushOverrides popOverrides →
        (FlagsReturn answer m ↔ operandSize pushOverrides ≤ u16 m.ctx.esp ∨
          getIf (shortAt m.memory (segmentOffsetToLinear m.ctx.ss
            (espDown m.ctx.esp (operandSize pushOverrides)))) = m.information.cpuIf) :=
  ⟨fun _ _ _ h => int_returns_iff h, fun _ _ _ h => flags_return_iff h⟩

/-- An `INT 0x10` at 0x1000, its handler at 0x500, and behind it `PUSHF` and `POPF` at 0x1010, with the
stack at 0x2000. -/
def sampleMemory (a : Nat) : UInt8 :=
  if a = 0x41 then 0x05
  else if a = 0x500 then 0xCF
  else if a = 0x1000 then 0xCD
  else if a = 0x1001 then 0x10
  else if a = 0x1010 then 0x9C
  else if a = 0x1011 then 0x9D
  else 0

/-- A thread at the instruction `eip` of that memory, with the stack pointer `esp`. -/
def sample (eip esp : Nat) : Vm86 where
  ctx := { eip, cs := 0x100, eflags := 0x20202, esp, ss := 0x200 }
  information := { cpuIf := true }
  memory := sampleMemory

theorem code_nil (ip : Nat) : Code memory ip [] := nofun

theorem sampleMemory_int : Code sampleMemory (segmentOffsetToLinear 0x100 0) [0xCD, 0x10] :=
  code_cons.2 ⟨by simp [segmentOffsetToLinear, u32, u16, sampleMemory],
    code_cons.2 ⟨by simp [segmentOffsetToLinear, u32, u16, sampleMemory], code_nil _⟩⟩

theorem sampleMemory_handler : segmentOffsetToLinear (farPtrSegment (ivtEntry sampleMemory 0x10))
    (farPtrOffset (ivtEntry sampleMemory 0x10)) = 0x500 := by
  simp [ivtEntry, longAt, shortAt, sampleMemory, u32, u16, farPtrSegment, farPtrOffset,
    segmentOffsetToLinear]

/-- The code lies apart from a stack that ends at the start of the segment, or 0x100 behind it. -/
theorem not_below_sample {esp a : Nat} (hesp : esp = 2 ∨ esp = 0x100) (ha : a ≤ 0x1FFA) :
    ¬ Below (segmentOffsetToLinear 0x200 esp) 6 (u32 a) := by
  rintro ⟨i, hi, heq⟩
  rcases hesp with rfl | rfl
  all_goals
    simp only [segmentOffsetToLinear, u32, u16] at heq
    omega

theorem sample_int {esp : Nat} (hesp : esp = 2 ∨ esp = 0x100) : IntSetup (sample 0 esp) [] 0x10 where
  code := sampleMemory_int
  onlyOverrides _ hb := absurd hb List.not_mem_nil
  handler := by
    rw [sample, sampleMemory_handler]
    exact code_cons.2 ⟨by simp [u32, sampleMemory], code_nil _⟩
  cs_lt := (by decide : 0x100 < 2 ^ 16)
  level_lt := Nat.two_pow_pos 32
  code_apart i hi := not_below_sample hesp (by
    change i < 2 at hi
    simp only [sample, segmentOffsetToLinear, u16]
    omega)
  ivt_apart i hi := not_below_sample hesp (by
    change 4 * 16 + i ≤ _
    omega)
  handler_apart := by
    rw [sample, sampleMemory_handler]
    exact not_below_sample hesp (by decide)

theorem sample_flags : FlagsSetup (sample 0x10 0x100) [] [] where
  push := code_cons.2 ⟨by simp [segmentOffsetToLinear, u32, u16, sample, sampleMemory], code_nil _⟩
  pop := code_cons.2 ⟨by simp [segmentOffsetToLinear, u32, u16, sample, sampleMemory], code_nil _⟩
  onlyPushOverrides _ hb := absurd hb List.not_mem_nil
  onlyPopOverrides _ hb := absurd hb List.not_mem_nil
  sameSize := rfl
  pop_apart := by
    rintro i hi ⟨j, hj, heq⟩
    simp [segmentOffsetToLinear, operandSize, u32, u16, sample] at heq hi hj
    omega

theorem sample_round_trips :
    IntReturns (fun _ => 0) (sample 0 0x100) 2 ∧ FlagsReturn (fun _ => 0) (sample 0x10 0x100) :=
  ⟨((round_trips_iff fun _ => 0).1 _ _ _ (sample_int (.inr rfl))).2
      ⟨.inl (by decide), by decide⟩,
    ((round_trips_iff fun _ => 0).2 _ _ _ sample_flags).2 (.inl (by decide))⟩

/-- With the stack pointer at 2, `INT` writes below the segment, and `IRET` reads from its end. -/
theorem wrapped_stack_misses :
    ¬ ∀ (m : Vm86) (overrides : List UInt8) (n : UInt8), IntSetup m overrides n →
      IntReturns (fun _ => 0) m (overrides.length + 2) := by
  intro h
  have hsetup : IntSetup (sample 0 2) [] 0x10 := sample_int (.inl rfl)
  rcases ((int_returns_iff hsetup).1 (h _ _ _ hsetup)).1 with hle | ⟨heip, -⟩
  · simp [sample, u16] at hle
  · simp [sample, shortAt, sampleMemory, segmentOffsetToLinear, espDown, u16, u32] at heip

end Vm86

end MeetixOS.Kernel
