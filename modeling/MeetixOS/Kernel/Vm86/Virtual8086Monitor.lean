import MeetixOS.Kernel.Types

/-! # The virtual 8086 monitor

`vm86/Virtual8086Monitor.cpp`: `handleGpf` emulates the instruction at which a thread in virtual 8086 mode
has faulted. The stack pointer of the thread is a word of 16 bits that wraps around; the emulator reads and
writes through linear pointers that do not.

What is read from a port is a parameter, a function of the accesses to ports so far. -/

namespace MeetixOS.Kernel

/-! ## Data -/

/-- A value stored in a `uint16_t`. -/
def u16 (n : Nat) : Nat := n % 2 ^ 16

def eflagIf : Nat := 1 <<< 9

def eflagVm : Nat := 1 <<< 17

def validFlags : Nat := 0xDFF

/-- `ProcessorStateVm86`, the registers that the monitor uses. -/
structure ProcessorStateVm86 where
  eax : Nat := 0
  ebx : Nat := 0
  ecx : Nat := 0
  edx : Nat := 0
  esi : Nat := 0
  edi : Nat := 0
  eip : Nat
  cs : Nat
  eflags : Nat
  esp : Nat
  ss : Nat
  ds : Nat := 0
  es : Nat := 0

structure VM86Registers where
  ax : Nat := 0
  bx : Nat := 0
  cx : Nat := 0
  dx : Nat := 0
  si : Nat := 0
  di : Nat := 0
  ds : Nat := 0
  es : Nat := 0

structure ThreadInformationVm86 where
  cpuIf : Bool := false
  out : VM86Registers := {}
  interruptRecursionLevel : Nat := 0

/-- An access to a port, of a byte or of two, with what is written. -/
inductive PortAccess
  | writeByte (port value : Nat)
  | writeShort (port value : Nat)
  | readByte (port : Nat)
  | readShort (port : Nat)

inductive VMResult
  | successful
  | unhandledOpcode
  | finished
  deriving DecidableEq

/-- A thread in virtual 8086 mode, with the memory and the accesses to ports so far. -/
structure Vm86 where
  ctx : ProcessorStateVm86
  information : ThreadInformationVm86
  memory : Nat → UInt8
  ports : List PortAccess := []

/-! ## Memory -/

def segmentOffsetToLinear (segment offset : Nat) : Nat := u16 segment <<< 4 + u16 offset

def farPtrSegment (farPtr : Nat) : Nat := farPtr >>> 16

def farPtrOffset (farPtr : Nat) : Nat := u16 farPtr

/-- `*(uint16_t*) a`. -/
def shortAt (memory : Nat → UInt8) (a : Nat) : Nat :=
  (memory (u32 a)).toNat + 256 * (memory (u32 (a + 1))).toNat

/-- `*(uint32_t*) a`. -/
def longAt (memory : Nat → UInt8) (a : Nat) : Nat :=
  shortAt memory a + 2 ^ 16 * shortAt memory (a + 2)

/-- `*(uint16_t*) a = value`. -/
def setShort (memory : Nat → UInt8) (a value : Nat) : Nat → UInt8 :=
  Function.update (Function.update memory (u32 a) (UInt8.ofNat value)) (u32 (a + 1))
    (UInt8.ofNat (value >>> 8))

/-- `*(uint32_t*) a = value`. -/
def setLong (memory : Nat → UInt8) (a value : Nat) : Nat → UInt8 :=
  setShort (setShort memory a value) (a + 2) (value >>> 16)

/-- `ivt->entry[n]`; the table lies at the address 0. -/
def ivtEntry (memory : Nat → UInt8) (n : UInt8) : Nat := longAt memory (4 * n.toNat)

/-! ## Instructions -/

/-- The stack pointer register `bytes` lower. -/
def espDown (esp bytes : Nat) : Nat := u16 (u32 (u16 esp + 2 ^ 32 - bytes))

/-- The stack pointer register `bytes` higher. -/
def espUp (esp bytes : Nat) : Nat := u16 (u32 (u16 esp + bytes))

/-- `flags |= EFLAG_IF` or `flags &= ~EFLAG_IF`. -/
def setIf (cpuIf : Bool) (flags : Nat) : Nat :=
  if cpuIf then flags ||| eflagIf else flags &&& (2 ^ 32 - 1 - eflagIf)

/-- `(flags & EFLAG_IF) != 0`. -/
def getIf (flags : Nat) : Bool := flags &&& eflagIf ≠ 0

namespace Vm86

/-- The instruction pointer behind `bytes` more. -/
def skip (m : Vm86) (bytes : Nat) : Vm86 :=
  { m with ctx := { m.ctx with eip := u32 (m.ctx.eip + bytes) } }

/-- `PUSHF`; `sp` is the linear stack pointer. -/
def pushf (sp : Nat) (operands32 : Bool) (m : Vm86) : Vm86 :=
  let m :=
    if operands32 then
      { m with
        ctx := { m.ctx with esp := espDown m.ctx.esp 4 }
        memory := setLong m.memory (sp + 2 ^ 32 - 4)
          (setIf m.information.cpuIf (m.ctx.eflags &&& validFlags)) }
    else
      { m with
        ctx := { m.ctx with esp := espDown m.ctx.esp 2 }
        memory := setShort m.memory (sp + 2 ^ 32 - 2)
          (setIf m.information.cpuIf (u16 m.ctx.eflags)) }
  m.skip 1

def popf (sp : Nat) (operands32 : Bool) (m : Vm86) : Vm86 :=
  let m :=
    if operands32 then
      { m with
        ctx := { m.ctx with
          eflags := eflagIf ||| eflagVm ||| (longAt m.memory sp &&& validFlags)
          esp := espUp m.ctx.esp 4 }
        information := { m.information with cpuIf := getIf (longAt m.memory sp) } }
    else
      { m with
        ctx := { m.ctx with
          eflags := eflagIf ||| eflagVm ||| shortAt m.memory sp
          esp := espUp m.ctx.esp 2 }
        information := { m.information with cpuIf := getIf (shortAt m.memory sp) } }
  m.skip 1

/-- `INT`; the number of the interrupt is read at `ip + 1`, when the stack has been written. -/
def int (sp ip : Nat) (m : Vm86) : Vm86 :=
  let sp := sp + 2 ^ 32 - 6
  let memory := setShort m.memory sp (u16 (m.ctx.eip + 2))
  let memory := setShort memory (sp + 2) (u16 m.ctx.cs)
  let memory := setShort memory (sp + 4) (setIf m.information.cpuIf (u16 m.ctx.eflags))
  let entry := ivtEntry memory (memory (u32 (ip + 1)))
  { m with
    ctx := { m.ctx with
      esp := espDown m.ctx.esp 6
      cs := farPtrSegment entry
      eip := farPtrOffset entry }
    information := { m.information with
      interruptRecursionLevel := u32 (m.information.interruptRecursionLevel + 1) }
    memory }

/-- `IRET`; at recursion level 0 the call of the thread is over. -/
def iret (sp : Nat) (m : Vm86) : VMResult × Vm86 :=
  let ctx : ProcessorStateVm86 := { m.ctx with
    eip := shortAt m.memory sp
    cs := shortAt m.memory (sp + 2)
    eflags := eflagIf ||| eflagVm ||| shortAt m.memory (sp + 4)
    esp := espUp m.ctx.esp 6 }
  let information : ThreadInformationVm86 :=
    { m.information with cpuIf := getIf (shortAt m.memory (sp + 4)) }
  if information.interruptRecursionLevel = 0 then
    let out : VM86Registers :=
      { ax := u16 ctx.eax
        bx := u16 ctx.ebx
        cx := u16 ctx.ecx
        dx := u16 ctx.edx
        di := u16 ctx.edi
        si := u16 ctx.esi
        ds := u16 ctx.ds
        es := u16 ctx.es }
    (.finished, { m with ctx, information := { information with out } })
  else
    (.successful, { m with
      ctx
      information := { information with
        interruptRecursionLevel := information.interruptRecursionLevel - 1 } })

/-- `CLI` and `STI`. -/
def setInterrupts (cpuIf : Bool) (m : Vm86) : Vm86 :=
  { m with information := { m.information with cpuIf } }.skip 1

/-- `OUT dx, al` and `OUT dx, ax`. -/
def out (access : PortAccess) (m : Vm86) : Vm86 :=
  { m with ports := m.ports ++ [access] }.skip 1

/-- `IN al, dx` and `IN ax, dx`, of `bits` bits. -/
def input (answer : List PortAccess → Nat) (access : PortAccess) (bits : Nat) (m : Vm86) : Vm86 :=
  let ports := m.ports ++ [access]
  let res := answer ports % 2 ^ bits
  { m with ctx := { m.ctx with eax := m.ctx.eax >>> bits <<< bits ||| res }, ports }.skip 1

/-- The loop of `handleGpf`, which goes on behind an override of the operand or address size only. -/
def handleFrom (answer : List PortAccess → Nat) (sp : Nat) :
    (rounds : Nat) → (ip : Nat) → (operands32 : Bool) → Vm86 → Option (VMResult × Vm86)
  | 0, _, _, _ => none
  | rounds + 1, ip, operands32, m =>
    let opcode := m.memory ip
    if opcode = 0x66 then handleFrom answer sp rounds (u32 (ip + 1)) true (m.skip 1)
    else if opcode = 0x67 then handleFrom answer sp rounds (u32 (ip + 1)) operands32 (m.skip 1)
    else if opcode = 0x9C then some (.successful, m.pushf sp operands32)
    else if opcode = 0x9D then some (.successful, m.popf sp operands32)
    else if opcode = 0xCD then some (.successful, m.int sp ip)
    else if opcode = 0xCF then some (m.iret sp)
    else if opcode = 0xFA then some (.successful, m.setInterrupts false)
    else if opcode = 0xFB then some (.successful, m.setInterrupts true)
    else if opcode = 0xEE then
      some (.successful, m.out (.writeByte (u16 m.ctx.edx) (m.ctx.eax % 2 ^ 8)))
    else if opcode = 0xEF then
      some (.successful, m.out (.writeShort (u16 m.ctx.edx) (u16 m.ctx.eax)))
    else if opcode = 0xEC then
      some (.successful, m.input answer (.readByte (u16 m.ctx.edx)) 8)
    else if opcode = 0xED then
      some (.successful, m.input answer (.readShort (u16 m.ctx.edx)) 16)
    else some (.unhandledOpcode, m)

/-- `Virtual8086Monitor::handleGpf`. After `2 ^ 32` overrides the loop is where it has started, and
`none` says that it does not end. -/
def handleGpf (answer : List PortAccess → Nat) (m : Vm86) : Option (VMResult × Vm86) :=
  let ip := segmentOffsetToLinear m.ctx.cs m.ctx.eip
  let sp := segmentOffsetToLinear m.ctx.ss m.ctx.esp
  handleFrom answer sp (2 ^ 32) ip false m

end Vm86

end MeetixOS.Kernel
