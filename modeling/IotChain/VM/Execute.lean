import IotChain.Transition.Loop
import IotChain.VM.Arithmetic

/-!
# The interpreter

`MCLVirtualMachine::Execute` as the source has it: a loop that extracts an opcode
and runs the case of its `switch`.  The order of extractions and accesses within a
case is that of the source.  In an assignment to `registers_[ExtractRegister()]`,
whose order C++14 leaves open, the place comes first.
-/

namespace IotChain.VM

open IotChain.Bytes IotChain.Transition

/-- The values of `enum Opcode`, in order from zero. -/
inductive Opcode
  | STOP | ADD | SUB | MUL | SMUL | DIV | SDIV | MOD | SMOD | EXP | NEG
  | LT | LE | GT | GE | EQ | NOT
  | STORE | LOAD | JMP | CALL | RET | PUSH | POP | MOV | SYSCALL
  deriving DecidableEq, Repr

namespace Opcode

/-- The opcodes in the order of the enumeration, each at the place of its value. -/
def all : List Opcode :=
  [STOP, ADD, SUB, MUL, SMUL, DIV, SDIV, MOD, SMOD, EXP, NEG, LT, LE, GT, GE, EQ, NOT,
    STORE, LOAD, JMP, CALL, RET, PUSH, POP, MOV, SYSCALL]

/-- The case of the `switch` for an opcode byte, if there is one. -/
def ofByte (opcode : UInt8) : Option Opcode := all[opcode.toNat]?

end Opcode

/-! ## Extraction -/

/-- `MCLVirtualMachine::ExtractOpcode`, with its two flags. -/
def extractOpcode : Execution (UInt8 × Bool × Bool) := do
  let opc ← fetch
  return (opc >>> 2, opc &&& 1 ≠ 0, opc &&& 2 ≠ 0)

/-- `MCLVirtualMachine::ExtractRegister`.  The byte need not name a register. -/
def extractRegister : Execution UInt8 := fetch

/-- `MCLVirtualMachine::ExtractAddress`. -/
def extractAddress : Execution UInt32 := do
  let a1 := (← fetch).toUInt32
  let a2 := (← fetch).toUInt32 <<< (8 : UInt32)
  let a3 := (← fetch).toUInt32 <<< (16 : UInt32)
  return a1 ||| a2 ||| a3

/-- `MCLVirtualMachine::ExtractConstant`. -/
def extractConstant : Execution UInt64 := fun m =>
  if m.ip + 8 ≤ m.bytecode.size then
    .ok (UInt64.ofNat (decodeLE ((m.bytecode.bytes.drop m.ip).take 8)), m.advance 8)
  else
    .error .fetch

/-- A value operand: a register, or a constant if the flag is set. -/
def extractValue (constant : Bool) : Execution UInt64 := do
  if constant then
    extractConstant
  else
    register (← extractRegister)

/-- An address operand: the low half of a register, or an address if the flag is
set. -/
def extractTarget (immediate : Bool) : Execution UInt32 := do
  if immediate then
    extractAddress
  else
    return (← register (← extractRegister)).toUInt32

/-! ## The cases of the switch

C++14 leaves open which side of an assignment is evaluated first.  The place comes
first here; only the fault of a step with two faults depends on it. -/

/-- The value of an operation that may trap. -/
def trapping : Option UInt64 → Execution UInt64
  | some value => return value
  | none => throw .divide

/-- The cases `ADD` to `EXP`. -/
def binaryCase (compute : UInt64 → UInt64 → Option UInt64) (op1 op2 : Bool) :
    Execution Unit := do
  let v1 ← extractValue op1
  let v2 ← extractValue op2
  let place ← slot (← extractRegister)
  setRegister place (← trapping (compute v1 v2))

/-- The cases `NEG` and `NOT`. -/
def unaryCase (compute : UInt64 → UInt64) (op1 : Bool) : Execution Unit := do
  let v1 ← extractValue op1
  let place ← slot (← extractRegister)
  setRegister place (compute v1)

/-- The cases `LT` to `EQ`. -/
def branchCase (test : UInt64 → UInt64 → Bool) (op1 op2 : Bool) : Execution Unit := do
  let v1 ← extractValue op1
  let v2 ← extractValue op2
  let address ← extractAddress
  if test v1 v2 then
    setRegister IP address.toUInt64

/-- The `STORE` case. -/
def storeCase (op2 : Bool) : Execution Unit := do
  let r ← extractRegister
  let address ← extractTarget op2
  let value ← register r
  storeWord address.toNat value

/-- The `LOAD` case. -/
def loadCase (op2 : Bool) : Execution Unit := do
  let r ← extractRegister
  let address ← extractTarget op2
  let place ← slot r
  setRegister place (← loadWord address.toNat)

/-- The address of `JMP` and `CALL`, relative to the byte in front of the next one
unless the second flag is set. -/
def extractJump (op1 op2 : Bool) : Execution UInt32 := do
  let address ← extractTarget op1
  if op2 then
    return address
  else
    return (address.toUInt64 + ((← get).registers IP - 1)).toUInt32

/-- The `JMP` case. -/
def jmpCase (op1 op2 : Bool) : Execution Unit := do
  let address ← extractJump op1 op2
  setRegister IP address.toUInt64

/-- The `CALL` case: the size to return comes below the return address. -/
def callCase (op1 op2 : Bool) : Execution Unit := do
  let address ← extractJump op1 op2
  let retnSize ← extractConstant
  push retnSize
  push ((← get).registers IP)
  setRegister IP address.toUInt64

/-- The `RET` case. -/
def retCase : Execution Unit := do
  let address := (← pop).toUInt32
  let retnSize := (← pop).toUInt32
  setRegister SP ((← get).registers SP + retnSize.toUInt64)
  setRegister IP address.toUInt64

/-- The `PUSH` case. -/
def pushCase (op1 : Bool) : Execution Unit := do
  let v1 ← extractValue op1
  push v1

/-- The `POP` case.  In either order of the extraction and the pop the result is the same. -/
def popCase : Execution Unit := do
  let place ← slot (← extractRegister)
  setRegister place (← pop)

/-- The `MOV` case. -/
def movCase (op2 : Bool) : Execution Unit := do
  let r ← extractRegister
  let v2 ← extractValue op2
  let place ← slot r
  setRegister place v2

/-! ## System calls -/

/-- The value of `enum SYSCALL_TABLE` whose case changes the state. -/
abbrev Stout : UInt64 := 3

/-- The loop of `Stout` from word `i` on, with `count` words to go. -/
def stoutLoop (size : UInt32) : Nat → Nat → Execution Unit
  | _, 0 => return
  | i, count + 1 => do
      let val ← pop
      let length := (← get).registers R1
      let chars := if i = (size - 1).toNat then (length % 8).toNat else 8
      print ((encodeLE 8 val.toNat).take chars)
      stoutLoop size (i + 1) count

/-- The number of words that `Stout` pops. -/
def stoutSize (length : UInt64) : UInt32 := ((length - 1) / 8 + 1).toUInt32

/-- The `Stout` case: `R1` has the number of characters. -/
def stoutCase : Execution Unit := do
  let size := stoutSize ((← get).registers R1)
  stoutLoop size 0 size.toNat

/-- The `Sleep` case waits and changes nothing. -/
def syscallCase : Execution Unit := do
  if (← get).registers R0 = Stout then
    stoutCase

theorem syscallCase_of_stout {m : Machine} (stout : m.registers R0 = Stout) :
    syscallCase m =
      stoutLoop (stoutSize (m.registers R1)) 0 (stoutSize (m.registers R1)).toNat m := by
  change (if m.registers R0 = Stout then stoutCase else pure ()) m = _
  rw [if_pos stout]
  rfl

theorem syscallCase_of_ne {m : Machine} (other : m.registers R0 ≠ Stout) :
    syscallCase m = .ok ((), m) := by
  change (if m.registers R0 = Stout then stoutCase else pure ()) m = _
  rw [if_neg other]
  rfl

/-- What the `default` case prints.  The opcode is streamed as a character, behind a
fill character. -/
def illegalMessage (opcode : UInt8) : List UInt8 :=
  "Illegal instruction: 0x0".toUTF8.toList ++ [opcode, 10]

/-! ## The loop -/

/-- The `switch` of `Execute`. -/
def switch (opcode : UInt8) (op1 op2 : Bool) : Execution Unit :=
  match Opcode.ofByte opcode with
  | some .STOP => return
  | some .ADD => binaryCase (fun v1 v2 => some (add v1 v2)) op1 op2
  | some .SUB => binaryCase (fun v1 v2 => some (sub v1 v2)) op1 op2
  | some .MUL => binaryCase (fun v1 v2 => some (mul v1 v2)) op1 op2
  | some .SMUL => binaryCase (fun v1 v2 => some (sMul v1 v2)) op1 op2
  | some .DIV => binaryCase div op1 op2
  | some .SDIV => binaryCase sDiv op1 op2
  | some .MOD => binaryCase mod op1 op2
  | some .SMOD => binaryCase sMod op1 op2
  | some .EXP => binaryCase (fun v1 v2 => some (exp v1 v2)) op1 op2
  | some .NEG => unaryCase neg op1
  | some .LT => branchCase lowerThan op1 op2
  | some .LE => branchCase lowerEqual op1 op2
  | some .GT => branchCase greaterThan op1 op2
  | some .GE => branchCase greaterEqual op1 op2
  | some .EQ => branchCase equal op1 op2
  | some .NOT => unaryCase not op1
  | some .STORE => storeCase op2
  | some .LOAD => loadCase op2
  | some .JMP => jmpCase op1 op2
  | some .CALL => callCase op1 op2
  | some .RET => retCase
  | some .PUSH => pushCase op1
  | some .POP => popCase
  | some .MOV => movCase op2
  | some .SYSCALL => syscallCase
  | none => print (illegalMessage opcode)

/-- The body of the loop of `Execute`, which returns the opcode for the loop's
condition. -/
def step : Execution UInt8 := do
  let (opcode, op1, op2) ← extractOpcode
  switch opcode op1 op2
  return opcode

/-- How `Execute` ends. -/
inductive Ending
  | stopped (m : Machine)
  | faulted (fault : Fault)

/-- The `do … while (opcode != STOP)` of `MCLVirtualMachine::Execute`. -/
def execute : Body Machine Ending := fun m =>
  match step m with
  | .ok (opcode, next) => if opcode ≠ 0 then .inl next else .inr (.stopped next)
  | .error fault => .inr (.faulted fault)

/-- The machine stands at the head of the loop after some rounds of `Execute`. -/
def Reachable (bytecode : Bytecode) (stack : Memory) (m : Machine) : Prop :=
  ∃ n, iterate execute n (Machine.construct bytecode stack) = .inl m

end IotChain.VM
