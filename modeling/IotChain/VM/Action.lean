import IotChain.VM.Extraction

/-!
# A step in two halves

Every case of the interpreter first extracts its operands and then acts on them.
An `Action` is what is left to do when the operands are known.  The step of
`Execute` is an extraction, whose layout the opcode byte decides, followed by the
extracted action.
-/

namespace IotChain.VM

/-! ## Classes of opcodes -/

/-- The cases of the `switch` that are one case with parameters. -/
inductive Kind
  | halt
  | binary (compute : UInt64 → UInt64 → Option UInt64)
  | unary (compute : UInt64 → UInt64)
  | branch (test : UInt64 → UInt64 → Bool)
  | store
  | load
  | jmp
  | call
  | ret
  | push
  | pop
  | mov
  | syscall
  | illegal (opcode : UInt8)

/-- The class of an opcode byte. -/
def kind (opcode : UInt8) : Kind :=
  match Opcode.ofByte opcode with
  | some .STOP => .halt
  | some .ADD => .binary fun v1 v2 => some (add v1 v2)
  | some .SUB => .binary fun v1 v2 => some (sub v1 v2)
  | some .MUL => .binary fun v1 v2 => some (mul v1 v2)
  | some .SMUL => .binary fun v1 v2 => some (sMul v1 v2)
  | some .DIV => .binary div
  | some .SDIV => .binary sDiv
  | some .MOD => .binary mod
  | some .SMOD => .binary sMod
  | some .EXP => .binary fun v1 v2 => some (exp v1 v2)
  | some .NEG => .unary neg
  | some .LT => .branch lowerThan
  | some .LE => .branch lowerEqual
  | some .GT => .branch greaterThan
  | some .GE => .branch greaterEqual
  | some .EQ => .branch equal
  | some .NOT => .unary not
  | some .STORE => .store
  | some .LOAD => .load
  | some .JMP => .jmp
  | some .CALL => .call
  | some .RET => .ret
  | some .PUSH => .push
  | some .POP => .pop
  | some .MOV => .mov
  | some .SYSCALL => .syscall
  | none => .illegal opcode

/-- The forms of a class's operands. -/
def Kind.layout : Kind → Bool → Bool → List Form
  | .binary _, op1, op2 => [valueForm op1, valueForm op2, .byte]
  | .unary _, op1, _ => [valueForm op1, .byte]
  | .branch _, op1, op2 => [valueForm op1, valueForm op2, .byte, .byte, .byte]
  | .store, _, op2 => .byte :: targetForms op2
  | .load, _, op2 => .byte :: targetForms op2
  | .jmp, op1, _ => targetForms op1
  | .call, op1, _ => targetForms op1 ++ [.constant]
  | .push, op1, _ => [valueForm op1]
  | .pop, _, _ => [.byte]
  | .mov, _, op2 => [.byte, valueForm op2]
  | _, _, _ => []

/-! ## Actions -/

/-- What a case does with its operands. -/
inductive Action
  | skip
  | assign (r : UInt8) (value : Option UInt64)
  | branch (taken : Bool) (address : UInt32)
  | store (r : UInt8) (address : UInt32)
  | load (r : UInt8) (address : UInt32)
  | call (address : UInt32) (retnSize : UInt64)
  | ret
  | push (v1 : UInt64)
  | pop (r : UInt8)
  | syscall
  | message (bytes : List UInt8)

/-- The extracting half of a case. -/
def Kind.extract : Kind → Bool → Bool → Execution Action
  | .halt, _, _ => return .skip
  | .binary compute, op1, op2 => do
      let v1 ← extractValue op1
      let v2 ← extractValue op2
      return .assign (← extractRegister) (compute v1 v2)
  | .unary compute, op1, _ => do
      let v1 ← extractValue op1
      return .assign (← extractRegister) (some (compute v1))
  | .branch test, op1, op2 => do
      let v1 ← extractValue op1
      let v2 ← extractValue op2
      return .branch (test v1 v2) (← extractAddress)
  | .store, _, op2 => do
      let r ← extractRegister
      return .store r (← extractTarget op2)
  | .load, _, op2 => do
      let r ← extractRegister
      return .load r (← extractTarget op2)
  | .jmp, op1, op2 => return .branch true (← extractJump op1 op2)
  | .call, op1, op2 => do
      let address ← extractJump op1 op2
      return .call address (← extractConstant)
  | .ret, _, _ => return .ret
  | .push, op1, _ => return .push (← extractValue op1)
  | .pop, _, _ => return .pop (← extractRegister)
  | .mov, _, op2 => do
      let r ← extractRegister
      return .assign r (some (← extractValue op2))
  | .syscall, _, _ => return .syscall
  | .illegal opcode, _, _ => return .message (illegalMessage opcode)

/-- The acting half of a case. -/
def Action.perform : Action → Execution Unit
  | .skip => return
  | .assign r value => do
      let place ← slot r
      setRegister place (← trapping value)
  | .branch taken address =>
      if taken then setRegister IP address.toUInt64 else return
  | .store r address => do
      let value ← register r
      storeWord address.toNat value
  | .load r address => do
      let place ← slot r
      setRegister place (← loadWord address.toNat)
  | .call address retnSize => do
      VM.push retnSize
      VM.push ((← get).registers IP)
      setRegister IP address.toUInt64
  | .ret => retCase
  | .push v1 => VM.push v1
  | .pop r => do
      let place ← slot r
      setRegister place (← VM.pop)
  | .syscall => syscallCase
  | .message bytes => print bytes

/-! ## The two halves make the step -/

theorem binaryCase_eq (compute : UInt64 → UInt64 → Option UInt64) (op1 op2 : Bool) :
    binaryCase compute op1 op2 =
      (Kind.binary compute).extract op1 op2 >>= Action.perform := by
  simp only [binaryCase, Kind.extract, bind_assoc, pure_bind, Action.perform]

theorem unaryCase_eq (compute : UInt64 → UInt64) (op1 op2 : Bool) :
    unaryCase compute op1 = (Kind.unary compute).extract op1 op2 >>= Action.perform := by
  simp only [unaryCase, Kind.extract, bind_assoc, pure_bind, Action.perform, trapping]

theorem branchCase_eq (test : UInt64 → UInt64 → Bool) (op1 op2 : Bool) :
    branchCase test op1 op2 = (Kind.branch test).extract op1 op2 >>= Action.perform := by
  simp only [branchCase, Kind.extract, bind_assoc, pure_bind, Action.perform]

/-- A case extracts its operands and then performs the action they make. -/
theorem switch_eq (opcode : UInt8) (op1 op2 : Bool) :
    switch opcode op1 op2 = (kind opcode).extract op1 op2 >>= Action.perform := by
  rw [switch, kind]
  cases Opcode.ofByte opcode with
  | none => simp only [Kind.extract, pure_bind, Action.perform]
  | some case =>
      cases case <;>
        first
        | exact binaryCase_eq _ op1 op2
        | exact unaryCase_eq _ op1 op2
        | exact branchCase_eq _ op1 op2
        | simp only [storeCase, loadCase, jmpCase, callCase, pushCase, popCase, movCase,
            Kind.extract, bind_assoc, pure_bind, Action.perform, trapping, if_true]

/-- The extracting half of a step. -/
def extraction : Execution (UInt8 × Action) := do
  let (opcode, op1, op2) ← extractOpcode
  return (opcode, ← (kind opcode).extract op1 op2)

theorem step_eq :
    step = (do
      let (opcode, action) ← extraction
      action.perform
      return opcode) := by
  simp only [step, extraction, switch_eq, bind_assoc, pure_bind]

/-! ## What the extracting half does -/

theorem extracts_values (op1 op2 : Bool) {α : Type} {forms : List Form}
    {next : UInt64 → UInt64 → Execution α} (rest : ∀ v1 v2, Extracts forms (next v1 v2)) :
    Extracts (valueForm op1 :: valueForm op2 :: forms) (do
      let v1 ← extractValue op1
      let v2 ← extractValue op2
      next v1 v2) :=
  (extracts_value op1).bind fun v1 => (extracts_value op2).bind fun v2 => rest v1 v2

/-- The operands of a class have the forms of its layout. -/
theorem extracts_kind (kind : Kind) (op1 op2 : Bool) :
    Extracts (kind.layout op1 op2) (kind.extract op1 op2) := by
  cases kind with
  | halt => exact Extracts.pure _
  | binary compute =>
      exact extracts_values op1 op2 fun v1 v2 =>
        Extracts.byte.map fun r => Action.assign r (compute v1 v2)
  | unary compute =>
      exact (extracts_value op1).bind fun v1 =>
        Extracts.byte.map fun r => Action.assign r (some (compute v1))
  | branch test =>
      exact extracts_values op1 op2 fun v1 v2 =>
        extracts_address.map (Action.branch (test v1 v2))
  | store => exact Extracts.byte.bind fun r => (extracts_target op2).map (Action.store r)
  | load => exact Extracts.byte.bind fun r => (extracts_target op2).map (Action.load r)
  | jmp => exact (extracts_jump op1 op2).map (Action.branch true)
  | call =>
      exact (extracts_jump op1 op2).bind fun address =>
        Extracts.constant.map (Action.call address)
  | ret => exact Extracts.pure _
  | push => exact (extracts_value op1).map Action.push
  | pop => exact Extracts.byte.map Action.pop
  | mov =>
      exact Extracts.byte.bind fun r =>
        (extracts_value op2).map fun v2 => Action.assign r (some v2)
  | syscall => exact Extracts.pure _
  | illegal opcode => exact Extracts.pure _

/-- The layout of the instruction at `IP`. -/
def Processor.layout (cpu : Processor) : List Form :=
  match cpu.bytecode.bytes[cpu.ip]? with
  | some opc => .byte :: (kind (opc >>> 2)).layout (opc &&& 1 ≠ 0) (opc &&& 2 ≠ 0)
  | none => [.byte]

theorem extraction_eq :
    extraction = (do
      let opc ← fetch
      let action ← (kind (opc >>> 2)).extract (opc &&& 1 ≠ 0) (opc &&& 2 ≠ 0)
      return (opc >>> 2, action)) := by
  simp only [extraction, extractOpcode, bind_assoc, pure_bind]

/-- The extracting half of a step extracts the layout of the instruction at `IP`, and
what it extracts does not depend on the stack. -/
theorem extraction_run :
    ∃ value : Processor → UInt8 × Action, ∀ m : Machine,
      extraction m =
        match m.firstFault m.layout with
        | some fault => .error fault
        | none => .ok (value m.toProcessor, m.advance (width m.layout)) := by
  choose value run using extracts_kind
  let extracted : Processor → UInt8 × Action := fun cpu =>
    let opc := cpu.bytecode.bytes[cpu.ip]?.getD 0
    (opc >>> 2, value (kind (opc >>> 2)) (opc &&& 1 ≠ 0) (opc &&& 2 ≠ 0) (cpu.advance 1))
  refine ⟨extracted, fun m => ?_⟩
  rw [extraction_eq, Processor.layout]
  cases found : m.bytecode.bytes[m.ip]? with
  | none =>
      have cut : m.firstFault [.byte] = some .fetch := by
        rw [Processor.firstFault, Processor.formFault_of_none .byte found, Option.some_or]
      rw [cut, bind_of_error (fetch_of_none found)]
  | some opc =>
      have operands := run (kind (opc >>> 2)) (opc &&& 1 ≠ 0) (opc &&& 2 ≠ 0) (m.advance 1)
      have opcodeFetched : m.formFault .byte = none := by
        rw [Processor.formFault_of_some rfl found]
        rfl
      rw [bind_of_ok (fetch_of_some found), Processor.firstFault, opcodeFetched,
        Option.none_or]
      change _ = match (m.advance 1).firstFault _ with | some fault => _ | none => _
      cases faults : (m.advance 1).firstFault
          ((kind (opc >>> 2)).layout (opc &&& 1 ≠ 0) (opc &&& 2 ≠ 0)) with
      | some fault =>
          rw [faults] at operands
          rw [bind_of_error operands]
      | none =>
          rw [faults] at operands
          rw [bind_of_ok operands, Machine.advance_advance]
          simp only [extracted, found, Option.getD_some]
          rfl

end IotChain.VM
