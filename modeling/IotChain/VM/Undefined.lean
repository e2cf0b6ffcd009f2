import IotChain.VM.Safety

/-!
# Undefined arithmetic

Signed arithmetic of C++ has no value where the exact result does not fit.  The compiled
code wraps there and traps at two kinds of division.  Here the interpreter is run with
arithmetic that has a value only where C++ gives it one, and the operands without a value
are found.
-/

namespace IotChain.VM

open IotChain.Transition

/-! ## Arithmetic without undefined results -/

/-- The value of an `int64_t`. -/
def FitsInt64 (value : Int) : Prop := -2 ^ 63 ≤ value ∧ value < 2 ^ 63

/-- The value of an `int`. -/
def FitsInt32 (value : Int) : Prop := -2 ^ 31 ≤ value ∧ value < 2 ^ 31

instance (value : Int) : Decidable (FitsInt64 value) :=
  inferInstanceAs (Decidable (_ ∧ _))

instance (value : Int) : Decidable (FitsInt32 value) :=
  inferInstanceAs (Decidable (_ ∧ _))

/-- `MCLVirtualMachine::SMul`, where its product fits. -/
def checkedSMul (v1 v2 : UInt64) : Option UInt64 :=
  if FitsInt64 (v1.toInt64.toInt * v2.toInt64.toInt) then some (sMul v1 v2) else none

/-- `MCLVirtualMachine::Neg`, where its product with `-1` fits. -/
def checkedNeg (v1 : UInt64) : Option UInt64 :=
  if FitsInt64 (v1.toInt64.toInt * -1) then some (neg v1) else none

/-- The value of `temp` for the power that `MCLVirtualMachine::Exp` has computed. -/
def expTemp (power : UInt64) : Int32 := power.toUInt32.toInt32

/-- `MCLVirtualMachine::Exp`, where the squares of its `int`s fit. -/
def checkedExp (v1 v2 : UInt64) : Option UInt64 :=
  if v2 = 0 then
    some 1
  else do
    let temp := expTemp (← checkedExp v1 (v2 / 2))
    if v2 % 2 = 0 then
      if FitsInt32 (temp.toInt * temp.toInt) then
        some (temp * temp).toInt64.toUInt64
      else
        none
    else
      some (v1 * temp.toInt64.toUInt64 * temp.toInt64.toUInt64)
  termination_by v2.toNat
  decreasing_by
    rename_i nonzero
    have positive : v2.toNat ≠ 0 := fun zero => nonzero (UInt64.toNat_inj.mp zero)
    have half : (v2 / 2).toNat = v2.toNat / 2 := UInt64.toNat_div v2 2
    omega

/-- The case `NEG`, with a result that may have no value. -/
def strictUnaryCase (compute : UInt64 → Option UInt64) (op1 : Bool) : Execution Unit := do
  let v1 ← extractValue op1
  let place ← slot (← extractRegister)
  setRegister place (← trapping (compute v1))

/-- The `switch` with arithmetic that may have no value. -/
def strictSwitch (opcode : UInt8) (op1 op2 : Bool) : Execution Unit :=
  match Opcode.ofByte opcode with
  | some .SMUL => binaryCase checkedSMul op1 op2
  | some .EXP => binaryCase checkedExp op1 op2
  | some .NEG => strictUnaryCase checkedNeg op1
  | _ => switch opcode op1 op2

/-- The body of the loop of `Execute`, with arithmetic that may have no value. -/
def strictStep : Execution UInt8 := do
  let (opcode, op1, op2) ← extractOpcode
  strictSwitch opcode op1 op2
  return opcode

/-- The step does arithmetic that C++ leaves undefined. -/
def Machine.UndefinedArithmetic (m : Machine) : Prop :=
  strictStep m = .error .divide

/-! ## Operands without a value -/

/-- The square of an `int` that `Exp` computes on the way does not fit. -/
def ExpOverflows (v1 v2 : UInt64) : Prop :=
  ∃ k, let rest := (· / 2)^[k] v2
    rest ≠ 0 ∧ rest % 2 = 0 ∧
      ¬ FitsInt32 ((expTemp (exp v1 (rest / 2))).toInt * (expTemp (exp v1 (rest / 2))).toInt)

/-- The operands on which an instruction is a division that traps. -/
def Traps : Opcode → UInt64 → UInt64 → Prop
  | .DIV, _, v2 => v2 = 0
  | .MOD, _, v2 => v2 = 0
  | .SDIV, v1, v2 => v2.toInt64 = 0 ∨ v1.toInt64 = Int64.minValue ∧ v2.toInt64 = -1
  | .SMOD, v1, v2 => v2.toInt64 = 0 ∨ v1.toInt64 = Int64.minValue ∧ v2.toInt64 = -1
  | _, _, _ => False

/-- The operands on which the arithmetic of an instruction is undefined. -/
def Undefined : Opcode → UInt64 → UInt64 → Prop
  | .SMUL, v1, v2 => ¬ FitsInt64 (v1.toInt64.toInt * v2.toInt64.toInt)
  | .EXP, v1, v2 => ExpOverflows v1 v2
  | .NEG, v1, _ => v1.toInt64 = Int64.minValue
  | opcode, v1, v2 => Traps opcode v1 v2

/-- The second factor of `NEG` is `-1`. -/
def secondOperand (opcode : Opcode) (op2 : Bool) : Execution UInt64 :=
  if opcode = .NEG then return -1 else extractValue op2

/-- The operands of an arithmetic instruction and the place of its result. -/
def operands (opcode : Opcode) (op1 op2 : Bool) : Execution (UInt64 × UInt64 × Fin 13) := do
  let v1 ← extractValue op1
  let v2 ← secondOperand opcode op2
  let place ← slot (← extractRegister)
  return (v1, v2, place)

/-- The instruction at `IP` has this opcode and comes to compute with these operands. -/
def Machine.Computes (m : Machine) (opcode : Opcode) (v1 v2 : UInt64) : Prop :=
  ∃ opc, m.bytecode.bytes[m.ip]? = some opc ∧ Opcode.ofByte (opc >>> 2) = some opcode ∧
    ∃ place next, operands opcode (opc &&& 1 ≠ 0) (opc &&& 2 ≠ 0) (m.advance 1) =
      .ok ((v1, v2, place), next)

/-! ## The checked functions -/

theorem checkedSMul_eq_none_iff (v1 v2 : UInt64) :
    checkedSMul v1 v2 = none ↔ Undefined .SMUL v1 v2 := by
  simp [checkedSMul, Undefined]

theorem checkedNeg_eq_none_iff (v1 v2 : UInt64) :
    checkedNeg v1 = none ↔ Undefined .NEG v1 v2 := by
  have lower := Int64.le_toInt v1.toInt64
  have upper := Int64.toInt_lt v1.toInt64
  have least : v1.toInt64 = Int64.minValue ↔ v1.toInt64.toInt = -2 ^ 63 := by
    rw [← Int64.toInt_inj]
    rfl
  have fits : FitsInt64 (v1.toInt64.toInt * -1) ↔ v1.toInt64.toInt ≠ -2 ^ 63 := by
    simp only [FitsInt64]
    omega
  simp only [checkedNeg, Undefined, least, fits]
  simp

theorem div_eq_none_iff (v1 v2 : UInt64) : div v1 v2 = none ↔ Traps .DIV v1 v2 := by
  simp [div, Traps]

theorem mod_eq_none_iff (v1 v2 : UInt64) : mod v1 v2 = none ↔ Traps .MOD v1 v2 := by
  simp [mod, Traps]

theorem sDiv_eq_none_iff (v1 v2 : UInt64) : sDiv v1 v2 = none ↔ Traps .SDIV v1 v2 := by
  simp [sDiv, signedTrap, Traps, or_iff_not_imp_left]

theorem sMod_eq_none_iff (v1 v2 : UInt64) : sMod v1 v2 = none ↔ Traps .SMOD v1 v2 := by
  simp [sMod, signedTrap, Traps, or_iff_not_imp_left]

/-- One level of the recursion of `Exp`. -/
theorem expOverflows_iff {v1 v2 : UInt64} (nonzero : v2 ≠ 0) :
    ExpOverflows v1 v2 ↔
      (v2 % 2 = 0 ∧ ¬ FitsInt32 ((expTemp (exp v1 (v2 / 2))).toInt *
        (expTemp (exp v1 (v2 / 2))).toInt)) ∨ ExpOverflows v1 (v2 / 2) := by
  constructor
  · rintro ⟨k, overflow⟩
    cases k with
    | zero => exact .inl overflow.2
    | succ k => exact .inr ⟨k, overflow⟩
  · rintro (overflow | ⟨k, overflow⟩)
    · exact ⟨0, nonzero, overflow⟩
    · exact ⟨k + 1, overflow⟩

theorem not_expOverflows_zero (v1 : UInt64) : ¬ ExpOverflows v1 0 := by
  rintro ⟨k, nonzero, _⟩
  apply nonzero
  exact Function.iterate_fixed rfl k

theorem exp_of_ne {v1 v2 : UInt64} (nonzero : v2 ≠ 0) :
    exp v1 v2 =
      let temp := expTemp (exp v1 (v2 / 2))
      if v2 % 2 = 0 then (temp * temp).toInt64.toUInt64
      else v1 * temp.toInt64.toUInt64 * temp.toInt64.toUInt64 := by
  rw [exp.eq_def v1 v2, if_neg nonzero]
  rfl

theorem checkedExp_of_ne {v1 v2 : UInt64} (nonzero : v2 ≠ 0) :
    checkedExp v1 v2 = (do
      let temp := expTemp (← checkedExp v1 (v2 / 2))
      if v2 % 2 = 0 then
        if FitsInt32 (temp.toInt * temp.toInt) then
          some (temp * temp).toInt64.toUInt64
        else
          none
      else
        some (v1 * temp.toInt64.toUInt64 * temp.toInt64.toUInt64)) := by
  rw [checkedExp.eq_def v1 v2, if_neg nonzero]

/-- `Exp` is undefined exactly if one of its squares overflows, and otherwise has the
value of the wrapping function. -/
theorem checkedExp_cases (v1 v2 : UInt64) :
    ExpOverflows v1 v2 ∧ checkedExp v1 v2 = none ∨
      ¬ ExpOverflows v1 v2 ∧ checkedExp v1 v2 = some (exp v1 v2) := by
  induction v2 using exp.induct v1 with
  | case1 =>
      rw [checkedExp, exp]
      exact .inr ⟨not_expOverflows_zero v1, rfl⟩
  | case2 v2 nonzero even ih =>
      rw [expOverflows_iff nonzero, checkedExp_of_ne nonzero, exp_of_ne nonzero, if_pos even]
      rcases ih with ⟨overflows, undefined⟩ | ⟨fits, power⟩
      · rw [undefined]
        exact .inl ⟨.inr overflows, rfl⟩
      · rw [power, Option.bind_eq_bind, Option.bind_some, if_pos even]
        by_cases square : FitsInt32 ((expTemp (exp v1 (v2 / 2))).toInt *
            (expTemp (exp v1 (v2 / 2))).toInt)
        · rw [if_pos square]
          right
          constructor
          · rintro (overflow | overflows)
            · exact overflow.2 square
            · exact fits overflows
          · rfl
        · rw [if_neg square]
          exact .inl ⟨.inl ⟨even, square⟩, rfl⟩
  | case3 v2 nonzero odd ih =>
      rw [expOverflows_iff nonzero, checkedExp_of_ne nonzero, exp_of_ne nonzero, if_neg odd]
      rcases ih with ⟨overflows, undefined⟩ | ⟨fits, power⟩
      · rw [undefined]
        exact .inl ⟨.inr overflows, rfl⟩
      · rw [power, Option.bind_eq_bind, Option.bind_some, if_neg odd]
        right
        constructor
        · rintro (overflow | overflows)
          · exact odd overflow.1
          · exact fits overflows
        · rfl

theorem checkedExp_eq_none_iff (v1 v2 : UInt64) :
    checkedExp v1 v2 = none ↔ Undefined .EXP v1 v2 := by
  rcases checkedExp_cases v1 v2 with ⟨overflows, undefined⟩ | ⟨fits, power⟩
  · exact iff_of_true undefined overflows
  · rw [power]
    exact iff_of_false (Option.some_ne_none _) fits

/-! ## Computations that never divide -/

/-- The computation does not end in an arithmetic without a value. -/
def NeverDivides {α : Type} (action : Execution α) : Prop :=
  ∀ m, action m ≠ .error .divide

namespace NeverDivides

variable {α β : Type} {action : Execution α} {next : α → Execution β}

theorem of_ok {run : Machine → α × Machine} (finishes : ∀ m, action m = .ok (run m)) :
    NeverDivides action := by
  intro m divides
  rw [finishes] at divides
  cases divides

theorem bind (first : NeverDivides action) (second : ∀ value, NeverDivides (next value)) :
    NeverDivides (action >>= next) := by
  intro m
  cases run : action m with
  | ok result =>
      rw [bind_of_ok run]
      exact second _ _
  | error fault =>
      rw [bind_of_error run]
      intro divides
      cases divides
      exact first m run

theorem ite {test : Prop} [Decidable test] {other : Execution α}
    (first : NeverDivides action) (second : NeverDivides other) :
    NeverDivides (if test then action else other) := by
  split
  · exact first
  · exact second

theorem pure (value : α) : NeverDivides (Pure.pure value) :=
  of_ok fun _ => rfl

theorem get : NeverDivides (MonadState.get : Execution Machine) :=
  of_ok fun _ => rfl

theorem modification (f : Machine → Machine) : NeverDivides (modify f : Execution Unit) :=
  of_ok fun _ => rfl

theorem fetch : NeverDivides VM.fetch := by
  intro m divides
  cases found : m.bytecode.bytes[m.ip]? with
  | none =>
      rw [fetch_of_none found] at divides
      cases divides
  | some byte =>
      rw [fetch_of_some found] at divides
      cases divides

theorem slot (r : UInt8) : NeverDivides (VM.slot r) := by
  by_cases bound : r.toNat < 13
  · rw [slot_of_lt bound]
    exact pure _
  · rw [slot_of_not_lt bound]
    intro m divides
    cases divides

theorem window (address : Nat) : NeverDivides (VM.window address) := by
  by_cases inside : address + 8 ≤ stackSize
  · rw [window_of_inside inside]
    exact pure _
  · rw [window_of_outside inside]
    intro m divides
    cases divides

theorem register (r : UInt8) : NeverDivides (VM.register r) :=
  (slot r).bind fun _ => get.bind fun _ => pure _

theorem loadWord (address : Nat) : NeverDivides (VM.loadWord address) :=
  (window address).bind fun _ => get.bind fun _ => pure _

theorem storeWord (address : Nat) (value : UInt64) :
    NeverDivides (VM.storeWord address value) :=
  (window address).bind fun _ => modification _

theorem push (v1 : UInt64) : NeverDivides (VM.push v1) :=
  get.bind fun _ => (modification _).bind fun _ => storeWord _ _

theorem pop : NeverDivides VM.pop :=
  get.bind fun _ => (loadWord _).bind fun _ => (modification _).bind fun _ => pure _

theorem stoutLoop (size : UInt32) (i count : Nat) :
    NeverDivides (VM.stoutLoop size i count) := by
  induction count generalizing i with
  | zero => exact pure _
  | succ count ih =>
      exact pop.bind fun _ => get.bind fun _ => (modification _).bind fun _ => ih _

theorem syscallCase : NeverDivides VM.syscallCase :=
  get.bind fun _ => ite (get.bind fun _ => stoutLoop _ _ _) (pure _)

theorem retCase : NeverDivides VM.retCase :=
  pop.bind fun _ => pop.bind fun _ => get.bind fun _ =>
    (modification _).bind fun _ => modification _

theorem extractConstant : NeverDivides VM.extractConstant := by
  intro m divides
  rw [VM.extractConstant] at divides
  split at divides
  · cases divides
  · cases divides

theorem extractValue (constant : Bool) : NeverDivides (VM.extractValue constant) :=
  ite extractConstant (fetch.bind fun _ => register _)

theorem extractAddress : NeverDivides VM.extractAddress :=
  fetch.bind fun _ => fetch.bind fun _ => fetch.bind fun _ => pure _

theorem extractTarget (immediate : Bool) : NeverDivides (VM.extractTarget immediate) :=
  ite extractAddress (fetch.bind fun _ => (register _).bind fun _ => pure _)

theorem extractJump (op1 op2 : Bool) : NeverDivides (VM.extractJump op1 op2) :=
  (extractTarget op1).bind fun _ => ite (pure _) (get.bind fun _ => pure _)

theorem operands (opcode : Opcode) (op1 op2 : Bool) :
    NeverDivides (VM.operands opcode op1 op2) :=
  (extractValue op1).bind fun _ => (ite (pure _) (extractValue op2)).bind fun _ =>
    fetch.bind fun _ => (slot _).bind fun _ => pure _

theorem binaryCase (compute : UInt64 → UInt64 → UInt64) (op1 op2 : Bool) :
    NeverDivides (VM.binaryCase (fun v1 v2 => some (compute v1 v2)) op1 op2) :=
  (extractValue op1).bind fun _ => (extractValue op2).bind fun _ =>
    fetch.bind fun _ => (slot _).bind fun _ => (pure _).bind fun _ => modification _

theorem unaryCase (compute : UInt64 → UInt64) (op1 : Bool) :
    NeverDivides (VM.unaryCase compute op1) :=
  (extractValue op1).bind fun _ => fetch.bind fun _ => (slot _).bind fun _ => modification _

theorem branchCase (test : UInt64 → UInt64 → Bool) (op1 op2 : Bool) :
    NeverDivides (VM.branchCase test op1 op2) :=
  (extractValue op1).bind fun _ => (extractValue op2).bind fun _ =>
    extractAddress.bind fun _ => ite (modification _) (pure _)

theorem storeCase (op2 : Bool) : NeverDivides (VM.storeCase op2) :=
  fetch.bind fun _ => (extractTarget op2).bind fun _ => (register _).bind fun _ =>
    storeWord _ _

theorem loadCase (op2 : Bool) : NeverDivides (VM.loadCase op2) :=
  fetch.bind fun _ => (extractTarget op2).bind fun _ => (slot _).bind fun _ =>
    (loadWord _).bind fun _ => modification _

theorem jmpCase (op1 op2 : Bool) : NeverDivides (VM.jmpCase op1 op2) :=
  (extractJump op1 op2).bind fun _ => modification _

theorem callCase (op1 op2 : Bool) : NeverDivides (VM.callCase op1 op2) :=
  (extractJump op1 op2).bind fun _ => extractConstant.bind fun _ => (push _).bind fun _ =>
    get.bind fun _ => (push _).bind fun _ => modification _

theorem pushCase (op1 : Bool) : NeverDivides (VM.pushCase op1) :=
  (extractValue op1).bind fun _ => push _

theorem popCase : NeverDivides VM.popCase :=
  fetch.bind fun _ => (slot _).bind fun _ => pop.bind fun _ => modification _

theorem movCase (op2 : Bool) : NeverDivides (VM.movCase op2) :=
  fetch.bind fun _ => (extractValue op2).bind fun _ => (slot _).bind fun _ => modification _

/-- Only the four divisions can trap. -/
theorem switch {opcode : UInt8} {op1 op2 : Bool}
    (other : ∀ case ∈ Opcode.ofByte opcode, case ∉ [.DIV, .SDIV, .MOD, .SMOD]) :
    NeverDivides (VM.switch opcode op1 op2) := by
  rw [VM.switch]
  cases found : Opcode.ofByte opcode with
  | none => exact modification _
  | some case =>
      have quiet := other case found
      cases case with
      | DIV | SDIV | MOD | SMOD => exact absurd (by decide) quiet
      | STOP => exact pure _
      | ADD | SUB | MUL | SMUL | EXP => exact binaryCase _ op1 op2
      | NEG | NOT => exact unaryCase _ op1
      | LT | LE | GT | GE | EQ => exact branchCase _ op1 op2
      | STORE => exact storeCase op2
      | LOAD => exact loadCase op2
      | JMP => exact jmpCase op1 op2
      | CALL => exact callCase op1 op2
      | RET => exact retCase
      | PUSH => exact pushCase op1
      | POP => exact popCase
      | MOV => exact movCase op2
      | SYSCALL => exact syscallCase

end NeverDivides

/-! ## Which operands make a step undefined -/

/-- A result that is missing is noticed once the operands are known. -/
theorem bind_divides_iff {α β : Type} {first : Execution α} (never : NeverDivides first)
    (rest : α → Execution β) (m : Machine) :
    (first >>= rest) m = .error .divide ↔
      ∃ value next, first m = .ok (value, next) ∧ rest value next = .error .divide := by
  cases run : first m with
  | ok result =>
      rw [bind_of_ok run]
      constructor
      · intro divides
        exact ⟨_, _, rfl, divides⟩
      · rintro ⟨_, _, same, divides⟩
        cases same
        exact divides
  | error fault =>
      rw [bind_of_error run]
      constructor
      · intro divides
        cases divides
        exact absurd run (never m)
      · rintro ⟨_, _, same, _⟩
        cases same

theorem assign_divides_iff (place : Fin 13) (value : Option UInt64) (m : Machine) :
    (trapping value >>= setRegister place) m = .error .divide ↔ value = none := by
  cases value with
  | none => exact iff_of_true rfl rfl
  | some value => exact iff_of_false (fun divides => by cases divides) (Option.some_ne_none _)

/-- What the cases of the arithmetic instructions do with their operands. -/
def computation (opcode : Opcode) (compute : UInt64 → UInt64 → Option UInt64)
    (op1 op2 : Bool) : Execution Unit := do
  let (v1, v2, place) ← operands opcode op1 op2
  setRegister place (← trapping (compute v1 v2))

theorem binaryCase_eq_computation {opcode : Opcode} (two : opcode ≠ .NEG)
    (compute : UInt64 → UInt64 → Option UInt64) (op1 op2 : Bool) :
    binaryCase compute op1 op2 = computation opcode compute op1 op2 := by
  simp only [binaryCase, computation, operands, secondOperand, if_neg two, bind_assoc,
    pure_bind]

theorem strictUnaryCase_eq_computation (compute : UInt64 → Option UInt64) (op1 op2 : Bool) :
    strictUnaryCase compute op1 = computation .NEG (fun v1 _ => compute v1) op1 op2 := by
  simp only [strictUnaryCase, computation, operands, secondOperand, if_true, bind_assoc,
    pure_bind]

theorem computation_divides_iff (opcode : Opcode) (compute : UInt64 → UInt64 → Option UInt64)
    (op1 op2 : Bool) (m : Machine) :
    computation opcode compute op1 op2 m = .error .divide ↔
      ∃ v1 v2 place next, operands opcode op1 op2 m = .ok ((v1, v2, place), next) ∧
        compute v1 v2 = none := by
  rw [computation, bind_divides_iff (NeverDivides.operands opcode op1 op2)]
  simp only [assign_divides_iff, Prod.exists]

/-- Arithmetic that has a value has the value of the code's functions. -/
theorem computation_congr {opcode : Opcode} {checked compute : UInt64 → UInt64 → Option UInt64}
    (agree : ∀ v1 v2, checked v1 v2 ≠ none → checked v1 v2 = compute v1 v2) {op1 op2 : Bool}
    {m : Machine} (defined : computation opcode checked op1 op2 m ≠ .error .divide) :
    computation opcode checked op1 op2 m = computation opcode compute op1 op2 m := by
  rw [computation] at defined ⊢
  rw [computation]
  cases run : operands opcode op1 op2 m with
  | error fault => rw [bind_of_error run, bind_of_error run]
  | ok result =>
      rw [bind_of_ok run] at defined ⊢
      rw [bind_of_ok run]
      have value : checked result.1.1 result.1.2.1 ≠ none :=
        fun undefined => defined ((assign_divides_iff _ _ _).mpr undefined)
      simp only [agree _ _ value]

/-- The instruction comes to compute with operands of a kind. -/
def ComputesWith (kind : Opcode → UInt64 → UInt64 → Prop) (opcode : UInt8) (op1 op2 : Bool)
    (m : Machine) : Prop :=
  ∃ case, Opcode.ofByte opcode = some case ∧
    ∃ v1 v2 place next, operands case op1 op2 m = .ok ((v1, v2, place), next) ∧
      kind case v1 v2

section Cases

variable {kind : Opcode → UInt64 → UInt64 → Prop} {opcode : UInt8} {case : Opcode}
  {compute : UInt64 → UInt64 → Option UInt64}

theorem computesWith_of_found (found : Opcode.ofByte opcode = some case) (op1 op2 : Bool)
    (m : Machine) :
    ComputesWith kind opcode op1 op2 m ↔
      ∃ v1 v2 place next, operands case op1 op2 m = .ok ((v1, v2, place), next) ∧
        kind case v1 v2 := by
  simp only [ComputesWith, found, Option.some.injEq, exists_eq_left']

theorem binaryCase_divides (found : Opcode.ofByte opcode = some case) (two : case ≠ .NEG)
    (none_iff : ∀ v1 v2, compute v1 v2 = none ↔ kind case v1 v2) (op1 op2 : Bool)
    (m : Machine) :
    binaryCase compute op1 op2 m = .error .divide ↔
      ComputesWith kind opcode op1 op2 m := by
  rw [computesWith_of_found found, binaryCase_eq_computation two, computation_divides_iff]
  simp only [none_iff]

theorem quiet_divides {action : Execution Unit} (quiet : NeverDivides action)
    (never : ∀ case ∈ Opcode.ofByte opcode, ∀ v1 v2, ¬ kind case v1 v2) (op1 op2 : Bool)
    (m : Machine) :
    action m = .error .divide ↔ ComputesWith kind opcode op1 op2 m := by
  apply iff_of_false (quiet m)
  rintro ⟨case, found, v1, v2, place, next, _, bad⟩
  exact never case found v1 v2 bad

end Cases

/-- The `switch` traps exactly at a division with the operands for it. -/
theorem switch_divides_iff (opcode : UInt8) (op1 op2 : Bool) (m : Machine) :
    switch opcode op1 op2 m = .error .divide ↔ ComputesWith Traps opcode op1 op2 m := by
  by_cases division : ∀ case ∈ Opcode.ofByte opcode, case ∉ [.DIV, .SDIV, .MOD, .SMOD]
  · apply quiet_divides (NeverDivides.switch division)
    intro case found v1 v2 traps
    have other := division case found
    cases case <;> first | exact traps | exact other (by decide)
  · push Not at division
    rcases division with ⟨case, found, member⟩
    rw [switch, found]
    simp only [List.mem_cons, List.not_mem_nil, or_false] at member
    rcases member with rfl | rfl | rfl | rfl
    · exact binaryCase_divides found (by decide) div_eq_none_iff op1 op2 m
    · exact binaryCase_divides found (by decide) sDiv_eq_none_iff op1 op2 m
    · exact binaryCase_divides found (by decide) mod_eq_none_iff op1 op2 m
    · exact binaryCase_divides found (by decide) sMod_eq_none_iff op1 op2 m

theorem strictSwitch_of_other {opcode : UInt8}
    (other : ∀ case ∈ Opcode.ofByte opcode, case ∉ [.SMUL, .EXP, .NEG]) (op1 op2 : Bool) :
    strictSwitch opcode op1 op2 = switch opcode op1 op2 := by
  rw [strictSwitch]
  split
  · rename_i found
    exact absurd (by decide) (other _ found)
  · rename_i found
    exact absurd (by decide) (other _ found)
  · rename_i found
    exact absurd (by decide) (other _ found)
  · rfl

/-- The checked `switch` fails exactly at an instruction with undefined operands. -/
theorem strictSwitch_divides_iff (opcode : UInt8) (op1 op2 : Bool) (m : Machine) :
    strictSwitch opcode op1 op2 m = .error .divide ↔
      ComputesWith Undefined opcode op1 op2 m := by
  by_cases unchanged : ∀ case ∈ Opcode.ofByte opcode, case ∉ [.SMUL, .EXP, .NEG]
  · rw [strictSwitch_of_other unchanged, switch_divides_iff]
    apply exists_congr
    intro case
    apply and_congr_right
    intro found
    have other := unchanged case found
    cases case <;> first | rfl | exact absurd (by decide) other
  · push Not at unchanged
    rcases unchanged with ⟨case, found, member⟩
    rw [strictSwitch, found]
    simp only [List.mem_cons, List.not_mem_nil, or_false] at member
    rcases member with rfl | rfl | rfl
    · exact binaryCase_divides found (by decide) checkedSMul_eq_none_iff op1 op2 m
    · exact binaryCase_divides found (by decide) checkedExp_eq_none_iff op1 op2 m
    · rw [computesWith_of_found found]
      simp only [← checkedNeg_eq_none_iff]
      rw [← computation_divides_iff, ← strictUnaryCase_eq_computation]

/-- A step fails as its `switch` does. -/
theorem divides_of_fetch {body : UInt8 → Bool → Bool → Execution Unit} (m : Machine) :
    (do let (opcode, op1, op2) ← extractOpcode
        body opcode op1 op2
        return opcode : Execution UInt8) m = .error .divide ↔
      ∃ opc, m.bytecode.bytes[m.ip]? = some opc ∧
        body (opc >>> 2) (opc &&& 1 ≠ 0) (opc &&& 2 ≠ 0) (m.advance 1) = .error .divide := by
  simp only [extractOpcode, bind_assoc, pure_bind]
  cases found : m.bytecode.bytes[m.ip]? with
  | none =>
      rw [bind_of_error (fetch_of_none found)]
      simp
  | some opc =>
      rw [bind_of_ok (fetch_of_some found)]
      simp only [Option.some.injEq, exists_eq_left']
      cases run : body (opc >>> 2) (opc &&& 1 ≠ 0) (opc &&& 2 ≠ 0) (m.advance 1) with
      | ok result =>
          rw [bind_of_ok run]
          exact iff_of_false (fun divides => by cases divides) (fun divides => by cases divides)
      | error fault =>
          rw [bind_of_error run]
          simp only [Except.error.injEq]

theorem computes_iff {kind : Opcode → UInt64 → UInt64 → Prop} (m : Machine) :
    (∃ opc, m.bytecode.bytes[m.ip]? = some opc ∧
      ComputesWith kind (opc >>> 2) (opc &&& 1 ≠ 0) (opc &&& 2 ≠ 0) (m.advance 1)) ↔
    ∃ opcode v1 v2, m.Computes opcode v1 v2 ∧ kind opcode v1 v2 := by
  constructor
  · rintro ⟨opc, fetched, case, found, v1, v2, place, next, run, bad⟩
    exact ⟨case, v1, v2, ⟨opc, fetched, found, place, next, run⟩, bad⟩
  · rintro ⟨case, v1, v2, ⟨opc, fetched, found, place, next, run⟩, bad⟩
    exact ⟨opc, fetched, case, found, v1, v2, place, next, run, bad⟩

theorem strictStep_divides_iff (m : Machine) :
    m.UndefinedArithmetic ↔ ∃ opcode v1 v2, m.Computes opcode v1 v2 ∧ Undefined opcode v1 v2 := by
  rw [Machine.UndefinedArithmetic, strictStep, divides_of_fetch, ← computes_iff]
  simp only [strictSwitch_divides_iff]

theorem step_divides_iff (m : Machine) :
    step m = .error .divide ↔ ∃ opcode v1 v2, m.Computes opcode v1 v2 ∧ Traps opcode v1 v2 := by
  rw [step, divides_of_fetch, ← computes_iff]
  simp only [switch_divides_iff]

/-! ## Where the arithmetic is defined -/

theorem binaryCase_congr {checked compute : UInt64 → UInt64 → Option UInt64}
    (agree : ∀ v1 v2, checked v1 v2 ≠ none → checked v1 v2 = compute v1 v2) {op1 op2 : Bool}
    {m : Machine} (defined : binaryCase checked op1 op2 m ≠ .error .divide) :
    binaryCase checked op1 op2 m = binaryCase compute op1 op2 m := by
  have two : Opcode.MUL ≠ .NEG := by decide
  rw [binaryCase_eq_computation two] at defined
  rw [binaryCase_eq_computation two, binaryCase_eq_computation two]
  exact computation_congr agree defined

theorem strictUnaryCase_congr {checked : UInt64 → Option UInt64} {compute : UInt64 → UInt64}
    (agree : ∀ v1, checked v1 ≠ none → checked v1 = some (compute v1)) {op1 : Bool}
    {m : Machine} (defined : strictUnaryCase checked op1 m ≠ .error .divide) :
    strictUnaryCase checked op1 m = unaryCase compute op1 m := by
  have unary : unaryCase compute op1 = strictUnaryCase (fun v1 => some (compute v1)) op1 := rfl
  rw [strictUnaryCase_eq_computation _ _ false] at defined
  rw [unary, strictUnaryCase_eq_computation _ _ false, strictUnaryCase_eq_computation _ _ false]
  exact computation_congr (fun v1 _ => agree v1) defined

theorem checkedSMul_agrees (v1 v2 : UInt64) (defined : checkedSMul v1 v2 ≠ none) :
    checkedSMul v1 v2 = some (sMul v1 v2) := by
  rw [checkedSMul] at defined ⊢
  split
  · rfl
  · rename_i overflows
    exact absurd (if_neg overflows) defined

theorem checkedNeg_agrees (v1 : UInt64) (defined : checkedNeg v1 ≠ none) :
    checkedNeg v1 = some (neg v1) := by
  rw [checkedNeg] at defined ⊢
  split
  · rfl
  · rename_i overflows
    exact absurd (if_neg overflows) defined

theorem checkedExp_agrees (v1 v2 : UInt64) (defined : checkedExp v1 v2 ≠ none) :
    checkedExp v1 v2 = some (exp v1 v2) := by
  rcases checkedExp_cases v1 v2 with ⟨_, undefined⟩ | ⟨_, power⟩
  · exact absurd undefined defined
  · exact power

theorem strictSwitch_eq_switch {opcode : UInt8} {op1 op2 : Bool} {m : Machine}
    (defined : strictSwitch opcode op1 op2 m ≠ .error .divide) :
    strictSwitch opcode op1 op2 m = switch opcode op1 op2 m := by
  by_cases unchanged : ∀ case ∈ Opcode.ofByte opcode, case ∉ [.SMUL, .EXP, .NEG]
  · rw [strictSwitch_of_other unchanged]
  · push Not at unchanged
    rcases unchanged with ⟨case, found, member⟩
    rw [strictSwitch, found] at defined ⊢
    rw [switch, found]
    simp only [List.mem_cons, List.not_mem_nil, or_false] at member
    rcases member with rfl | rfl | rfl
    · exact binaryCase_congr checkedSMul_agrees defined
    · exact binaryCase_congr checkedExp_agrees defined
    · exact strictUnaryCase_congr checkedNeg_agrees defined

/-- Where no arithmetic is undefined, the checked interpreter does what the code does. -/
theorem strictStep_eq_step {m : Machine} (defined : ¬ m.UndefinedArithmetic) :
    strictStep m = step m := by
  rw [Machine.UndefinedArithmetic, strictStep, divides_of_fetch] at defined
  simp only [strictStep, step, extractOpcode, bind_assoc, pure_bind]
  cases found : m.bytecode.bytes[m.ip]? with
  | none => rw [bind_of_error (fetch_of_none found), bind_of_error (fetch_of_none found)]
  | some opc =>
      have same := strictSwitch_eq_switch fun divides => defined ⟨opc, found, divides⟩
      rw [bind_of_ok (fetch_of_some found), bind_of_ok (fetch_of_some found)]
      cases run : switch (opc >>> 2) (opc &&& 1 ≠ 0) (opc &&& 2 ≠ 0) (m.advance 1) with
      | error fault => rw [bind_of_error run, bind_of_error (same.trans run)]
      | ok result => rw [bind_of_ok run, bind_of_ok (same.trans run)]

/-! ## Runs -/

/-- In every reachable state the arithmetic of the step is undefined if and only if the
instruction at `IP` comes to compute with such operands, and a run traps if and only if a
state that it reaches comes to a division that does. -/
theorem undefinedArithmetic_reachable_iff (bytecode : Bytecode) (stack : Memory) :
    (∀ m, Reachable bytecode stack m →
      (m.UndefinedArithmetic ↔
        ∃ opcode v1 v2, m.Computes opcode v1 v2 ∧ Undefined opcode v1 v2)) ∧
    ((∃ n, iterate execute n (Machine.construct bytecode stack) = .inr (.faulted .divide)) ↔
      ∃ m, Reachable bytecode stack m ∧
        ∃ opcode v1 v2, m.Computes opcode v1 v2 ∧ Traps opcode v1 v2) := by
  constructor
  · intro m _
    exact strictStep_divides_iff m
  · rw [faults_iff]
    simp only [step_divides_iff]

/-- `DIV` of two constants, the second of which is zero. -/
def divideAtOnce : Bytecode :=
  ⟨[0x17, 1, 0, 0, 0, 0, 0, 0, 0, 0, 0, 0, 0, 0, 0, 0, 0, 0], by decide⟩

theorem undefinedArithmetic_fails :
    ¬ ∀ bytecode stack m, Reachable bytecode stack m → ¬ m.UndefinedArithmetic := by
  intro defined
  have start : Reachable divideAtOnce (fun _ => 0)
      (Machine.construct divideAtOnce fun _ => 0) :=
    ⟨0, rfl⟩
  exact defined _ _ _ start rfl

end IotChain.VM
