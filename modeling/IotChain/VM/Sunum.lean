import IotChain.Transition.TwoRun
import IotChain.VM.Safety

/-!
# The second copy of the virtual machine

`___sunum/vm.cpp` has the interpreter again.  Its text differs in one place: its
`SYSCALL_TABLE` is an `enum class`, whose values are `int`s, so `SYSCALL` looks at the low
half of `R0` only.
-/

namespace IotChain.VM

open IotChain.Transition

namespace Sunum

/-! ## The interpreter -/

/-- The cast of a register to `SYSCALL_TABLE`. -/
def syscallTable (value : UInt64) : Int32 := value.toUInt32.toInt32

/-- `SYSCALL_TABLE::Stout`. -/
abbrev Stout : Int32 := 3

/-- The case `SYSCALL`. -/
def syscallCase : Execution Unit := do
  if syscallTable ((← get).registers R0) = Stout then
    stoutCase

/-- The `switch` of the copy, whose other cases read like those of the original. -/
def switch (opcode : UInt8) (op1 op2 : Bool) : Execution Unit :=
  match Opcode.ofByte opcode with
  | some .SYSCALL => syscallCase
  | _ => VM.switch opcode op1 op2

/-- The body of the loop of `Execute`. -/
def step : Execution UInt8 := do
  let (opcode, op1, op2) ← extractOpcode
  switch opcode op1 op2
  return opcode

/-- `MCLVirtualMachine::Execute` of the copy. -/
def execute : Body Machine Ending := fun m =>
  match step m with
  | .ok (opcode, next) => if opcode ≠ 0 then .inl next else .inr (.stopped next)
  | .error fault => .inr (.faulted fault)

end Sunum

/-! ## Where the copies differ -/

/-- The next instruction is a system call that the original ignores and that the copy takes
for `Stout`, with something to print. -/
structure Machine.Confuses (m : Machine) : Prop where
  syscall : ∃ opc, m.bytecode.bytes[m.ip]? = some opc ∧
    Opcode.ofByte (opc >>> 2) = some .SYSCALL
  high : 2 ^ 32 ≤ (m.registers R0).toNat
  low : (m.registers R0).toNat % 2 ^ 32 = 3
  prints : stoutSize (m.registers R1) ≠ 0

theorem Sunum.syscallTable_eq_iff (value : UInt64) :
    syscallTable value = Stout ↔ value.toNat % 2 ^ 32 = 3 := by
  rw [← UInt64.toNat_toUInt32]
  constructor
  · intro stout
    exact congrArg (fun call => call.toUInt32.toNat) stout
  · intro low
    have lowEq : value.toUInt32 = 3 := UInt32.toNat_inj.mp low
    rw [syscallTable, lowEq]
    rfl

theorem Sunum.syscallCase_of_stout {m : Machine}
    (stout : syscallTable (m.registers R0) = Stout) :
    syscallCase m = stoutCase m := by
  change (if syscallTable (m.registers R0) = Stout then stoutCase else pure ()) m = _
  rw [if_pos stout]

theorem Sunum.syscallCase_of_ne {m : Machine}
    (other : syscallTable (m.registers R0) ≠ Stout) : syscallCase m = .ok ((), m) := by
  change (if syscallTable (m.registers R0) = Stout then stoutCase else pure ()) m = _
  rw [if_neg other]
  rfl

theorem eq_stout_iff (value : UInt64) :
    value = Stout ↔ value.toNat < 2 ^ 32 ∧ value.toNat % 2 ^ 32 = 3 := by
  have stout : Stout.toNat = 3 := rfl
  rw [← UInt64.toNat_inj, stout]
  omega

/-- `Stout` pops the words that it prints. -/
theorem stoutLoop_sp {size : UInt32} {i count : Nat} {m next : Machine}
    (run : stoutLoop size i count m = .ok ((), next)) :
    next.registers SP = m.registers SP + 8 * UInt64.ofNat count := by
  induction count generalizing i m with
  | zero =>
      cases run
      simp
  | succ count ih =>
      rw [stoutLoop] at run
      by_cases inside : (m.registers SP).toNat + 8 ≤ stackSize
      · rw [bind_of_ok (pop_of_inside inside)] at run
        rw [ih run]
        change (m.setRegister SP (m.registers SP + 8)).registers SP + _ = _
        rw [Machine.setRegister_same, UInt64.ofNat_add, UInt64.mul_add, UInt64.add_assoc]
        congr 1
        rw [UInt64.add_comm]
        rfl
      · rw [bind_of_error (pop_of_outside inside)] at run
        cases run

/-- `Stout` leaves the machine as it is exactly if it prints no word. -/
theorem stoutCase_eq_iff (m : Machine) :
    stoutCase m = .ok ((), m) ↔ stoutSize (m.registers R1) = 0 := by
  change stoutLoop (stoutSize (m.registers R1)) 0 (stoutSize (m.registers R1)).toNat m = _ ↔ _
  constructor
  · intro run
    have moved := congrArg UInt64.toNat (stoutLoop_sp run)
    have bound := (stoutSize (m.registers R1)).toNat_lt
    have spBound := (m.registers SP).toNat_lt
    apply UInt32.toNat_inj.mp
    simp only [UInt64.toNat_add, UInt64.toNat_mul, UInt64.toNat_ofNat', UInt64.reduceToNat]
      at moved
    change _ = 0
    omega
  · intro none
    rw [none]
    rfl

theorem syscallCase_eq_iff (m : Machine) :
    syscallCase m = Sunum.syscallCase m ↔
      ¬ (2 ^ 32 ≤ (m.registers R0).toNat ∧ (m.registers R0).toNat % 2 ^ 32 = 3 ∧
        stoutSize (m.registers R1) ≠ 0) := by
  by_cases copy : Sunum.syscallTable (m.registers R0) = Sunum.Stout
  · have low := (Sunum.syscallTable_eq_iff _).mp copy
    by_cases original : m.registers R0 = Stout
    · rw [syscallCase_of_stout original, Sunum.syscallCase_of_stout copy]
      have small := ((eq_stout_iff _).mp original).1
      apply iff_of_true rfl
      omega
    · rw [syscallCase_of_ne original, Sunum.syscallCase_of_stout copy]
      have high : 2 ^ 32 ≤ (m.registers R0).toNat := by
        by_contra small
        exact original ((eq_stout_iff _).mpr ⟨Nat.lt_of_not_le small, low⟩)
      rw [eq_comm, stoutCase_eq_iff]
      simp only [high, low, true_and, ne_eq, not_not]
  · have otherLow : ¬ (m.registers R0).toNat % 2 ^ 32 = 3 :=
      fun low => copy ((Sunum.syscallTable_eq_iff _).mpr low)
    have original : ¬ m.registers R0 = Stout :=
      fun stout => otherLow ((eq_stout_iff _).mp stout).2
    rw [syscallCase_of_ne original, Sunum.syscallCase_of_ne copy]
    exact iff_of_true rfl fun confused => otherLow confused.2.1

/-- How the loop goes on after a system call. -/
def afterSyscall : Except Fault (Unit × Machine) → Machine ⊕ Ending
  | .ok ((), next) => .inl next
  | .error fault => .inr (.faulted fault)

theorem afterSyscall_inj {first second : Except Fault (Unit × Machine)} :
    afterSyscall first = afterSyscall second ↔ first = second := by
  constructor
  · intro same
    rcases first with fault | ⟨⟨⟩, next⟩ <;> rcases second with fault' | ⟨⟨⟩, next'⟩
    · cases same
      rfl
    · cases same
    · cases same
    · cases same
      rfl
  · exact congrArg afterSyscall

theorem execute_syscall {m : Machine} {opc : UInt8}
    (found : m.bytecode.bytes[m.ip]? = some opc)
    (call : Opcode.ofByte (opc >>> 2) = some .SYSCALL) :
    execute m = afterSyscall (syscallCase (m.advance 1)) ∧
      Sunum.execute m = afterSyscall (Sunum.syscallCase (m.advance 1)) := by
  have goesOn : opc >>> 2 ≠ 0 := by
    intro stop
    rw [stop] at call
    exact absurd call (by decide)
  constructor
  · have stepEq : step m = syscallCase (m.advance 1) >>= fun run => .ok (opc >>> 2, run.2) := by
      simp only [step, extractOpcode, bind_assoc, pure_bind]
      rw [bind_of_ok (fetch_of_some found)]
      simp only [switch, call]
      rfl
    rw [execute, stepEq]
    cases syscallCase (m.advance 1) with
    | ok run => exact if_pos goesOn
    | error fault => rfl
  · have stepEq : Sunum.step m =
        Sunum.syscallCase (m.advance 1) >>= fun run => .ok (opc >>> 2, run.2) := by
      simp only [Sunum.step, extractOpcode, bind_assoc, pure_bind]
      rw [bind_of_ok (fetch_of_some found)]
      simp only [Sunum.switch, call]
      rfl
    rw [Sunum.execute, stepEq]
    cases Sunum.syscallCase (m.advance 1) with
    | ok run => exact if_pos goesOn
    | error fault => rfl

/-- Other instructions are executed alike. -/
theorem execute_other {m : Machine}
    (other : ∀ opc, m.bytecode.bytes[m.ip]? = some opc →
      Opcode.ofByte (opc >>> 2) ≠ some .SYSCALL) :
    execute m = Sunum.execute m := by
  have stepEq : step m = Sunum.step m := by
    simp only [step, Sunum.step, extractOpcode, bind_assoc, pure_bind]
    cases found : m.bytecode.bytes[m.ip]? with
    | none => rw [bind_of_error (fetch_of_none found), bind_of_error (fetch_of_none found)]
    | some opc =>
        rw [bind_of_ok (fetch_of_some found), bind_of_ok (fetch_of_some found), Sunum.switch]
        split
        · rename_i call
          exact absurd call (other opc found)
        · rfl
  cases stepped : Sunum.step m <;> simp only [execute, Sunum.execute, stepEq, stepped]

/-- One round of the two interpreters. -/
theorem execute_eq_iff (m : Machine) : execute m = Sunum.execute m ↔ ¬ m.Confuses := by
  by_cases syscall : ∃ opc, m.bytecode.bytes[m.ip]? = some opc ∧
      Opcode.ofByte (opc >>> 2) = some .SYSCALL
  · rcases syscall with ⟨opc, found, call⟩
    rcases execute_syscall found call with ⟨original, copy⟩
    have kept (r : Fin 13) (ne : r ≠ IP) : (m.advance 1).registers r = m.registers r :=
      Registers.set_of_ne ne _ _
    rw [original, copy, afterSyscall_inj, syscallCase_eq_iff, kept R0 (by decide),
      kept R1 (by decide), not_iff_not]
    constructor
    · rintro ⟨high, low, prints⟩
      exact ⟨⟨opc, found, call⟩, high, low, prints⟩
    · rintro ⟨_, high, low, prints⟩
      exact ⟨high, low, prints⟩
  · have same := execute_other fun opc found call => syscall ⟨opc, found, call⟩
    exact iff_of_true same fun confuses => syscall confuses.syscall

/-! ## Runs -/

/-- The two interpreters go through the same states and print the same bytes, and end
alike. -/
def SameRuns (bytecode : Bytecode) (stack : Memory) : Prop :=
  ∀ n, iterate execute n (Machine.construct bytecode stack) =
    iterate Sunum.execute n (Machine.construct bytecode stack)

/-- The run never leaves the bytecode, the registers or the stack. -/
def StaysInBounds (body : Body Machine Ending) (bytecode : Bytecode) (stack : Memory) : Prop :=
  ∀ n fault, iterate body n (Machine.construct bytecode stack) = .inr (.faulted fault) →
    ¬ fault.IsData ∧ fault ≠ .fetch

/-- The two copies run alike exactly if no state of the run makes them differ. -/
theorem sameRuns_iff (bytecode : Bytecode) (stack : Memory) :
    SameRuns bytecode stack ↔ ∀ m, Reachable bytecode stack m → ¬ m.Confuses := by
  simp only [← execute_eq_iff]
  exact iterate_eq_iff

/-- `MOV R0, 0x100000003`, `MOV R1, 1`, `PUSH 'A'`, `SYSCALL`, `STOP`. -/
def printLetter : Bytecode :=
  ⟨[0x62, 0, 3, 0, 0, 0, 1, 0, 0, 0, 0x62, 1, 1, 0, 0, 0, 0, 0, 0, 0,
    0x59, 65, 0, 0, 0, 0, 0, 0, 0, 0x64, 0], by decide⟩

/-- What a run that has stopped has printed. -/
def printed : Machine ⊕ Ending → Option (List UInt8)
  | .inr (.stopped last) => some last.output
  | _ => none

theorem stopped_of_printed {run : Machine ⊕ Ending} {text : List UInt8}
    (letters : printed run = some text) : ∃ last, run = .inr (.stopped last) := by
  rcases run with m | last | fault
  · cases letters
  · exact ⟨last, rfl⟩
  · cases letters

theorem staysInBounds_of_printed {body : Body Machine Ending} {bytecode : Bytecode}
    {stack : Memory} {n : Nat} {text : List UInt8}
    (letters : printed (iterate body n (Machine.construct bytecode stack)) = some text) :
    StaysInBounds body bytecode stack := by
  rcases stopped_of_printed letters with ⟨last, run⟩
  intro k fault failed
  have same : Ending.stopped last = .faulted fault := Exits.unique ⟨n, run⟩ ⟨k, failed⟩
  cases same

/-- The copy prints a letter, the original does not. -/
theorem sameRuns_fails :
    ¬ ∀ bytecode stack, StaysInBounds execute bytecode stack →
      StaysInBounds Sunum.execute bytecode stack → SameRuns bytecode stack := by
  intro same
  have original : printed (iterate execute 5 (Machine.construct printLetter fun _ => 0)) =
      some [] := by decide
  have copy : printed (iterate Sunum.execute 5 (Machine.construct printLetter fun _ => 0)) =
      some [65] := by decide
  have alike := same printLetter (fun _ => 0) (staysInBounds_of_printed original)
    (staysInBounds_of_printed copy) 5
  rw [alike, copy] at original
  cases original

end IotChain.VM
