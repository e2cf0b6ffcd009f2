import IotChain.VM.Frame
import IotChain.VM.Fetching

/-!
# Control flow

Where `IP` can go from an instruction is mostly written in the bytecode: behind the
instruction, or to an address in it.  It is not if the instruction assigns to `IP`, returns,
or jumps to what a register holds.  A set of places that the bytecode's own control flow
does not leave is left by no run.
-/

namespace IotChain.VM

open IotChain.Transition

/-! ## What is written in the bytecode -/

namespace Bytecode

/-- The byte at a place, and zero behind the end. -/
def byteAt (bytecode : Bytecode) (i : Nat) : UInt8 := bytecode.bytes[i]?.getD 0

/-- The address that `ExtractAddress` makes of the bytes from a place on. -/
def addressAt (bytecode : Bytecode) (i : Nat) : UInt32 :=
  (bytecode.byteAt i).toUInt32 ||| (bytecode.byteAt (i + 1)).toUInt32 <<< (8 : UInt32) |||
    (bytecode.byteAt (i + 2)).toUInt32 <<< (16 : UInt32)

end Bytecode

/-- What an instruction can do to `IP`. -/
inductive Control
  | halts
  | passes
  | assigns (r : UInt8)
  | branches (address : UInt32)
  | jumps (address : UInt32)
  | unknown
  deriving DecidableEq, Repr

namespace Control

/-- The places where `IP` can be after an instruction that ends at `behind`, if they are
known. -/
def targets (behind : Nat) : Control → Option (List Nat)
  | halts => some []
  | passes => some [behind]
  | assigns r => if r.toNat = IP then none else some [behind]
  | branches address => some [behind, address.toNat]
  | jumps address => some [address.toNat]
  | unknown => none

/-- The actions that an instruction can have. -/
def Allows : Control → Action → Prop
  | halts, .skip => True
  | passes, .store _ _ => True
  | passes, .push _ => True
  | passes, .syscall => True
  | passes, .message _ => True
  | assigns r, .assign q _ => q = r
  | assigns r, .load q _ => q = r
  | assigns r, .pop q => q = r
  | branches a, .branch _ address => address = a
  | jumps a, .branch taken address => taken = true ∧ address = a
  | jumps a, .call address _ => address = a
  | unknown, _ => True
  | _, _ => False

end Control

/-- The address of a `JMP` or `CALL` whose address stands at a place. -/
def Bytecode.jumpAt (bytecode : Bytecode) (op2 : Bool) (i : Nat) : UInt32 :=
  let address := bytecode.addressAt i
  if op2 then address else (address.toUInt64 + (UInt64.ofNat (i + 3) - 1)).toUInt32

/-- What the instruction of a class does to `IP`, where its operands start at a place. -/
def Kind.control (bytecode : Bytecode) (op1 op2 : Bool) (operands : Nat) : Kind → Control
  | .halt => .halts
  | .binary _ =>
      .assigns (bytecode.byteAt (operands + (valueForm op1).width + (valueForm op2).width))
  | .unary _ => .assigns (bytecode.byteAt (operands + (valueForm op1).width))
  | .branch _ =>
      .branches (bytecode.addressAt
        (operands + (valueForm op1).width + (valueForm op2).width))
  | .store => .passes
  | .load => .assigns (bytecode.byteAt operands)
  | .jmp => if op1 then .jumps (bytecode.jumpAt op2 operands) else .unknown
  | .call => if op1 then .jumps (bytecode.jumpAt op2 operands) else .unknown
  | .ret => .unknown
  | .push => .passes
  | .pop => .assigns (bytecode.byteAt operands)
  | .mov => .assigns (bytecode.byteAt operands)
  | .syscall => .passes
  | .illegal _ => .passes

namespace Bytecode

/-- The layout of the instruction at a place. -/
def layoutAt (bytecode : Bytecode) (i : Nat) : List Form :=
  match bytecode.bytes[i]? with
  | some opc => .byte :: (kind (opc >>> 2)).layout (opc &&& 1 ≠ 0) (opc &&& 2 ≠ 0)
  | none => [.byte]

/-- The place behind the instruction at a place. -/
def behind (bytecode : Bytecode) (i : Nat) : Nat := i + width (bytecode.layoutAt i)

/-- The places where `IP` can be after the instruction at a place, if they are known. -/
def flow (bytecode : Bytecode) (i : Nat) : Option (List Nat) :=
  match bytecode.bytes[i]? with
  | some opc =>
      ((kind (opc >>> 2)).control bytecode (opc &&& 1 ≠ 0) (opc &&& 2 ≠ 0) (i + 1)).targets
        (bytecode.behind i)
  | none => some []

end Bytecode

/-! ## What is extracted is what is written -/

/-- What follows operands starts behind them. -/
theorem Extracts.ip_of_ok {α : Type} {forms : List Form} {action : Execution α}
    (extracts : Extracts forms action) {m next : Machine} {value : α}
    (run : action m = .ok (value, next)) :
    next.bytecode = m.bytecode ∧ next.ip = m.ip + width forms := by
  rcases extracts with ⟨_, extracted⟩
  rw [extracted] at run
  cases forms with
  | nil =>
      have unmoved : (m.advance 0).toProcessor = m.toProcessor := m.toProcessor.advance_zero
      cases run
      exact ⟨rfl, congrArg Processor.ip unmoved⟩
  | cons form forms =>
      rw [Processor.firstFault_eq (.inl (List.cons_ne_nil _ _))] at run
      by_cases exist : m.SourcesExist (form :: forms)
      · by_cases fits : m.Fits (form :: forms)
        · rw [if_pos exist, if_pos fits] at run
          cases run
          exact ⟨rfl, Processor.ip_advance fits⟩
        · rw [if_pos exist, if_neg fits] at run
          cases run
      · rw [if_neg exist] at run
        cases run

theorem fetch_of_ok {m next : Machine} {byte : UInt8} (run : fetch m = .ok (byte, next)) :
    byte = m.bytecode.byteAt m.ip ∧ next.bytecode = m.bytecode ∧ next.ip = m.ip + 1 := by
  refine ⟨?_, Extracts.byte.ip_of_ok run⟩
  cases found : m.bytecode.bytes[m.ip]? with
  | none =>
      rw [fetch_of_none found] at run
      cases run
  | some fetched =>
      rw [fetch_of_some found] at run
      cases run
      rw [Bytecode.byteAt, found, Option.getD_some]

theorem address_of_ok {m next : Machine} {address : UInt32}
    (run : extractAddress m = .ok (address, next)) :
    address = m.bytecode.addressAt m.ip := by
  obtain ⟨_, m1, first, rest⟩ := ok_of_bind run
  obtain ⟨_, m2, second, rest⟩ := ok_of_bind rest
  obtain ⟨_, m3, third, rest⟩ := ok_of_bind rest
  obtain ⟨rfl, code1, ip1⟩ := fetch_of_ok first
  obtain ⟨rfl, code2, ip2⟩ := fetch_of_ok second
  obtain ⟨rfl, -, -⟩ := fetch_of_ok third
  cases rest
  rw [code2, code1, ip2, ip1]
  rfl

theorem value_of_ok {constant : Bool} {m next : Machine} {value : UInt64}
    (run : extractValue constant m = .ok (value, next)) :
    next.bytecode = m.bytecode ∧ next.ip = m.ip + (valueForm constant).width :=
  (extracts_value constant).ip_of_ok run

theorem jump_of_ok {op2 : Bool} {m next : Machine} {address : UInt32}
    (run : extractJump true op2 m = .ok (address, next)) :
    address = m.bytecode.jumpAt op2 m.ip := by
  obtain ⟨written, m1, target, rest⟩ := ok_of_bind run
  have addressEq : written = m.bytecode.addressAt m.ip := address_of_ok target
  obtain ⟨-, moved⟩ := extracts_address.ip_of_ok target
  subst addressEq
  cases op2 with
  | true =>
      cases rest
      rfl
  | false =>
      have ip : m1.registers IP = UInt64.ofNat (m.ip + 3) := by
        rw [← UInt64.toNat_inj, UInt64.toNat_ofNat']
        have lt := (m1.registers IP).toNat_lt
        change m1.ip = (m.ip + width [Form.byte, .byte, .byte]) % 2 ^ 64
        rw [← moved]
        exact (Nat.mod_eq_of_lt lt).symm
      cases rest
      rw [ip]
      rfl

theorem allows_of_binary {compute : UInt64 → UInt64 → Option UInt64} {op1 op2 : Bool}
    {m next : Machine} {action : Action}
    (run : (Kind.binary compute).extract op1 op2 m = .ok (action, next)) :
    ((Kind.binary compute).control m.bytecode op1 op2 m.ip).Allows action := by
  obtain ⟨_, m1, first, rest⟩ := ok_of_bind run
  obtain ⟨_, m2, second, rest⟩ := ok_of_bind rest
  obtain ⟨r, _, third, rest⟩ := ok_of_bind rest
  obtain ⟨code1, ip1⟩ := value_of_ok first
  obtain ⟨code2, ip2⟩ := value_of_ok second
  obtain ⟨rfl, -, -⟩ := fetch_of_ok third
  cases rest
  change m2.bytecode.byteAt m2.ip = _
  rw [code2, code1, ip2, ip1]

theorem allows_of_unary {compute : UInt64 → UInt64} {op1 op2 : Bool} {m next : Machine}
    {action : Action} (run : (Kind.unary compute).extract op1 op2 m = .ok (action, next)) :
    ((Kind.unary compute).control m.bytecode op1 op2 m.ip).Allows action := by
  obtain ⟨_, m1, first, rest⟩ := ok_of_bind run
  obtain ⟨r, _, second, rest⟩ := ok_of_bind rest
  obtain ⟨code1, ip1⟩ := value_of_ok first
  obtain ⟨rfl, -, -⟩ := fetch_of_ok second
  cases rest
  change m1.bytecode.byteAt m1.ip = _
  rw [code1, ip1]

theorem allows_of_branch {test : UInt64 → UInt64 → Bool} {op1 op2 : Bool} {m next : Machine}
    {action : Action} (run : (Kind.branch test).extract op1 op2 m = .ok (action, next)) :
    ((Kind.branch test).control m.bytecode op1 op2 m.ip).Allows action := by
  obtain ⟨_, m1, first, rest⟩ := ok_of_bind run
  obtain ⟨_, m2, second, rest⟩ := ok_of_bind rest
  obtain ⟨address, _, third, rest⟩ := ok_of_bind rest
  obtain ⟨code1, ip1⟩ := value_of_ok first
  obtain ⟨code2, ip2⟩ := value_of_ok second
  have written := address_of_ok third
  cases rest
  change address = _
  rw [written, code2, code1, ip2, ip1]

theorem allows_of_jmp {op1 op2 : Bool} {m next : Machine} {action : Action}
    (run : Kind.jmp.extract op1 op2 m = .ok (action, next)) :
    (Kind.jmp.control m.bytecode op1 op2 m.ip).Allows action := by
  obtain ⟨address, _, first, rest⟩ := ok_of_bind run
  cases rest
  cases op1 with
  | true => exact ⟨rfl, jump_of_ok first⟩
  | false => trivial

theorem allows_of_call {op1 op2 : Bool} {m next : Machine} {action : Action}
    (run : Kind.call.extract op1 op2 m = .ok (action, next)) :
    (Kind.call.control m.bytecode op1 op2 m.ip).Allows action := by
  obtain ⟨address, _, first, rest⟩ := ok_of_bind run
  obtain ⟨_, _, _, rest⟩ := ok_of_bind rest
  cases rest
  cases op1 with
  | true => exact jump_of_ok first
  | false => trivial

/-- The action that an instruction extracts is one that its control flow allows. -/
theorem allows_of_extract {kind : Kind} {op1 op2 : Bool} {m next : Machine} {action : Action}
    (run : kind.extract op1 op2 m = .ok (action, next)) :
    (kind.control m.bytecode op1 op2 m.ip).Allows action := by
  cases kind with
  | halt =>
      cases run
      trivial
  | binary compute => exact allows_of_binary run
  | unary compute => exact allows_of_unary run
  | branch test => exact allows_of_branch run
  | store =>
      obtain ⟨_, _, _, rest⟩ := ok_of_bind run
      obtain ⟨_, _, _, rest⟩ := ok_of_bind rest
      cases rest
      trivial
  | load =>
      obtain ⟨r, _, first, rest⟩ := ok_of_bind run
      obtain ⟨_, _, _, rest⟩ := ok_of_bind rest
      cases rest
      exact (fetch_of_ok first).1
  | jmp => exact allows_of_jmp run
  | call => exact allows_of_call run
  | ret => trivial
  | push =>
      obtain ⟨_, _, _, rest⟩ := ok_of_bind run
      cases rest
      trivial
  | pop =>
      obtain ⟨r, _, first, rest⟩ := ok_of_bind run
      cases rest
      exact (fetch_of_ok first).1
  | mov =>
      obtain ⟨r, _, first, rest⟩ := ok_of_bind run
      obtain ⟨_, _, _, rest⟩ := ok_of_bind rest
      cases rest
      exact (fetch_of_ok first).1
  | syscall =>
      cases run
      trivial
  | illegal opcode =>
      cases run
      trivial

/-! ## One step -/

/-- An action puts `IP` where the control flow of its instruction says. -/
theorem Effect.ip_mem {control : Control} {m next : Machine} {action : Action}
    {places : List Nat} (effect : Effect m action next) (allows : control.Allows action)
    (goesOn : control ≠ .halts) (known : control.targets m.ip = some places) :
    next.ip ∈ places := by
  have stays (same : next.registers IP = m.registers IP) : next.ip = m.ip :=
    congrArg UInt64.toNat same
  cases control with
  | halts => exact absurd rfl goesOn
  | unknown => cases known
  | passes =>
      cases known
      rw [List.mem_singleton]
      apply stays
      cases effect with
      | store bound inside => rfl
      | push inside =>
          exact Registers.set_of_ne (show IP ≠ SP by decide) m.registers (m.registers SP - 8)
      | stout stout run => exact (stoutLoop_frame run).2.1 IP (by decide)
      | silent other => rfl
      | message bytes => rfl
      | _ => exact allows.elim
  | assigns r =>
      rw [Control.targets] at known
      split at known
      · cases known
      · rename_i other
        cases known
        rw [List.mem_singleton]
        apply stays
        have differs {q : UInt8} (bound : q.toNat < 13) (same : q = r) :
            IP ≠ ⟨q.toNat, bound⟩ := by
          rintro place
          exact other (same ▸ (congrArg Fin.val place).symm)
        cases effect with
        | assign bound value => exact Registers.set_of_ne (differs bound allows) _ _
        | load bound inside => exact Registers.set_of_ne (differs bound allows) _ _
        | pop bound inside =>
            have kept : m.popped.registers IP = m.registers IP :=
              Registers.set_of_ne (show IP ≠ SP by decide) m.registers (m.registers SP + 8)
            exact (Registers.set_of_ne (differs bound allows) m.popped.registers _).trans kept
        | _ => exact allows.elim
  | branches a =>
      cases known
      cases effect with
      | jumped address =>
          obtain rfl : address = a := allows
          have jumped : (m.setRegister IP address.toUInt64).ip = address.toNat :=
            (congrArg UInt64.toNat (Machine.setRegister_same m IP _)).trans
              (UInt32.toNat_toUInt64 address)
          rw [jumped]
          exact List.mem_cons_of_mem _ List.mem_cons_self
      | passed address => exact List.mem_cons_self
      | _ => exact allows.elim
  | jumps a =>
      cases known
      rw [List.mem_singleton]
      have lands (behind : Machine) :
          (behind.setRegister IP a.toUInt64).ip = a.toNat :=
        (congrArg UInt64.toNat (Machine.setRegister_same behind IP _)).trans
          (UInt32.toNat_toUInt64 a)
      cases effect with
      | jumped address =>
          obtain ⟨-, rfl⟩ := allows
          exact lands m
      | call address first second =>
          obtain rfl : address = a := allows
          exact lands _
      | passed address => exact absurd allows.1 Bool.false_ne_true
      | _ => exact allows.elim

theorem opcode_of_stop {opcode : UInt8} (stop : Opcode.ofByte opcode = some .STOP) :
    opcode = 0 := by
  obtain ⟨inside, same⟩ := List.getElem?_eq_some_iff.mp stop
  have distinct : Opcode.all.Nodup := by decide
  have first : Opcode.all[opcode.toNat] = Opcode.all[0] := same
  exact UInt8.toNat_inj.mp (distinct.getElem_inj_iff.mp first)

/-- Only the opcode zero halts. -/
theorem control_ne_halts {opcode : UInt8} (goesOn : opcode ≠ 0) (bytecode : Bytecode)
    (op1 op2 : Bool) (operands : Nat) :
    (kind opcode).control bytecode op1 op2 operands ≠ .halts := by
  rw [kind]
  cases found : Opcode.ofByte opcode with
  | none => exact Control.noConfusion
  | some case =>
      cases case with
      | STOP => exact absurd (opcode_of_stop found) goesOn
      | JMP => cases op1 <;> exact Control.noConfusion
      | CALL => cases op1 <;> exact Control.noConfusion
      | _ => exact Control.noConfusion

theorem Sunum.syscallCase_frame {m next : Machine}
    (run : Sunum.syscallCase m = .ok ((), next)) :
    next.bytecode = m.bytecode ∧ next.registers IP = m.registers IP := by
  by_cases stout : Sunum.syscallTable (m.registers R0) = Sunum.Stout
  · rw [Sunum.syscallCase_of_stout stout] at run
    obtain ⟨code, registers, -⟩ := stoutLoop_frame run
    exact ⟨code, registers IP (by decide)⟩
  · rw [Sunum.syscallCase_of_ne stout] at run
    cases run
    exact ⟨rfl, rfl⟩

/-- A case that finishes has put `IP` where the control flow of its instruction says. -/
theorem Copy.ip_of_switch (copy : Copy) {opcode : UInt8} {op1 op2 : Bool} {m next : Machine}
    (run : copy.switch opcode op1 op2 m = .ok ((), next)) (goesOn : opcode ≠ 0)
    {places : List Nat}
    (known : ((kind opcode).control m.bytecode op1 op2 m.ip).targets
      (m.ip + width ((kind opcode).layout op1 op2)) = some places) :
    next.bytecode = m.bytecode ∧ next.ip ∈ places := by
  have original (run : VM.switch opcode op1 op2 m = .ok ((), next)) :
      next.bytecode = m.bytecode ∧ next.ip ∈ places := by
    rw [VM.switch_eq] at run
    obtain ⟨action, operands, extracted, performed⟩ := ok_of_bind run
    have allows := allows_of_extract extracted
    have effect := effect_of_perform performed
    obtain ⟨code, moved⟩ := (extracts_kind (kind opcode) op1 op2).ip_of_ok extracted
    rw [← moved] at known
    exact ⟨effect.framed.bytecode.trans code,
      effect.ip_mem allows (control_ne_halts goesOn _ _ _ _) known⟩
  cases copy with
  | iotchain => exact original run
  | sunum =>
      by_cases call : Opcode.ofByte opcode = some .SYSCALL
      · have kindEq : kind opcode = .syscall := by rw [kind, call]
        rw [switch, Sunum.switch_of_syscall call] at run
        rw [kindEq] at known
        cases known
        obtain ⟨code, kept⟩ := Sunum.syscallCase_frame run
        rw [List.mem_singleton]
        exact ⟨code, congrArg UInt64.toNat kept⟩
      · rw [switch, Sunum.switch_of_ne call] at run
        exact original run

/-- A step that does not stop has put `IP` where the control flow of the bytecode says. -/
theorem Copy.ip_of_step (copy : Copy) {m next : Machine} {opcode : UInt8}
    (run : copy.step m = .ok (opcode, next)) (goesOn : opcode ≠ 0) {places : List Nat}
    (known : m.bytecode.flow m.ip = some places) :
    next.bytecode = m.bytecode ∧ next.ip ∈ places := by
  rw [copy.step_eq] at run
  obtain ⟨opc, operands, fetched, rest⟩ := ok_of_bind run
  obtain ⟨_, _, switched, rest⟩ := ok_of_bind rest
  cases rest
  cases found : m.bytecode.bytes[m.ip]? with
  | none =>
      rw [fetch_of_none found] at fetched
      cases fetched
  | some byte =>
      obtain ⟨inside, _⟩ := List.getElem?_eq_some_iff.mp found
      rw [fetch_of_some found] at fetched
      cases fetched
      have moved : (m.advance 1).ip = m.ip + 1 := Processor.ip_advance inside
      simp only [Bytecode.flow, Bytecode.behind, Bytecode.layoutAt, found] at known
      apply copy.ip_of_switch switched goesOn
      rw [moved, Nat.add_assoc]
      exact known

theorem Copy.step_of_execute (copy : Copy) {m next : Machine}
    (round : copy.execute m = .inl next) :
    ∃ opcode, copy.step m = .ok (opcode, next) ∧ opcode ≠ 0 := by
  rw [copy.execute_eq] at round
  cases stepped : copy.step m with
  | error fault =>
      rw [stepped] at round
      cases round
  | ok result =>
      rcases result with ⟨opcode, last⟩
      rw [stepped] at round
      by_cases goesOn : opcode ≠ 0
      · simp only [if_pos goesOn] at round
        cases round
        exact ⟨opcode, rfl, goesOn⟩
      · simp only [if_neg goesOn] at round
        cases round

/-! ## Places that are not left -/

/-- Places that contain the start and that the bytecode's control flow does not leave. -/
structure Bytecode.Closed (bytecode : Bytecode) (places : Set Nat) : Prop where
  start : 0 ∈ places
  flow : ∀ i ∈ places, ∃ targets, bytecode.flow i = some targets ∧ ∀ t ∈ targets, t ∈ places

/-- A run goes through such places only. -/
theorem Bytecode.Closed.ip_mem {bytecode : Bytecode} {places : Set Nat}
    (closed : bytecode.Closed places) (copy : Copy) {stack : Memory} {m : Machine}
    (reached : Reaches copy.execute (Machine.construct bytecode stack) m) :
    m.bytecode = bytecode ∧ m.ip ∈ places := by
  apply reached.of_invariant fun m => m.bytecode = bytecode ∧ m.ip ∈ places
  · rintro m next ⟨code, inside⟩ round
    obtain ⟨opcode, stepped, goesOn⟩ := copy.step_of_execute round
    obtain ⟨targets, known, stays⟩ := closed.flow m.ip inside
    rw [← code] at known
    obtain ⟨kept, member⟩ := copy.ip_of_step stepped goesOn known
    exact ⟨kept.trans code, stays _ member⟩
  · exact ⟨rfl, closed.start⟩

/-- The bytes of the instructions at some places. -/
def Bytecode.covered (bytecode : Bytecode) (places : Set Nat) : Set Nat :=
  {i | ∃ k ∈ places, i ∈ Set.Ico k (bytecode.behind k)}

theorem Bytecode.Closed.fetched_subset {bytecode : Bytecode} {places : Set Nat}
    (closed : bytecode.Closed places) (copy : Copy) (stack : Memory) :
    copy.fetched bytecode stack ⊆ bytecode.covered places := by
  rintro i ⟨m, reached, member⟩
  obtain ⟨rfl, inside⟩ := closed.ip_mem copy reached
  exact ⟨m.ip, inside, member⟩

theorem Sunum.fault_of_syscallCase {m : Machine} {fault : Fault}
    (failed : Sunum.syscallCase m = .error fault) : fault = .stack := by
  by_cases stout : Sunum.syscallTable (m.registers R0) = Sunum.Stout
  · rw [Sunum.syscallCase_of_stout stout] at failed
    change stoutLoop _ 0 _ m = _ at failed
    by_cases inside : ∀ address ∈ popAddresses (m.registers SP)
        (stoutSize (m.registers R1)).toNat, address + 8 ≤ stackSize
    · obtain ⟨next, run⟩ := stoutLoop_inside inside
      cases run.symm.trans failed
    · cases (stoutLoop_outside inside).symm.trans failed
      rfl
  · rw [Sunum.syscallCase_of_ne stout] at failed
    cases failed

/-- The step at an instruction that ends inside the bytecode fetches inside it. -/
theorem Copy.fetches_inside (copy : Copy) {m : Machine} (fits : m.Fits m.layout) :
    copy.execute m ≠ .inr (.faulted .fetch) := by
  have original : VM.execute m ≠ .inr (.faulted .fetch) := fun failed =>
    m.fetchInBounds_iff.mpr (.inl fits) (execute_eq_faulted_iff.mp failed)
  cases copy with
  | iotchain => exact original
  | sunum =>
      intro failed
      change Sunum.execute m = _ at failed
      by_cases syscall : ∃ opc, m.bytecode.bytes[m.ip]? = some opc ∧
          Opcode.ofByte (opc >>> 2) = some .SYSCALL
      · rcases syscall with ⟨opc, found, call⟩
        rw [(execute_syscall found call).2] at failed
        cases run : Sunum.syscallCase (m.advance 1) with
        | ok result =>
            rw [run] at failed
            cases failed
        | error fault =>
            rw [run, Sunum.fault_of_syscallCase run] at failed
            cases failed
      · rw [← execute_other fun opc found call => syscall ⟨opc, found, call⟩] at failed
        exact original failed

/-- Bytecode whose control flow stays among instructions that end inside it: no run leaves
them or fetches outside, and the bytes between them do not matter. -/
theorem Copy.run_closed (copy : Copy) {bytecode : Bytecode} {places : Set Nat}
    (closed : bytecode.Closed places)
    (inside : ∀ i ∈ places, bytecode.behind i ≤ bytecode.size) (stack : Memory) :
    (∀ m, Reaches copy.execute (Machine.construct bytecode stack) m → m.ip ∈ places) ∧
    (∀ n, iterate copy.execute n (Machine.construct bytecode stack) ≠
      .inr (.faulted .fetch)) ∧
    ∀ other, (∀ i ∈ bytecode.covered places, bytecode.SameAt other i) → ∀ n,
      Sum.LiftRel (Reloaded bytecode other) (Ending.Reloaded bytecode other)
        (iterate copy.execute n (Machine.construct bytecode stack))
        (iterate copy.execute n (Machine.construct other stack)) := by
  refine ⟨fun m reached => (closed.ip_mem copy reached).2, ?_, ?_⟩
  · intro n failed
    obtain ⟨k, _, last, reached, leaves⟩ := iterate_eq_inr_iff.mp failed
    obtain ⟨rfl, member⟩ := closed.ip_mem copy ⟨k, reached⟩
    exact copy.fetches_inside (inside _ member) leaves
  · intro other same n
    apply copy.iterate_alike
    intro i member
    exact same i (closed.fetched_subset copy stack member)

namespace SampleFlow

/-- The instructions of `printLetter`. -/
def starts : List Nat := [0, 10, 20, 29, 30]

/-- The same as a set. -/
def places : Set Nat := {i | i ∈ starts}

theorem closed : printLetter.Closed places where
  start := by simp [places, starts]
  flow := by
    intro i member
    have known : ∀ i ∈ starts, ((printLetter.flow i).any fun targets =>
        targets.all fun t => t ∈ starts) = true := by decide
    obtain ⟨targets, flowEq, stays⟩ := (Option.any_eq_true _ _).mp (known i member)
    refine ⟨targets, flowEq, fun t inside => ?_⟩
    have listed : t ∈ starts := of_decide_eq_true (List.all_eq_true.mp stays t inside)
    exact listed

theorem inside : ∀ i ∈ places, printLetter.behind i ≤ printLetter.size := by
  have known : ∀ i ∈ starts, printLetter.behind i ≤ printLetter.size := by decide
  exact known

theorem lowers : ∀ i ∈ places, ∀ targets, printLetter.flow i = some targets →
    ∀ t ∈ targets, 30 - t < 30 - i := by
  intro i member targets flowEq t inside
  have known : ∀ i ∈ starts, ((printLetter.flow i).all fun targets =>
      targets.all fun t => 30 - t < 30 - i) = true := by decide
  have every := known i member
  rw [flowEq, Option.all_some] at every
  exact of_decide_eq_true (List.all_eq_true.mp every t inside)

end SampleFlow

/-- `printLetter` does not fetch outside. -/
theorem Copy.run_closed_printLetter :
    iterate Copy.sunum.execute 100 (Machine.construct printLetter fun _ => 0) ≠
      .inr (.faulted .fetch) :=
  (Copy.run_closed .sunum SampleFlow.closed SampleFlow.inside fun _ => 0).2.1 100

/-! ## Control flow without cycles -/

/-- If each transfer of control lowers a rank, a run ends before the rank of its start is
used up. -/
theorem Copy.exits_of_rank (copy : Copy) {bytecode : Bytecode} {places : Set Nat}
    (closed : bytecode.Closed places) (rank : Nat → Nat)
    (lowers : ∀ i ∈ places, ∀ targets, bytecode.flow i = some targets →
      ∀ t ∈ targets, rank t < rank i) (stack : Memory) :
    ∃ ending, iterate copy.execute (rank 0 + 1) (Machine.construct bytecode stack) =
      .inr ending := by
  apply iterate_of_measure (fun m => m.bytecode = bytecode ∧ m.ip ∈ places) fun m => rank m.ip
  · rintro m next ⟨code, inside⟩ round
    obtain ⟨opcode, stepped, goesOn⟩ := copy.step_of_execute round
    obtain ⟨targets, known, stays⟩ := closed.flow m.ip inside
    have here := known
    rw [← code] at here
    obtain ⟨kept, member⟩ := copy.ip_of_step stepped goesOn here
    exact ⟨⟨kept.trans code, stays _ member⟩, lowers _ inside _ known _ member⟩
  · exact ⟨rfl, closed.start⟩
  · exact Nat.lt_succ_self _

/-- `printLetter` ends in at most 31 rounds, from any stack. -/
theorem Copy.exits_of_rank_printLetter :
    ∃ ending, iterate Copy.iotchain.execute 31 (Machine.construct printLetter fun _ => 7) =
      .inr ending :=
  Copy.exits_of_rank .iotchain SampleFlow.closed (30 - ·) SampleFlow.lowers fun _ => 7

end IotChain.VM
