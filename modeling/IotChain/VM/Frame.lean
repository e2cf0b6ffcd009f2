import IotChain.Transition.Runs
import IotChain.VM.Determinism

/-!
# What a step changes

A step that finishes has one effect for each action.  Apart from `IP`, only the register
that the instruction names as its destination changes, `SP` where a word is pushed or
popped, and the bytes of the stack that the instruction writes.
-/

namespace IotChain.VM

open IotChain.Bytes IotChain.Transition

/-! ## Effects -/

/-- The state after a word is popped. -/
def Machine.popped (m : Machine) : Machine := m.setRegister SP (m.registers SP + 8)

/-- What an action that finishes does. -/
inductive Effect (m : Machine) : Action → Machine → Prop
  | skip : Effect m .skip m
  | assign {r : UInt8} (bound : r.toNat < 13) (value : UInt64) :
      Effect m (.assign r (some value)) (m.setRegister ⟨r.toNat, bound⟩ value)
  | jumped (address : UInt32) :
      Effect m (.branch true address) (m.setRegister IP address.toUInt64)
  | passed (address : UInt32) : Effect m (.branch false address) m
  | store {r : UInt8} {address : UInt32} (bound : r.toNat < 13)
      (inside : address.toNat + 8 ≤ stackSize) :
      Effect m (.store r address)
        { m with stack := m.stack.store ⟨_, inside⟩ (m.registers ⟨r.toNat, bound⟩) }
  | load {r : UInt8} {address : UInt32} (bound : r.toNat < 13)
      (inside : address.toNat + 8 ≤ stackSize) :
      Effect m (.load r address)
        (m.setRegister ⟨r.toNat, bound⟩ (m.stack.load ⟨_, inside⟩))
  | call {retnSize : UInt64} (address : UInt32)
      (first : (m.registers SP - 8).toNat + 8 ≤ stackSize)
      (second : ((m.pushed retnSize first).registers SP - 8).toNat + 8 ≤ stackSize) :
      Effect m (.call address retnSize)
        (((m.pushed retnSize first).pushed (m.registers IP) second).setRegister IP
          address.toUInt64)
  | ret (first : (m.registers SP).toNat + 8 ≤ stackSize)
      (second : (m.popped.registers SP).toNat + 8 ≤ stackSize) :
      Effect m .ret
        ((m.popped.popped.setRegister SP (m.popped.popped.registers SP +
            (m.stack.load ⟨_, second⟩).toUInt32.toUInt64)).setRegister IP
          (m.stack.load ⟨_, first⟩).toUInt32.toUInt64)
  | push {v1 : UInt64} (inside : (m.registers SP - 8).toNat + 8 ≤ stackSize) :
      Effect m (.push v1) (m.pushed v1 inside)
  | pop {r : UInt8} (bound : r.toNat < 13)
      (inside : (m.registers SP).toNat + 8 ≤ stackSize) :
      Effect m (.pop r)
        (m.popped.setRegister ⟨r.toNat, bound⟩ (m.stack.load ⟨_, inside⟩))
  | stout {next : Machine} (stout : m.registers R0 = Stout)
      (run : stoutLoop (stoutSize (m.registers R1)) 0 (stoutSize (m.registers R1)).toNat m =
        .ok ((), next)) :
      Effect m .syscall next
  | silent (other : m.registers R0 ≠ Stout) : Effect m .syscall m
  | message (bytes : List UInt8) :
      Effect m (.message bytes) { m with output := m.output ++ bytes }

/-- A bind that finishes has finished twice. -/
theorem ok_of_bind {α β : Type} {first : Execution α} {rest : α → Execution β} {m last : Machine}
    {value : β} (run : (first >>= rest) m = .ok (value, last)) :
    ∃ middle next, first m = .ok (middle, next) ∧ rest middle next = .ok (value, last) := by
  cases firstRun : first m with
  | error fault =>
      rw [bind_of_error firstRun] at run
      cases run
  | ok result =>
      rw [bind_of_ok firstRun] at run
      exact ⟨result.1, result.2, rfl, run⟩

theorem slot_of_ok {r : UInt8} {m next : Machine} {place : Fin 13}
    (run : slot r m = .ok (place, next)) :
    ∃ bound : r.toNat < 13, place = ⟨r.toNat, bound⟩ ∧ next = m := by
  by_cases bound : r.toNat < 13
  · rw [slot_of_lt bound] at run
    cases run
    exact ⟨bound, rfl, rfl⟩
  · rw [slot_of_not_lt bound] at run
    cases run

theorem register_of_ok {r : UInt8} {m next : Machine} {value : UInt64}
    (run : register r m = .ok (value, next)) :
    ∃ bound : r.toNat < 13, value = m.registers ⟨r.toNat, bound⟩ ∧ next = m := by
  by_cases bound : r.toNat < 13
  · rw [register_of_lt bound] at run
    cases run
    exact ⟨bound, rfl, rfl⟩
  · rw [register_of_not_lt bound] at run
    cases run

theorem pop_of_ok {m next : Machine} {value : UInt64} (run : pop m = .ok (value, next)) :
    ∃ inside : (m.registers SP).toNat + 8 ≤ stackSize,
      value = m.stack.load ⟨_, inside⟩ ∧ next = m.popped := by
  by_cases inside : (m.registers SP).toNat + 8 ≤ stackSize
  · rw [pop_of_inside inside] at run
    rcases Prod.mk.inj (Except.ok.inj run) with ⟨popped, moved⟩
    exact ⟨inside, popped.symm, moved.symm⟩
  · rw [pop_of_outside inside] at run
    cases run

theorem push_of_ok {m next : Machine} {v1 : UInt64} (run : push v1 m = .ok ((), next)) :
    ∃ inside, next = m.pushed v1 inside := by
  by_cases inside : (m.registers SP - 8).toNat + 8 ≤ stackSize
  · rw [push_of_inside v1 inside] at run
    cases run
    exact ⟨inside, rfl⟩
  · rw [push_of_outside v1 inside] at run
    cases run

theorem loadWord_of_ok {m next : Machine} {address : Nat} {value : UInt64}
    (run : loadWord address m = .ok (value, next)) :
    ∃ inside, value = m.stack.load ⟨address, inside⟩ ∧ next = m := by
  by_cases inside : address + 8 ≤ stackSize
  · rw [loadWord_of_inside inside] at run
    rcases Prod.mk.inj (Except.ok.inj run) with ⟨loaded, same⟩
    exact ⟨inside, loaded.symm, same.symm⟩
  · rw [loadWord_of_outside inside] at run
    cases run

theorem storeWord_of_ok {m next : Machine} {address : Nat} {value : UInt64}
    (run : storeWord address value m = .ok ((), next)) :
    ∃ inside, next = { m with stack := m.stack.store ⟨address, inside⟩ value } := by
  by_cases inside : address + 8 ≤ stackSize
  · rw [storeWord_of_inside inside] at run
    cases run
    exact ⟨inside, rfl⟩
  · rw [storeWord_of_outside inside] at run
    cases run

theorem effect_of_perform {action : Action} {m next : Machine}
    (run : action.perform m = .ok ((), next)) : Effect m action next := by
  cases action with
  | skip =>
      cases run
      exact .skip
  | assign r value =>
      obtain ⟨place, _, placed, rest⟩ := ok_of_bind run
      obtain ⟨bound, rfl, rfl⟩ := slot_of_ok placed
      cases value with
      | none => cases rest
      | some value =>
          cases rest
          exact .assign bound value
  | branch taken address =>
      cases taken with
      | false =>
          cases run
          exact .passed address
      | true =>
          cases run
          exact .jumped address
  | store r address =>
      obtain ⟨value, _, read, rest⟩ := ok_of_bind run
      obtain ⟨bound, rfl, rfl⟩ := register_of_ok read
      obtain ⟨inside, rfl⟩ := storeWord_of_ok rest
      exact .store bound inside
  | load r address =>
      obtain ⟨place, _, placed, rest⟩ := ok_of_bind run
      obtain ⟨bound, rfl, rfl⟩ := slot_of_ok placed
      obtain ⟨value, _, loaded, rest⟩ := ok_of_bind rest
      obtain ⟨inside, rfl, rfl⟩ := loadWord_of_ok loaded
      cases rest
      exact .load bound inside
  | call address retnSize =>
      obtain ⟨_, _, pushed, rest⟩ := ok_of_bind run
      obtain ⟨first, rfl⟩ := push_of_ok pushed
      change (VM.push (m.registers IP) >>= fun _ => setRegister IP address.toUInt64)
        (m.pushed retnSize first) = _ at rest
      obtain ⟨_, _, pushed, rest⟩ := ok_of_bind rest
      obtain ⟨second, rfl⟩ := push_of_ok pushed
      cases rest
      exact .call address first second
  | ret =>
      obtain ⟨value, _, popped, rest⟩ := ok_of_bind run
      obtain ⟨first, rfl, rfl⟩ := pop_of_ok popped
      obtain ⟨value, _, popped, rest⟩ := ok_of_bind rest
      obtain ⟨second, rfl, rfl⟩ := pop_of_ok popped
      cases rest
      exact .ret first second
  | push v1 =>
      obtain ⟨inside, rfl⟩ := push_of_ok run
      exact .push inside
  | pop r =>
      obtain ⟨place, _, placed, rest⟩ := ok_of_bind run
      obtain ⟨bound, rfl, rfl⟩ := slot_of_ok placed
      obtain ⟨value, _, popped, rest⟩ := ok_of_bind rest
      obtain ⟨inside, rfl, rfl⟩ := pop_of_ok popped
      cases rest
      exact .pop bound inside
  | syscall =>
      change syscallCase m = _ at run
      by_cases stout : m.registers R0 = Stout
      · rw [syscallCase_of_stout stout] at run
        exact .stout stout run
      · rw [syscallCase_of_ne stout] at run
        cases run
        exact .silent stout
  | message bytes =>
      cases run
      exact .message bytes

/-! ## Frames -/

/-- The byte that names the register to which the instruction assigns. -/
def Action.destination : Action → Option UInt8
  | .assign r _ => some r
  | .load r _ => some r
  | .pop r => some r
  | _ => none

/-- The instruction pushes or pops. -/
def Action.MovesSP (registers : Registers) : Action → Prop
  | .call _ _ => True
  | .ret => True
  | .push _ => True
  | .pop _ => True
  | .syscall => registers R0 = Stout
  | _ => False

/-- What the instruction leaves as it is. -/
structure Framed (action : Action) (m next : Machine) : Prop where
  bytecode : next.bytecode = m.bytecode
  registers : ∀ r : Fin 13, r ≠ IP → (∀ d ∈ action.destination, d.toNat ≠ r) →
    (r = SP → ¬ action.MovesSP m.registers) → next.registers r = m.registers r
  stack : ∀ i : Fin stackSize, ↑i ∉ wordsBytes (action.writes m.registers) →
    next.stack i = m.stack i

theorem store_of_notMem {stack : Memory} {window : Window} {value : UInt64} {i : Fin stackSize}
    (outside : ↑i ∉ wordBytes window.address) : stack.store window value i = stack i :=
  if_neg outside

/-- Printing pops words and changes nothing else. -/
theorem stoutLoop_frame {size : UInt32} {i count : Nat} {m next : Machine}
    (run : stoutLoop size i count m = .ok ((), next)) :
    next.bytecode = m.bytecode ∧ (∀ r, r ≠ SP → next.registers r = m.registers r) ∧
      next.stack = m.stack := by
  induction count generalizing i m with
  | zero =>
      cases run
      exact ⟨rfl, fun _ _ => rfl, rfl⟩
  | succ count ih =>
      rw [stoutLoop] at run
      obtain ⟨val, _, popped, rest⟩ := ok_of_bind run
      obtain ⟨inside, rfl, rfl⟩ := pop_of_ok popped
      rcases ih rest with ⟨bytecode, registers, stack⟩
      refine ⟨bytecode, fun r other => ?_, stack⟩
      rw [registers r other]
      exact Registers.set_of_ne other m.registers _

theorem Effect.framed {action : Action} {m next : Machine} (effect : Effect m action next) :
    Framed action m next := by
  cases effect with
  | skip => exact ⟨rfl, fun _ _ _ _ => rfl, fun _ _ => rfl⟩
  | @assign r bound value =>
      refine ⟨rfl, fun q _ other _ => ?_, fun _ _ => rfl⟩
      apply Registers.set_of_ne
      rintro rfl
      exact other r rfl rfl
  | jumped address =>
      exact ⟨rfl, fun r ip _ _ => Registers.set_of_ne ip m.registers _, fun _ _ => rfl⟩
  | passed address => exact ⟨rfl, fun _ _ _ _ => rfl, fun _ _ => rfl⟩
  | store bound inside =>
      refine ⟨rfl, fun _ _ _ _ => rfl, fun i outside => ?_⟩
      simp only [Action.writes, wordsBytes_cons, wordsBytes_nil, Set.union_empty] at outside
      exact store_of_notMem outside
  | @load r address bound inside =>
      refine ⟨rfl, fun q _ other _ => ?_, fun _ _ => rfl⟩
      apply Registers.set_of_ne
      rintro rfl
      exact other r rfl rfl
  | @call retnSize address first second =>
      refine ⟨rfl, fun r ip _ sp => ?_, fun i outside => ?_⟩
      · have other : r ≠ SP := fun same => sp same trivial
        change (((m.registers.set SP _).set SP _).set IP _) r = _
        rw [Registers.set_of_ne ip, Registers.set_of_ne other, Registers.set_of_ne other]
      · simp only [Action.writes, wordsBytes_cons, wordsBytes_nil, Set.union_empty,
          Set.mem_union, not_or] at outside
        change ((m.stack.store _ _).store _ _) i = _
        rw [store_of_notMem outside.2, store_of_notMem outside.1]
  | ret first second =>
      refine ⟨rfl, fun r ip _ sp => ?_, fun _ _ => rfl⟩
      have other : r ≠ SP := fun same => sp same trivial
      change ((((m.registers.set SP _).set SP _).set SP _).set IP _) r = _
      rw [Registers.set_of_ne ip, Registers.set_of_ne other, Registers.set_of_ne other,
        Registers.set_of_ne other]
  | push inside =>
      refine ⟨rfl, fun r ip _ sp => ?_, fun i outside => ?_⟩
      · exact Registers.set_of_ne (fun same => sp same trivial) m.registers _
      · simp only [Action.writes, wordsBytes_cons, wordsBytes_nil, Set.union_empty] at outside
        exact store_of_notMem outside
  | @pop r bound inside =>
      refine ⟨rfl, fun q ip other sp => ?_, fun _ _ => rfl⟩
      have named : q ≠ ⟨r.toNat, bound⟩ := by
        rintro rfl
        exact other r rfl rfl
      change ((m.registers.set SP _).set _ _) q = _
      rw [Registers.set_of_ne named, Registers.set_of_ne (fun same => sp same trivial)]
  | stout stout run =>
      rcases stoutLoop_frame run with ⟨bytecode, registers, stack⟩
      exact ⟨bytecode, fun r _ _ sp => registers r fun same => sp same stout,
        fun i _ => congrFun stack i⟩
  | silent other => exact ⟨rfl, fun _ _ _ _ => rfl, fun _ _ => rfl⟩
  | message bytes => exact ⟨rfl, fun _ _ _ _ => rfl, fun _ _ => rfl⟩

theorem advance_of_ne (m : Machine) (count : Nat) {r : Fin 13} (ne : r ≠ IP) :
    (m.advance count).registers r = m.registers r :=
  Registers.set_of_ne ne m.registers _

theorem writes_advance (action : Action) (m : Machine) (count : Nat) :
    action.writes (m.advance count).registers = action.writes m.registers := by
  have sp := advance_of_ne m count (show SP ≠ IP by decide)
  cases action <;> simp only [Action.writes, sp]

theorem movesSP_advance (action : Action) (m : Machine) (count : Nat) :
    action.MovesSP (m.advance count).registers ↔ action.MovesSP m.registers := by
  have code := advance_of_ne m count (show R0 ≠ IP by decide)
  cases action <;> simp only [Action.MovesSP, code]

/-- The extraction in front of an action moves `IP` only. -/
theorem Framed.of_advance {action : Action} {m next : Machine} {count : Nat}
    (framed : Framed action (m.advance count) next) : Framed action m next where
  bytecode := framed.bytecode
  registers r ip other sp := by
    rw [framed.registers r ip other, advance_of_ne m count ip]
    rwa [movesSP_advance]
  stack i outside := by
    have untouched := framed.stack i
    rw [writes_advance] at untouched
    exact untouched outside

/-! ## Which instruction does what -/

/-- The actions that the case of a class makes of its operands. -/
def Kind.Makes : Kind → Action → Prop
  | .halt, .skip => True
  | .binary _, .assign _ _ => True
  | .unary _, .assign _ _ => True
  | .branch _, .branch _ _ => True
  | .store, .store _ _ => True
  | .load, .load _ _ => True
  | .jmp, .branch _ _ => True
  | .call, .call _ _ => True
  | .ret, .ret => True
  | .push, .push _ => True
  | .pop, .pop _ => True
  | .mov, .assign _ _ => True
  | .syscall, .syscall => True
  | .illegal opcode, .message bytes => bytes = illegalMessage opcode
  | _, _ => False

/-- Whatever the computation returns has a property. -/
def Returns {α : Type} (action : Execution α) (P : α → Prop) : Prop :=
  ∀ m value next, action m = .ok (value, next) → P value

theorem Returns.pure {α : Type} {P : α → Prop} {value : α} (holds : P value) :
    Returns (Pure.pure value : Execution α) P := by
  intro m other next run
  cases run
  exact holds

theorem Returns.bind {α β : Type} {P : β → Prop} {first : Execution α}
    {rest : α → Execution β} (returns : ∀ value, Returns (rest value) P) :
    Returns (first >>= rest) P := by
  intro m value next run
  obtain ⟨middle, between, _, last⟩ := ok_of_bind run
  exact returns middle between value next last

theorem makes_of_extract (kind : Kind) (op1 op2 : Bool) :
    Returns (kind.extract op1 op2) kind.Makes := by
  cases kind with
  | halt => exact .pure trivial
  | binary compute => exact .bind fun _ => .bind fun _ => .bind fun _ => .pure trivial
  | unary compute => exact .bind fun _ => .bind fun _ => .pure trivial
  | branch test => exact .bind fun _ => .bind fun _ => .bind fun _ => .pure trivial
  | store => exact .bind fun _ => .bind fun _ => .pure trivial
  | load => exact .bind fun _ => .bind fun _ => .pure trivial
  | jmp => exact .bind fun _ => .pure trivial
  | call => exact .bind fun _ => .bind fun _ => .pure trivial
  | ret => exact .pure trivial
  | push => exact .bind fun _ => .pure trivial
  | pop => exact .bind fun _ => .pure trivial
  | mov => exact .bind fun _ => .bind fun _ => .pure trivial
  | syscall => exact .pure trivial
  | illegal opcode => exact .pure rfl

/-- The extracting half of a step stands behind the instruction and has made one of the
actions of its class. -/
theorem extraction_ok {m operands : Machine} {opcode : UInt8} {action : Action}
    (extracted : extraction m = .ok ((opcode, action), operands)) :
    operands = m.advance (width m.layout) ∧ (kind opcode).Makes action ∧
      ∃ opc, m.bytecode.bytes[m.ip]? = some opc ∧ opcode = opc >>> 2 := by
  have behind : operands = m.advance (width m.layout) := by
    rcases extraction_cases m with ⟨_, failed⟩ | ⟨_, _, failed⟩ | ⟨_, _, _, _, again⟩
    · cases failed.symm.trans extracted
    · cases failed.symm.trans extracted
    · cases again.symm.trans extracted
      rfl
  rw [extraction_eq] at extracted
  obtain ⟨opc, _, fetched, rest⟩ := ok_of_bind extracted
  obtain ⟨made, _, made_eq, rest⟩ := ok_of_bind rest
  cases rest
  refine ⟨behind, makes_of_extract _ _ _ _ _ _ made_eq, opc, ?_, rfl⟩
  cases found : m.bytecode.bytes[m.ip]? with
  | none =>
      rw [fetch_of_none found] at fetched
      cases fetched
  | some byte =>
      rw [fetch_of_some found] at fetched
      cases fetched
      rfl

/-- A step that finishes has the effect of its action. -/
theorem step_cases {m next : Machine} {opcode : UInt8} (run : step m = .ok (opcode, next)) :
    ∃ action, extraction m = .ok ((opcode, action), m.advance (width m.layout)) ∧
      Effect (m.advance (width m.layout)) action next := by
  rw [step_eq] at run
  obtain ⟨⟨code, action⟩, operands, extracted, rest⟩ := ok_of_bind run
  obtain ⟨_, _, performed, rest⟩ := ok_of_bind rest
  cases rest
  obtain rfl := (extraction_ok extracted).1
  exact ⟨action, extracted, effect_of_perform performed⟩

/-- A step leaves everything alone that its instruction does not name, and an illegal
opcode is skipped with a message. -/
theorem step_frame {m next : Machine} {opcode : UInt8} (run : step m = .ok (opcode, next)) :
    ∃ action operands, extraction m = .ok ((opcode, action), operands) ∧
      (kind opcode).Makes action ∧ Framed action m next ∧
      (Opcode.ofByte opcode = none →
        next = { m.advance 1 with output := m.output ++ illegalMessage opcode }) := by
  obtain ⟨action, extracted, effect⟩ := step_cases run
  obtain ⟨_, makes, opc, found, same⟩ := extraction_ok extracted
  refine ⟨action, _, extracted, makes, effect.framed.of_advance, ?_⟩
  intro unknown
  have illegal : kind opcode = .illegal opcode := by rw [kind, unknown]
  have short : width m.layout = 1 := by
    rw [Processor.layout, found]
    simp only [← same, illegal]
    rfl
  rw [illegal] at makes
  rw [short] at effect
  cases effect with
  | message bytes =>
      obtain rfl : bytes = illegalMessage opcode := makes
      rfl
  | _ => exact makes.elim

/-- `MOV R0, 7`. -/
def movAtOnce : Bytecode := ⟨[0x62, 0, 7, 0, 0, 0, 0, 0, 0, 0], by decide⟩

theorem step_frame_mov :
    ∃ next action operands,
      extraction (Machine.construct movAtOnce fun _ => 0) = .ok ((24, action), operands) ∧
      (kind 24).Makes action ∧ Framed action (Machine.construct movAtOnce fun _ => 0) next ∧
      (Opcode.ofByte 24 = none →
        next = { (Machine.construct movAtOnce fun _ => 0).advance 1 with
          output := (Machine.construct movAtOnce fun _ => 0).output ++ illegalMessage 24 }) :=
  ⟨_, step_frame rfl⟩

/-! ## Steps of a run -/

/-- The interpreter takes a step, and the action is what its operands make. -/
def Machine.Steps (m : Machine) (action : Action) (next : Machine) : Prop :=
  ∃ opcode operands, extraction m = .ok ((opcode, action), operands) ∧
    step m = .ok (opcode, next)

theorem step_of_execute {m next : Machine} (round : execute m = .inl next) :
    ∃ opcode, step m = .ok (opcode, next) := by
  rw [execute] at round
  cases stepped : step m with
  | error fault =>
      rw [stepped] at round
      cases round
  | ok result =>
      rcases result with ⟨opcode, behind⟩
      rw [stepped] at round
      by_cases goesOn : opcode ≠ 0
      · simp only [if_pos goesOn] at round
        cases round
        exact ⟨opcode, rfl⟩
      · simp only [if_neg goesOn] at round
        cases round

/-- Rounds of `Execute` are a run of such steps. -/
theorem runs_of_iterate {n : Nat} {m last : Machine} (reached : iterate execute n m = .inl last) :
    ∃ steps, Runs Machine.Steps m steps last ∧ steps.length = n := by
  induction n generalizing m with
  | zero =>
      cases reached
      exact ⟨[], .refl _, rfl⟩
  | succ n ih =>
      cases round : execute m with
      | inr ending =>
          rw [iterate_succ_of_inr round] at reached
          cases reached
      | inl next =>
          rw [iterate_succ_of_inl round] at reached
          rcases ih reached with ⟨steps, run, length⟩
          obtain ⟨opcode, stepped⟩ := step_of_execute round
          obtain ⟨action, extracted, _⟩ := step_cases stepped
          exact ⟨_, .cons ⟨opcode, _, extracted, stepped⟩ run, congrArg (· + 1) length⟩

theorem steps_of_execute {m operands next : Machine} {opcode : UInt8} {action : Action}
    (extracted : extraction m = .ok ((opcode, action), operands))
    (round : execute m = .inl next) : m.Steps action next := by
  obtain ⟨code, stepped⟩ := step_of_execute round
  obtain ⟨other, again, _⟩ := step_cases stepped
  cases again.symm.trans extracted
  exact ⟨_, _, extracted, stepped⟩

/-- An instruction whose action can be performed is a step. -/
theorem steps_of_perform {m operands next : Machine} {opcode : UInt8} {action : Action}
    (extracted : extraction m = .ok ((opcode, action), operands))
    (performed : action.perform operands = .ok ((), next)) : m.Steps action next :=
  ⟨opcode, operands, extracted, step_of_perform_ok extracted performed⟩

namespace Machine.Steps

variable {m next : Machine} {action : Action}

theorem effect (taken : m.Steps action next) :
    Effect (m.advance (width m.layout)) action next := by
  rcases taken with ⟨opcode, operands, extracted, stepped⟩
  obtain ⟨other, again, effect⟩ := step_cases stepped
  cases again.symm.trans extracted
  exact effect

theorem framed (taken : m.Steps action next) : Framed action m next :=
  taken.effect.framed.of_advance

/-- The bytes that the step does not write stay. -/
theorem stack_eq (taken : m.Steps action next) {i : Fin stackSize} (outside : ↑i ∉ m.stepWrites) :
    next.stack i = m.stack i := by
  apply taken.framed.stack
  rcases taken with ⟨opcode, operands, extracted, _⟩
  rwa [Machine.stepWrites_eq extracted, (extraction_ok extracted).1, writes_advance] at outside

end Machine.Steps

end IotChain.VM
