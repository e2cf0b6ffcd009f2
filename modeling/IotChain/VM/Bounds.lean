import IotChain.VM.Action

/-!
# Bounds

The interpreter checks no bound.  Whether a step stays inside its arrays is decided
by the state in front of the step: by the layout of the instruction at `IP`, by the
register numbers in it and by the addresses that its action uses.
-/

namespace IotChain.VM

open IotChain.Transition

/-! ## The accesses of an action -/

/-- The register numbers that were kept for the action. -/
@[simp]
def Action.names : Action → List UInt8
  | .assign r _ => [r]
  | .store r _ => [r]
  | .load r _ => [r]
  | .pop r => [r]
  | _ => []

/-- The addresses that popping `count` words reads. -/
@[simp]
def popAddresses (sp : UInt64) : Nat → List Nat
  | 0 => []
  | count + 1 => sp.toNat :: popAddresses (sp + 8) count

/-- The addresses of the words that the action reads. -/
@[simp]
def Action.reads (registers : Registers) : Action → List Nat
  | .load _ address => [address.toNat]
  | .ret => popAddresses (registers SP) 2
  | .pop _ => popAddresses (registers SP) 1
  | .syscall =>
      if registers R0 = Stout then
        popAddresses (registers SP) (stoutSize (registers R1)).toNat
      else
        []
  | _ => []

/-- The addresses of the words that the action writes. -/
@[simp]
def Action.writes (registers : Registers) : Action → List Nat
  | .store _ address => [address.toNat]
  | .call _ _ => [(registers SP - 8).toNat, (registers SP - 8 - 8).toNat]
  | .push _ => [(registers SP - 8).toNat]
  | _ => []

/-- The kept register numbers name registers, and every word lies wholly inside the
stack. -/
structure Action.Inside (action : Action) (registers : Registers) : Prop where
  names : ∀ r ∈ action.names, r.toNat < 13
  reads : ∀ address ∈ action.reads registers, address + 8 ≤ stackSize
  writes : ∀ address ∈ action.writes registers, address + 8 ≤ stackSize

/-! ## What an action does inside and outside -/

/-- The computation does not leave the machine's arrays: it finishes, or a division
traps. -/
def StaysInside {α : Type} : Except Fault (α × Machine) → Prop
  | .ok _ => True
  | .error fault => fault = .divide

/-- The computation leaves `registers_` or `stack_`. -/
def Leaves {α : Type} (result : Except Fault (α × Machine)) : Prop :=
  ∃ fault : Fault, fault.IsData ∧ result = .error fault

theorem leaves_registers {α : Type} :
    Leaves (.error .registerIndex : Except Fault (α × Machine)) :=
  ⟨_, .inl rfl, rfl⟩

theorem leaves_stack {α : Type} : Leaves (.error .stack : Except Fault (α × Machine)) :=
  ⟨_, .inr rfl, rfl⟩

theorem stoutLoop_inside {size : UInt32} {i count : Nat} {m : Machine}
    (inside : ∀ address ∈ popAddresses (m.registers SP) count, address + 8 ≤ stackSize) :
    ∃ next, stoutLoop size i count m = .ok ((), next) := by
  induction count generalizing i m with
  | zero => exact ⟨m, rfl⟩
  | succ count ih =>
      have first := inside _ List.mem_cons_self
      rw [stoutLoop, bind_of_ok (pop_of_inside first)]
      apply ih
      intro address member
      exact inside address (List.mem_cons_of_mem _ member)

theorem stoutLoop_outside {size : UInt32} {i count : Nat} {m : Machine}
    (outside : ¬ ∀ address ∈ popAddresses (m.registers SP) count,
      address + 8 ≤ stackSize) :
    stoutLoop size i count m = .error .stack := by
  induction count generalizing i m with
  | zero => exact absurd (List.forall_mem_nil _) outside
  | succ count ih =>
      rw [stoutLoop]
      by_cases first : (m.registers SP).toNat + 8 ≤ stackSize
      · rw [bind_of_ok (pop_of_inside first)]
        apply ih
        intro inside
        exact outside (List.forall_mem_cons.mpr ⟨first, inside⟩)
      · rw [bind_of_error (pop_of_outside first)]

theorem perform_inside {action : Action} {m : Machine}
    (inside : action.Inside m.registers) : StaysInside (action.perform m) := by
  rcases inside with ⟨names, reads, writes⟩
  cases action with
  | skip => trivial
  | assign r value =>
      have named := names r List.mem_cons_self
      rw [Action.perform, slot_of_lt named]
      cases value with
      | none => rfl
      | some value => trivial
  | branch taken address => cases taken <;> trivial
  | store r address =>
      have named := names r List.mem_cons_self
      have word := writes _ List.mem_cons_self
      rw [Action.perform, bind_of_ok (register_of_lt named m), storeWord_of_inside word]
      trivial
  | load r address =>
      have named := names r List.mem_cons_self
      have word := reads _ List.mem_cons_self
      rw [Action.perform, slot_of_lt named, pure_bind,
        bind_of_ok (loadWord_of_inside word m)]
      trivial
  | call address retnSize =>
      have first := writes _ List.mem_cons_self
      have second := writes _ (List.mem_cons_of_mem _ List.mem_cons_self)
      have moved : (m.pushed retnSize first).registers SP = m.registers SP - 8 :=
        Machine.pushed_sp
      rw [← moved] at second
      rw [Action.perform, bind_of_ok (push_of_inside retnSize first)]
      change StaysInside ((VM.push _ >>= fun _ => setRegister IP _) (m.pushed retnSize first))
      rw [bind_of_ok (push_of_inside _ second)]
      trivial
  | ret =>
      have first := reads _ List.mem_cons_self
      have second := reads _ (List.mem_cons_of_mem _ List.mem_cons_self)
      rw [Action.perform, retCase, bind_of_ok (pop_of_inside first),
        bind_of_ok (pop_of_inside second)]
      trivial
  | push v1 =>
      have word := writes _ List.mem_cons_self
      rw [Action.perform, push_of_inside v1 word]
      trivial
  | pop r =>
      have named := names r List.mem_cons_self
      have word := reads _ List.mem_cons_self
      rw [Action.perform, slot_of_lt named, pure_bind, bind_of_ok (pop_of_inside word)]
      trivial
  | syscall =>
      rw [Action.perform]
      by_cases stout : m.registers R0 = Stout
      · rw [Action.reads, if_pos stout] at reads
        rw [syscallCase_of_stout stout]
        obtain ⟨next, run⟩ := stoutLoop_inside reads
        rw [run]
        trivial
      · rw [syscallCase_of_ne stout]
        trivial
  | message bytes => trivial

/-- A step that uses a kept register number first finds out whether it names one. -/
theorem leaves_of_slot {r : UInt8} {m : Machine} {rest : Fin 13 → Execution Unit}
    (leaves : ∀ bound : r.toNat < 13, Leaves (rest ⟨r.toNat, bound⟩ m)) :
    Leaves ((slot r >>= rest) m) := by
  by_cases bound : r.toNat < 13
  · rw [slot_of_lt bound, pure_bind]
    exact leaves bound
  · rw [slot_of_not_lt bound]
    exact leaves_registers

theorem store_outside {r : UInt8} {address : UInt32} {m : Machine}
    (outside : r.toNat < 13 → ¬ address.toNat + 8 ≤ stackSize) :
    Leaves ((Action.store r address).perform m) := by
  rw [Action.perform]
  by_cases bound : r.toNat < 13
  · rw [bind_of_ok (register_of_lt bound m), storeWord_of_outside (outside bound)]
    exact leaves_stack
  · rw [bind_of_error (register_of_not_lt bound m)]
    exact leaves_registers

theorem load_outside {r : UInt8} {address : UInt32} {m : Machine}
    (outside : r.toNat < 13 → ¬ address.toNat + 8 ≤ stackSize) :
    Leaves ((Action.load r address).perform m) := by
  apply leaves_of_slot
  intro bound
  rw [bind_of_error (loadWord_of_outside (outside bound) m)]
  exact leaves_stack

theorem call_outside {address : UInt32} {retnSize : UInt64} {m : Machine}
    (outside : (m.registers SP - 8).toNat + 8 ≤ stackSize →
      ¬ (m.registers SP - 8 - 8).toNat + 8 ≤ stackSize) :
    Leaves ((Action.call address retnSize).perform m) := by
  rw [Action.perform]
  by_cases first : (m.registers SP - 8).toNat + 8 ≤ stackSize
  · have second : ¬ ((m.pushed retnSize first).registers SP - 8).toNat + 8 ≤ stackSize := by
      rw [Machine.pushed_sp]
      exact outside first
    rw [bind_of_ok (push_of_inside retnSize first)]
    change Leaves ((VM.push _ >>= fun _ => setRegister IP _) (m.pushed retnSize first))
    rw [bind_of_error (push_of_outside _ second)]
    exact leaves_stack
  · rw [bind_of_error (push_of_outside retnSize first)]
    exact leaves_stack

theorem ret_outside {m : Machine}
    (outside : (m.registers SP).toNat + 8 ≤ stackSize →
      ¬ (m.registers SP + 8).toNat + 8 ≤ stackSize) :
    Leaves (Action.ret.perform m) := by
  rw [Action.perform, retCase]
  by_cases first : (m.registers SP).toNat + 8 ≤ stackSize
  · rw [bind_of_ok (pop_of_inside first), bind_of_error (pop_of_outside _)]
    · exact leaves_stack
    · rw [Machine.setRegister_same]
      exact outside first
  · rw [bind_of_error (pop_of_outside first)]
    exact leaves_stack

theorem push_outside {v1 : UInt64} {m : Machine}
    (outside : ¬ (m.registers SP - 8).toNat + 8 ≤ stackSize) :
    Leaves ((Action.push v1).perform m) := by
  rw [Action.perform, push_of_outside v1 outside]
  exact leaves_stack

theorem pop_outside {r : UInt8} {m : Machine}
    (outside : r.toNat < 13 → ¬ (m.registers SP).toNat + 8 ≤ stackSize) :
    Leaves ((Action.pop r).perform m) := by
  apply leaves_of_slot
  intro bound
  rw [bind_of_error (pop_of_outside (outside bound))]
  exact leaves_stack

theorem syscall_outside {m : Machine}
    (outside : ¬ ∀ address ∈ Action.syscall.reads m.registers, address + 8 ≤ stackSize) :
    Leaves (Action.syscall.perform m) := by
  rw [Action.reads] at outside
  split at outside
  · rename_i stout
    rw [Action.perform, syscallCase_of_stout stout, stoutLoop_outside outside]
    exact leaves_stack
  · exact absurd (List.forall_mem_nil _) outside

theorem perform_outside {action : Action} {m : Machine}
    (outside : ¬ action.Inside m.registers) : Leaves (action.perform m) := by
  cases action with
  | skip => exact absurd ⟨by simp, by simp, by simp⟩ outside
  | assign r value =>
      refine leaves_of_slot fun bound => absurd ⟨?_, ?_, ?_⟩ outside
      all_goals simp [bound]
  | branch taken address => exact absurd ⟨by simp, by simp, by simp⟩ outside
  | store r address =>
      refine store_outside fun bound word => outside ⟨?_, ?_, ?_⟩
      all_goals simp [bound, word]
  | load r address =>
      refine load_outside fun bound word => outside ⟨?_, ?_, ?_⟩
      all_goals simp [bound, word]
  | call address retnSize =>
      refine call_outside fun first second => outside ⟨?_, ?_, ?_⟩
      all_goals simp [first, second]
  | ret =>
      refine ret_outside fun first second => outside ⟨by simp, ?_, by simp⟩
      exact List.forall_mem_cons.mpr ⟨first, List.forall_mem_singleton.mpr second⟩
  | push v1 =>
      refine push_outside fun word => outside ⟨?_, ?_, ?_⟩
      all_goals simp [word]
  | pop r =>
      refine pop_outside fun bound word => outside ⟨?_, ?_, ?_⟩
      all_goals simp [bound, word]
  | syscall => exact syscall_outside fun words => outside ⟨by simp, words, by simp⟩
  | message bytes => exact absurd ⟨by simp, by simp, by simp⟩ outside

/-! ## What a step does inside and outside -/

theorem Processor.layout_ne_nil (cpu : Processor) : cpu.layout ≠ [] := by
  rw [layout]
  split <;> exact List.cons_ne_nil _ _

/-- The three ways in which the extracting half of a step can go. -/
theorem extraction_cases (m : Machine) :
    (¬ m.SourcesExist m.layout ∧ extraction m = .error .registerIndex) ∨
    (m.SourcesExist m.layout ∧ ¬ m.Fits m.layout ∧ extraction m = .error .fetch) ∨
    (m.SourcesExist m.layout ∧ m.Fits m.layout ∧ ∃ opcode action,
      extraction m = .ok ((opcode, action), m.advance (width m.layout))) := by
  rcases extraction_run with ⟨value, run⟩
  have extracted := run m
  rw [Processor.firstFault_eq (.inl m.layout_ne_nil)] at extracted
  by_cases exist : m.SourcesExist m.layout
  · rw [if_pos exist] at extracted
    by_cases fits : m.Fits m.layout
    · rw [if_pos fits] at extracted
      exact .inr (.inr ⟨exist, fits, _, _, extracted⟩)
    · rw [if_neg fits] at extracted
      exact .inr (.inl ⟨exist, fits, extracted⟩)
  · rw [if_neg exist] at extracted
    exact .inl ⟨exist, extracted⟩

theorem step_of_extraction_error {m : Machine} {fault : Fault}
    (failed : extraction m = .error fault) : step m = .error fault := by
  rw [step_eq, bind_of_error failed]

theorem step_of_perform_ok {m next last : Machine} {opcode : UInt8} {action : Action}
    (extracted : extraction m = .ok ((opcode, action), next))
    (performed : action.perform next = .ok ((), last)) : step m = .ok (opcode, last) := by
  rw [step_eq, bind_of_ok extracted]
  change (action.perform >>= fun _ => pure opcode) next = _
  rw [bind_of_ok performed]
  rfl

theorem step_of_perform_error {m next : Machine} {opcode : UInt8} {action : Action}
    {fault : Fault} (extracted : extraction m = .ok ((opcode, action), next))
    (failed : action.perform next = .error fault) : step m = .error fault := by
  rw [step_eq, bind_of_ok extracted]
  change (action.perform >>= fun _ => pure opcode) next = _
  rw [bind_of_error failed]

theorem step_inside {m next : Machine} {opcode : UInt8} {action : Action}
    (extracted : extraction m = .ok ((opcode, action), next))
    (inside : action.Inside next.registers) : StaysInside (step m) := by
  have stays := perform_inside inside
  cases performed : action.perform next with
  | ok result =>
      rw [step_of_perform_ok extracted performed]
      trivial
  | error fault =>
      rw [performed] at stays
      rw [step_of_perform_error extracted performed]
      exact stays

theorem step_outside {m next : Machine} {opcode : UInt8} {action : Action}
    (extracted : extraction m = .ok ((opcode, action), next))
    (outside : ¬ action.Inside next.registers) : Leaves (step m) := by
  obtain ⟨fault, data, failed⟩ := perform_outside outside
  exact ⟨fault, data, step_of_perform_error extracted failed⟩

namespace Machine

/-- The step stays inside `registers_` and `stack_`. -/
def DataInBounds (m : Machine) : Prop :=
  ∀ fault, step m = .error fault → ¬ fault.IsData

/-- The step fetches inside `bytecode_`. -/
def FetchInBounds (m : Machine) : Prop :=
  step m ≠ .error .fetch

/-- The register operands of the instruction at `IP` exist, and the addresses that it
uses lie inside the stack. -/
structure AccessesInside (m : Machine) : Prop where
  sources : m.SourcesExist m.layout
  action : ∀ opcode action next,
    extraction m = .ok ((opcode, action), next) → action.Inside next.registers

/-- The instruction at `IP` ends inside the bytecode, or one of the register operands
in front of its end has stopped the step already. -/
def InstructionInside (m : Machine) : Prop :=
  m.Fits m.layout ∨ ¬ m.SourcesExist m.layout

theorem dataInBounds_iff (m : Machine) : m.DataInBounds ↔ m.AccessesInside := by
  rcases extraction_cases m with ⟨missing, failed⟩ | ⟨exist, _, failed⟩ |
    ⟨exist, _, opcode, action, extracted⟩
  · have stepFails := step_of_extraction_error failed
    exact iff_of_false (fun safe => safe _ stepFails (.inl rfl))
      (fun inside => missing inside.sources)
  · have stepFails := step_of_extraction_error failed
    refine iff_of_true (fun fault equal => ?_) ⟨exist, fun _ _ _ extracted => ?_⟩
    · obtain rfl : Fault.fetch = fault := Except.error.inj (stepFails.symm.trans equal)
      decide
    · cases failed.symm.trans extracted
  · by_cases inside : action.Inside (m.advance (width m.layout)).registers
    · refine iff_of_true (fun fault equal => ?_) ⟨exist, fun _ _ _ again => ?_⟩
      · have stays := step_inside extracted inside
        rw [equal] at stays
        obtain rfl : fault = .divide := stays
        decide
      · cases extracted.symm.trans again
        exact inside
    · obtain ⟨fault, data, failed⟩ := step_outside extracted inside
      exact iff_of_false (fun safe => safe fault failed data)
        (fun all => inside (all.action _ _ _ extracted))

theorem fetchInBounds_iff (m : Machine) : m.FetchInBounds ↔ m.InstructionInside := by
  rw [FetchInBounds, InstructionInside]
  rcases extraction_cases m with ⟨missing, failed⟩ | ⟨exist, cut, failed⟩ |
    ⟨_, fits, opcode, action, extracted⟩
  · rw [step_of_extraction_error failed]
    exact iff_of_true (fun equal => by cases equal) (.inr missing)
  · rw [step_of_extraction_error failed]
    exact iff_of_false (fun differs => differs rfl)
      (fun inside => inside.elim cut fun missing => missing exist)
  · refine iff_of_true (fun equal => ?_) (.inl fits)
    by_cases inside : action.Inside (m.advance (width m.layout)).registers
    · have stays := step_inside extracted inside
      rw [equal] at stays
      cases stays
    · obtain ⟨fault, data, failed⟩ := step_outside extracted inside
      obtain rfl : Fault.fetch = fault := Except.error.inj (equal.symm.trans failed)
      exact absurd data (by decide)

end Machine

end IotChain.VM
