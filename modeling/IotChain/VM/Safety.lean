import IotChain.VM.Bounds

/-!
# Safety of runs

A run of `Execute` keeps its accesses and its fetches in bounds exactly as long as
the states it reaches do.  Neither holds of all bytecode.
-/

namespace IotChain.VM

open IotChain.Transition

variable {m : Machine}

theorem execute_eq_faulted_iff {fault : Fault} :
    execute m = .inr (.faulted fault) ↔ step m = .error fault := by
  rw [execute]
  cases step m with
  | ok result =>
      by_cases stop : result.1 ≠ 0
      · simp [stop]
      · simp [stop]
  | error other => simp

theorem execute_eq_stopped_iff {last : Machine} :
    execute m = .inr (.stopped last) ↔ step m = .ok (0, last) := by
  rw [execute]
  cases step m with
  | ok result =>
      by_cases stop : result.1 ≠ 0
      · simp [stop, Prod.ext_iff]
      · simp [Prod.ext_iff, not_not.mp stop]
  | error other => simp

/-- A run ends with a fault exactly if the step from a reachable state does. -/
theorem faults_iff (bytecode : Bytecode) (stack : Memory) (fault : Fault) :
    (∃ n, iterate execute n (Machine.construct bytecode stack) = .inr (.faulted fault)) ↔
      ∃ m, Reachable bytecode stack m ∧ step m = .error fault := by
  constructor
  · rintro ⟨n, run⟩
    obtain ⟨k, _, last, reached, leaves⟩ := iterate_eq_inr_iff.mp run
    exact ⟨last, ⟨k, reached⟩, execute_eq_faulted_iff.mp leaves⟩
  · rintro ⟨m, ⟨k, reached⟩, failed⟩
    exact ⟨k + 1, iterate_eq_inr_iff.mpr
      ⟨k, Nat.lt_succ_self k, m, reached, execute_eq_faulted_iff.mpr failed⟩⟩

/-- The opcode of a finished step was fetched inside the bytecode. -/
theorem opcode_of_step {last : Machine} {opcode : UInt8}
    (run : step m = .ok (opcode, last)) :
    ∃ opc, m.bytecode.bytes[m.ip]? = some opc ∧ opcode = opc >>> 2 := by
  have stepEq : step = (do
      let opc ← fetch
      switch (opc >>> 2) (opc &&& 1 ≠ 0) (opc &&& 2 ≠ 0)
      return opc >>> 2) := by
    simp only [step, extractOpcode, bind_assoc, pure_bind]
  rw [stepEq] at run
  cases found : m.bytecode.bytes[m.ip]? with
  | none =>
      rw [bind_of_error (fetch_of_none found)] at run
      cases run
  | some opc =>
      rw [bind_of_ok (fetch_of_some found)] at run
      cases switched : switch (opc >>> 2) (opc &&& 1 ≠ 0) (opc &&& 2 ≠ 0) (m.advance 1) with
      | error fault =>
          rw [bind_of_error switched] at run
          cases run
      | ok result =>
          rw [bind_of_ok switched] at run
          cases run
          exact ⟨opc, rfl, rfl⟩

/-! ## Data -/

/-- In every reachable state the step stays inside `registers_` and `stack_` if and only
if the accesses of the instruction at `IP` do, and a run never leaves them if and only
if this is so in every state it reaches. -/
theorem dataInBounds_reachable_iff (bytecode : Bytecode) (stack : Memory) :
    (∀ m, Reachable bytecode stack m → (m.DataInBounds ↔ m.AccessesInside)) ∧
    ((∀ n fault, iterate execute n (Machine.construct bytecode stack) =
        .inr (.faulted fault) → ¬ fault.IsData) ↔
      ∀ m, Reachable bytecode stack m → m.AccessesInside) := by
  refine ⟨fun m _ => m.dataInBounds_iff, ?_⟩
  simp only [← Machine.dataInBounds_iff]
  constructor
  · intro safe m reached fault failed
    obtain ⟨n, run⟩ := (faults_iff bytecode stack fault).mpr ⟨m, reached, failed⟩
    exact safe n fault run
  · intro safe n fault run
    obtain ⟨m, reached, failed⟩ := (faults_iff bytecode stack fault).mp ⟨n, run⟩
    exact safe m reached fault failed

/-- `POP` into `R0`, with nothing on the stack. -/
def popAtOnce : Bytecode := ⟨[0x5c, 0], by decide⟩

theorem dataInBounds_fails :
    ¬ ∀ bytecode stack m, Reachable bytecode stack m → m.DataInBounds := by
  intro safe
  have start : Reachable popAtOnce (fun _ => 0) (Machine.construct popAtOnce fun _ => 0) :=
    ⟨0, rfl⟩
  have failed : step (Machine.construct popAtOnce fun _ => 0) = .error .stack := rfl
  exact safe _ _ _ start _ failed (.inr rfl)

/-! ## Instructions -/

/-- In every reachable state the step fetches inside the bytecode if and only if the
instruction at `IP` is inside.  A run never fetches outside if and only if this is so in
every state it reaches, and a run that stops does so at a `STOP` inside. -/
theorem fetchInBounds_reachable_iff (bytecode : Bytecode) (stack : Memory) :
    (∀ m, Reachable bytecode stack m → (m.FetchInBounds ↔ m.InstructionInside)) ∧
    ((∀ n, iterate execute n (Machine.construct bytecode stack) ≠
        .inr (.faulted .fetch)) ↔
      ∀ m, Reachable bytecode stack m → m.InstructionInside) ∧
    ∀ n last, iterate execute n (Machine.construct bytecode stack) = .inr (.stopped last) →
      ∃ m, Reachable bytecode stack m ∧
        ∃ opc, m.bytecode.bytes[m.ip]? = some opc ∧ opc >>> 2 = 0 := by
  refine ⟨fun m _ => m.fetchInBounds_iff, ?_, ?_⟩
  · simp only [← Machine.fetchInBounds_iff]
    constructor
    · intro safe m reached failed
      obtain ⟨n, run⟩ := (faults_iff bytecode stack .fetch).mpr ⟨m, reached, failed⟩
      exact safe n run
    · intro safe n run
      obtain ⟨m, reached, failed⟩ := (faults_iff bytecode stack .fetch).mp ⟨n, run⟩
      exact safe m reached failed
  · intro n last run
    obtain ⟨k, _, m, reached, leaves⟩ := iterate_eq_inr_iff.mp run
    obtain ⟨opc, found, zero⟩ := opcode_of_step (execute_eq_stopped_iff.mp leaves)
    exact ⟨m, ⟨k, reached⟩, opc, found, zero.symm⟩

theorem fetchInBounds_fails :
    ¬ ∀ bytecode stack m, Reachable bytecode stack m → m.FetchInBounds := by
  intro safe
  have start : Reachable ⟨[], by decide⟩ (fun _ => 0)
      (Machine.construct ⟨[], by decide⟩ fun _ => 0) :=
    ⟨0, rfl⟩
  exact safe _ _ _ start rfl

end IotChain.VM
