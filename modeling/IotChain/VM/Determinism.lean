import Mathlib.Order.Interval.Set.Defs
import Mathlib.Data.Set.Basic
import IotChain.Transition.TwoRun
import IotChain.VM.Safety

/-!
# Runs from different stacks

The constructors leave the stack as they find it.  Two runs of the same bytecode
from different stacks go the same way as long as every step reads only bytes that
earlier steps have written.
-/

namespace IotChain.VM

open IotChain.Bytes IotChain.Transition

/-! ## Footprints -/

/-- The bytes of the word at an address. -/
def wordBytes (address : Nat) : Set Nat := Set.Ico address (address + 8)

/-- The bytes of the words at some addresses. -/
def wordsBytes (addresses : List Nat) : Set Nat :=
  {i | ∃ address ∈ addresses, i ∈ wordBytes address}

@[simp]
theorem wordsBytes_nil : wordsBytes [] = ∅ := by
  ext i
  simp [wordsBytes]

@[simp]
theorem wordsBytes_cons (address : Nat) (addresses : List Nat) :
    wordsBytes (address :: addresses) = wordBytes address ∪ wordsBytes addresses := by
  ext i
  simp [wordsBytes]

/-- The bytes of the stack that the step reads. -/
def Machine.stepReads (m : Machine) : Set Nat :=
  {i | ∃ opcode action next, extraction m = .ok ((opcode, action), next) ∧
    i ∈ wordsBytes (action.reads next.registers)}

/-- The bytes of the stack that the step writes. -/
def Machine.stepWrites (m : Machine) : Set Nat :=
  {i | ∃ opcode action next, extraction m = .ok ((opcode, action), next) ∧
    i ∈ wordsBytes (action.writes next.registers)}

theorem Machine.stepReads_eq {m next : Machine} {opcode : UInt8} {action : Action}
    (extracted : extraction m = .ok ((opcode, action), next)) :
    m.stepReads = wordsBytes (action.reads next.registers) := by
  ext i
  constructor
  · rintro ⟨_, _, _, again, member⟩
    cases extracted.symm.trans again
    exact member
  · intro member
    exact ⟨_, _, _, extracted, member⟩

theorem Machine.stepWrites_eq {m next : Machine} {opcode : UInt8} {action : Action}
    (extracted : extraction m = .ok ((opcode, action), next)) :
    m.stepWrites = wordsBytes (action.writes next.registers) := by
  ext i
  constructor
  · rintro ⟨_, _, _, again, member⟩
    cases extracted.symm.trans again
    exact member
  · intro member
    exact ⟨_, _, _, extracted, member⟩

/-! ## Machines that agree on some bytes -/

/-- The machines differ in bytes of the stack outside the given ones only. -/
structure AgreeOn (bytes : Set Nat) (left right : Machine) : Prop where
  processor : left.toProcessor = right.toProcessor
  output : left.output = right.output
  stack : ∀ i : Fin stackSize, ↑i ∈ bytes → left.stack i = right.stack i

namespace AgreeOn

variable {bytes : Set Nat} {left right : Machine}

theorem registers (agree : AgreeOn bytes left right) : left.registers = right.registers :=
  congrArg (fun cpu => cpu.registers) agree.processor

theorem mono {more : Set Nat} (agree : AgreeOn more left right) (subset : bytes ⊆ more) :
    AgreeOn bytes left right :=
  ⟨agree.processor, agree.output, fun i member => agree.stack i (subset member)⟩

theorem setRegister (agree : AgreeOn bytes left right) (r : Fin 13) (value : UInt64) :
    AgreeOn bytes (left.setRegister r value) (right.setRegister r value) := by
  refine ⟨?_, agree.output, agree.stack⟩
  simp only [Machine.setRegister, agree.processor]

theorem advance (agree : AgreeOn bytes left right) (count : Nat) :
    AgreeOn bytes (left.advance count) (right.advance count) := by
  refine ⟨?_, agree.output, agree.stack⟩
  simp only [Machine.advance, agree.processor]

theorem load (agree : AgreeOn bytes left right) (window : Window)
    (covered : wordBytes window.address ⊆ bytes) :
    left.stack.load window = right.stack.load window := by
  rw [Memory.load, Memory.load]
  congr 3
  funext k
  refine agree.stack _ (covered ⟨Nat.le_add_right _ _, ?_⟩)
  exact Nat.add_lt_add_left k.isLt _

theorem store (agree : AgreeOn bytes left right) (window : Window) (value : UInt64) :
    AgreeOn (bytes ∪ wordBytes window.address)
      { left with stack := left.stack.store window value }
      { right with stack := right.stack.store window value } := by
  refine ⟨agree.processor, agree.output, ?_⟩
  intro i member
  simp only [Memory.store]
  by_cases inside : window.address ≤ i ∧ i < window.address + 8
  · rw [if_pos inside, if_pos inside]
  · rw [if_neg inside, if_neg inside]
    exact agree.stack i (member.resolve_right inside)

theorem print (agree : AgreeOn bytes left right) (text : List UInt8) :
    AgreeOn bytes { left with output := left.output ++ text }
      { right with output := right.output ++ text } :=
  ⟨agree.processor, by rw [agree.output], agree.stack⟩

end AgreeOn

/-! ## One step -/

section Step

variable {bytes : Set Nat} {left right : Machine}

theorem pop_alike (agree : AgreeOn bytes left right)
    (covered : wordBytes (left.registers SP).toNat ⊆ bytes) :
    EndAlike (fun _ left' right' => AgreeOn bytes left' right' ∧
        left' = left.setRegister SP (left.registers SP + 8)) (pop left) (pop right) := by
  have sameRegisters := agree.registers
  by_cases inside : (left.registers SP).toNat + 8 ≤ stackSize
  · have insideRight : (right.registers SP).toNat + 8 ≤ stackSize := sameRegisters ▸ inside
    have loaded := agree.load ⟨_, inside⟩ covered
    rw [pop_of_inside inside, pop_of_inside insideRight]
    simp only [← sameRegisters]
    rw [← loaded]
    exact .ok ⟨agree.setRegister _ _, rfl⟩
  · have outsideRight : ¬ (right.registers SP).toNat + 8 ≤ stackSize :=
      sameRegisters ▸ inside
    rw [pop_of_outside inside, pop_of_outside outsideRight]
    exact .error _

theorem push_alike (agree : AgreeOn bytes left right) (v1 : UInt64) :
    EndAlike (fun _ left' right' =>
        AgreeOn (bytes ∪ wordBytes (left.registers SP - 8).toNat) left' right' ∧
        left'.registers SP = left.registers SP - 8) (push v1 left) (push v1 right) := by
  have sameRegisters := agree.registers
  by_cases inside : (left.registers SP - 8).toNat + 8 ≤ stackSize
  · have insideRight : (right.registers SP - 8).toNat + 8 ≤ stackSize :=
      sameRegisters ▸ inside
    rw [push_of_inside v1 inside, push_of_inside v1 insideRight]
    refine .ok ⟨?_, Machine.pushed_sp⟩
    have stored := (agree.setRegister SP (left.registers SP - 8)).store ⟨_, inside⟩ v1
    simp only [Machine.pushed, ← sameRegisters]
    exact stored
  · have outsideRight : ¬ (right.registers SP - 8).toNat + 8 ≤ stackSize :=
      sameRegisters ▸ inside
    rw [push_of_outside v1 inside, push_of_outside v1 outsideRight]
    exact .error _

theorem stoutLoop_alike {size : UInt32} {i count : Nat} (agree : AgreeOn bytes left right)
    (covered : wordsBytes (popAddresses (left.registers SP) count) ⊆ bytes) :
    EndAlike (fun _ left' right' => AgreeOn bytes left' right')
      (stoutLoop size i count left) (stoutLoop size i count right) := by
  induction count generalizing i left right with
  | zero => exact .ok agree
  | succ count ih =>
      rw [popAddresses, wordsBytes_cons] at covered
      have first := Set.subset_union_left.trans covered
      have others := Set.subset_union_right.trans covered
      rw [stoutLoop]
      apply (pop_alike agree first).bind
      rintro val left' right' ⟨agree', rfl⟩
      have sameLength := congrFun agree'.registers R1
      have rest : wordsBytes (popAddresses
          ((left.setRegister SP (left.registers SP + 8)).registers SP) count) ⊆ bytes := by
        rw [Machine.setRegister_same]
        exact others
      let chars (length : UInt64) : List UInt8 :=
        (encodeLE 8 val.toNat).take (if i = (size - 1).toNat then (length % 8).toNat else 8)
      change EndAlike _
        (stoutLoop size (i + 1) count
          { left.setRegister SP (left.registers SP + 8) with
            output := left.output ++
              chars ((left.setRegister SP (left.registers SP + 8)).registers R1) })
        (stoutLoop size (i + 1) count
          { right' with output := right'.output ++ chars (right'.registers R1) })
      rw [sameLength]
      exact ih (agree'.print _) rest

theorem slot_alike (left right : Machine) (r : UInt8) :
    EndAlike (fun _ left' right' => left' = left ∧ right' = right) (slot r left)
      (slot r right) := by
  by_cases bound : r.toNat < 13
  · rw [slot_of_lt bound]
    exact .ok ⟨rfl, rfl⟩
  · rw [slot_of_not_lt bound]
    exact .error _

theorem register_alike (agree : AgreeOn bytes left right) (r : UInt8) :
    EndAlike (fun _ left' right' => left' = left ∧ right' = right) (register r left)
      (register r right) := by
  by_cases bound : r.toNat < 13
  · rw [register_of_lt bound, register_of_lt bound, agree.registers]
    exact .ok ⟨rfl, rfl⟩
  · rw [register_of_not_lt bound, register_of_not_lt bound]
    exact .error _

theorem loadWord_alike (agree : AgreeOn bytes left right) {address : Nat}
    (covered : wordBytes address ⊆ bytes) :
    EndAlike (fun _ left' right' => left' = left ∧ right' = right) (loadWord address left)
      (loadWord address right) := by
  by_cases inside : address + 8 ≤ stackSize
  · rw [loadWord_of_inside inside, loadWord_of_inside inside, agree.load _ covered]
    exact .ok ⟨rfl, rfl⟩
  · rw [loadWord_of_outside inside, loadWord_of_outside inside]
    exact .error _

theorem storeWord_alike (agree : AgreeOn bytes left right) (address : Nat)
    (value : UInt64) :
    EndAlike (fun _ left' right' => AgreeOn (bytes ∪ wordBytes address) left' right')
      (storeWord address value left) (storeWord address value right) := by
  by_cases inside : address + 8 ≤ stackSize
  · rw [storeWord_of_inside inside, storeWord_of_inside inside]
    exact .ok (agree.store ⟨address, inside⟩ value)
  · rw [storeWord_of_outside inside, storeWord_of_outside inside]
    exact .error _

theorem retCase_alike (agree : AgreeOn bytes left right)
    (covered : wordsBytes (popAddresses (left.registers SP) 2) ⊆ bytes) :
    EndAlike (fun _ left' right' => AgreeOn bytes left' right')
      (retCase left) (retCase right) := by
  simp only [popAddresses, wordsBytes_cons, wordsBytes_nil, Set.union_empty] at covered
  have first := Set.subset_union_left.trans covered
  have second := Set.subset_union_right.trans covered
  apply (pop_alike agree first).bind
  rintro address left' right' ⟨agree', rfl⟩
  rw [← Machine.setRegister_same left SP (left.registers SP + 8)] at second
  apply (pop_alike agree' second).bind
  rintro retnSize left'' right'' ⟨agree'', _⟩
  have returned (m : Machine) :
      (do setRegister SP ((← get).registers SP + retnSize.toUInt32.toUInt64)
          setRegister IP address.toUInt32.toUInt64 : Execution Unit) m =
        .ok ((), (m.setRegister SP (m.registers SP + retnSize.toUInt32.toUInt64)).setRegister
          IP address.toUInt32.toUInt64) := rfl
  rw [returned, returned, ← agree''.registers]
  exact .ok ((agree''.setRegister _ _).setRegister _ _)

theorem assign_alike (agree : AgreeOn bytes left right) (r : UInt8) (value : Option UInt64) :
    EndAlike (fun _ left' right' => AgreeOn bytes left' right')
      ((Action.assign r value).perform left) ((Action.assign r value).perform right) := by
  apply (slot_alike left right r).bind
  rintro place _ _ ⟨rfl, rfl⟩
  cases value with
  | none => exact .error _
  | some value => exact .ok (agree.setRegister _ _)

theorem load_alike (agree : AgreeOn bytes left right) (r : UInt8) {address : UInt32}
    (covered : wordBytes address.toNat ⊆ bytes) :
    EndAlike (fun _ left' right' => AgreeOn bytes left' right')
      ((Action.load r address).perform left) ((Action.load r address).perform right) := by
  apply (slot_alike left right r).bind
  rintro place _ _ ⟨rfl, rfl⟩
  apply (loadWord_alike agree covered).bind
  rintro value _ _ ⟨rfl, rfl⟩
  exact .ok (agree.setRegister _ _)

/-- The second push is below the first one. -/
theorem call_alike (agree : AgreeOn bytes left right) (address : UInt32) (retnSize : UInt64) :
    EndAlike (fun _ left' right' => AgreeOn (bytes ∪ wordBytes (left.registers SP - 8).toNat ∪
        wordBytes (left.registers SP - 8 - 8).toNat) left' right')
      ((Action.call address retnSize).perform left)
      ((Action.call address retnSize).perform right) := by
  apply (push_alike agree retnSize).bind
  rintro _ left' right' ⟨agree', moved⟩
  have sameIp := congrFun agree'.registers IP
  change EndAlike _
    ((push (left'.registers IP) >>= fun _ => setRegister IP address.toUInt64) left')
    ((push (right'.registers IP) >>= fun _ => setRegister IP address.toUInt64) right')
  rw [sameIp]
  apply (push_alike agree' _).bind
  rintro _ left'' right'' ⟨agree'', _⟩
  rw [moved] at agree''
  exact .ok (agree''.setRegister _ _)

theorem popCase_alike (agree : AgreeOn bytes left right) (r : UInt8)
    (covered : wordBytes (left.registers SP).toNat ⊆ bytes) :
    EndAlike (fun _ left' right' => AgreeOn bytes left' right')
      ((Action.pop r).perform left) ((Action.pop r).perform right) := by
  apply (slot_alike left right r).bind
  rintro place _ _ ⟨rfl, rfl⟩
  apply (pop_alike agree covered).bind
  rintro value left' right' ⟨agree', _⟩
  exact .ok (agree'.setRegister _ _)

theorem syscallCase_alike (agree : AgreeOn bytes left right)
    (covered : wordsBytes (Action.syscall.reads left.registers) ⊆ bytes) :
    EndAlike (fun _ left' right' => AgreeOn bytes left' right')
      (syscallCase left) (syscallCase right) := by
  have sameRegisters := agree.registers
  by_cases stout : left.registers R0 = Stout
  · rw [Action.reads, if_pos stout] at covered
    have other : right.registers R0 = Stout := by rwa [← sameRegisters]
    rw [syscallCase_of_stout stout, syscallCase_of_stout other, ← sameRegisters]
    exact stoutLoop_alike agree covered
  · have other : right.registers R0 ≠ Stout := by rwa [← sameRegisters]
    rw [syscallCase_of_ne stout, syscallCase_of_ne other]
    exact .ok agree

/-- An action from states that agree on what it reads ends alike, in states that agree
on what it writes, too. -/
theorem perform_alike {action : Action} (agree : AgreeOn bytes left right)
    (covered : wordsBytes (action.reads left.registers) ⊆ bytes) :
    EndAlike (fun _ left' right' =>
        AgreeOn (bytes ∪ wordsBytes (action.writes left.registers)) left' right')
      (action.perform left) (action.perform right) := by
  cases action with
  | skip =>
      simp only [Action.writes, wordsBytes_nil, Set.union_empty]
      exact .ok agree
  | assign r value =>
      simp only [Action.writes, wordsBytes_nil, Set.union_empty]
      exact assign_alike agree r value
  | branch taken address =>
      simp only [Action.writes, wordsBytes_nil, Set.union_empty]
      cases taken with
      | true => exact .ok (agree.setRegister _ _)
      | false => exact .ok agree
  | store r address =>
      simp only [Action.writes, wordsBytes_cons, wordsBytes_nil, Set.union_empty]
      apply (register_alike agree r).bind
      rintro value _ _ ⟨rfl, rfl⟩
      exact storeWord_alike agree _ value
  | load r address =>
      simp only [Action.writes, wordsBytes_nil, Set.union_empty]
      simp only [Action.reads, wordsBytes_cons, wordsBytes_nil, Set.union_empty] at covered
      exact load_alike agree r covered
  | call address retnSize =>
      simp only [Action.writes, wordsBytes_cons, wordsBytes_nil, Set.union_empty,
        ← Set.union_assoc]
      exact call_alike agree address retnSize
  | ret =>
      simp only [Action.writes, wordsBytes_nil, Set.union_empty]
      exact retCase_alike agree covered
  | push v1 =>
      simp only [Action.writes, wordsBytes_cons, wordsBytes_nil, Set.union_empty]
      exact (push_alike agree v1).weaken fun _ _ _ post => post.1
  | pop r =>
      simp only [Action.writes, wordsBytes_nil, Set.union_empty]
      simp only [Action.reads, popAddresses, wordsBytes_cons, wordsBytes_nil,
        Set.union_empty] at covered
      exact popCase_alike agree r covered
  | syscall =>
      simp only [Action.writes, wordsBytes_nil, Set.union_empty]
      exact syscallCase_alike agree covered
  | message text =>
      simp only [Action.writes, wordsBytes_nil, Set.union_empty]
      exact .ok (agree.print text)

/-- A step from states that agree on the bytes it reads ends alike. -/
theorem step_alike (agree : AgreeOn bytes left right) (covered : left.stepReads ⊆ bytes) :
    EndAlike (fun _ left' right' => AgreeOn (bytes ∪ left.stepWrites) left' right')
      (step left) (step right) := by
  rcases extraction_run with ⟨value, run⟩
  have leftRun := run left
  have rightRun := run right
  rw [← agree.processor] at rightRun
  cases faults : left.firstFault left.layout with
  | some fault =>
      rw [faults] at leftRun rightRun
      rw [step_of_extraction_error leftRun, step_of_extraction_error rightRun]
      exact .error fault
  | none =>
      rw [faults] at leftRun rightRun
      rcases extracted : value left.toProcessor with ⟨opcode, action⟩
      rw [extracted] at leftRun rightRun
      rw [Machine.stepReads_eq leftRun] at covered
      rw [Machine.stepWrites_eq leftRun, step_eq, bind_of_ok leftRun, bind_of_ok rightRun]
      apply (perform_alike (agree.advance (width left.layout)) covered).bind
      intro _ left' right' agree'
      exact .ok agree'

end Step

/-! ## Runs -/

/-- What can be seen of a state: the registers and what was printed. -/
def SameView (left right : Machine) : Prop :=
  left.registers = right.registers ∧ left.output = right.output

/-- What can be seen of the end of a run. -/
inductive SameEnding : Ending → Ending → Prop
  | stopped {left right : Machine} (view : SameView left right) :
      SameEnding (.stopped left) (.stopped right)
  | faulted (fault : Fault) : SameEnding (.faulted fault) (.faulted fault)

/-- After `n` rounds the two runs have the same view, or both have ended alike. -/
def SameRun (bytecode : Bytecode) (stack stack' : Memory) (n : Nat) : Prop :=
  Sum.LiftRel SameView SameEnding (iterate execute n (Machine.construct bytecode stack))
    (iterate execute n (Machine.construct bytecode stack'))

/-- The bytes of the stack that the first `n` rounds write. -/
def writtenBefore (bytecode : Bytecode) (stack : Memory) (n : Nat) : Set Nat :=
  {i | ∃ k < n, ∃ m, iterate execute k (Machine.construct bytecode stack) = .inl m ∧
    i ∈ m.stepWrites}

/-- Every step of the run reads only bytes that earlier steps wrote. -/
def ReadsOwnWrites (bytecode : Bytecode) (stack : Memory) : Prop :=
  ∀ n m, iterate execute n (Machine.construct bytecode stack) = .inl m →
    m.stepReads ⊆ writtenBefore bytecode stack n

theorem AgreeOn.sameView {bytes : Set Nat} {left right : Machine}
    (agree : AgreeOn bytes left right) : SameView left right :=
  ⟨agree.registers, agree.output⟩

theorem execute_alike {bytes more : Set Nat} {left right : Machine}
    (agree : AgreeOn bytes left right) (covered : left.stepReads ⊆ bytes)
    (written : more ⊆ bytes ∪ left.stepWrites) :
    Sum.LiftRel (AgreeOn more) SameEnding (execute left) (execute right) := by
  have alike := step_alike agree covered
  rw [execute, execute]
  cases leftRun : step left with
  | error fault =>
      rw [leftRun] at alike
      cases rightRun : step right with
      | error other =>
          rw [rightRun] at alike
          cases alike
          exact .inr (.faulted fault)
      | ok result =>
          rw [rightRun] at alike
          cases alike
  | ok result =>
      rw [leftRun] at alike
      cases rightRun : step right with
      | error other =>
          rw [rightRun] at alike
          cases alike
      | ok result' =>
          rw [rightRun] at alike
          cases alike with
          | @ok opcode left' right' related =>
              by_cases goesOn : opcode ≠ 0
              · simp only [if_pos goesOn]
                exact .inl (related.mono written)
              · simp only [if_neg goesOn]
                exact .inr (.stopped related.sameView)

/-- A run that reads only what it has written goes as it does from any other stack. -/
theorem sameRun_of_readsOwnWrites {bytecode : Bytecode} {stack : Memory}
    (own : ReadsOwnWrites bytecode stack) (stack' : Memory) (n : Nat) :
    SameRun bytecode stack stack' n := by
  have start : AgreeOn (writtenBefore bytecode stack 0)
      (Machine.construct bytecode stack) (Machine.construct bytecode stack') := by
    refine ⟨rfl, rfl, ?_⟩
    rintro i ⟨k, lt, _⟩
    exact absurd lt (Nat.not_lt_zero k)
  have runs : Sum.LiftRel (AgreeOn (writtenBefore bytecode stack n)) SameEnding
      (iterate execute n (Machine.construct bytecode stack))
      (iterate execute n (Machine.construct bytecode stack')) := by
    refine iterate_related (fun n => AgreeOn (writtenBefore bytecode stack n)) SameEnding
      start ?_ n
    intro n left right reached agree
    apply execute_alike agree (own n left reached)
    rintro i ⟨k, lt, m, reachedBefore, member⟩
    rcases Nat.lt_succ_iff_lt_or_eq.mp lt with before | rfl
    · exact .inl ⟨k, before, m, reachedBefore, member⟩
    · obtain rfl : left = m := Sum.inl.inj (reached.symm.trans reachedBefore)
      exact .inr member
  exact runs.mono (fun _ _ agree => agree.sameView) (fun _ _ ending => ending)

/-- `PUSH 7`, `POP R0`, `STOP`. -/
def pushThenPop : Bytecode := ⟨[0x59, 7, 0, 0, 0, 0, 0, 0, 0, 0x5c, 0, 0], by decide⟩

/-- The run of `pushThenPop`: the action of each step and the `SP` it finds. -/
theorem pushThenPop_run (stack : Memory) :
    ∃ next0 m1 next1 m2 next2 ending,
      extraction (Machine.construct pushThenPop stack) = .ok ((22, .push 7), next0) ∧
      next0.registers SP = 0x1000000 ∧
      execute (Machine.construct pushThenPop stack) = .inl m1 ∧
      extraction m1 = .ok ((23, .pop 0), next1) ∧
      next1.registers SP = 0xfffff8 ∧
      execute m1 = .inl m2 ∧
      extraction m2 = .ok ((0, .skip), next2) ∧
      execute m2 = .inr ending := by
  let next0 := ((Machine.construct pushThenPop stack).advance 1).advance 8
  have sp0 : next0.registers SP = 0x1000000 := rfl
  have room : (next0.registers SP - 8).toNat + 8 ≤ stackSize := by
    rw [sp0]
    decide
  let m1 := next0.pushed 7 room
  let next1 := (m1.advance 1).advance 1
  have sp1 : next1.registers SP = 0xfffff8 := by
    change UInt64.ofNat stackSize - 8 = 0xfffff8
    decide
  have word : (next1.registers SP).toNat + 8 ≤ stackSize := by
    rw [sp1]
    decide
  let m2 := (next1.setRegister SP (next1.registers SP + 8)).setRegister R0
    (next1.stack.load ⟨_, word⟩)
  have push : extraction (Machine.construct pushThenPop stack) =
      .ok ((22, .push 7), next0) := rfl
  have pop : extraction m1 = .ok ((23, .pop 0), next1) := rfl
  have popped : (Action.pop 0).perform next1 = .ok ((), m2) := by
    rw [Action.perform, slot_of_lt (by decide), pure_bind, bind_of_ok (pop_of_inside word)]
    rfl
  have round0 : execute (Machine.construct pushThenPop stack) = .inl m1 := by
    rw [execute, step_of_perform_ok push (push_of_inside 7 room)]
    rfl
  have round1 : execute m1 = .inl m2 := by
    rw [execute, step_of_perform_ok pop popped]
    rfl
  exact ⟨next0, m1, next1, m2, _, _, push, sp0, round0, pop, sp1, round1, rfl, rfl⟩

theorem pushThenPop_readsOwnWrites (stack : Memory) : ReadsOwnWrites pushThenPop stack := by
  obtain ⟨next0, m1, next1, m2, next2, ending, push, sp0, round0, pop, sp1, round1, stop,
    round2⟩ := pushThenPop_run stack
  intro n m reached
  match n with
  | 0 =>
      obtain rfl := Sum.inl.inj reached
      rw [Machine.stepReads_eq push]
      simp only [Action.reads, wordsBytes_nil]
      exact Set.empty_subset _
  | 1 =>
      rw [iterate_succ_of_inl round0] at reached
      obtain rfl : m1 = m := Sum.inl.inj reached
      rintro i member
      refine ⟨0, Nat.zero_lt_one, _, rfl, ?_⟩
      rw [Machine.stepReads_eq pop, Action.reads, sp1] at member
      rw [Machine.stepWrites_eq push, Action.writes, sp0]
      exact member
  | 2 =>
      rw [iterate_succ_of_inl round0, iterate_succ_of_inl round1] at reached
      obtain rfl : m2 = m := Sum.inl.inj reached
      rw [Machine.stepReads_eq stop]
      simp only [Action.reads, wordsBytes_nil]
      exact Set.empty_subset _
  | n + 3 =>
      rw [iterate_succ_of_inl round0, iterate_succ_of_inl round1,
        iterate_succ_of_inr round2] at reached
      cases reached

theorem sameRun_pushThenPop :
    SameRun pushThenPop (fun _ => 0) (fun _ => 1) 2 :=
  sameRun_of_readsOwnWrites (pushThenPop_readsOwnWrites _) (fun _ => 1) 2

/-- `LOAD R0, [0]`, `STOP`. -/
def loadAtOnce : Bytecode := ⟨[0x4a, 0, 0, 0, 0, 0], by decide⟩

/-- Two nodes whose stacks held different bytes load different values. -/
theorem sameRun_fails : ¬ ∀ bytecode stack stack' n, SameRun bytecode stack stack' n := by
  intro same
  have oneRound := same loadAtOnce (fun _ => 0) (fun _ => 1) 1
  obtain ⟨left, leftRun, leftLoads⟩ : ∃ m,
      iterate execute 1 (Machine.construct loadAtOnce fun _ => 0) = .inl m ∧
        m.registers R0 = 0 :=
    ⟨_, rfl, rfl⟩
  obtain ⟨right, rightRun, rightLoads⟩ : ∃ m,
      iterate execute 1 (Machine.construct loadAtOnce fun _ => 1) = .inl m ∧
        m.registers R0 = 0x0101010101010101 :=
    ⟨_, rfl, rfl⟩
  rw [SameRun, leftRun, rightRun] at oneRound
  cases oneRound with
  | inl view =>
      rw [view.1, rightLoads] at leftLoads
      exact absurd leftLoads (by decide)

end IotChain.VM
