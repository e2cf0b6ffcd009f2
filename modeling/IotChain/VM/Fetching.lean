import IotChain.VM.Sunum

/-!
# Bytes of the bytecode that do not matter

The interpreter looks at its bytecode only where it fetches.  A run goes the same way on
other bytecode that has the same bytes at the places from which the run fetches.  Both
copies of the interpreter have this property.
-/

namespace IotChain.VM

open IotChain.Bytes IotChain.Transition

/-! ## Other bytecode -/

/-- The machine with other bytecode. -/
def Machine.reload (m : Machine) (bytecode : Bytecode) : Machine :=
  { m with bytecode := bytecode }

/-- The same byte at a place, or the end in front of it. -/
def Bytecode.SameAt (bytecode other : Bytecode) (i : Nat) : Prop :=
  bytecode.bytes[i]? = other.bytes[i]?

/-- The second machine is the first one with other bytecode. -/
structure Reloaded (bytecode other : Bytecode) (left right : Machine) : Prop where
  kept : left.bytecode = bytecode
  same : right = left.reload other

variable {α β : Type} {bytecode other : Bytecode} {left right : Machine}

/-- The computation does not look at the bytecode. -/
def Indifferent (action : Execution α) : Prop :=
  ∀ (bytecode other : Bytecode) (left right : Machine), Reloaded bytecode other left right →
    EndAlike (fun _ => Reloaded bytecode other) (action left) (action right)

namespace Indifferent

theorem pure (value : α) : Indifferent (Pure.pure value : Execution α) :=
  fun _ _ _ _ related => .ok related

theorem throw (fault : Fault) : Indifferent (throw fault : Execution α) :=
  fun _ _ _ _ _ => .error fault

theorem bind {first : Execution α} {rest : α → Execution β} (here : Indifferent first)
    (after : ∀ value, Indifferent (rest value)) : Indifferent (first >>= rest) :=
  fun _ _ _ _ related => (here _ _ _ _ related).bind fun value _ _ => after value _ _ _ _

/-- A computation that looks at the other parts of the machine. -/
theorem get {rest : Machine → Execution α}
    (blind : ∀ m bytecode, rest (m.reload bytecode) = rest m)
    (after : ∀ m, Indifferent (rest m)) : Indifferent (get >>= rest) := by
  rintro bytecode other left right ⟨kept, rfl⟩
  change EndAlike _ (rest left left) (rest (left.reload other) (left.reload other))
  rw [blind]
  exact after left _ _ _ _ ⟨kept, rfl⟩

theorem modify {change : Machine → Machine}
    (keeps : ∀ m, (change m).bytecode = m.bytecode)
    (blind : ∀ m bytecode, change (m.reload bytecode) = (change m).reload bytecode) :
    Indifferent (modify change : Execution Unit) := by
  rintro bytecode other left right ⟨kept, rfl⟩
  exact .ok ⟨(keeps left).trans kept, blind left other⟩

end Indifferent

open Indifferent in
theorem indifferent_slot (r : UInt8) : Indifferent (slot r) := by
  by_cases bound : r.toNat < 13
  · rw [slot_of_lt bound]
    exact pure _
  · rw [slot_of_not_lt bound]
    exact throw _

theorem indifferent_register (r : UInt8) : Indifferent (register r) :=
  (indifferent_slot r).bind fun _ => .get (fun _ _ => rfl) fun _ => .pure _

theorem indifferent_setRegister (r : Fin 13) (value : UInt64) :
    Indifferent (setRegister r value) :=
  .modify (fun _ => rfl) fun _ _ => rfl

theorem indifferent_window (address : Nat) : Indifferent (window address) := by
  by_cases inside : address + 8 ≤ stackSize
  · rw [window_of_inside inside]
    exact .pure _
  · rw [window_of_outside inside]
    exact .throw _

theorem indifferent_loadWord (address : Nat) : Indifferent (loadWord address) :=
  (indifferent_window address).bind fun _ => .get (fun _ _ => rfl) fun _ => .pure _

theorem indifferent_storeWord (address : Nat) (value : UInt64) :
    Indifferent (storeWord address value) :=
  (indifferent_window address).bind fun _ => .modify (fun _ => rfl) fun _ _ => rfl

theorem indifferent_print (bytes : List UInt8) : Indifferent (print bytes) :=
  .modify (fun _ => rfl) fun _ _ => rfl

theorem indifferent_trapping (value : Option UInt64) : Indifferent (trapping value) := by
  cases value with
  | none => exact .throw _
  | some value => exact .pure _

theorem indifferent_push (v1 : UInt64) : Indifferent (push v1) :=
  .get (fun _ _ => rfl) fun _ =>
    (indifferent_setRegister SP _).bind fun _ => indifferent_storeWord _ v1

theorem indifferent_pop : Indifferent pop :=
  .get (fun _ _ => rfl) fun _ =>
    (indifferent_loadWord _).bind fun value =>
      (indifferent_setRegister SP _).bind fun _ => .pure value

theorem indifferent_retCase : Indifferent retCase :=
  indifferent_pop.bind fun _ => indifferent_pop.bind fun _ =>
    .get (fun _ _ => rfl) fun _ =>
      (indifferent_setRegister SP _).bind fun _ => indifferent_setRegister IP _

theorem indifferent_stoutLoop (size : UInt32) (i count : Nat) :
    Indifferent (stoutLoop size i count) := by
  induction count generalizing i with
  | zero => exact .pure ()
  | succ count ih =>
      rw [stoutLoop]
      exact indifferent_pop.bind fun val => .get (fun _ _ => rfl) fun m =>
        (indifferent_print _).bind fun _ => ih (i + 1)

theorem indifferent_stoutCase : Indifferent stoutCase :=
  .get (fun _ _ => rfl) fun _ => indifferent_stoutLoop _ 0 _

/-- A system call that is `Stout` on some values of `R0`. -/
theorem indifferent_stout (isStout : UInt64 → Prop) [DecidablePred isStout] :
    Indifferent (do if isStout ((← get).registers R0) then stoutCase) := by
  refine .get (fun _ _ => rfl) fun m => ?_
  by_cases stout : isStout (m.registers R0)
  · rw [if_pos stout]
    exact indifferent_stoutCase
  · rw [if_neg stout]
    exact .pure ()

theorem indifferent_syscallCase : Indifferent syscallCase :=
  indifferent_stout (· = Stout)

theorem Sunum.indifferent_syscallCase : Indifferent Sunum.syscallCase :=
  indifferent_stout (Sunum.syscallTable · = Sunum.Stout)

/-- Once the operands are known, the bytecode does not matter. -/
theorem indifferent_perform (action : Action) : Indifferent action.perform := by
  cases action with
  | skip => exact .pure ()
  | assign r value =>
      exact (indifferent_slot r).bind fun place =>
        (indifferent_trapping value).bind fun _ => indifferent_setRegister place _
  | branch taken address =>
      cases taken with
      | true => exact indifferent_setRegister IP _
      | false => exact .pure ()
  | store r address =>
      exact (indifferent_register r).bind fun value => indifferent_storeWord _ value
  | load r address =>
      exact (indifferent_slot r).bind fun place =>
        (indifferent_loadWord _).bind fun _ => indifferent_setRegister place _
  | call address retnSize =>
      exact (indifferent_push retnSize).bind fun _ => .get (fun _ _ => rfl) fun _ =>
        (indifferent_push _).bind fun _ => indifferent_setRegister IP _
  | ret => exact indifferent_retCase
  | push v1 => exact indifferent_push v1
  | pop r =>
      exact (indifferent_slot r).bind fun place =>
        indifferent_pop.bind fun _ => indifferent_setRegister place _
  | syscall => exact indifferent_syscallCase
  | message bytes => exact indifferent_print bytes

/-! ## Operands -/

/-- The same bytes at so many places from `IP` on. -/
def SameAhead (bytecode other : Bytecode) (m : Machine) (count : Nat) : Prop :=
  ∀ i ∈ Set.Ico m.ip (m.ip + count), bytecode.SameAt other i

/-- The computation looks at so many bytes from `IP` on, and leaves `IP` behind them. -/
def FetchesOnly (count : Nat) (action : Execution α) : Prop :=
  ∀ (bytecode other : Bytecode) (left right : Machine), Reloaded bytecode other left right →
    SameAhead bytecode other left count →
      EndAlike (fun _ left' right' => Reloaded bytecode other left' right' ∧
        left'.ip = left.ip + count) (action left) (action right)

namespace FetchesOnly

variable {count more : Nat} {first : Execution α}

theorem bind {rest : α → Execution β} (here : FetchesOnly count first)
    (after : ∀ value, FetchesOnly more (rest value)) :
    FetchesOnly (count + more) (first >>= rest) := by
  intro bytecode other left right related same
  have front : SameAhead bytecode other left count := fun i member =>
    same i ⟨member.1, Nat.lt_of_lt_of_le member.2 (by omega)⟩
  apply (here _ _ _ _ related front).bind
  rintro value left' right' ⟨related', moved⟩
  have back : SameAhead bytecode other left' more := fun i member => by
    rw [moved] at member
    exact same i ⟨Nat.le_trans (Nat.le_add_right _ _) member.1,
      Nat.add_assoc left.ip count more ▸ member.2⟩
  apply (after value _ _ _ _ related' back).weaken
  rintro _ left'' right'' ⟨related'', further⟩
  exact ⟨related'', by rw [further, moved, Nat.add_assoc]⟩

theorem pure (value : α) : FetchesOnly 0 (Pure.pure value : Execution α) :=
  fun _ _ _ _ related _ => .ok ⟨related, rfl⟩

theorem map (f : α → β) (here : FetchesOnly count first) :
    FetchesOnly count (do return f (← first)) :=
  here.bind fun value => pure (f value)

/-- What follows the operands does not look at the bytecode. -/
theorem followed {rest : α → Execution β} (here : FetchesOnly count first)
    (after : ∀ value, Indifferent (rest value)) (related : Reloaded bytecode other left right)
    (same : SameAhead bytecode other left count) :
    EndAlike (fun _ => Reloaded bytecode other) ((first >>= rest) left)
      ((first >>= rest) right) :=
  (here _ _ _ _ related same).bind fun value _ _ post => after value _ _ _ _ post.1

/-- The registers are looked at. -/
theorem registers {rest : Registers → Execution α} (after : ∀ registers, FetchesOnly count
    (rest registers)) : FetchesOnly count (do rest (← get).registers) := by
  rintro bytecode other left right ⟨kept, rfl⟩ same
  exact after left.registers _ _ _ _ ⟨kept, rfl⟩ same

theorem fetch : FetchesOnly 1 fetch := by
  rintro bytecode other left right ⟨kept, rfl⟩ same
  have here : bytecode.bytes[left.ip]? = other.bytes[left.ip]? :=
    same left.ip ⟨Nat.le_refl _, Nat.lt_succ_self _⟩
  cases found : left.bytecode.bytes[left.ip]? with
  | none =>
      have missing : (left.reload other).bytecode.bytes[(left.reload other).ip]? = none := by
        rw [kept] at found
        exact here.symm.trans found
      rw [fetch_of_none found, fetch_of_none missing]
      exact .error _
  | some byte =>
      have there : (left.reload other).bytecode.bytes[(left.reload other).ip]? = some byte := by
        rw [kept] at found
        exact here.symm.trans found
      obtain ⟨inside, _⟩ := List.getElem?_eq_some_iff.mp found
      rw [fetch_of_some found, fetch_of_some there]
      exact .ok ⟨⟨kept, rfl⟩, Processor.ip_advance inside⟩

theorem register (r : UInt8) : FetchesOnly 0 (VM.register r) := by
  rintro bytecode other left right ⟨kept, rfl⟩ _
  by_cases bound : r.toNat < 13
  · rw [register_of_lt bound, register_of_lt bound]
    exact .ok ⟨⟨kept, rfl⟩, rfl⟩
  · rw [register_of_not_lt bound, register_of_not_lt bound]
    exact .error _

end FetchesOnly

/-- Bytecode that is the same for some places ends in front of them together. -/
theorem SameAhead.inside_iff {m : Machine} {count : Nat} (pos : 0 < count)
    (same : SameAhead bytecode other m count) :
    m.ip + count ≤ bytecode.size ↔ m.ip + count ≤ other.size := by
  have last := same (m.ip + count - 1) ⟨by omega, by omega⟩
  have none_iff : bytecode.size ≤ m.ip + count - 1 ↔ other.size ≤ m.ip + count - 1 := by
    rw [Bytecode.SameAt] at last
    rw [Bytecode.size, Bytecode.size, ← List.getElem?_eq_none_iff, last,
      List.getElem?_eq_none_iff]
  omega

theorem SameAhead.slice_eq {m : Machine} {count : Nat}
    (same : SameAhead bytecode other m count) :
    (bytecode.bytes.drop m.ip).take count = (other.bytes.drop m.ip).take count := by
  apply List.ext_getElem?
  intro k
  by_cases inside : k < count
  · rw [List.getElem?_take_of_lt inside, List.getElem?_take_of_lt inside, List.getElem?_drop,
      List.getElem?_drop]
    exact same (m.ip + k) ⟨Nat.le_add_right _ _, Nat.add_lt_add_left inside _⟩
  · rw [List.getElem?_take_eq_none (Nat.le_of_not_lt inside),
      List.getElem?_take_eq_none (Nat.le_of_not_lt inside)]

theorem fetchesOnly_constant : FetchesOnly 8 extractConstant := by
  rintro bytecode other left right ⟨rfl, rfl⟩ same
  have sides := same.inside_iff (by decide)
  by_cases inside : left.ip + 8 ≤ left.bytecode.size
  · have there : (left.reload other).ip + 8 ≤ (left.reload other).bytecode.size :=
      sides.mp inside
    rw [extractConstant, extractConstant, if_pos inside, if_pos there, same.slice_eq]
    exact .ok ⟨⟨rfl, rfl⟩, Processor.ip_advance inside⟩
  · have there : ¬ (left.reload other).ip + 8 ≤ (left.reload other).bytecode.size :=
      fun fits => inside (sides.mpr fits)
    rw [extractConstant, extractConstant, if_neg inside, if_neg there]
    exact .error _

theorem fetchesOnly_source : FetchesOnly 1 (do register (← extractRegister)) :=
  FetchesOnly.fetch.bind FetchesOnly.register

theorem fetchesOnly_value (constant : Bool) :
    FetchesOnly (valueForm constant).width (extractValue constant) := by
  cases constant with
  | true => exact fetchesOnly_constant
  | false => exact fetchesOnly_source

theorem fetchesOnly_address : FetchesOnly 3 extractAddress :=
  FetchesOnly.fetch.bind fun _ => FetchesOnly.fetch.bind fun _ => FetchesOnly.fetch.map _

theorem fetchesOnly_target (immediate : Bool) :
    FetchesOnly (width (targetForms immediate)) (extractTarget immediate) := by
  cases immediate with
  | true => exact fetchesOnly_address
  | false =>
      have run := fetchesOnly_source.map UInt64.toUInt32
      rw [bind_assoc] at run
      exact run

theorem fetchesOnly_jump (op1 op2 : Bool) :
    FetchesOnly (width (targetForms op1)) (extractJump op1 op2) := by
  change FetchesOnly (width (targetForms op1) + 0) (extractJump op1 op2)
  refine (fetchesOnly_target op1).bind fun address => ?_
  cases op2 with
  | true => exact FetchesOnly.pure address
  | false =>
      exact FetchesOnly.registers fun registers =>
        FetchesOnly.pure (address.toUInt64 + (registers IP - 1)).toUInt32

theorem fetchesOnly_values (op1 op2 : Bool) {count : Nat}
    {next : UInt64 → UInt64 → Execution α} (rest : ∀ v1 v2, FetchesOnly count (next v1 v2)) :
    FetchesOnly ((valueForm op1).width + ((valueForm op2).width + count)) (do
      let v1 ← extractValue op1
      let v2 ← extractValue op2
      next v1 v2) :=
  (fetchesOnly_value op1).bind fun v1 => (fetchesOnly_value op2).bind fun v2 => rest v1 v2

/-- The operands of a class are fetched from the bytes of its layout. -/
theorem fetchesOnly_kind (kind : Kind) (op1 op2 : Bool) :
    FetchesOnly (width (kind.layout op1 op2)) (kind.extract op1 op2) := by
  cases kind with
  | halt => exact .pure _
  | binary compute =>
      exact fetchesOnly_values op1 op2 fun v1 v2 =>
        FetchesOnly.fetch.map fun r => Action.assign r (compute v1 v2)
  | unary compute =>
      exact (fetchesOnly_value op1).bind fun v1 =>
        FetchesOnly.fetch.map fun r => Action.assign r (some (compute v1))
  | branch test =>
      exact fetchesOnly_values op1 op2 fun v1 v2 =>
        fetchesOnly_address.map (Action.branch (test v1 v2))
  | store => exact FetchesOnly.fetch.bind fun r => (fetchesOnly_target op2).map (Action.store r)
  | load => exact FetchesOnly.fetch.bind fun r => (fetchesOnly_target op2).map (Action.load r)
  | jmp => exact (fetchesOnly_jump op1 op2).map (Action.branch true)
  | call =>
      simp only [Kind.layout, width_append]
      exact (fetchesOnly_jump op1 op2).bind fun address =>
        fetchesOnly_constant.map (Action.call address)
  | ret => exact .pure _
  | push => exact (fetchesOnly_value op1).map Action.push
  | pop => exact FetchesOnly.fetch.map Action.pop
  | mov =>
      exact FetchesOnly.fetch.bind fun r =>
        (fetchesOnly_value op2).map fun v2 => Action.assign r (some v2)
  | syscall => exact .pure _
  | illegal opcode => exact .pure _

/-! ## One step -/

/-- The two copies of the interpreter. -/
inductive Copy
  | iotchain
  | sunum
  deriving DecidableEq, Repr

namespace Copy

/-- The `switch` of a copy. -/
def switch : Copy → UInt8 → Bool → Bool → Execution Unit
  | iotchain => VM.switch
  | sunum => Sunum.switch

/-- One round of the loop of a copy, with the opcode byte it has fetched. -/
def step : Copy → Execution UInt8
  | iotchain => VM.step
  | sunum => Sunum.step

/-- The loop of a copy, one round at a time. -/
def execute : Copy → Body Machine Ending
  | iotchain => VM.execute
  | sunum => Sunum.execute

theorem step_eq (copy : Copy) :
    copy.step = (do
      let opc ← fetch
      copy.switch (opc >>> 2) (opc &&& 1 ≠ 0) (opc &&& 2 ≠ 0)
      return opc >>> 2) := by
  cases copy with
  | iotchain => simp only [step, switch, VM.step, extractOpcode, bind_assoc, pure_bind]
  | sunum => simp only [step, switch, Sunum.step, extractOpcode, bind_assoc, pure_bind]

theorem execute_eq (copy : Copy) (m : Machine) :
    copy.execute m =
      match copy.step m with
      | .ok (opcode, next) => if opcode ≠ 0 then .inl next else .inr (.stopped next)
      | .error fault => .inr (.faulted fault) := by
  cases copy <;> rfl

end Copy

theorem Sunum.switch_of_syscall {opcode : UInt8} (call : Opcode.ofByte opcode = some .SYSCALL)
    (op1 op2 : Bool) : Sunum.switch opcode op1 op2 = Sunum.syscallCase := by
  rw [Sunum.switch, call]

/-- The other cases are those of the original. -/
theorem Sunum.switch_of_ne {opcode : UInt8} (other : Opcode.ofByte opcode ≠ some .SYSCALL)
    (op1 op2 : Bool) : Sunum.switch opcode op1 op2 = VM.switch opcode op1 op2 := by
  rw [Sunum.switch]
  split
  · contradiction
  · rfl

namespace Copy

/-- The case of an opcode looks at the bytes of its operands. -/
theorem switch_alike (copy : Copy) (opcode : UInt8) (op1 op2 : Bool)
    (related : Reloaded bytecode other left right)
    (same : SameAhead bytecode other left (width ((kind opcode).layout op1 op2))) :
    EndAlike (fun _ => Reloaded bytecode other) (copy.switch opcode op1 op2 left)
      (copy.switch opcode op1 op2 right) := by
  have original : EndAlike (fun _ => Reloaded bytecode other) (VM.switch opcode op1 op2 left)
      (VM.switch opcode op1 op2 right) := by
    rw [VM.switch_eq]
    exact (fetchesOnly_kind (kind opcode) op1 op2).followed indifferent_perform related same
  cases copy with
  | iotchain => exact original
  | sunum =>
      rw [switch]
      by_cases call : Opcode.ofByte opcode = some .SYSCALL
      · rw [Sunum.switch_of_syscall call]
        exact Sunum.indifferent_syscallCase _ _ _ _ related
      · rw [Sunum.switch_of_ne call]
        exact original

end Copy

/-- The places from which the step fetches. -/
def Machine.stepFetches (m : Machine) : Set Nat := Set.Ico m.ip (m.ip + width m.layout)

/-- A step looks at the bytes of the instruction at `IP` only. -/
theorem Copy.step_alike (copy : Copy) (related : Reloaded bytecode other left right)
    (same : ∀ i ∈ left.stepFetches, bytecode.SameAt other i) :
    EndAlike (fun _ => Reloaded bytecode other) (copy.step left) (copy.step right) := by
  have ahead : SameAhead bytecode other left (width left.layout) := same
  have here : SameAhead bytecode other left 1 := by
    intro i member
    refine ahead i ⟨member.1, Nat.lt_of_lt_of_le member.2 (Nat.add_le_add_left ?_ _)⟩
    rw [Processor.layout]
    split <;> exact Nat.le_add_right 1 _
  have fetched := FetchesOnly.fetch _ _ _ _ related here
  rw [copy.step_eq]
  cases found : left.bytecode.bytes[left.ip]? with
  | none =>
      rw [fetch_of_none found] at fetched
      rw [bind_of_error (fetch_of_none found)]
      cases rightRun : fetch right with
      | error fault =>
          rw [rightRun] at fetched
          rw [bind_of_error rightRun]
          cases fetched
          exact .error _
      | ok result =>
          rw [rightRun] at fetched
          cases fetched
  | some opc =>
      have layoutEq : width left.layout =
          1 + width ((kind (opc >>> 2)).layout (opc &&& 1 ≠ 0) (opc &&& 2 ≠ 0)) := by
        rw [Processor.layout, found]
        rfl
      rw [fetch_of_some found] at fetched
      rw [bind_of_ok (fetch_of_some found)]
      cases rightRun : fetch right with
      | error fault =>
          rw [rightRun] at fetched
          cases fetched
      | ok result =>
          rw [rightRun] at fetched
          cases fetched with
          | @ok _ _ right' fetched =>
              rcases fetched with ⟨related', moved⟩
              rw [bind_of_ok rightRun]
              refine (copy.switch_alike _ _ _ related' ?_).bind fun _ _ _ post => .ok post
              intro i member
              rw [moved] at member
              apply ahead
              rw [layoutEq]
              exact ⟨Nat.le_trans (Nat.le_add_right _ _) member.1,
                Nat.add_assoc left.ip 1 _ ▸ member.2⟩

/-! ## Runs -/

/-- The end of a run, with other bytecode in the machine that has stopped. -/
def Ending.reload (bytecode : Bytecode) : Ending → Ending
  | .stopped m => .stopped (m.reload bytecode)
  | .faulted fault => .faulted fault

/-- The places from which a run fetches. -/
def Copy.fetched (copy : Copy) (bytecode : Bytecode) (stack : Memory) : Set Nat :=
  {i | ∃ m, Reaches copy.execute (Machine.construct bytecode stack) m ∧ i ∈ m.stepFetches}

/-- The two ends are the same, except for the bytecode. -/
inductive Ending.Reloaded (bytecode other : Bytecode) : Ending → Ending → Prop
  | stopped {left right : Machine} (related : VM.Reloaded bytecode other left right) :
      Ending.Reloaded bytecode other (.stopped left) (.stopped right)
  | faulted (fault : Fault) : Ending.Reloaded bytecode other (.faulted fault) (.faulted fault)

theorem Copy.execute_alike (copy : Copy) (related : Reloaded bytecode other left right)
    (same : ∀ i ∈ left.stepFetches, bytecode.SameAt other i) :
    Sum.LiftRel (Reloaded bytecode other) (Ending.Reloaded bytecode other)
      (copy.execute left) (copy.execute right) := by
  have alike := copy.step_alike related same
  rw [copy.execute_eq, copy.execute_eq]
  generalize copy.step left = leftRun, copy.step right = rightRun at alike
  cases alike with
  | error fault => exact .inr (.faulted fault)
  | @ok opcode left' right' post =>
      by_cases goesOn : opcode ≠ 0
      · simp only [if_pos goesOn]
        exact .inl post
      · simp only [if_neg goesOn]
        exact .inr (.stopped post)

theorem Copy.iterate_alike (copy : Copy) {stack : Memory}
    (same : ∀ i ∈ copy.fetched bytecode stack, bytecode.SameAt other i) (n : Nat) :
    Sum.LiftRel (Reloaded bytecode other) (Ending.Reloaded bytecode other)
      (iterate copy.execute n (Machine.construct bytecode stack))
      (iterate copy.execute n (Machine.construct other stack)) := by
  have start : Reloaded bytecode other (Machine.construct bytecode stack)
      (Machine.construct other stack) := ⟨rfl, rfl⟩
  refine iterate_related (fun _ => Reloaded bytecode other) _ start ?_ n
  intro n left right reached related
  exact copy.execute_alike related fun i member => same i ⟨left, ⟨n, reached⟩, member⟩

/-- Two runs that go the same way are the same, except for the bytecode. -/
theorem eq_map_reload {leftRun rightRun : Machine ⊕ Ending}
    (alike : Sum.LiftRel (Reloaded bytecode other) (Ending.Reloaded bytecode other)
      leftRun rightRun) :
    rightRun = Sum.map (Machine.reload · other) (Ending.reload other) leftRun := by
  cases alike with
  | inl related => exact congrArg Sum.inl related.same
  | inr ended =>
      cases ended with
      | stopped related => exact congrArg (fun m => Sum.inr (Ending.stopped m)) related.same
      | faulted fault => rfl

/-- A run goes through the same states and ends in the same way on all bytecode that is the
same where the run fetches. -/
theorem Copy.iterate_reload (copy : Copy) {bytecode other : Bytecode} {stack : Memory}
    (same : ∀ i ∈ copy.fetched bytecode stack, bytecode.SameAt other i) (n : Nat) :
    iterate copy.execute n (Machine.construct other stack) =
      Sum.map (Machine.reload · other) (Ending.reload other)
        (iterate copy.execute n (Machine.construct bytecode stack)) :=
  eq_map_reload (copy.iterate_alike same n)

/-- A machine that stops at once does not see what comes after the `STOP`. -/
theorem Copy.iterate_reload_stop :
    iterate Copy.iotchain.execute 2 (Machine.construct ⟨[0, 9], by decide⟩ fun _ => 7) =
      Sum.map (Machine.reload · ⟨[0, 9], by decide⟩) (Ending.reload ⟨[0, 9], by decide⟩)
        (iterate Copy.iotchain.execute 2 (Machine.construct ⟨[0], by decide⟩ fun _ => 7)) := by
  apply Copy.iterate_reload
  rintro i ⟨m, ⟨rounds, reached⟩, member⟩
  cases rounds with
  | zero =>
      cases reached
      have first : i < 1 := member.2
      obtain rfl : i = 0 := Nat.lt_one_iff.mp first
      rfl
  | succ rounds =>
      have halts : ∃ ending, Copy.iotchain.execute
          (Machine.construct ⟨[0], by decide⟩ fun _ => 7) = .inr ending := ⟨_, rfl⟩
      obtain ⟨ending, halts⟩ := halts
      rw [iterate_succ_of_inr halts] at reached
      cases reached

end IotChain.VM
