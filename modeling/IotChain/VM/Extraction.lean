import IotChain.VM.Execute

/-!
# What an instruction extracts

An instruction is laid out as its opcode byte and the forms of its operands.  The
layout decides how far a step fetches and which register numbers it uses on the
way; the values extracted depend on the bytecode and the registers only.
-/

namespace IotChain.VM

variable {α β : Type}

/-! ## Layouts -/

/-- The forms of an operand: a register that is read when its number has been
fetched, a byte that is kept, and a constant. -/
inductive Form
  | source
  | byte
  | constant
  deriving DecidableEq, Repr

/-- The number of bytes of an operand. -/
def Form.width : Form → Nat
  | source => 1
  | byte => 1
  | constant => 8

/-- The number of bytes of a layout. -/
def width : List Form → Nat
  | [] => 0
  | form :: forms => form.width + width forms

/-- Where in a layout the registers stand that are read at once. -/
def sourceOffsets : List Form → List Nat
  | [] => []
  | .source :: forms => 0 :: (sourceOffsets forms).map (1 + ·)
  | form :: forms => (sourceOffsets forms).map (form.width + ·)

@[simp]
theorem width_append (first second : List Form) :
    width (first ++ second) = width first + width second := by
  induction first with
  | nil => simp [width]
  | cons form first ih => simp [width, ih, Nat.add_assoc]

namespace Processor

/-- The layout's bytes are inside the bytecode. -/
def Fits (cpu : Processor) (forms : List Form) : Prop :=
  cpu.ip + width forms ≤ cpu.bytecode.size

/-- The byte at an offset from `IP` names one of the registers, if it is inside the
bytecode. -/
def NamesRegister (cpu : Processor) (offset : Nat) : Prop :=
  ∀ r ∈ cpu.bytecode.bytes[cpu.ip + offset]?, r.toNat < 13

instance (cpu : Processor) (offset : Nat) : Decidable (cpu.NamesRegister offset) :=
  inferInstanceAs (Decidable (∀ r ∈ cpu.bytecode.bytes[cpu.ip + offset]?, r.toNat < 13))

/-- Each register that the layout reads at once exists. -/
def SourcesExist (cpu : Processor) (forms : List Form) : Prop :=
  ∀ offset ∈ sourceOffsets forms, cpu.NamesRegister offset

/-- What goes wrong at an operand, if anything does. -/
def formFault (cpu : Processor) (form : Form) : Option Fault :=
  if cpu.ip + form.width ≤ cpu.bytecode.size then
    if form = .source ∧ ¬ cpu.NamesRegister 0 then some .registerIndex else none
  else
    some .fetch

theorem formFault_of_none {cpu : Processor} (form : Form)
    (none : cpu.bytecode.bytes[cpu.ip]? = none) : cpu.formFault form = some .fetch := by
  have outside : cpu.bytecode.size ≤ cpu.ip := List.getElem?_eq_none_iff.mp none
  have positive : 0 < form.width := by cases form <;> decide
  rw [formFault, if_neg (by omega)]

theorem formFault_of_some {cpu : Processor} {form : Form} {r : UInt8}
    (narrow : form.width = 1) (found : cpu.bytecode.bytes[cpu.ip]? = some r) :
    cpu.formFault form =
      if form = .source ∧ ¬ r.toNat < 13 then some .registerIndex else none := by
  obtain ⟨inside, _⟩ := List.getElem?_eq_some_iff.mp found
  have fits : cpu.ip + form.width ≤ cpu.bytecode.size := narrow ▸ inside
  have named : cpu.NamesRegister 0 ↔ r.toNat < 13 := by
    simp [NamesRegister, found]
  simp only [formFault, if_pos fits, named]

/-- What goes wrong first in a layout, if anything does. -/
def firstFault (cpu : Processor) : List Form → Option Fault
  | [] => none
  | form :: forms => (cpu.formFault form).or ((cpu.advance form.width).firstFault forms)

theorem firstFault_append (cpu : Processor) (first second : List Form) :
    cpu.firstFault (first ++ second) =
      (cpu.firstFault first).or ((cpu.advance (width first)).firstFault second) := by
  induction first generalizing cpu with
  | nil => simp [firstFault, width, advance_zero]
  | cons form first ih =>
      simp only [List.cons_append, firstFault, width, ih, advance_advance, Option.or_assoc]

/-! ## The first fault of a layout -/

theorem namesRegister_of_outside {cpu : Processor} {offset : Nat}
    (outside : cpu.bytecode.size ≤ cpu.ip + offset) : cpu.NamesRegister offset := by
  intro r found
  rw [List.getElem?_eq_none outside] at found
  exact absurd found (Option.not_mem_none r)

theorem namesRegister_advance {cpu : Processor} {count : Nat}
    (inside : cpu.ip + count ≤ cpu.bytecode.size) (offset : Nat) :
    (cpu.advance count).NamesRegister offset ↔ cpu.NamesRegister (count + offset) := by
  rw [NamesRegister, NamesRegister, ip_advance inside, Nat.add_assoc, advance_bytecode]

theorem sourcesExist_cons {cpu : Processor} {form : Form} {forms : List Form} :
    cpu.SourcesExist (form :: forms) ↔
      (form = .source → cpu.NamesRegister 0) ∧
        ∀ offset ∈ sourceOffsets forms, cpu.NamesRegister (form.width + offset) := by
  cases form <;> simp [SourcesExist, sourceOffsets, Form.width]

instance (cpu : Processor) (forms : List Form) : Decidable (cpu.SourcesExist forms) :=
  inferInstanceAs (Decidable (∀ offset ∈ sourceOffsets forms, cpu.NamesRegister offset))

instance (cpu : Processor) (forms : List Form) : Decidable (cpu.Fits forms) :=
  inferInstanceAs (Decidable (_ ≤ _))

/-- Nothing is looked at behind an operand that the bytecode's end cuts off. -/
theorem sourcesExist_of_cut {cpu : Processor} {form : Form}
    (cut : cpu.bytecode.size < cpu.ip + form.width) (forms : List Form) :
    cpu.SourcesExist (form :: forms) := by
  apply sourcesExist_cons.mpr
  constructor
  · rintro rfl
    have narrow : Form.source.width = 1 := rfl
    exact namesRegister_of_outside (by omega)
  · intro offset _
    exact namesRegister_of_outside (by omega)

/-- A register that does not exist goes wrong first, because the bytes behind the end
of the bytecode name none. -/
theorem firstFault_eq {cpu : Processor} {forms : List Form}
    (start : forms ≠ [] ∨ cpu.ip ≤ cpu.bytecode.size) :
    cpu.firstFault forms =
      if cpu.SourcesExist forms then if cpu.Fits forms then none else some .fetch
      else some .registerIndex := by
  induction forms generalizing cpu with
  | nil =>
      have inside : cpu.Fits [] := start.resolve_left (fun ne => ne rfl)
      have exist : cpu.SourcesExist [] := List.forall_mem_nil _
      rw [if_pos exist, if_pos inside, firstFault]
  | cons form forms ih =>
      rw [firstFault, formFault]
      by_cases inside : cpu.ip + form.width ≤ cpu.bytecode.size
      · have next : (cpu.advance form.width).ip ≤ (cpu.advance form.width).bytecode.size := by
          rw [ip_advance inside, advance_bytecode]
          exact inside
        have fits : (cpu.advance form.width).Fits forms ↔ cpu.Fits (form :: forms) := by
          rw [Fits, Fits, ip_advance inside, advance_bytecode, width, Nat.add_assoc]
        have exist : (cpu.advance form.width).SourcesExist forms ↔
            ∀ offset ∈ sourceOffsets forms, cpu.NamesRegister (form.width + offset) :=
          forall₂_congr fun offset _ => namesRegister_advance inside offset
        rw [if_pos inside, ih (.inr next)]
        simp only [fits, exist, sourcesExist_cons]
        by_cases named : form = .source → cpu.NamesRegister 0
        · have good : ¬ (form = .source ∧ ¬ cpu.NamesRegister 0) := by tauto
          simp only [if_neg good, and_iff_right named, Option.none_or]
        · have bad : form = .source ∧ ¬ cpu.NamesRegister 0 := by tauto
          simp only [if_pos bad, named, false_and, if_false, Option.some_or]
      · have cut : cpu.bytecode.size < cpu.ip + form.width := Nat.lt_of_not_le inside
        have tooLong : ¬ cpu.Fits (form :: forms) := by
          rw [Fits, width]
          omega
        rw [if_neg inside, if_pos (sourcesExist_of_cut cut forms), if_neg tooLong,
          Option.some_or]

end Processor

/-! ## Extracting computations -/

/-- The computation fetches operands of the given forms and does nothing else.  Its
value is a function of the processor. -/
def Extracts (forms : List Form) (action : Execution α) : Prop :=
  ∃ value : Processor → α, ∀ m : Machine,
    action m =
      match m.firstFault forms with
      | some fault => .error fault
      | none => .ok (value m.toProcessor, m.advance (width forms))

namespace Extracts

variable {forms more : List Form} {action : Execution α}

/-- A computation that only looks at the processor. -/
theorem ofProcessor (value : Processor → α) :
    Extracts [] (do return value (← get).toProcessor : Execution α) := by
  refine ⟨value, fun m => ?_⟩
  have unmoved : m.advance 0 = m := by
    rw [Machine.advance, Processor.advance_zero]
  simp only [Processor.firstFault, width, unmoved]
  rfl

theorem pure (value : α) : Extracts [] (Pure.pure value : Execution α) :=
  ofProcessor fun _ => value

theorem bind {next : α → Execution β} (first : Extracts forms action)
    (second : ∀ value, Extracts more (next value)) :
    Extracts (forms ++ more) (action >>= next) := by
  rcases first with ⟨value, firstRun⟩
  choose result secondRun using second
  refine ⟨fun cpu => result (value cpu) (cpu.advance (width forms)), fun m => ?_⟩
  change (action m >>= fun run => next run.1 run.2) = _
  rw [firstRun, Processor.firstFault_append, width_append]
  cases m.firstFault forms with
  | some fault => rfl
  | none =>
      change next (value m.toProcessor) (m.advance (width forms)) = _
      rw [secondRun]
      rw [Machine.advance_advance]
      rfl

theorem map (f : α → β) (first : Extracts forms action) :
    Extracts forms (do return f (← action)) := by
  have run : Extracts (forms ++ []) (action >>= fun value => Pure.pure (f value)) :=
    first.bind fun value => pure (f value)
  rwa [List.append_nil] at run

/-- An operand of one form. -/
theorem ofForm {form : Form} (value : Processor → α)
    (run : ∀ m : Machine, action m =
      match m.formFault form with
      | some fault => .error fault
      | none => .ok (value m.toProcessor, m.advance form.width)) :
    Extracts [form] action := by
  refine ⟨value, fun m => ?_⟩
  rw [run]
  simp only [Processor.firstFault, Option.or_none, width, Nat.add_zero]

theorem byte : Extracts [.byte] fetch := by
  refine ofForm (fun cpu => cpu.bytecode.bytes[cpu.ip]?.getD 0) fun m => ?_
  cases found : m.bytecode.bytes[m.ip]? with
  | none => rw [fetch_of_none found, Processor.formFault_of_none .byte found]
  | some r =>
      rw [fetch_of_some found, Processor.formFault_of_some rfl found]
      rfl

theorem source : Extracts [.source] (do register (← extractRegister)) := by
  let value : Processor → UInt64 := fun cpu =>
    let r := cpu.bytecode.bytes[cpu.ip]?.getD 0
    if bound : r.toNat < 13 then (cpu.advance 1).registers ⟨r.toNat, bound⟩ else 0
  refine ofForm value fun m => ?_
  change (fetch m >>= fun run => register run.1 run.2) = _
  cases found : m.bytecode.bytes[m.ip]? with
  | none =>
      rw [fetch_of_none found, Processor.formFault_of_none .source found]
      rfl
  | some r =>
      rw [fetch_of_some found, Processor.formFault_of_some rfl found]
      by_cases bound : r.toNat < 13
      · rw [if_neg (fun bad => bad.2 bound)]
        simp only [value, found, Option.getD_some, bound, dif_pos]
        exact register_of_lt bound (m.advance 1)
      · rw [if_pos ⟨rfl, bound⟩]
        exact register_of_not_lt bound (m.advance 1)

theorem constant : Extracts [.constant] extractConstant := by
  refine ofForm (fun cpu => UInt64.ofNat (Bytes.decodeLE
    ((cpu.bytecode.bytes.drop cpu.ip).take 8))) fun m => ?_
  by_cases fits : m.ip + 8 ≤ m.bytecode.size
  · simp only [extractConstant, Processor.formFault, Form.width, fits, if_true, reduceCtorEq,
      false_and, if_false]
  · simp only [extractConstant, Processor.formFault, Form.width, fits, if_false]

end Extracts

/-! ## Operands -/

/-- The form of a value operand. -/
def valueForm (constant : Bool) : Form :=
  if constant then .constant else .source

/-- The forms of an address operand. -/
def targetForms (immediate : Bool) : List Form :=
  if immediate then [.byte, .byte, .byte] else [.source]

theorem extracts_value (constant : Bool) :
    Extracts [valueForm constant] (extractValue constant) := by
  cases constant with
  | true => exact Extracts.constant
  | false => exact Extracts.source

theorem extracts_address : Extracts [.byte, .byte, .byte] extractAddress := by
  let address (a1 a2 a3 : UInt8) : UInt32 :=
    a1.toUInt32 ||| a2.toUInt32 <<< (8 : UInt32) ||| a3.toUInt32 <<< (16 : UInt32)
  have third (a1 a2 : UInt8) : Extracts [.byte] (do return address a1 a2 (← fetch)) :=
    Extracts.byte.map (address a1 a2)
  have second (a1 : UInt8) : Extracts [.byte, .byte]
      (do let a2 ← fetch; return address a1 a2 (← fetch)) :=
    Extracts.byte.bind fun a2 => third a1 a2
  exact Extracts.byte.bind fun a1 => second a1

theorem extracts_target (immediate : Bool) :
    Extracts (targetForms immediate) (extractTarget immediate) := by
  cases immediate with
  | true => exact extracts_address
  | false =>
      have run := Extracts.source.map UInt64.toUInt32
      rw [bind_assoc] at run
      exact run

theorem extracts_jump (op1 op2 : Bool) :
    Extracts (targetForms op1) (extractJump op1 op2) := by
  have run : Extracts (targetForms op1 ++ []) (extractJump op1 op2) := by
    refine (extracts_target op1).bind fun address => ?_
    cases op2 with
    | true => exact Extracts.pure address
    | false =>
        exact Extracts.ofProcessor fun cpu =>
          (address.toUInt64 + (cpu.registers IP - 1)).toUInt32
  rwa [List.append_nil] at run

end IotChain.VM
