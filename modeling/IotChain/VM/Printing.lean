import IotChain.VM.Execute
import IotChain.VM.Memory

/-!
# The `Stout` system call

`Stout` pops the words of a string and prints their bytes.  Of the last word it prints as
many bytes as the length leaves over, which are none when the length is a multiple of eight.
-/

namespace IotChain.VM

open IotChain.Bytes

/-- The number of words that hold some bytes. -/
def wordCount (length : Nat) : Nat := (length + 7) / 8

/-- The string of the length in `R1` lies inside the stack. -/
def Machine.HoldsString (m : Machine) : Prop :=
  (m.registers SP).toNat + 8 * wordCount (m.registers R1).toNat ≤ stackSize

instance (m : Machine) : Decidable m.HoldsString :=
  inferInstanceAs (Decidable (_ ≤ stackSize))

/-- The string is printed as it stands in the stack, and its words are popped. -/
def Machine.PrintsString (m : Machine) : Prop :=
  ∃ next, syscallCase m = .ok ((), next) ∧
    next.output = m.output ++
      m.stack.bytesAt (m.registers SP).toNat (m.registers R1).toNat ∧
    next.registers SP = m.registers SP + UInt64.ofNat (8 * wordCount (m.registers R1).toNat)

/-! ## Sizes -/

/-- The number of words does not wrap for a string that fits in the stack. -/
theorem stoutSize_toNat {length : UInt64} (fits : length.toNat ≤ stackSize) :
    (stoutSize length).toNat = wordCount length.toNat := by
  by_cases zero : length = 0
  · rw [zero]
    decide
  · have one : (1 : UInt64) ≤ length := by
      rw [UInt64.le_iff_toNat_le]
      exact Nat.pos_of_ne_zero fun none => zero (UInt64.toNat_inj.mp none)
    have before : (length - 1).toNat = length.toNat - 1 := UInt64.toNat_sub_of_le _ _ one
    have positive : 1 ≤ length.toNat := UInt64.le_iff_toNat_le.mp one
    rw [stoutSize, UInt64.toNat_toUInt32, UInt64.toNat_add, UInt64.toNat_div, before, wordCount]
    change ((length.toNat - 1) / 8 + 1) % 2 ^ 64 % 2 ^ 32 = _
    have fits : length.toNat ≤ 0x1000000 := fits
    omega

/-! ## The loop -/

/-- The bytes that the loop prints of its last words. -/
def printedBytes (length : UInt64) (count : Nat) : Nat :=
  if count = 0 then 0 else 8 * (count - 1) + (length % 8).toNat

/-- The first word is printed whole, unless it is the last one as well. -/
theorem bytesAt_printedBytes (stack : Memory) (window : Window) (length : UInt64) (count : Nat) :
    (encodeLE 8 (stack.load window).toNat).take (if count = 0 then (length % 8).toNat else 8) ++
        stack.bytesAt (window.address + 8) (printedBytes length count) =
      stack.bytesAt window.address (printedBytes length (count + 1)) := by
  rw [Memory.encodeLE_load]
  cases count with
  | zero =>
      have le : (length % 8).toNat ≤ 8 := by
        rw [UInt64.toNat_mod]
        exact Nat.le_of_lt (Nat.mod_lt _ (by decide))
      have only : printedBytes length 1 = (length % 8).toNat := Nat.zero_add _
      rw [if_pos rfl, Memory.take_bytesAt _ _ le, only]
      exact List.append_nil _
  | succ count =>
      have split : printedBytes length (count + 2) = 8 + printedBytes length (count + 1) := by
        simp only [printedBytes, Nat.succ_ne_zero, if_false]
        omega
      rw [if_neg (Nat.succ_ne_zero count), Memory.take_bytesAt _ _ (Nat.le_refl 8), split,
        Memory.bytesAt_add]

/-- The last word is the one before the size. -/
theorem eq_size_sub_one_iff {size : UInt32} {i count : Nat} (last : i + (count + 1) = size.toNat) :
    i = (size - 1).toNat ↔ count = 0 := by
  have one : (1 : UInt32) ≤ size := by
    rw [UInt32.le_iff_toNat_le, ← last]
    exact Nat.le_add_left 1 (i + count)
  rw [UInt32.toNat_sub_of_le _ _ one]
  change i = size.toNat - 1 ↔ _
  omega

theorem stoutLoop_run {size : UInt32} {i count : Nat} {m : Machine}
    (last : i + count = size.toNat)
    (inside : (m.registers SP).toNat + 8 * count ≤ stackSize) :
    ∃ next, stoutLoop size i count m = .ok ((), next) ∧
      next.output = m.output ++ m.stack.bytesAt (m.registers SP).toNat
        (printedBytes (m.registers R1) count) ∧
      next.registers SP = m.registers SP + UInt64.ofNat (8 * count) := by
  induction count generalizing i m with
  | zero =>
      refine ⟨m, rfl, (List.append_nil _).symm, ?_⟩
      exact (UInt64.add_zero _).symm
  | succ count ih =>
      have first : (m.registers SP).toNat + 8 ≤ stackSize := by omega
      let word := m.stack.load ⟨_, first⟩
      let chars := if i = (size - 1).toNat then (m.registers R1 % 8).toNat else 8
      let printed : Machine :=
        { m.setRegister SP (m.registers SP + 8) with
          output := m.output ++ (encodeLE 8 word.toNat).take chars }
      have sp : printed.registers SP = m.registers SP + 8 := Machine.setRegister_same m SP _
      have spNat : (printed.registers SP).toNat = (m.registers SP).toNat + 8 := by
        rw [sp, add_eight_toNat first]
      rcases ih (i := i + 1) (m := printed) (by omega) (by omega) with
        ⟨next, run, output, moved⟩
      refine ⟨next, ?_, ?_, ?_⟩
      · rw [stoutLoop, bind_of_ok (pop_of_inside first)]
        exact run
      · have whole := bytesAt_printedBytes m.stack ⟨_, first⟩ (m.registers R1) count
        simp only [← eq_size_sub_one_iff last] at whole
        rw [output, spNat, ← whole, ← List.append_assoc]
        rfl
      · rw [moved, sp, UInt64.add_assoc, Nat.mul_succ, Nat.add_comm, UInt64.ofNat_add]
        rfl

/-! ## The system call -/

/-- The whole string is printed exactly if its last word is not printed empty. -/
theorem printedBytes_wordCount_iff (length : UInt64) :
    printedBytes length (wordCount length.toNat) = length.toNat ↔
      length = 0 ∨ length % 8 ≠ 0 := by
  have remainder : (length % 8).toNat = length.toNat % 8 := UInt64.toNat_mod length 8
  have zero : length = 0 ↔ length.toNat = 0 := UInt64.toNat_inj.symm
  have whole : length % 8 = 0 ↔ length.toNat % 8 = 0 := by
    rw [← remainder]
    exact UInt64.toNat_inj.symm
  rw [zero, ne_eq, whole, printedBytes, remainder, wordCount]
  split <;> omega

/-- What `Stout` does with a string of the stack. -/
theorem stout_run {m : Machine} (stout : m.registers R0 = Stout) (holds : m.HoldsString) :
    ∃ next, syscallCase m = .ok ((), next) ∧
      next.output = m.output ++ m.stack.bytesAt (m.registers SP).toNat
        (printedBytes (m.registers R1) (wordCount (m.registers R1).toNat)) ∧
      next.registers SP =
        m.registers SP + UInt64.ofNat (8 * wordCount (m.registers R1).toNat) := by
  have fits : (m.registers R1).toNat ≤ stackSize := by
    rw [Machine.HoldsString, wordCount] at holds
    omega
  have size := stoutSize_toNat fits
  have run := stoutLoop_run (Nat.zero_add (stoutSize (m.registers R1)).toNat) (by rwa [size])
  rw [size] at run
  rwa [syscallCase_of_stout stout, size]

theorem printsString_iff {m : Machine} (stout : m.registers R0 = Stout)
    (holds : m.HoldsString) :
    m.PrintsString ↔
      printedBytes (m.registers R1) (wordCount (m.registers R1).toNat) =
        (m.registers R1).toNat := by
  rcases stout_run stout holds with ⟨next, run, output, moved⟩
  constructor
  · rintro ⟨last, same, printed, _⟩
    cases run.symm.trans same
    have bytes := List.append_cancel_left (output.symm.trans printed)
    have lengths := congrArg List.length bytes
    rwa [Memory.length_bytesAt, Memory.length_bytesAt] at lengths
  · intro whole
    rw [whole] at output
    exact ⟨next, run, output, moved⟩

/-- `Stout` prints a string of the stack exactly if its length is zero or not a multiple of
eight. -/
theorem stout_prints_iff (m : Machine) (stout : m.registers R0 = Stout)
    (holds : m.HoldsString) :
    m.PrintsString ↔ m.registers R1 = 0 ∨ m.registers R1 % 8 ≠ 0 := by
  rw [printsString_iff stout holds, printedBytes_wordCount_iff]

/-- A machine that is about to print a string at the start of its stack. -/
def aboutToPrint (length : UInt64) : Machine where
  bytecode := ⟨[], by decide⟩
  registers := Registers.set (Registers.set (fun _ => 0) R0 Stout) R1 length
  stack _ := 65
  output := []

theorem stout_prints_iff_three :
    (aboutToPrint 3).PrintsString ↔
      (aboutToPrint 3).registers R1 = 0 ∨ (aboutToPrint 3).registers R1 % 8 ≠ 0 :=
  stout_prints_iff _ rfl (by decide)

/-- Nothing is printed of a string of eight bytes. -/
theorem stout_prints_fails :
    ¬ ∀ m : Machine, m.registers R0 = Stout → m.HoldsString → m.PrintsString := by
  intro prints
  have printed := prints (aboutToPrint 8) rfl (by decide)
  rw [printsString_iff rfl (by decide)] at printed
  exact absurd printed (by decide)

end IotChain.VM
