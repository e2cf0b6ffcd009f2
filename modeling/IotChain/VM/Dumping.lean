import IotChain.Json.HexBuffer
import IotChain.VM.Machine

/-!
# Dumps of the stack

A node prints the stack of its machine when a contract has been executed.  The dump walks
downwards from a place in memory, sixteen bytes a line, and the bytes can be read off its
lines.  It starts one place behind the stack.
-/

namespace IotChain.VM

/-- `constexpr std::size_t maxline` -/
abbrev maxline : Nat := 16

/-- `std::isprint` -/
def isprint (byte : UInt8) : Bool := 32 ≤ byte ∧ byte ≤ 126

/-- The character that `renderString` has for a byte: a dot if it is not printable. -/
def rendered (byte : UInt8) : UInt8 := if isprint byte then byte else 46

/-- What the loop of `hex_dump` has streamed, the characters in `renderString`, and its
counter. -/
structure Dump where
  os : List UInt8
  renderString : List UInt8
  linecount : Nat
  deriving DecidableEq, Repr

section Functions

variable (showPrintableChars : Bool)

/-- The loop of `hex_dump`, with the bytes from `buf` downwards; nothing when it writes behind
`renderString`. -/
def hexDumpLoop : List UInt8 → Dump → Option Dump
  | [], dump => some dump
  | byte :: buf, dump =>
      let os := dump.os ++ (hexByte byte ++ [32])
      if maxline < dump.renderString.length then
        none
      else
        let line := dump.renderString ++ [rendered byte]
        if dump.linecount - 1 = 0 then
          if maxline < line.length then
            none
          else
            let shown := if showPrintableChars then [32, 124, 32] ++ line else []
            -- the current byte still counts
            hexDumpLoop buf ⟨os ++ shown ++ [10], [], min maxline (buf.length + 1)⟩
        else
          hexDumpLoop buf ⟨os, line, dump.linecount - 1⟩

/-- The newline that has not been emitted yet. -/
def endLine (dump : Dump) : Option (List UInt8) :=
  if dump.renderString = [] then
    some dump.os
  else if maxline < dump.renderString.length then
    none
  else
    let places := List.replicate (maxline - dump.renderString.length) [32, 32, 32]
    let shown :=
      if showPrintableChars then places.flatten ++ [32, 124, 32] ++ dump.renderString else []
    some (dump.os ++ shown ++ [10])

/-- `hex_dump` -/
def hexDump (buffer : List UInt8) : Option (List UInt8) :=
  (hexDumpLoop showPrintableChars buffer ⟨[], [], maxline⟩).bind (endLine showPrintableChars)

/-! ## Lines -/

/-- The hexadecimal part of a line, with a blank behind each byte. -/
def cells (bytes : List UInt8) : List UInt8 := bytes.flatMap fun byte => hexByte byte ++ [32]

/-- The line for at most sixteen bytes. -/
def dumpLine (bytes : List UInt8) : List UInt8 :=
  let places := List.replicate (maxline - bytes.length) [32, 32, 32]
  cells bytes ++
    (if showPrintableChars then places.flatten ++ [32, 124, 32] ++ bytes.map rendered else []) ++
      [10]

/-- The lines for all bytes. -/
def dumpLines : List UInt8 → List UInt8
  | [] => []
  | byte :: bytes =>
      dumpLine showPrintableChars ((byte :: bytes).take maxline) ++
        dumpLines ((byte :: bytes).drop maxline)
  termination_by bytes => bytes.length
  decreasing_by
    simp only [List.length_drop, List.length_cons, maxline]
    omega

end Functions

variable {showPrintableChars : Bool}

theorem cells_cons (byte : UInt8) (bytes : List UInt8) :
    cells (byte :: bytes) = hexByte byte ++ [32] ++ cells bytes :=
  List.flatMap_cons

/-- Bytes that do not use the counter up are added to the line. -/
theorem hexDumpLoop_within {bytes os line : List UInt8} {count : Nat}
    (few : bytes.length < count) (room : line.length + bytes.length ≤ maxline) :
    hexDumpLoop showPrintableChars bytes ⟨os, line, count⟩ =
      some ⟨os ++ cells bytes, line ++ bytes.map rendered, count - bytes.length⟩ := by
  induction bytes generalizing os line count with
  | nil => simp [hexDumpLoop, cells]
  | cons byte bytes ih =>
      rw [List.length_cons] at few room
      have inside : ¬ maxline < line.length := by omega
      have goesOn : ¬ count - 1 = 0 := by omega
      simp only [hexDumpLoop, if_neg inside, if_neg goesOn]
      rw [ih (by omega) (by rw [List.length_append, List.length_singleton]; omega)]
      have left : count - 1 - bytes.length = count - (bytes.length + 1) := by omega
      simp [cells_cons, left]

/-- Bytes that use the counter up end the line. -/
theorem hexDumpLoop_line {bytes rest os line : List UInt8} {count : Nat}
    (exact : bytes.length = count) (pos : 0 < count)
    (room : line.length + bytes.length ≤ maxline) :
    hexDumpLoop showPrintableChars (bytes ++ rest) ⟨os, line, count⟩ =
      hexDumpLoop showPrintableChars rest
        ⟨os ++ cells bytes ++
          (if showPrintableChars then [32, 124, 32] ++ (line ++ bytes.map rendered) else []) ++
            [10], [], min maxline (rest.length + 1)⟩ := by
  induction bytes generalizing os line count with
  | nil =>
      rw [← exact] at pos
      exact absurd pos (Nat.lt_irrefl 0)
  | cons byte bytes ih =>
      rw [List.length_cons] at exact room
      have inside : ¬ maxline < line.length := by omega
      by_cases last : bytes = []
      · subst last
        have ended : count - 1 = 0 := by
          rw [← exact]
          rfl
        have fits : ¬ maxline < (line ++ [rendered byte]).length := by
          rw [List.length_append, List.length_singleton]
          omega
        simp only [List.singleton_append, hexDumpLoop, if_neg inside, if_pos ended, if_neg fits]
        simp [cells]
      · have more := List.length_pos_iff.mpr last
        have goesOn : ¬ count - 1 = 0 := by omega
        rw [List.cons_append]
        simp only [hexDumpLoop, if_neg inside, if_neg goesOn]
        rw [ih (by omega) (by omega) (by rw [List.length_append, List.length_singleton]; omega)]
        simp [cells_cons]

theorem dumpLines_of_ne_nil {bytes : List UInt8} (nonempty : bytes ≠ []) :
    dumpLines showPrintableChars bytes =
      dumpLine showPrintableChars (bytes.take maxline) ++
        dumpLines showPrintableChars (bytes.drop maxline) := by
  cases bytes with
  | nil => exact absurd rfl nonempty
  | cons byte bytes => rw [dumpLines]

theorem start_of_min (n : Nat) :
    min maxline (n + 1) = maxline ∨ n < min maxline (n + 1) ∧ min maxline (n + 1) ≤ maxline := by
  rcases Nat.le_total maxline (n + 1) with many | few
  · exact .inl (Nat.min_eq_left many)
  · rw [Nat.min_eq_right few]
    exact .inr ⟨Nat.lt_succ_self n, few⟩

/-- From the start of a line on, all bytes are printed in lines. -/
theorem hexDumpLoop_lines {bytes os : List UInt8} {count : Nat}
    (start : count = maxline ∨ bytes.length < count ∧ count ≤ maxline) :
    (hexDumpLoop showPrintableChars bytes ⟨os, [], count⟩).bind (endLine showPrintableChars) =
      some (os ++ dumpLines showPrintableChars bytes) := by
  induction size : bytes.length using Nat.strong_induction_on generalizing bytes os count with
  | _ n ih =>
      by_cases nonempty : bytes = []
      · subst nonempty
        simp [hexDumpLoop, endLine, dumpLines]
      · by_cases few : bytes.length < maxline
        · -- the last line
          have within : bytes.length < count := by omega
          have whole : bytes.take maxline = bytes := List.take_of_length_le (Nat.le_of_lt few)
          have nothing : bytes.drop maxline = [] := List.drop_of_length_le (Nat.le_of_lt few)
          have fits : ¬ maxline < bytes.length := Nat.not_lt_of_lt few
          rw [hexDumpLoop_within within (by simpa using Nat.le_of_lt few), Option.bind_some,
            dumpLines_of_ne_nil nonempty, whole, nothing]
          simp only [endLine, List.nil_append, List.map_eq_nil_iff, if_neg nonempty,
            List.length_map, if_neg fits, dumpLine, dumpLines, List.append_assoc, List.append_nil]
        · have full : (bytes.take maxline).length = maxline :=
            List.length_take_of_le (Nat.le_of_not_lt few)
          have countEq : count = maxline := by omega
          have further : (bytes.drop maxline).length < n := by
            rw [List.length_drop, ← size]
            exact Nat.sub_lt (List.length_pos_iff.mpr nonempty) (by decide)
          conv_lhs => rw [countEq, ← List.take_append_drop maxline bytes]
          rw [hexDumpLoop_line full (by decide) (by simp), ih _ further (start_of_min _) rfl,
            dumpLines_of_ne_nil nonempty]
          simp [dumpLine, full]

/-! ## What can be read off a dump -/

/-- The bytes of the cells at the front, at most so many. -/
def readCells : Nat → List UInt8 → List UInt8
  | n + 1, high :: low :: _ :: text =>
      match hexValue high, hexValue low with
      | some h, some l => UInt8.ofNat (h * 16 + l) :: readCells n text
      | _, _ => []
  | _, _ => []

theorem readCells_hexByte (n : Nat) (byte : UInt8) (text : List UInt8) :
    readCells (n + 1) (hexByte byte ++ [32] ++ text) = byte :: readCells n text := by
  have byteLt := byte.toNat_lt
  have high := (hexDigit_spec (byte.toNat / 16) (by omega)).1
  have low := (hexDigit_spec (byte.toNat % 16) (by omega)).1
  have value : UInt8.ofNat (byte.toNat / 16 * 16 + byte.toNat % 16) = byte := by
    rw [Nat.div_add_mod', UInt8.ofNat_toNat]
  simp only [hexByte, List.cons_append, List.nil_append, readCells, high, low, value]

/-- Cells are read up to what is not a digit, or as many as are asked for. -/
theorem readCells_cells {n : Nat} {bytes text : List UInt8} (few : bytes.length ≤ n)
    (ends : bytes.length = n ∨ ∃ first rest, text = first :: rest ∧ hexValue first = none) :
    readCells n (cells bytes ++ text) = bytes := by
  induction bytes generalizing n with
  | nil =>
      rw [cells, List.flatMap_nil, List.nil_append]
      cases n with
      | zero => rfl
      | succ n =>
          rcases ends with none | ⟨first, rest, rfl, foreign⟩
          · cases none
          · match rest with
            | [] => rfl
            | [_] => rfl
            | _ :: _ :: _ => simp only [readCells, foreign]
  | cons byte bytes ih =>
      cases n with
      | zero => cases few
      | succ n =>
          rw [cells_cons, List.append_assoc, readCells_hexByte, ih]
          · exact Nat.le_of_succ_le_succ few
          · exact ends.imp Nat.succ.inj id

/-- Behind its cells a line goes on with a blank or ends. -/
theorem readCells_dumpLine {bytes text : List UInt8} (few : bytes.length ≤ maxline) :
    readCells maxline (dumpLine showPrintableChars bytes ++ text) = bytes := by
  rw [dumpLine, List.append_assoc, List.append_assoc]
  apply readCells_cells few
  right
  cases showPrintableChars with
  | false => exact ⟨10, text, rfl, rfl⟩
  | true =>
      rw [if_pos rfl, List.append_assoc, List.append_assoc]
      cases maxline - bytes.length with
      | zero => exact ⟨32, _, rfl, rfl⟩
      | succ places => exact ⟨32, _, rfl, rfl⟩

theorem dumpLines_ne_nil {bytes : List UInt8} (nonempty : bytes ≠ []) :
    dumpLines showPrintableChars bytes ≠ [] := by
  rw [dumpLines_of_ne_nil nonempty, dumpLine]
  simp

theorem dumpLines_injective : Function.Injective (dumpLines showPrintableChars) := by
  intro first second same
  induction size : first.length using Nat.strong_induction_on generalizing first second with
  | _ n ih =>
      by_cases none : first = []
      · subst none
        by_contra differs
        rw [dumpLines] at same
        exact dumpLines_ne_nil (Ne.symm differs) same.symm
      · by_cases none' : second = []
        · subst none'
          rw [dumpLines] at same
          exact absurd same (dumpLines_ne_nil none)
        · have pos := List.length_pos_iff.mpr none
          rw [dumpLines_of_ne_nil none, dumpLines_of_ne_nil none'] at same
          have read := congrArg (readCells maxline) same
          rw [readCells_dumpLine (List.length_take_le _ _),
            readCells_dumpLine (List.length_take_le _ _)] at read
          rw [read] at same
          have further : (first.drop maxline).length < n := by
            rw [List.length_drop, ← size]
            exact Nat.sub_lt pos (by decide)
          have behind := ih _ further (List.append_cancel_left same) rfl
          rw [← List.take_append_drop maxline first, read, behind, List.take_append_drop]

theorem hexDump_eq (showPrintableChars : Bool) (buffer : List UInt8) :
    hexDump showPrintableChars buffer = some (dumpLines showPrintableChars buffer) :=
  hexDumpLoop_lines (.inl rfl)

/-! ## The stack -/

/-- The byte so many places below the end of `stack_`; the first of them is behind it. -/
def byteBelow (behind : UInt8) (stack : Memory) (k : Nat) : UInt8 :=
  if inside : stackSize - k < stackSize then stack ⟨stackSize - k, inside⟩ else behind

/-- `PrintStack`, with the byte that lies behind the stack. -/
def printStack (behind : UInt8) (stack : Memory) : Option (List UInt8) := do
  let text ← hexDump true ((List.range 1024).map (byteBelow behind stack))
  return text ++ [10]

/-- `PrintStack` always prints, and what it prints shows the byte behind the stack and the last
1023 bytes of the stack, and nothing else. -/
theorem printStack_eq_iff (behind behind' : UInt8) (stack stack' : Memory) :
    (∃ text, printStack behind stack = some text) ∧
    (printStack behind stack = printStack behind' stack' ↔
      behind = behind' ∧ ∀ i : Fin stackSize, stackSize - 1023 ≤ i → stack i = stack' i) := by
  have printed (behind : UInt8) (stack : Memory) : printStack behind stack =
      some (dumpLines true ((List.range 1024).map (byteBelow behind stack)) ++ [10]) := by
    rw [printStack, hexDump_eq]
    rfl
  refine ⟨⟨_, printed behind stack⟩, ?_⟩
  rw [printed, printed, Option.some.injEq, List.append_left_inj, dumpLines_injective.eq_iff,
    List.map_inj_left]
  constructor
  · intro same
    constructor
    · exact same 0 (by simp)
    · intro i last
      have below := i.isLt
      have place : stackSize - (stackSize - i) = i := by omega
      have inside : stackSize - (stackSize - i) < stackSize := by rwa [place]
      have shown := same (stackSize - i) (List.mem_range.mpr (by omega))
      rw [byteBelow, byteBelow, dif_pos inside, dif_pos inside] at shown
      simpa only [place] using shown
  · rintro ⟨rfl, last⟩ k shown
    rw [byteBelow, byteBelow]
    split
    · rw [List.mem_range] at shown
      apply last
      dsimp only
      omega
    · rfl

end IotChain.VM
