import IotChain.Bytes.LittleEndian
import Mathlib.Data.Fin.Basic

/-!
# The state of the virtual machine

`MCLVirtualMachine` has its bytecode, thirteen 64-bit registers and a stack of
16 MB.  The extraction of operands uses the first two only, so they form the
`Processor`.  The C++ code indexes all three without a check; here an index outside
ends the run with a `Fault` that names the array.
-/

namespace IotChain.VM

open IotChain.Bytes

/-- `sizeof(stack_)`. -/
abbrev stackSize : Nat := 0x1000000

/-- Where the code does something that C++ leaves undefined and the model cannot go
on. -/
inductive Fault
  | fetch
  | registerIndex
  | stack
  | divide
  deriving DecidableEq, Repr

/-- An access outside `registers_` or `stack_`. -/
def Fault.IsData (fault : Fault) : Prop :=
  fault = .registerIndex ∨ fault = .stack

instance (fault : Fault) : Decidable fault.IsData :=
  inferInstanceAs (Decidable (_ ∨ _))

/-- A `std::vector<uint8_t>`, whose size is a positive `ptrdiff_t` at most. -/
structure Bytecode where
  bytes : List UInt8
  size_lt : bytes.length < 2 ^ 63

/-- `bytecode_.size()`. -/
def Bytecode.size (bytecode : Bytecode) : Nat := bytecode.bytes.length

/-! ## Registers -/

/-- `registers_`. -/
abbrev Registers := Fin 13 → UInt64

/-- The register that selects a system call. -/
abbrev R0 : Fin 13 := 0

/-- The register with the argument of a system call. -/
abbrev R1 : Fin 13 := 1

/-- The instruction pointer. -/
abbrev IP : Fin 13 := 10

/-- The stack pointer. -/
abbrev SP : Fin 13 := 11

/-- An assignment to one register. -/
def Registers.set (registers : Registers) (r : Fin 13) (value : UInt64) : Registers :=
  fun i => if i = r then value else registers i

@[simp]
theorem Registers.set_same (registers : Registers) (r : Fin 13) (value : UInt64) :
    registers.set r value r = value :=
  if_pos rfl

theorem Registers.set_of_ne {r i : Fin 13} (ne : i ≠ r) (registers : Registers)
    (value : UInt64) : registers.set r value i = registers i :=
  if_neg ne

@[simp]
theorem Registers.set_set (registers : Registers) (r : Fin 13) (first second : UInt64) :
    (registers.set r first).set r second = registers.set r second := by
  funext i
  by_cases equal : i = r
  · simp [Registers.set, equal]
  · simp [Registers.set, equal]

/-- What the `Extract` functions use. -/
structure Processor where
  bytecode : Bytecode
  registers : Registers

namespace Processor

/-- The number of the next byte to fetch. -/
def ip (cpu : Processor) : Nat := (cpu.registers IP).toNat

/-- `registers_[IP] += count`. -/
def advance (cpu : Processor) (count : Nat) : Processor :=
  { cpu with
    registers := cpu.registers.set IP (cpu.registers IP + UInt64.ofNat count) }

@[simp]
theorem advance_bytecode (cpu : Processor) (count : Nat) :
    (cpu.advance count).bytecode = cpu.bytecode :=
  rfl

theorem advance_zero (cpu : Processor) : cpu.advance 0 = cpu := by
  have same : cpu.registers.set IP (cpu.registers IP + UInt64.ofNat 0) = cpu.registers := by
    funext i
    by_cases equal : i = IP
    · simp [equal]
    · rw [Registers.set_of_ne equal]
  rw [advance, same]

theorem advance_advance (cpu : Processor) (first second : Nat) :
    (cpu.advance first).advance second = cpu.advance (first + second) := by
  simp [advance, UInt64.add_assoc]

/-- While the fetched bytes are inside the bytecode, `IP` does not wrap. -/
theorem ip_advance {cpu : Processor} {count : Nat}
    (inside : cpu.ip + count ≤ cpu.bytecode.size) :
    (cpu.advance count).ip = cpu.ip + count := by
  have sizeLt := cpu.bytecode.size_lt
  simp only [ip, Bytecode.size] at inside
  simp only [ip, advance, Registers.set_same, UInt64.toNat_add, UInt64.toNat_ofNat']
  omega

end Processor

/-! ## The stack -/

/-- Eight bytes that lie wholly inside `stack_`. -/
structure Window where
  address : Nat
  inside : address + 8 ≤ stackSize

/-- `stack_`. -/
abbrev Memory := Fin stackSize → UInt8

namespace Memory

/-- `*reinterpret_cast<uint64_t*>(stack_ + address)`. -/
def load (stack : Memory) (window : Window) : UInt64 :=
  UInt64.ofNat (decodeLE (List.ofFn fun k : Fin 8 =>
    stack ⟨window.address + k, by have := window.inside; omega⟩))

/-- An assignment to `*reinterpret_cast<uint64_t*>(stack_ + address)`. -/
def store (stack : Memory) (window : Window) (value : UInt64) : Memory := fun i =>
  if window.address ≤ i ∧ i < window.address + 8 then
    (encodeLE 8 value.toNat).getD (i - window.address) 0
  else
    stack i

end Memory

/-- The members of `MCLVirtualMachine`, and the bytes printed so far. -/
structure Machine extends Processor where
  stack : Memory
  output : List UInt8

namespace Machine

/-- The state a constructor leaves: it clears the registers, sets `SP` behind the
stack and does not touch the stack. -/
def construct (bytecode : Bytecode) (stack : Memory) : Machine where
  bytecode := bytecode
  registers := Registers.set (fun _ => 0) SP (UInt64.ofNat stackSize)
  stack := stack
  output := []

/-- `registers_[IP] += count`. -/
def advance (m : Machine) (count : Nat) : Machine :=
  { m with toProcessor := m.toProcessor.advance count }

theorem advance_advance (m : Machine) (first second : Nat) :
    (m.advance first).advance second = m.advance (first + second) := by
  simp only [advance, Processor.advance_advance]

/-- An assignment to one register of the machine. -/
def setRegister (m : Machine) (r : Fin 13) (value : UInt64) : Machine :=
  { m with registers := m.registers.set r value }

@[simp]
theorem setRegister_same (m : Machine) (r : Fin 13) (value : UInt64) :
    (m.setRegister r value).registers r = value :=
  Registers.set_same m.registers r value

end Machine

/-! ## Computations of the machine -/

/-- Code that runs on the machine. -/
abbrev Execution := StateT Machine (Except Fault)

theorem bind_of_ok {α β : Type} {first : Execution α} {m next : Machine} {value : α}
    (run : first m = .ok (value, next)) (rest : α → Execution β) :
    (first >>= rest) m = rest value next := by
  change (first m >>= fun result => rest result.1 result.2) = _
  rw [run]
  rfl

theorem bind_of_error {α β : Type} {first : Execution α} {m : Machine} {fault : Fault}
    (run : first m = .error fault) (rest : α → Execution β) :
    (first >>= rest) m = .error fault := by
  change (first m >>= fun result => rest result.1 result.2) = _
  rw [run]
  rfl

/-- `bytecode_[registers_[IP]++]`. -/
def fetch : Execution UInt8 := fun m =>
  match m.bytecode.bytes[m.ip]? with
  | some byte => .ok (byte, m.advance 1)
  | none => .error .fetch

theorem fetch_of_some {m : Machine} {byte : UInt8}
    (found : m.bytecode.bytes[m.ip]? = some byte) : fetch m = .ok (byte, m.advance 1) := by
  rw [fetch, found]

theorem fetch_of_none {m : Machine} (none : m.bytecode.bytes[m.ip]? = none) :
    fetch m = .error .fetch := by
  rw [fetch, none]

/-- `registers_[r]`, as the place it denotes. -/
def slot (r : UInt8) : Execution (Fin 13) :=
  if bound : r.toNat < 13 then
    return ⟨r.toNat, bound⟩
  else
    throw .registerIndex

/-- `registers_[r]`, as a value. -/
def register (r : UInt8) : Execution UInt64 := do
  let r ← slot r
  return (← get).registers r

theorem slot_of_lt {r : UInt8} (bound : r.toNat < 13) :
    slot r = (pure ⟨r.toNat, bound⟩ : Execution (Fin 13)) :=
  dif_pos bound

theorem slot_of_not_lt {r : UInt8} (bound : ¬ r.toNat < 13) :
    slot r = (throw .registerIndex : Execution (Fin 13)) :=
  dif_neg bound

theorem register_of_lt {r : UInt8} (bound : r.toNat < 13) (m : Machine) :
    register r m = .ok (m.registers ⟨r.toNat, bound⟩, m) := by
  rw [register, slot_of_lt bound]
  rfl

theorem register_of_not_lt {r : UInt8} (bound : ¬ r.toNat < 13) (m : Machine) :
    register r m = .error .registerIndex := by
  rw [register, slot_of_not_lt bound]
  rfl

/-- `registers_[r] = value`, for a register inside. -/
def setRegister (r : Fin 13) (value : UInt64) : Execution Unit :=
  modify fun m => m.setRegister r value

/-- `stack_ + address`, as the place of a `uint64_t`. -/
def window (address : Nat) : Execution Window :=
  if inside : address + 8 ≤ stackSize then
    return ⟨address, inside⟩
  else
    throw .stack

/-- A read of `*(uint64_t*)(stack_ + address)`. -/
def loadWord (address : Nat) : Execution UInt64 := do
  let place ← window address
  return (← get).stack.load place

/-- An assignment to `*(uint64_t*)(stack_ + address)`. -/
def storeWord (address : Nat) (value : UInt64) : Execution Unit := do
  let place ← window address
  modify fun m => { m with stack := m.stack.store place value }

/-- `std::cout`, with the bytes of a string. -/
def print (bytes : List UInt8) : Execution Unit :=
  modify fun m => { m with output := m.output ++ bytes }

/-- `MCLVirtualMachine::Push`. -/
def push (v1 : UInt64) : Execution Unit := do
  let sp := (← get).registers SP - 8
  setRegister SP sp
  storeWord sp.toNat v1

/-- `MCLVirtualMachine::Pop`. -/
def pop : Execution UInt64 := do
  let sp := (← get).registers SP
  let value ← loadWord sp.toNat
  setRegister SP (sp + 8)
  return value

/-! ## Accesses to the stack -/

theorem window_of_inside {address : Nat} (inside : address + 8 ≤ stackSize) :
    window address = (pure ⟨address, inside⟩ : Execution Window) :=
  dif_pos inside

theorem window_of_outside {address : Nat} (outside : ¬ address + 8 ≤ stackSize) :
    window address = (throw .stack : Execution Window) :=
  dif_neg outside

theorem loadWord_of_inside {address : Nat} (inside : address + 8 ≤ stackSize)
    (m : Machine) : loadWord address m = .ok (m.stack.load ⟨address, inside⟩, m) := by
  rw [loadWord, window_of_inside inside]
  rfl

theorem loadWord_of_outside {address : Nat} (outside : ¬ address + 8 ≤ stackSize)
    (m : Machine) : loadWord address m = .error .stack := by
  rw [loadWord, window_of_outside outside]
  rfl

theorem storeWord_of_inside {address : Nat} (inside : address + 8 ≤ stackSize)
    (value : UInt64) (m : Machine) :
    storeWord address value m =
      .ok ((), { m with stack := m.stack.store ⟨address, inside⟩ value }) := by
  rw [storeWord, window_of_inside inside]
  rfl

theorem storeWord_of_outside {address : Nat} (outside : ¬ address + 8 ≤ stackSize)
    (value : UInt64) (m : Machine) : storeWord address value m = .error .stack := by
  rw [storeWord, window_of_outside outside]
  rfl

theorem pop_of_inside {m : Machine} (inside : (m.registers SP).toNat + 8 ≤ stackSize) :
    pop m = .ok (m.stack.load ⟨_, inside⟩, m.setRegister SP (m.registers SP + 8)) := by
  change (do let value ← loadWord (m.registers SP).toNat
             setRegister SP (m.registers SP + 8)
             return value : Execution UInt64) m = _
  rw [bind_of_ok (loadWord_of_inside inside m)]
  rfl

theorem pop_of_outside {m : Machine} (outside : ¬ (m.registers SP).toNat + 8 ≤ stackSize) :
    pop m = .error .stack := by
  change (do let value ← loadWord (m.registers SP).toNat
             setRegister SP (m.registers SP + 8)
             return value : Execution UInt64) m = _
  rw [bind_of_error (loadWord_of_outside outside m)]

/-- The state after `Push`, when the word is inside the stack. -/
def Machine.pushed (m : Machine) (v1 : UInt64)
    (inside : (m.registers SP - 8).toNat + 8 ≤ stackSize) : Machine :=
  { m.setRegister SP (m.registers SP - 8) with
    stack := m.stack.store ⟨(m.registers SP - 8).toNat, inside⟩ v1 }

@[simp]
theorem Machine.pushed_sp {m : Machine} {v1 : UInt64}
    {inside : (m.registers SP - 8).toNat + 8 ≤ stackSize} :
    (m.pushed v1 inside).registers SP = m.registers SP - 8 :=
  Registers.set_same m.registers SP _

theorem push_of_inside {m : Machine} (v1 : UInt64)
    (inside : (m.registers SP - 8).toNat + 8 ≤ stackSize) :
    push v1 m = .ok ((), m.pushed v1 inside) := by
  change storeWord (m.registers SP - 8).toNat v1 (m.setRegister SP (m.registers SP - 8)) = _
  rw [storeWord_of_inside inside]
  rfl

theorem push_of_outside {m : Machine} (v1 : UInt64)
    (outside : ¬ (m.registers SP - 8).toNat + 8 ≤ stackSize) :
    push v1 m = .error .stack := by
  change storeWord (m.registers SP - 8).toNat v1 (m.setRegister SP (m.registers SP - 8)) = _
  rw [storeWord_of_outside outside]

end IotChain.VM
