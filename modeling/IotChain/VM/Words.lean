import IotChain.VM.Frame
import IotChain.VM.Memory
import Mathlib.Algebra.BigOperators.Ring.List

/-!
# The stack as a list of words

`PUSH`, `POP`, `STORE` and `LOAD` work on bytes.  Seen through the words from `SP` upward,
a run of them is a run of a stack of words, as long as `STORE` keeps below `SP`.
-/

namespace IotChain.VM

open IotChain.Transition

/-! ## Stacks of anything -/

section Lifo

variable {α : Type} [DecidableEq α]

/-- What can be observed of a stack. -/
inductive StackEvent (α : Type)
  | pushed (value : α)
  | popped (value : α)
  | peeked (value : α)
  | other

/-- A stack only pops and shows what is on top. -/
def lifo : Reaction (List α) (StackEvent α)
  | values, .pushed value => some (value :: values)
  | values, .popped value => if values.head? = some value then some values.tail else none
  | values, .peeked value => if values.head? = some value then some values else none
  | values, .other => some values

end Lifo

/-! ## The words from an address upward -/

namespace Memory

/-- The words from an address upward, as long as they lie inside the stack. -/
def words (stack : Memory) (address : Nat) : List UInt64 :=
  if inside : address + 8 ≤ stackSize then
    stack.load ⟨address, inside⟩ :: stack.words (address + 8)
  else
    []
  termination_by stackSize - address

theorem words_of_inside {stack : Memory} {address : Nat} (inside : address + 8 ≤ stackSize) :
    stack.words address = stack.load ⟨address, inside⟩ :: stack.words (address + 8) := by
  rw [words, dif_pos inside]

/-- A word below the address does not change those from there upward. -/
theorem words_store {stack : Memory} {window : Window} (value : UInt64) {address : Nat}
    (below : window.address + 8 ≤ address) :
    (stack.store window value).words address = stack.words address := by
  induction address using words.induct with
  | case1 address inside ih =>
      rw [words_of_inside inside, words_of_inside inside,
        load_store_of_apart value (.inr below), ih (Nat.le_add_right_of_le below)]
  | case2 address outside =>
      rw [words, dif_neg outside, words, dif_neg outside]

end Memory

/-- The words from `SP` upward. -/
def Machine.words (m : Machine) : List UInt64 := m.stack.words (m.registers SP).toNat

/-! ## The four instructions -/

/-- The register that a byte names, and zero if it names none. -/
def Machine.named (m : Machine) (r : UInt8) : UInt64 :=
  if bound : r.toNat < 13 then m.registers ⟨r.toNat, bound⟩ else 0

/-- The byte names neither `SP` nor `IP`. -/
def Ordinary (r : UInt8) : Prop := r.toNat ≠ SP ∧ r.toNat ≠ IP

/-- One of the four instructions, whose destination is an ordinary register and which stores
below `SP`. -/
def OnWords (t : Taken Machine Action) : Prop :=
  match t.event with
  | .push _ => True
  | .pop r => Ordinary r
  | .store _ address => address.toNat + 8 ≤ (t.before.registers SP).toNat
  | .load r _ => Ordinary r
  | _ => False

/-- What the instruction does on the stack of words: the value pushed, the one that has come
into the destination of `POP`, or of `LOAD` from the address in `SP`. -/
def stackEvent (t : Taken Machine Action) : StackEvent UInt64 :=
  match t.event with
  | .push v1 => .pushed v1
  | .pop r => .popped (t.after.named r)
  | .load r address =>
      if address.toNat = (t.before.registers SP).toNat then .peeked (t.after.named r) else .other
  | _ => .other

/-- What the instruction adds to the number of words. -/
def depthChange (t : Taken Machine Action) : Int :=
  match t.event with
  | .push _ => 1
  | .pop _ => -1
  | _ => 0

/-- How many more words were pushed than popped. -/
def netDepth (steps : List (Taken Machine Action)) : Int := (steps.map depthChange).sum

/-! ## One instruction -/

section Instruction

variable {m next : Machine} {action : Action}

theorem Machine.words_advance (m : Machine) (count : Nat) : (m.advance count).words = m.words := by
  rw [words, words, advance_of_ne m count (show SP ≠ IP by decide)]
  rfl

theorem Machine.words_setRegister (m : Machine) {r : Fin 13} (ne : r ≠ SP) (value : UInt64) :
    (m.setRegister r value).words = m.words := by
  rw [words, words, m.sp_setRegister ne]
  rfl

theorem Machine.words_pushed (m : Machine) (v1 : UInt64)
    (inside : (m.registers SP - 8).toNat + 8 ≤ stackSize) :
    (m.pushed v1 inside).words = v1 :: m.words := by
  have stored : (m.pushed v1 inside).stack = m.stack.store ⟨_, inside⟩ v1 := rfl
  rw [words, pushed_sp, stored, Memory.words_of_inside inside, Memory.load_store,
    Memory.words_store v1 (Nat.le_refl _), words, sub_eight_add_eight inside]

theorem Machine.words_popped (m : Machine) (inside : (m.registers SP).toNat + 8 ≤ stackSize) :
    m.words = m.stack.load ⟨_, inside⟩ :: m.popped.words := by
  have moved : (m.popped.registers SP).toNat = (m.registers SP).toNat + 8 := by
    rw [popped, setRegister_same, add_eight_toNat inside]
  have same : m.popped.stack = m.stack := rfl
  rw [words, Memory.words_of_inside inside, words, moved, same]

/-- The word at `SP` is on top. -/
theorem Machine.head_words {m : Machine} {address : Nat} (inside : address + 8 ≤ stackSize)
    (top : address = (m.registers SP).toNat) :
    m.words.head? = some (m.stack.load ⟨address, inside⟩) := by
  subst top
  rw [words, Memory.words_of_inside inside, List.head?_cons]

theorem Machine.words_stored (m : Machine) {window : Window} (value : UInt64)
    (below : window.address + 8 ≤ (m.registers SP).toNat) :
    { m with stack := m.stack.store window value }.words = m.words :=
  Memory.words_store value below

theorem named_setRegister {r : UInt8} (bound : r.toNat < 13) (m : Machine) (value : UInt64) :
    (m.setRegister ⟨r.toNat, bound⟩ value).named r = value := by
  rw [Machine.named, dif_pos bound, Machine.setRegister_same]

theorem ne_sp_of_ordinary {r : UInt8} (ordinary : Ordinary r) (bound : r.toNat < 13) :
    (⟨r.toNat, bound⟩ : Fin 13) ≠ SP :=
  fun same => ordinary.1 (congrArg Fin.val same)

/-- What the instruction does on the words is what a stack can do. -/
theorem lifo_of_steps (taken : m.Steps action next) (allowed : OnWords ⟨m, action, next⟩) :
    lifo m.words (stackEvent ⟨m, action, next⟩) = some next.words := by
  have sp := advance_of_ne m (width m.layout) (show SP ≠ IP by decide)
  rw [← m.words_advance (width m.layout)]
  cases taken.effect with
  | push inside => rw [Machine.words_pushed]; rfl
  | @pop r bound inside =>
      have ordinary : Ordinary r := allowed
      rw [Machine.words_setRegister _ (ne_sp_of_ordinary ordinary bound),
        Machine.words_popped _ inside]
      simp only [stackEvent, named_setRegister, lifo, List.head?_cons, if_true, List.tail_cons]
  | store bound inside =>
      rw [Machine.words_stored]
      · rfl
      · rw [sp]
        exact allowed
  | @load r address bound inside =>
      have ordinary : Ordinary r := allowed
      rw [Machine.words_setRegister _ (ne_sp_of_ordinary ordinary bound)]
      simp only [stackEvent, named_setRegister]
      by_cases top : address.toNat = (m.registers SP).toNat
      · have head := Machine.head_words inside (top.trans (congrArg UInt64.toNat sp).symm)
        rw [if_pos top, lifo, if_pos head]
      · rw [if_neg top]
        rfl
  | _ => exact allowed.elim

/-- `SP` moves by eight for each word. -/
theorem sp_of_steps (taken : m.Steps action next) (allowed : OnWords ⟨m, action, next⟩) :
    ((next.registers SP).toNat : Int) =
      (m.registers SP).toNat + -8 * depthChange ⟨m, action, next⟩ := by
  have sp : ((m.advance (width m.layout)).registers SP).toNat = (m.registers SP).toNat :=
    congrArg UInt64.toNat (advance_of_ne m _ (by decide))
  cases taken.effect with
  | push inside =>
      have ends := sub_eight_add_eight inside
      rw [Machine.pushed_sp]
      simp only [depthChange]
      omega
  | pop bound inside =>
      have ne := ne_sp_of_ordinary allowed bound
      rw [Machine.sp_setRegister _ ne, Machine.popped, Machine.setRegister_same,
        add_eight_toNat inside]
      simp only [depthChange]
      omega
  | store bound inside =>
      change (((m.advance (width m.layout)).registers SP).toNat : Int) = _
      simp only [depthChange]
      omega
  | load bound inside =>
      have ne := ne_sp_of_ordinary allowed bound
      rw [Machine.sp_setRegister _ ne]
      simp only [depthChange]
      omega
  | _ => exact allowed.elim

end Instruction

/-! ## Runs -/

/-- Through its words the stack is a stack: whatever is popped, or loaded from `SP`, was on
top.  From a new machine on, `SP` counts the words.  Only the bytes that are written change. -/
structure RefinesWords (m : Machine) (steps : List (Taken Machine Action)) (last : Machine) :
    Prop where
  words : replay lifo m.words (steps.map stackEvent) = some last.words
  depth : ∀ bytecode stack, m = Machine.construct bytecode stack →
    m.words = [] ∧ ((last.registers SP).toNat : Int) = 0x1000000 - 8 * netDepth steps
  untouched : ∀ i : Fin stackSize, (∀ t ∈ steps, ↑i ∉ t.before.stepWrites) →
    last.stack i = m.stack i

/-- A run of the four instructions refines a run of a stack of words. -/
theorem words_refine {m last : Machine} {steps : List (Taken Machine Action)}
    (run : Runs Machine.Steps m steps last) (allowed : ∀ t ∈ steps, OnWords t) :
    RefinesWords m steps last where
  words := run.replays Machine.words stackEvent lifo_of_steps allowed
  depth := by
    rintro bytecode stack rfl
    have total := run.total (fun m => ((m.registers SP).toNat : Int)) (-8 * depthChange ·)
      sp_of_steps allowed
    rw [List.sum_map_mul_left] at total
    have top : ((Machine.construct bytecode stack).registers SP).toNat = stackSize := rfl
    constructor
    · rw [Machine.words, top, Memory.words, dif_neg (by decide)]
    · rw [total, top, netDepth]
      change (0x1000000 : Int) + _ = _
      ring
  untouched i outside :=
    run.same (fun m => m.stack i) (fun taken notWritten => taken.stack_eq notWritten) outside

theorem words_refine_pushThenPop :
    ∃ m0 m1 m2, m0 = Machine.construct pushThenPop (fun _ => 0) ∧
      RefinesWords m0 [⟨m0, .push 7, m1⟩, ⟨m1, .pop 0, m2⟩] m2 := by
  obtain ⟨_, m1, _, m2, _, _, push, _, round0, pop, _, round1, _⟩ :=
    pushThenPop_run fun _ => 0
  have run := Runs.cons (steps_of_execute push round0)
    (.cons (steps_of_execute pop round1) (.refl m2))
  have ordinary : Ordinary 0 := ⟨by decide, by decide⟩
  exact ⟨_, m1, m2, rfl, words_refine run
    (List.forall_mem_cons.mpr ⟨trivial, List.forall_mem_singleton.mpr ordinary⟩)⟩

end IotChain.VM
