import IotChain.VM.Frame
import IotChain.VM.Memory

/-!
# Calls and returns

`CALL` saves the return size and the address behind it in two words under `SP`.  `RET` reads
them back through 32-bit variables.  As long as the code between them leaves `SP` where it
was and does not write to the saved words, every `RET` returns from its own `CALL`.
-/

namespace IotChain.VM

open IotChain.Transition

/-! ## Saved words -/

namespace Memory

/-- The word at an address, and zero outside. -/
def wordAt (stack : Memory) (address : Nat) : UInt64 :=
  if inside : address + 8 ≤ stackSize then stack.load ⟨address, inside⟩ else 0

theorem load_eq_wordAt (stack : Memory) {address : Nat} (inside : address + 8 ≤ stackSize) :
    stack.load ⟨address, inside⟩ = stack.wordAt address := by
  rw [wordAt, dif_pos inside]

theorem wordAt_congr {left right : Memory} {address : Nat}
    (same : ∀ i : Fin stackSize, address ≤ i → i < address + 8 → left i = right i) :
    left.wordAt address = right.wordAt address := by
  by_cases inside : address + 8 ≤ stackSize
  · rw [← left.load_eq_wordAt inside, ← right.load_eq_wordAt inside]
    exact load_congr same
  · rw [wordAt, wordAt, dif_neg inside, dif_neg inside]

theorem wordAt_store (stack : Memory) (window : Window) (value : UInt64) :
    (stack.store window value).wordAt window.address = value := by
  rw [← load_eq_wordAt _ window.inside, load_store]

theorem wordAt_store_of_apart {stack : Memory} {window : Window} (value : UInt64)
    {address : Nat} (apart : address + 8 ≤ window.address ∨ window.address + 8 ≤ address) :
    (stack.store window value).wordAt address = stack.wordAt address := by
  apply wordAt_congr
  intro i lower upper
  apply if_neg
  omega

end Memory

/-! ## Calls that wait for their return -/

/-- The calls that have not returned, the latest first. -/
def pending (calls : List (Taken Machine Action)) (t : Taken Machine Action) :
    List (Taken Machine Action) :=
  match t.event with
  | .call _ _ => t :: calls
  | .ret => calls.tail
  | _ => calls

section Call

variable (call : Taken Machine Action)

/-- The return size of a call. -/
def returnSize : UInt64 :=
  match call.event with
  | .call _ retnSize => retnSize
  | _ => 0

/-- The address of the instruction behind the call: the opcode, the operand and the return
size are skipped. -/
def addressBehind : Nat := call.before.ip + width call.before.layout

/-- The bytes of the two words that the call saves. -/
def savedBytes : Set Nat :=
  Set.Ico ((call.before.registers SP).toNat - 16) (call.before.registers SP).toNat

end Call

/-- What a run must keep to for its returns to find their calls: numbers that 32 bits hold,
`SP` at a return where the call left it, and no writing to what pending calls have saved. -/
structure Disciplined (calls : List (Taken Machine Action)) (t : Taken Machine Action) :
    Prop where
  small : ∀ address retnSize, t.event = .call address retnSize →
    retnSize.toNat < 2 ^ 32 ∧ addressBehind t < 2 ^ 32
  balanced : t.event = .ret → ∃ call rest, calls = call :: rest ∧
    t.before.registers SP = call.after.registers SP
  keeps : ∀ call ∈ calls, ∀ i ∈ t.before.stepWrites, i ∉ savedBytes call

/-- The step returns behind the call, with `SP` where it was before the call plus the return
size. -/
structure ReturnsFrom (call t : Taken Machine Action) : Prop where
  ip : t.after.ip = addressBehind call
  sp : t.after.registers SP = call.before.registers SP + returnSize call

/-! ## What a call saves -/

/-- The words of the call are in the stack. -/
structure Saved (stack : Memory) (call : Taken Machine Action) : Prop where
  lowered : call.after.registers SP = call.before.registers SP - 8 - 8
  room : 16 ≤ (call.before.registers SP).toNat
  address : (stack.wordAt ((call.before.registers SP).toNat - 16)).toNat = addressBehind call
  size : stack.wordAt ((call.before.registers SP).toNat - 8) = returnSize call
  addressSmall : addressBehind call < 2 ^ 32
  sizeSmall : (returnSize call).toNat < 2 ^ 32

/-- A word among the saved bytes stays while they do. -/
theorem wordAt_of_untouched {left right : Memory} {call : Taken Machine Action} {address : Nat}
    (same : ∀ i : Fin stackSize, ↑i ∈ savedBytes call → right i = left i)
    (lower : (call.before.registers SP).toNat - 16 ≤ address)
    (upper : address + 8 ≤ (call.before.registers SP).toNat) :
    right.wordAt address = left.wordAt address := by
  apply Memory.wordAt_congr
  intro i above below
  exact same i ⟨lower.trans above, Nat.lt_of_lt_of_le below upper⟩

theorem Saved.of_untouched {left right : Memory} {call : Taken Machine Action}
    (saved : Saved left call)
    (same : ∀ i : Fin stackSize, ↑i ∈ savedBytes call → right i = left i) :
    Saved right call := by
  have room := saved.room
  constructor
  · exact saved.lowered
  · exact room
  · rw [wordAt_of_untouched same (Nat.le_refl _) (by omega), saved.address]
  · rw [wordAt_of_untouched same (by omega) (by omega), saved.size]
  · exact saved.addressSmall
  · exact saved.sizeSmall

section Step

/-- What `CALL` leaves in the stack. -/
theorem words_of_call {m next : Machine} {address : UInt32} {retnSize : UInt64}
    (effect : Effect m (.call address retnSize) next) :
    16 ≤ (m.registers SP).toNat ∧ next.registers SP = m.registers SP - 8 - 8 ∧
      next.stack.wordAt ((m.registers SP).toNat - 16) = m.registers IP ∧
      next.stack.wordAt ((m.registers SP).toNat - 8) = retnSize := by
  cases effect with
  | call _ first second =>
      have upper := sub_eight_add_eight first
      have lower := sub_eight_add_eight second
      rw [Machine.pushed_sp] at lower
      have high : (m.registers SP).toNat - 8 = (m.registers SP - 8).toNat := by omega
      have low : (m.registers SP).toNat - 16 =
          ((m.pushed retnSize first).registers SP - 8).toNat := by
        rw [Machine.pushed_sp]
        omega
      refine ⟨by omega, ?_, ?_, ?_⟩
      · rw [Machine.sp_setRegister _ (show IP ≠ SP by decide), Machine.pushed_sp,
          Machine.pushed_sp]
      · rw [low]
        exact Memory.wordAt_store _ ⟨_, second⟩ _
      · change ((m.stack.store ⟨_, first⟩ retnSize).store ⟨_, second⟩ _).wordAt _ = _
        rw [Memory.wordAt_store_of_apart, high]
        · exact Memory.wordAt_store _ ⟨_, first⟩ _
        · right
          dsimp only
          omega

/-- Where `RET` takes `IP` and `SP` from. -/
theorem registers_of_ret {m next : Machine} (effect : Effect m .ret next) :
    next.registers IP =
        (m.stack.wordAt (m.registers SP).toNat).toUInt32.toUInt64 ∧
      next.registers SP = m.registers SP + 8 + 8 +
        (m.stack.wordAt (m.registers SP + 8).toNat).toUInt32.toUInt64 := by
  cases effect with
  | ret first second =>
      have popped : m.popped.registers SP = m.registers SP + 8 := m.setRegister_same SP _
      have twice : m.popped.popped.registers SP = m.registers SP + 8 + 8 := by
        rw [Machine.popped, Machine.setRegister_same, popped]
      constructor
      · rw [Machine.setRegister_same, Memory.load_eq_wordAt]
      · rw [Machine.sp_setRegister _ (show IP ≠ SP by decide), Machine.setRegister_same, twice,
          Memory.load_eq_wordAt, popped]

variable {m next : Machine}

/-- The address behind an instruction that 32 bits hold is where `IP` stands when the
operands are extracted. -/
theorem ip_behind {event : Action} (small : addressBehind ⟨m, event, next⟩ < 2 ^ 32) :
    ((m.advance (width m.layout)).registers IP).toNat = addressBehind ⟨m, event, next⟩ := by
  have moved : (m.advance (width m.layout)).registers IP =
      m.registers IP + UInt64.ofNat (width m.layout) :=
    Registers.set_same m.registers IP _
  have small : (m.registers IP).toNat + width m.layout < 2 ^ 32 := small
  rw [moved, UInt64.toNat_add, UInt64.toNat_ofNat', addressBehind, Processor.ip]
  dsimp only
  omega

theorem saved_of_call {address : UInt32} {retnSize : UInt64}
    (taken : m.Steps (.call address retnSize) next)
    (small : retnSize.toNat < 2 ^ 32 ∧
      addressBehind ⟨m, .call address retnSize, next⟩ < 2 ^ 32) :
    Saved next.stack ⟨m, .call address retnSize, next⟩ := by
  have sp := advance_of_ne m (width m.layout) (show SP ≠ IP by decide)
  rcases words_of_call taken.effect with ⟨room, lowered, address, size⟩
  rw [sp] at room lowered address size
  constructor
  · exact lowered
  · exact room
  · rw [address, ip_behind small.2]
  · exact size
  · exact small.2
  · exact small.1

theorem toNat_low {value : UInt64} (small : value.toNat < 2 ^ 32) :
    value.toUInt32.toUInt64 = value := by
  apply UInt64.toNat_inj.mp
  rw [UInt32.toNat_toUInt64, UInt64.toNat_toUInt32, Nat.mod_eq_of_lt small]

theorem returnsFrom_of_saved (taken : m.Steps .ret next) {call : Taken Machine Action}
    (saved : Saved m.stack call) (balanced : m.registers SP = call.after.registers SP) :
    ReturnsFrom call ⟨m, .ret, next⟩ := by
  have sp := advance_of_ne m (width m.layout) (show SP ≠ IP by decide)
  rw [balanced, saved.lowered] at sp
  have low := sub_sixteen_toNat saved.room
  have high : (call.before.registers SP - 8 - 8 + 8).toNat =
      (call.before.registers SP).toNat - 8 := by
    have eight : (8 : UInt64) ≤ call.before.registers SP :=
      UInt64.le_iff_toNat_le.mpr (Nat.le_trans (by decide) saved.room)
    rw [UInt64.sub_add_cancel, UInt64.toNat_sub_of_le _ _ eight]
    rfl
  have address := saved.address
  rcases registers_of_ret taken.effect with ⟨ip, ret⟩
  change next.registers IP = (m.stack.wordAt _).toUInt32.toUInt64 at ip
  change next.registers SP = _ + (m.stack.wordAt _).toUInt32.toUInt64 at ret
  rw [sp, low, toNat_low] at ip
  · rw [sp, high, saved.size, toNat_low saved.sizeSmall] at ret
    constructor
    · rw [← address, ← ip]
      rfl
    · change next.registers SP = _
      rw [ret, UInt64.sub_add_cancel, UInt64.sub_add_cancel]
  · rw [address]
    exact saved.addressSmall

end Step

/-! ## Runs -/

/-- Each `RET` of a disciplined run returns from the latest call that has not returned. -/
theorem returns_from_calls {m last : Machine} {steps : List (Taken Machine Action)}
    (run : Runs Machine.Steps m steps last)
    (disciplined : ∀ p ∈ trail pending [] steps, Disciplined p.1 p.2) :
    ∀ p ∈ trail pending [] steps, p.2.event = .ret →
      ∃ call rest, p.1 = call :: rest ∧ ReturnsFrom call p.2 := by
  let inv (m : Machine) (calls : List (Taken Machine Action)) : Prop :=
    ∀ call ∈ calls, Saved m.stack call
  let shown (p : List (Taken Machine Action) × Taken Machine Action) : Prop :=
    p.2.event = .ret → ∃ call rest, p.1 = call :: rest ∧ ReturnsFrom call p.2
  have start : inv m [] := List.forall_mem_nil _
  refine run.ghost (Q := shown) inv ?_ start disciplined
  intro state event next calls taken holds here
  have kept : inv next calls := fun call member =>
    (holds call member).of_untouched fun i inside =>
      taken.stack_eq fun written => here.keeps call member i written inside
  cases event with
  | call address retnSize =>
      have saved := saved_of_call taken (here.small address retnSize rfl)
      exact ⟨nofun, List.forall_mem_cons.mpr ⟨saved, kept⟩⟩
  | ret =>
      refine ⟨fun _ => ?_, fun call member => kept call (List.mem_of_mem_tail member)⟩
      rcases here.balanced rfl with ⟨call, rest, same, balanced⟩
      obtain rfl : calls = call :: rest := same
      have saved := holds call List.mem_cons_self
      exact ⟨call, rest, rfl, returnsFrom_of_saved taken saved balanced⟩
  | _ => exact ⟨nofun, kept⟩

theorem extraction_of_ret {m : Machine} (found : m.bytecode.bytes[m.ip]? = some 0x54) :
    extraction m = .ok ((21, .ret), m.advance 1) := by
  rw [extraction_eq, bind_of_ok (fetch_of_some found)]
  rfl

theorem perform_call {m : Machine} (address : UInt32) {retnSize : UInt64}
    (first : (m.registers SP - 8).toNat + 8 ≤ stackSize)
    (second : ((m.pushed retnSize first).registers SP - 8).toNat + 8 ≤ stackSize) :
    (Action.call address retnSize).perform m =
      .ok ((), ((m.pushed retnSize first).pushed (m.registers IP) second).setRegister IP
        address.toUInt64) := by
  rw [Action.perform, bind_of_ok (push_of_inside retnSize first)]
  change (push (m.registers IP) >>= fun _ => setRegister IP address.toUInt64) _ = _
  rw [bind_of_ok (push_of_inside _ second)]
  rfl

theorem perform_ret {m : Machine} (first : (m.registers SP).toNat + 8 ≤ stackSize)
    (second : (m.popped.registers SP).toNat + 8 ≤ stackSize) :
    ∃ next, Action.ret.perform m = .ok ((), next) := by
  rw [Action.perform, retCase, bind_of_ok (pop_of_inside first)]
  change ∃ next, (pop >>= _) m.popped = .ok ((), next)
  rw [bind_of_ok (pop_of_inside second)]
  exact ⟨_, rfl⟩

/-- `CALL 13, 8`, `STOP`, and at 13 `RET`. -/
def callThenRet : Bytecode :=
  ⟨[0x53, 13, 0, 0, 8, 0, 0, 0, 0, 0, 0, 0, 0, 0x54], by decide⟩

/-- The run of `callThenRet` up to its `STOP`. -/
theorem callThenRet_run (stack : Memory) :
    ∃ m1 next1 m2,
      (Machine.construct callThenRet stack).Steps (.call 13 8) m1 ∧
      extraction m1 = .ok ((21, .ret), next1) ∧
      m1.Steps .ret m2 := by
  let m0 := Machine.construct callThenRet stack
  let next0 := ((((m0.advance 1).advance 1).advance 1).advance 1).advance 8
  have sp0 : next0.registers SP = 0x1000000 := rfl
  have first : (next0.registers SP - 8).toNat + 8 ≤ stackSize := by
    rw [sp0]
    decide
  have second : ((next0.pushed 8 first).registers SP - 8).toNat + 8 ≤ stackSize := by
    rw [Machine.pushed_sp, sp0]
    decide
  have call : extraction m0 = .ok ((20, .call 13 8), next0) := rfl
  have called := steps_of_perform call (perform_call 13 first second)
  generalize jumped : ((next0.pushed 8 first).pushed (next0.registers IP) second).setRegister IP
    (13 : UInt32).toUInt64 = m1 at called
  have ip : m1.registers IP = 13 := by
    rw [← jumped, Machine.setRegister_same]
    rfl
  have sp : (m1.advance 1).registers SP = 0x1000000 - 8 - 8 := by
    rw [advance_of_ne m1 1 (by decide), ← jumped, Machine.sp_setRegister _ (by decide),
      Machine.pushed_sp, Machine.pushed_sp, sp0]
  have code : m1.bytecode = callThenRet := by
    rw [← jumped]
    rfl
  have found : m1.bytecode.bytes[m1.ip]? = some 0x54 := by
    rw [code, Processor.ip, ip]
    rfl
  have third : ((m1.advance 1).registers SP).toNat + 8 ≤ stackSize := by
    rw [sp]
    decide
  have fourth : ((m1.advance 1).popped.registers SP).toNat + 8 ≤ stackSize := by
    rw [Machine.popped, Machine.setRegister_same, sp]
    decide
  obtain ⟨m2, performed⟩ := perform_ret third fourth
  have ret := extraction_of_ret found
  exact ⟨m1, _, m2, called, ret, steps_of_perform ret performed⟩

theorem returns_from_calls_callThenRet :
    ∃ m0 m1 m2, m0 = Machine.construct callThenRet (fun _ => 0) ∧
      ReturnsFrom ⟨m0, .call 13 8, m1⟩ ⟨m1, .ret, m2⟩ := by
  obtain ⟨m1, next1, m2, call, extracted, ret⟩ := callThenRet_run fun _ => 0
  have calls : Disciplined [] ⟨Machine.construct callThenRet fun _ => 0, .call 13 8, m1⟩ := by
    constructor
    · rintro _ _ ⟨⟩
      constructor
      · decide
      · change 12 < 2 ^ 32
        decide
    · nofun
    · exact List.forall_mem_nil _
  have returns :
      Disciplined [⟨Machine.construct callThenRet fun _ => 0, .call 13 8, m1⟩]
        ⟨m1, .ret, m2⟩ := by
    constructor
    · nofun
    · exact fun _ => ⟨_, [], rfl, rfl⟩
    · rw [List.forall_mem_singleton, Machine.stepWrites_eq extracted]
      simp only [Action.writes, wordsBytes_nil]
      exact fun i none => none.elim
  have run := Runs.cons call (.cons ret (.refl m2))
  have shown := returns_from_calls run
    (List.forall_mem_cons.mpr ⟨calls, List.forall_mem_singleton.mpr returns⟩)
  obtain ⟨_, _, same, found⟩ :=
    (List.forall_mem_singleton.mp (List.forall_mem_cons.mp shown).2) rfl
  cases same
  exact ⟨_, m1, m2, rfl, found⟩

end IotChain.VM
