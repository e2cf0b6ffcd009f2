import IotChain.Stream.Cursor

/-!
# The cursor of a `memory_reader`

A `memory_reader` checks a range by adding a signed offset to its cursor in `size_t`.  In a
buffer of less than `2 ^ 63` bytes a sum that wraps lands behind the end, and so the checks
admit exactly the targets inside of the buffer.
-/

namespace IotChain

open IotChain.Transition

namespace MemoryReader

/-! ## The operations -/

/-- `memory_reader::move`. -/
def move (offset : Int64) : BufferStream.Operation Unit := BufferStream.move offset

/-- `memory_reader::move_to`. -/
def moveTo (offset : Nat) : BufferStream.Operation Unit := BufferStream.moveTo offset

/-- `memory_reader::write`. -/
def write (_ : List UInt8) : BufferStream.Operation Unit :=
  throw (.thrown (.logicError "memory_reader is read-only"))

/-- `memory_reader::read`. -/
def read (count : Nat) : BufferStream.Operation (List UInt8) := BufferStream.read count

/-- A call of one of the operations. -/
inductive Call
  | read (count : Nat)
  | move (offset : Int64)
  | moveTo (offset : Nat)
  | write (bytes : List UInt8)
  deriving DecidableEq, Repr

/-- An operation with what it copies to its caller. -/
def Call.operation : Call → BufferStream.Operation (List UInt8)
  | read count => MemoryReader.read count
  | move offset => do MemoryReader.move offset; return []
  | moveTo offset => do MemoryReader.moveTo offset; return []
  | write bytes => do MemoryReader.write bytes; return []

/-- One call, with what it returns or throws and the stream behind it. -/
def Call.perform (call : Call) (s : Stream) : Except BufferStream.Fault (List UInt8) × Stream :=
  call.operation.run s

/-! ## What a call is for -/

/-- The cursor that a call asks for, before any conversion to `size_t`. -/
def Call.target (n : Nat) : Call → Option Int
  | read count => some (n + count)
  | move offset => some (n + offset.toInt)
  | moveTo offset => some offset
  | write _ => none

/-- A read copies the bytes behind the cursor, any other call copies nothing. -/
def Call.Copies (s : Stream) (copied : List UInt8) : Call → Prop
  | read count => copied.length = count ∧ ∀ i < count, copied[i]? = s.buf[s.n + i]?
  | _ => copied = []

/-- The target of a call lies inside of the buffer. -/
def Call.Admitted (s : Stream) (call : Call) : Prop :=
  ∃ n : Nat, n ≤ s.size ∧ call.target s.n = some (n : Int)

/-- A call returns behind its target if that is inside, throws if it is not, and does nothing
else. -/
structure StaysInside (s : Stream) (call : Call) : Prop where
  inside : (call.perform s).2.n ≤ (call.perform s).2.size
  buffer : (call.perform s).2.buf = s.buf
  returned : ∀ copied, (call.perform s).1 = .ok copied →
    call.target s.n = some ((call.perform s).2.n : Int) ∧ call.Copies s copied
  answers : (∃ copied, (call.perform s).1 = .ok copied) ↔ call.Admitted s
  throws : (∃ exception, (call.perform s).1 = .error (.thrown exception)) ↔ ¬ call.Admitted s
  memory : (call.perform s).1 ≠ .error .outside
  unchanged : ∀ fault, (call.perform s).1 = .error fault → (call.perform s).2 = s

/-! ## Offsets -/

/-- A signed offset as the `size_t` that is added for it. -/
theorem toInt_eq (offset : Int64) :
    offset.toInt = if 2 * offset.toUInt64.toNat < 2 ^ 64 then (offset.toUInt64.toNat : Int)
      else offset.toUInt64.toNat - 2 ^ 64 :=
  BitVec.toInt_eq_toNat_cond offset.toBitVec

/-- Below `2 ^ 63`, the wrapped sum is inside exactly if the sum is. -/
theorem moved_eq_iff {n size target : Nat} (inside : n ≤ size) (small : size < 2 ^ 63)
    (offset : Int64) (below : target ≤ size) :
    BufferStream.moved n offset = target ↔ (n : Int) + offset.toInt = target := by
  have bound := offset.toUInt64.toNat_lt
  rw [toInt_eq, BufferStream.moved, UInt64.toNat_add, UInt64.toNat_ofNat',
    Nat.mod_eq_of_lt (Nat.lt_of_le_of_lt inside (Nat.lt_trans small (by decide)))]
  generalize offset.toUInt64.toNat = added at bound ⊢
  split <;> omega

/-! ## What a call does -/

variable {s : Stream}

/-- A call that goes to its target if that is inside, and throws otherwise. -/
theorem staysInside_of_perform {call : Call} {n : Nat} {copied : List UInt8}
    {exception : StdException} {guard : Prop} [Decidable guard]
    (perform : call.perform s =
      if guard then (.ok copied, { s with n := n }) else (.error (.thrown exception), s))
    (inside : s.n ≤ s.size) (admitted : guard ↔ call.Admitted s)
    (reaches : guard →
      n ≤ s.size ∧ call.target s.n = some (n : Int) ∧ call.Copies s copied) :
    StaysInside s call := by
  by_cases held : guard
  · rw [if_pos held] at perform
    rcases reaches held with ⟨within, target, copies⟩
    constructor <;> rw [perform]
    · exact within
    · intro other same
      obtain rfl : copied = other := Except.ok.inj same
      exact ⟨target, copies⟩
    · exact iff_of_true ⟨copied, rfl⟩ (admitted.mp held)
    · exact iff_of_false nofun (not_not_intro (admitted.mp held))
    · exact nofun
    · exact nofun
  · rw [if_neg held] at perform
    constructor <;> rw [perform]
    · exact inside
    · exact nofun
    · exact iff_of_false nofun (mt admitted.mpr held)
    · exact iff_of_true ⟨exception, rfl⟩ (mt admitted.mpr held)
    · exact nofun
    · exact fun _ _ => rfl

/-- An operation that copies nothing. -/
theorem run_nothing {operation : BufferStream.Operation Unit} {next : Stream}
    {fault : BufferStream.Fault} {guard : Prop} [Decidable guard]
    (run : operation.run s = if guard then (.ok (), next) else (.error fault, s)) :
    (do operation; return ([] : List UInt8) : BufferStream.Operation (List UInt8)).run s =
      if guard then (.ok [], next) else (.error fault, s) := by
  by_cases held : guard
  · rw [if_pos held] at run ⊢
    exact run_bind_of_ok run
  · rw [if_neg held] at run ⊢
    exact run_bind_of_error run

theorem staysInside_read (inside : s.n ≤ s.size) (count : Nat) : StaysInside s (.read count) := by
  have perform : (Call.read count).perform s =
      if s.n + count ≤ s.size then
        (.ok ((s.buf.drop s.n).take count), { s with n := s.n + count })
      else (.error (.thrown (.runtimeError "end of stream")), s) :=
    BufferStream.run_read inside count
  apply staysInside_of_perform perform inside
  · constructor
    · intro enough
      exact ⟨s.n + count, enough, rfl⟩
    · rintro ⟨n, within, target⟩
      have same : ((s.n + count : Nat) : Int) = n := Option.some.inj target
      rwa [Int.ofNat_inj.mp same]
  · intro enough
    refine ⟨enough, rfl, ?_, ?_⟩
    · rw [List.length_take, List.length_drop]
      exact Nat.min_eq_left (Nat.le_sub_of_add_le' enough)
    · intro i below
      rw [List.getElem?_take_of_lt below, List.getElem?_drop]

theorem staysInside_move (inside : s.n ≤ s.size) (small : s.size < 2 ^ 63) (offset : Int64) :
    StaysInside s (.move offset) := by
  have perform : (Call.move offset).perform s =
      if BufferStream.moved s.n offset ≤ s.size then
        (.ok [], { s with n := BufferStream.moved s.n offset })
      else (.error BufferStream.outOfRange, s) :=
    run_nothing (BufferStream.perform_move s offset)
  have reached {n : Nat} (within : n ≤ s.size) :=
    moved_eq_iff inside small offset within
  apply staysInside_of_perform perform inside
  · constructor
    · intro within
      exact ⟨_, within, congrArg some ((reached within).mp rfl)⟩
    · rintro ⟨n, within, target⟩
      rwa [(reached within).mpr (Option.some.inj target)]
  · intro within
    exact ⟨within, congrArg some ((reached within).mp rfl), rfl⟩

theorem staysInside_moveTo (inside : s.n ≤ s.size) (offset : Nat) :
    StaysInside s (.moveTo offset) := by
  have perform : (Call.moveTo offset).perform s =
      if offset ≤ s.size then (.ok [], { s with n := offset })
      else (.error BufferStream.outOfRange, s) :=
    run_nothing (BufferStream.perform_moveTo s offset)
  apply staysInside_of_perform perform inside
  · constructor
    · intro within
      exact ⟨offset, within, rfl⟩
    · rintro ⟨n, within, target⟩
      have same : (offset : Int) = n := Option.some.inj target
      rwa [Int.ofNat_inj.mp same]
  · intro within
    exact ⟨within, rfl, rfl⟩

theorem staysInside_write (inside : s.n ≤ s.size) (bytes : List UInt8) :
    StaysInside s (.write bytes) := by
  have perform : (Call.write bytes).perform s =
      if False then (.ok [], { s with n := s.n })
      else (.error (.thrown (.logicError "memory_reader is read-only")), s) :=
    rfl
  apply staysInside_of_perform perform inside
  · constructor
    · exact False.elim
    · rintro ⟨n, -, target⟩
      cases target
  · exact False.elim

theorem staysInside (inside : s.n ≤ s.size) (small : s.size < 2 ^ 63) (call : Call) :
    StaysInside s call := by
  cases call with
  | read count => exact staysInside_read inside count
  | move offset => exact staysInside_move inside small offset
  | moveTo offset => exact staysInside_moveTo inside offset
  | write bytes => exact staysInside_write inside bytes

/-- Each call of a run of a new reader stays inside of its buffer. -/
theorem stays_inside (buf : List UInt8) (small : buf.length < 2 ^ 63) (calls : List Call) :
    ∀ p ∈ trail (fun s call => (Call.perform call s).2) (Stream.memoryReader buf) calls,
      p.1.buf = buf ∧ StaysInside p.1 p.2 := by
  refine (forall_trail_iff (fun s => s.buf = buf ∧ s.n ≤ s.size) ?_ ?_ ?_ calls).mpr
    fun _ _ => trivial
  · intro s call held
    have size : s.size = buf.length := congrArg List.length held.1
    exact iff_of_true ⟨held.1, staysInside held.2 (size ▸ small) call⟩ trivial
  · intro s call _ kept
    exact ⟨kept.2.buffer.trans kept.1, kept.2.inside⟩
  · exact ⟨rfl, Nat.zero_le _⟩

/-- A read of two bytes, and then a move past the start. -/
theorem stays_inside_three :
    let reading := ((Call.read 2).perform (Stream.memoryReader [1, 2, 3])).2
    reading.buf = [1, 2, 3] ∧ StaysInside reading (.move (-3)) :=
  stays_inside [1, 2, 3] (by decide) [.read 2, .move (-3)] (_, .move (-3))
    (List.mem_cons_of_mem _ List.mem_cons_self)

end MemoryReader

end IotChain
