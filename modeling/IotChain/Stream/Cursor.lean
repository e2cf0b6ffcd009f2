import IotChain.Stream.Core
import IotChain.Transition.Stopping

/-!
# The cursor of a `buffer_stream`

Six operations share the cursor.  Each leaves it inside of the buffer, except that
`remove_first` does not move it when it lies among the removed bytes.
-/

namespace IotChain

open IotChain.Transition

namespace BufferStream

/-- How an operation stops: it throws an exception of its own, the vector throws because it
cannot grow, or it leaves the memory of the vector. -/
inductive Fault
  | thrown (exception : StdException)
  | noRoom
  | outside
  deriving DecidableEq, Repr

/-- A method of `buffer_stream` that may stop. -/
abbrev Operation (α : Type) := Stopping Stream Fault α

/-- An `if` that guards the rest of a method. -/
def check (condition : Stream → Bool) (fault : Fault) : Operation Unit := do
  if condition (← get) then return () else throw fault

/-- What the methods throw when an offset or a length does not fit. -/
def outOfRange : Fault := .thrown (.runtimeError "index of out range")

/-! ## The operations -/

/-- `buffer_stream::remove_first`. -/
def removeFirst (n : Nat) : Operation Unit := do
  check (fun s => n ≤ s.size) outOfRange
  modify fun s => { s with buf := s.buf.drop n }
  -- For a cursor before `n`, the source sets its own argument to zero.
  modify fun s => if s.n < n then s else { s with n := s.n - n }

/-- `buffer_stream::remove`. -/
def remove (n : Nat) : Operation Unit := do
  check (fun s => n ≤ s.n) outOfRange
  check (fun s => s.n ≤ s.size) .outside
  modify fun s => { s with buf := s.buf.take (s.n - n) ++ s.buf.drop s.n }
  modify fun s => { s with n := s.n - n }

/-- The cursor after a signed offset, in `size_t`. -/
def moved (n : Nat) (offset : Int64) : Nat := (UInt64.ofNat n + offset.toUInt64).toNat

/-- `buffer_stream::move`. -/
def move (offset : Int64) : Operation Unit := do
  check (fun s => moved s.n offset ≤ s.size) outOfRange
  modify fun s => { s with n := moved s.n offset }

/-- `buffer_stream::move_to`. -/
def moveTo (offset : Nat) : Operation Unit := do
  check (fun s => offset ≤ s.size) outOfRange
  modify fun s => { s with n := offset }

/-- `buffer_stream::write`, for a vector that has room or has none. -/
def write (bytes : List UInt8) (room : Bool) : Operation Unit := do
  check (fun s => s.n ≤ s.size) .outside
  check (fun _ => room) .noRoom
  modify fun s => s.write bytes

/-- `buffer_stream::read`. -/
def read (count : Nat) : Operation (List UInt8) := do
  check (fun s => ¬ sizeSub s.size s.n < count) (.thrown (.runtimeError "end of stream"))
  check (fun s => s.n + count ≤ s.size) .outside
  let bytes := ((← get).buf.drop (← get).n).take count
  modify fun s => { s with n := s.n + count }
  return bytes

/-- A call of one of the operations. -/
inductive Call
  | write (bytes : List UInt8) (room : Bool)
  | read (count : Nat)
  | move (offset : Int64)
  | moveTo (offset : Nat)
  | remove (n : Nat)
  | removeFirst (n : Nat)
  deriving DecidableEq, Repr

/-- The method that is called.  The bytes that a read returns are dropped. -/
def Call.operation : Call → Operation Unit
  | write bytes room => BufferStream.write bytes room
  | read count => do let _ ← BufferStream.read count
  | move offset => BufferStream.move offset
  | moveTo offset => BufferStream.moveTo offset
  | remove n => BufferStream.remove n
  | removeFirst n => BufferStream.removeFirst n

/-- How a call ends and the stream that it leaves. -/
def Call.perform (call : Call) (s : Stream) : Except Fault Unit × Stream :=
  call.operation.run s

/-! ## What a call does -/

theorem run_check {α : Type} (condition : Stream → Bool) (fault : Fault)
    (rest : Unit → Operation α) (s : Stream) :
    (check condition fault >>= rest).run s =
      if condition s then (rest ()).run s else (.error fault, s) := by
  change ((if condition s then return () else throw fault : Operation Unit) >>= rest).run s = _
  by_cases held : condition s = true
  · rw [if_pos held, if_pos held]
    rfl
  · rw [if_neg held, if_neg held]
    rfl

theorem perform_removeFirst (s : Stream) (n : Nat) :
    (Call.removeFirst n).perform s =
      if n ≤ s.size then
        (.ok (), if s.n < n then ⟨s.buf.drop n, s.n⟩ else ⟨s.buf.drop n, s.n - n⟩)
      else (.error outOfRange, s) := by
  rw [Call.perform, Call.operation, removeFirst, run_check]
  simp only [decide_eq_true_iff]
  rfl

theorem perform_remove {s : Stream} (inside : s.n ≤ s.size) (n : Nat) :
    (Call.remove n).perform s =
      if n ≤ s.n then (.ok (), ⟨s.buf.take (s.n - n) ++ s.buf.drop s.n, s.n - n⟩)
      else (.error outOfRange, s) := by
  rw [Call.perform, Call.operation, remove, run_check, run_check,
    if_pos (decide_eq_true inside)]
  simp only [decide_eq_true_iff]
  rfl

theorem perform_move (s : Stream) (offset : Int64) :
    (Call.move offset).perform s =
      if moved s.n offset ≤ s.size then (.ok (), { s with n := moved s.n offset })
      else (.error outOfRange, s) := by
  rw [Call.perform, Call.operation, move, run_check]
  simp only [decide_eq_true_iff]
  rfl

theorem perform_moveTo (s : Stream) (offset : Nat) :
    (Call.moveTo offset).perform s =
      if offset ≤ s.size then (.ok (), { s with n := offset })
      else (.error outOfRange, s) := by
  rw [Call.perform, Call.operation, moveTo, run_check]
  simp only [decide_eq_true_iff]
  rfl

theorem perform_write {s : Stream} (inside : s.n ≤ s.size) (bytes : List UInt8)
    (room : Bool) :
    (Call.write bytes room).perform s =
      if room = true then (.ok (), s.write bytes) else (.error .noRoom, s) := by
  rw [Call.perform, Call.operation, write, run_check, if_pos (decide_eq_true inside), run_check]
  rfl

theorem run_read {s : Stream} (inside : s.n ≤ s.size) (count : Nat) :
    (read count).run s =
      if s.n + count ≤ s.size then
        (.ok ((s.buf.drop s.n).take count), { s with n := s.n + count })
      else (.error (.thrown (.runtimeError "end of stream")), s) := by
  have left : ¬ sizeSub s.size s.n < count ↔ s.n + count ≤ s.size := by
    rw [sizeSub_of_le inside]
    omega
  rw [read, run_check]
  simp only [decide_eq_true_iff, left]
  by_cases enough : s.n + count ≤ s.size
  · rw [if_pos enough, if_pos enough, run_check, if_pos (decide_eq_true enough)]
    rfl
  · rw [if_neg enough, if_neg enough]

theorem perform_read {s : Stream} (inside : s.n ≤ s.size) (count : Nat) :
    (Call.read count).perform s =
      if s.n + count ≤ s.size then (.ok (), { s with n := s.n + count })
      else (.error (.thrown (.runtimeError "end of stream")), s) := by
  have copied := run_read inside count
  rw [Call.perform, Call.operation]
  by_cases enough : s.n + count ≤ s.size
  · rw [if_pos enough] at copied ⊢
    exact run_bind_of_ok copied
  · rw [if_neg enough] at copied ⊢
    exact run_bind_of_error copied

/-! ## What a call keeps -/

/-- Behind the call the cursor is inside of the buffer.  It does not leave the memory of the
vector, and nothing has changed if it stops. -/
structure KeepsCursor (s : Stream) (call : Call) : Prop where
  inside : (call.perform s).2.n ≤ (call.perform s).2.size
  memory : (call.perform s).1 ≠ .error .outside
  unchanged : ∀ fault, (call.perform s).1 = .error fault → (call.perform s).2 = s

/-- The bytes that `remove_first` removes end before the cursor, or there are enough bytes
behind them for a cursor that stays where it is. -/
def Careful (s : Stream) : Call → Prop
  | .removeFirst n => s.size < n ∨ n ≤ s.n ∨ s.n + n ≤ s.size
  | _ => True

/-- A call that changes the stream only when a condition holds. -/
theorem keepsCursor_iff_of_perform {s next : Stream} {call : Call} {guard : Prop}
    [Decidable guard] {fault : Fault}
    (perform : call.perform s = if guard then (.ok (), next) else (.error fault, s))
    (known : fault ≠ .outside) (inside : s.n ≤ s.size) :
    KeepsCursor s call ↔ (guard → next.n ≤ next.size) := by
  by_cases held : guard
  · rw [if_pos held] at perform
    constructor
    · intro keeps _
      have behind := keeps.inside
      rwa [perform] at behind
    · intro nextInside
      constructor
      · rw [perform]
        exact nextInside held
      · rw [perform]
        exact nofun
      · rw [perform]
        exact nofun
  · rw [if_neg held] at perform
    apply iff_of_true
    · constructor
      · rw [perform]
        exact inside
      · rw [perform]
        exact fun same => known (Except.error.inj same)
      · rw [perform]
        exact fun _ _ => rfl
    · exact fun guarded => absurd guarded held

/-- From a cursor inside of the buffer, exactly the careful calls keep it there. -/
theorem keepsCursor_iff_careful {s : Stream} (inside : s.n ≤ s.size) (call : Call) :
    KeepsCursor s call ↔ Careful s call := by
  cases call with
  | write bytes room =>
      rw [keepsCursor_iff_of_perform (perform_write inside bytes room) nofun inside]
      exact iff_of_true (fun _ => Stream.write_inside inside bytes) trivial
  | read count =>
      rw [keepsCursor_iff_of_perform (perform_read inside count) nofun inside]
      exact iff_of_true id trivial
  | move offset =>
      rw [keepsCursor_iff_of_perform (perform_move s offset) nofun inside]
      exact iff_of_true id trivial
  | moveTo offset =>
      rw [keepsCursor_iff_of_perform (perform_moveTo s offset) nofun inside]
      exact iff_of_true id trivial
  | remove n =>
      rw [keepsCursor_iff_of_perform (perform_remove inside n) nofun inside]
      apply iff_of_true _ trivial
      intro enough
      simp only [Stream.size, List.length_append, List.length_take, List.length_drop] at inside ⊢
      omega
  | removeFirst n =>
      rw [keepsCursor_iff_of_perform (perform_removeFirst s n) nofun inside, Careful]
      split <;> simp only [Stream.size, List.length_drop] at inside ⊢ <;> omega

/-- The calls of a run of a new stream keep its cursor exactly if all of them are careful. -/
theorem cursor_kept_iff (calls : List Call) :
    (∀ p ∈ trail (fun s call => (Call.perform call s).2) Stream.empty calls,
        KeepsCursor p.1 p.2) ↔
      ∀ p ∈ trail (fun s call => (Call.perform call s).2) Stream.empty calls,
        Careful p.1 p.2 := by
  apply forall_trail_iff fun s => s.n ≤ s.size
  · intro s call inside
    exact keepsCursor_iff_careful inside call
  · intro s call _ keeps
    exact keeps.inside
  · exact Nat.le_refl 0

/-- Removing four bytes around the cursor leaves the cursor behind an empty buffer. -/
theorem cursor_kept_fails :
    ¬ ∀ calls, ∀ p ∈ trail (fun s call => (Call.perform call s).2) Stream.empty calls,
      KeepsCursor p.1 p.2 := by
  intro keeps
  have kept := (keeps [.write [1, 2, 3, 4] true, .moveTo 2, .removeFirst 4]
    (⟨[1, 2, 3, 4], 2⟩, .removeFirst 4) (by decide)).inside
  exact absurd kept (by decide)

end BufferStream

end IotChain
