import IotChain.Stream.Cursor

/-!
# Undoing writes

`write` inserts at the cursor and `remove` erases in front of it.  So what was written can
be removed again or read back, in the middle of a stream as well, and many writes can be
undone in reverse order.
-/

namespace IotChain

open IotChain.Transition

namespace BufferStream

/-! ## One write -/

section Write

variable {s : Stream} (bytes : List UInt8)

theorem run_write (inside : s.n ≤ s.size) :
    (write bytes true).run s = (.ok (), s.write bytes) := by
  have performed := perform_write inside bytes true
  rwa [if_pos rfl] at performed

/-- The bytes around the cursor stay in order around what is written. -/
theorem exists_around (inside : s.n ≤ s.size) :
    ∃ before after, s = ⟨before ++ after, before.length⟩ ∧
      s.write bytes = ⟨before ++ bytes ++ after, before.length + bytes.length⟩ := by
  have length : (s.buf.take s.n).length = s.n := List.length_take_of_le inside
  refine ⟨s.buf.take s.n, s.buf.drop s.n, ?_, ?_⟩
  · rw [List.take_append_drop, length]
  · rw [length]
    rfl

/-- `remove` erases what was written. -/
theorem run_remove_write (inside : s.n ≤ s.size) :
    (remove bytes.length).run (s.write bytes) = (.ok (), s) := by
  have enough : bytes.length ≤ (s.write bytes).n := Nat.le_add_left _ _
  have performed := perform_remove (Stream.write_inside inside bytes) bytes.length
  rw [if_pos enough] at performed
  rcases exists_around bytes inside with ⟨before, after, same, written⟩
  have front : (before ++ bytes ++ after).take before.length = before := by
    rw [List.append_assoc]
    exact List.take_left' rfl
  have back : (before ++ bytes ++ after).drop (before.length + bytes.length) = after :=
    List.drop_left' List.length_append
  refine performed.trans ?_
  rw [written, Nat.add_sub_cancel, front, back, ← same]

theorem run_move {offset : Int64} {n : Nat} (target : moved s.n offset = n)
    (inside : n ≤ s.size) :
    (move offset).run s = (.ok (), { s with n := n }) := by
  have performed := perform_move s offset
  rw [target, if_pos inside] at performed
  exact performed

/-- Moving back over what was written. -/
theorem moved_back {n count : Nat} (small : n < 2 ^ 64) :
    moved (n + count) (-Int64.ofNat count) = n := by
  have cancelled : UInt64.ofNat (n + count) + (-Int64.ofNat count).toUInt64 = UInt64.ofNat n := by
    rw [UInt64.ofNat_add, Int64.toUInt64_neg, Int64.toUInt64_ofNat', UInt64.add_neg_eq_sub,
      UInt64.add_sub_cancel]
  rw [moved, cancelled, UInt64.toNat_ofNat', Nat.mod_eq_of_lt small]

/-- `read` copies what is known to be next. -/
theorem run_read_append (before after : List UInt8) :
    (read bytes.length).run ⟨before ++ bytes ++ after, before.length⟩ =
      (.ok bytes, ⟨before ++ bytes ++ after, before.length + bytes.length⟩) := by
  have enough : before.length + bytes.length ≤ (before ++ bytes ++ after).length := by
    rw [List.length_append, List.length_append]
    exact Nat.le_add_right _ _
  have next : ((before ++ bytes ++ after).drop before.length).take bytes.length = bytes := by
    rw [List.append_assoc, List.drop_left, List.take_left]
  have inside : before.length ≤ (before ++ bytes ++ after).length :=
    Nat.le_trans (Nat.le_add_right _ _) enough
  have copied := run_read (s := ⟨before ++ bytes ++ after, before.length⟩) inside bytes.length
  refine copied.trans ((if_pos enough).trans ?_)
  exact congrArg (fun copied => (Except.ok copied, _)) next

end Write

/-- What a write can be followed by: `remove` takes it back, moving back and reading returns it,
and what was around the cursor is in order around it. -/
structure WriteUndone (s : Stream) (bytes : List UInt8) : Prop where
  removed : (do write bytes true; remove bytes.length : Operation Unit).run s = (.ok (), s)
  reread : (do write bytes true; move (-Int64.ofNat bytes.length); read bytes.length).run s =
    (.ok bytes, s.write bytes)
  around : ((write bytes true).run s).2 =
    ⟨s.buf.take s.n ++ bytes ++ s.buf.drop s.n, s.n + bytes.length⟩

theorem writeUndone {s : Stream} (inside : s.n ≤ s.size) (addressed : s.size < 2 ^ 64)
    (bytes : List UInt8) : WriteUndone s bytes := by
  have written := run_write bytes inside
  constructor
  · rw [run_bind_of_ok written]
    exact run_remove_write bytes inside
  · rcases exists_around bytes inside with ⟨before, after, rfl, same⟩
    have back : moved (before.length + bytes.length) (-Int64.ofNat bytes.length) = before.length :=
      moved_back (Nat.lt_of_le_of_lt inside addressed)
    have size : before.length ≤ (before ++ bytes ++ after).length := by
      rw [List.append_assoc, List.length_append]
      exact Nat.le_add_right _ _
    rw [same] at written ⊢
    have moved := run_move (s := ⟨before ++ bytes ++ after, _⟩) back size
    refine (run_bind_of_ok written).trans ((run_bind_of_ok moved).trans ?_)
    exact run_read_append bytes before after
  · rw [written]
    rfl

/-! ## Many writes -/

/-- A write at the cursor, or a move of the cursor between two writes. -/
inductive Edit
  | write (bytes : List UInt8)
  | moveTo (offset : Nat)
  deriving DecidableEq, Repr

/-- The method that makes the edit.  There is room for what it writes. -/
def Edit.perform : Edit → Operation Unit
  | write bytes => BufferStream.write bytes true
  | moveTo offset => BufferStream.moveTo offset

/-- What undoes an edit of a stream. -/
def Edit.undo (before : Stream) : Edit → Operation Unit
  | write bytes => remove bytes.length
  | moveTo _ => BufferStream.moveTo before.n

theorem undone_of_edit {s next : Stream} (edit : Edit) (inside : s.n ≤ s.size)
    (run : edit.perform.run s = (.ok (), next)) :
    next.n ≤ next.size ∧ (edit.undo s).run next = (.ok (), s) := by
  cases edit with
  | write bytes =>
      obtain rfl : s.write bytes = next :=
        (Prod.mk.inj ((run_write bytes inside).symm.trans run)).2
      exact ⟨Stream.write_inside inside bytes, run_remove_write bytes inside⟩
  | moveTo offset =>
      have moves := (perform_moveTo s offset).symm.trans run
      by_cases target : offset ≤ s.size
      · rw [if_pos target] at moves
        obtain rfl : { s with n := offset } = next := (Prod.mk.inj moves).2
        exact ⟨target, (perform_moveTo { s with n := offset } s.n).trans (if_pos inside)⟩
      · rw [if_neg target] at moves
        cases (Prod.mk.inj moves).1

/-- Writes alone always return. -/
theorem run_writes (blocks : List (List UInt8)) {s : Stream} (inside : s.n ≤ s.size) :
    (actAll Edit.perform (blocks.map .write)).run s = (.ok (), s.write blocks.flatten) := by
  induction blocks generalizing s with
  | nil => rw [List.flatten_nil, Stream.write_nil]; rfl
  | cons bytes blocks ih =>
      rw [List.flatten_cons, ← Stream.write_write inside]
      exact (run_bind_of_ok (run_write bytes inside)).trans (ih (Stream.write_inside inside bytes))

/-- Every write at a cursor inside of the buffer can be undone and read back.  So any writes
that are undone in reverse order restore the stream, and any edits if they return. -/
theorem writes_undone (s : Stream) (inside : s.n ≤ s.size) (addressed : s.size < 2 ^ 64) :
    (∀ bytes, WriteUndone s bytes) ∧
      (∀ blocks : List (List UInt8),
        (thereAndBack Edit.perform Edit.undo (blocks.map .write)).run s = (.ok (), s)) ∧
      ∀ edits last, (actAll Edit.perform edits).run s = (.ok (), last) →
        (thereAndBack Edit.perform Edit.undo edits).run s = (.ok (), s) := by
  have undone {last : Stream} {edits : List Edit}
      (run : (actAll Edit.perform edits).run s = (.ok (), last)) :
      (thereAndBack Edit.perform Edit.undo edits).run s = (.ok (), s) :=
    run_thereAndBack (fun s => s.n ≤ s.size) undone_of_edit inside run
  refine ⟨writeUndone inside addressed, ?_, ?_⟩
  · intro blocks
    exact undone (run_writes blocks inside)
  · intro edits last run
    exact undone run

/-- A write in the middle of two bytes, one in front of them, and both undone. -/
theorem writes_undone_two :
    WriteUndone ⟨[1, 2], 1⟩ [7, 8] ∧
      (thereAndBack Edit.perform Edit.undo [.write [7, 8], .moveTo 0, .write [9]]).run
        ⟨[1, 2], 1⟩ = (.ok (), ⟨[1, 2], 1⟩) := by
  have undone := writes_undone ⟨[1, 2], 1⟩ (by decide) (by decide)
  exact ⟨undone.1 [7, 8], undone.2.2 _ ⟨[9, 1, 7, 8, 2], 1⟩ (by rfl)⟩

end BufferStream

end IotChain
