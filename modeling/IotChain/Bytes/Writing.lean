import IotChain.Transition.Events

/-!
# Writing into a buffer

A buffer is written to item by item, each at a position of its own.  A position outside is an
error.
-/

namespace IotChain.Bytes

open IotChain.Transition

universe u

variable {α : Type u}

/-- An item is written at a position. -/
def writeAt : Reaction (List α) (α × Nat) := fun buf write =>
  if write.2 < buf.length then some (buf.set write.2 write.1) else none

theorem replay_writeAt_of_lt {buf : List α} {item : α} {i : Nat} (inside : i < buf.length)
    (writes : List (α × Nat)) :
    replay writeAt buf ((item, i) :: writes) = replay writeAt (buf.set i item) writes := by
  rw [replay, List.foldlM_cons, writeAt, if_pos inside]
  rfl

theorem replay_writeAt_of_le {buf : List α} {item : α} {i : Nat} (outside : buf.length ≤ i)
    (writes : List (α × Nat)) : replay writeAt buf ((item, i) :: writes) = none := by
  rw [replay, List.foldlM_cons, writeAt, if_neg (Nat.not_lt_of_le outside)]
  rfl

/-- Items that are written one behind the other replace what was there, and nothing else. -/
theorem replay_zipIdx {before data rest : List α} (room : data.length ≤ rest.length) :
    replay writeAt (before ++ rest) (data.zipIdx before.length) =
      some (before ++ data ++ rest.drop data.length) := by
  induction data generalizing before rest with
  | nil => rw [List.zipIdx_nil, replay_nil, List.append_nil, List.length_nil, List.drop_zero]
  | cons item data ih =>
      rcases rest with _ | ⟨old, rest⟩
      · cases room
      have inside : before.length < (before ++ old :: rest).length := by simp
      have written : (before ++ old :: rest).set before.length item = before ++ [item] ++ rest := by
        simp
      have length : before.length + 1 = (before ++ [item]).length := by simp
      rw [List.zipIdx_cons, replay_writeAt_of_lt inside, written, length,
        ih (Nat.le_of_succ_le_succ room), List.append_assoc before]
      rfl

theorem replay_zipIdx_zero {data buf : List α} (room : data.length ≤ buf.length) :
    replay writeAt buf data.zipIdx = some (data ++ buf.drop data.length) :=
  @replay_zipIdx α [] data buf room

end IotChain.Bytes
