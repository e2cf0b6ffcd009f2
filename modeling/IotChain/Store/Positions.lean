import Mathlib.Data.List.Nodup
import Mathlib.Data.PEquiv

/-!
# Positions in a list

In a list without duplicates, the entries and their positions determine each other.
-/

namespace IotChain.Store

universe u

variable {α : Type u} [DecidableEq α] {l : List α}

/-- The entry at a position, and back. -/
def positions (distinct : l.Nodup) : Nat ≃. α where
  toFun i := l[i]?
  invFun a := l.idxOf? a
  inv i a := by
    rw [List.idxOf?_eq_some_iff, List.getElem?_eq_some_iff]
    constructor
    · rintro ⟨inside, here, -⟩
      exact ⟨inside, here⟩
    · rintro ⟨inside, here⟩
      refine ⟨inside, here, fun j before same => ?_⟩
      have equal : j = i := (distinct.getElem_inj_iff).mp (same.trans here.symm)
      exact Nat.lt_irrefl j (equal ▸ before)

/-- An entry has a position. -/
theorem exists_position (distinct : l.Nodup) {a : α} (member : a ∈ l) :
    ∃ i, positions distinct i = some a := by
  rcases List.getElem_of_mem member with ⟨i, inside, rfl⟩
  exact ⟨i, List.getElem?_eq_getElem inside⟩

/-- The entries in front of a position. -/
theorem mem_take_iff_position (distinct : l.Nodup) {i n : Nat} {a : α}
    (here : positions distinct i = some a) : a ∈ l.take n ↔ i < n := by
  rw [List.mem_take_iff_getElem]
  constructor
  · rintro ⟨j, inside, same⟩
    have there : positions distinct j = some a :=
      List.getElem?_eq_some_iff.mpr ⟨Nat.lt_of_lt_of_le inside (Nat.min_le_right n _), same⟩
    rw [(positions distinct).inj here there]
    exact Nat.lt_of_lt_of_le inside (Nat.min_le_left n _)
  · intro below
    rcases List.getElem?_eq_some_iff.mp here with ⟨inside, same⟩
    exact ⟨i, Nat.lt_min.mpr ⟨below, inside⟩, same⟩

end IotChain.Store
