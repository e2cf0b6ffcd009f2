import Mathlib.Data.List.Basic

/-!
# Words that delimit themselves

Two words split when their continuations can only agree if the words stand for the
same thing, and then agree from the same place on.  The rules below compose this
along concatenations, where the later parts may use that the earlier ones agree, as
a list behind its length does.
-/

namespace IotChain.Bytes

universe u v

variable {α : Type u} {left right left' right' : List α} {same same' : Prop}

/-- Continuations of the two words are equal only if `same` holds and the words end at
the same place. -/
def Splits (same : Prop) (left right : List α) : Prop :=
  ∀ rest rest', left ++ rest = right ++ rest' → same ∧ rest = rest'

namespace Splits

theorem nil : Splits True ([] : List α) [] :=
  fun _ _ equal => ⟨trivial, equal⟩

/-- Words of one length split. -/
theorem of_length (length : left.length = right.length) :
    Splits (left = right) left right :=
  fun _ _ equal => List.append_inj equal length

theorem imp (split : Splits same left right) (weaker : same → same') :
    Splits same' left right := by
  intro rest rest' equal
  obtain ⟨agree, restEq⟩ := split rest rest' equal
  exact ⟨weaker agree, restEq⟩

/-- What follows needs to split only if the words in front agree. -/
theorem append (split : Splits same left right)
    (after : same → Splits same' left' right') :
    Splits (same ∧ same') (left ++ left') (right ++ right') := by
  intro rest rest' equal
  rw [List.append_assoc, List.append_assoc] at equal
  obtain ⟨agree, equal⟩ := split _ _ equal
  obtain ⟨agree', restEq⟩ := after agree rest rest' equal
  exact ⟨⟨agree, agree'⟩, restEq⟩

/-- Two lists of one length, written item by item. -/
theorem flatMap {ι : Type v} {encode : ι → List α} {items items' : List ι}
    (split : ∀ item ∈ items, ∀ item' ∈ items',
      Splits (item = item') (encode item) (encode item'))
    (length : items.length = items'.length) :
    Splits (items = items') (items.flatMap encode) (items'.flatMap encode) := by
  induction items generalizing items' with
  | nil =>
      obtain rfl := List.eq_nil_of_length_eq_zero length.symm
      exact nil.imp fun _ => rfl
  | cons item items ih =>
      rcases items' with _ | ⟨item', items'⟩
      · cases length
      · have first := split item List.mem_cons_self item' List.mem_cons_self
        have others := ih
          (fun other member other' member' =>
            split other (List.mem_cons_of_mem item member) other'
              (List.mem_cons_of_mem item' member'))
          (Nat.succ.inj length)
        rw [List.flatMap_cons, List.flatMap_cons]
        apply (first.append fun _ => others).imp
        rintro ⟨rfl, rfl⟩
        rfl

end Splits

end IotChain.Bytes
