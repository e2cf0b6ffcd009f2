import Mathlib.Data.List.DropRight
import Mathlib.Data.Nat.Digits.Lemmas
import Mathlib.Tactic.Ring

/-!
# Conversion between bases

A number is converted by multiplying an array of digits by one base and adding the next
digit of the other, over and over.  The multiplication stops as soon as nothing is carried
and the digits behind are known to be zero.
-/

namespace IotChain.Bytes

/-- Multiply digits by `factor` and add `carry`, least significant digit first.  The
digits from `length` on are zero and only looked at while there is a carry.  Next to the
digits comes out where the pass stopped and what it could not carry on. -/
def mulAdd (base factor length : Nat) : Nat → Nat → List Nat → List Nat × Nat × Nat
  | i, carry, [] => ([], i, carry)
  | i, carry, digit :: digits =>
      if carry ≠ 0 ∨ i < length then
        let carry := carry + factor * digit
        let (rest, stop, carried) := mulAdd base factor length (i + 1) (carry / base) digits
        (carry % base :: rest, stop, carried)
      else
        (digit :: digits, i, carry)

/-- The array holds the digits of a number, and zeros from `length` on. -/
structure Holds (base size length value : Nat) (digits : List Nat) : Prop where
  size : digits.length = size
  bound : ∀ digit ∈ digits, digit < base
  value : Nat.ofDigits base digits = value
  zeros : ∀ digit ∈ digits.drop length, digit = 0

theorem holds_replicate {base : Nat} (positive : 0 < base) (size : Nat) :
    Holds base size 0 0 (List.replicate size 0) where
  size := List.length_replicate
  bound := by
    intro digit member
    rwa [List.eq_of_mem_replicate member]
  value := Nat.ofDigits_replicate_zero
  zeros := by
    intro digit member
    rw [List.drop_zero] at member
    exact List.eq_of_mem_replicate member

theorem ofDigits_eq_zero {base : Nat} {digits : List Nat}
    (zeros : ∀ digit ∈ digits, digit = 0) : Nat.ofDigits base digits = 0 := by
  rw [List.eq_replicate_of_mem zeros]
  exact Nat.ofDigits_replicate_zero

/-! ## One pass -/

section Pass

variable {base factor length : Nat}

/-- What a pass makes of the digits from `i` on. -/
structure Passed (base factor i carry : Nat) (digits rest : List Nat) (stop carried : Nat) :
    Prop where
  size : rest.length = digits.length
  bound : ∀ digit ∈ rest, digit < base
  sum : Nat.ofDigits base rest + base ^ digits.length * carried =
    Nat.ofDigits base digits * factor + carry
  le : i ≤ stop
  zeros : ∀ digit ∈ rest.drop (stop - i), digit = 0

/-- A pass may stop in front of zeros when nothing is carried. -/
theorem Passed.done {i : Nat} {digits : List Nat} (bound : ∀ digit ∈ digits, digit < base)
    (zeros : ∀ digit ∈ digits, digit = 0) : Passed base factor i 0 digits digits i 0 where
  size := rfl
  bound := bound
  sum := by
    rw [ofDigits_eq_zero zeros]
    simp
  le := Nat.le_refl i
  zeros := by rwa [Nat.sub_self, List.drop_zero]

/-- A pass over a digit and then over the rest. -/
theorem Passed.cons (positive : 0 < base) {i carry digit : Nat} {digits rest : List Nat}
    {stop carried : Nat}
    (passed : Passed base factor (i + 1) ((carry + factor * digit) / base) digits rest stop
      carried) :
    Passed base factor i carry (digit :: digits) ((carry + factor * digit) % base :: rest) stop
      carried where
  size := congrArg (· + 1) passed.size
  bound := List.forall_mem_cons.mpr ⟨Nat.mod_lt _ positive, passed.bound⟩
  sum := by
    have split := Nat.mod_add_div (carry + factor * digit) base
    rw [Nat.ofDigits_cons, Nat.ofDigits_cons, List.length_cons, Nat.pow_succ']
    calc _ = (carry + factor * digit) % base +
            base * (Nat.ofDigits base rest + base ^ digits.length * carried) := by ring
      _ = (carry + factor * digit) % base + base * ((carry + factor * digit) / base) +
            base * (Nat.ofDigits base digits * factor) := by
          rw [passed.sum]
          ring
      _ = _ := by
          rw [split]
          ring
  le := Nat.le_of_succ_le passed.le
  zeros := by
    have le := passed.le
    rw [show stop - i = stop - (i + 1) + 1 by omega, List.drop_succ_cons]
    exact passed.zeros

/-- The zeros from `length` on are still there behind the first digit. -/
theorem zeros_tail {i digit : Nat} {digits : List Nat}
    (zeros : ∀ other ∈ (digit :: digits).drop (length - i), other = 0) :
    ∀ other ∈ digits.drop (length - (i + 1)), other = 0 := by
  intro other member
  apply zeros
  rw [Nat.sub_add_eq] at member
  generalize length - i = room at member ⊢
  cases room with
  | zero => exact List.mem_cons_of_mem digit member
  | succ room => exact member

theorem passed_mulAdd (positive : 0 < base) {i carry : Nat} {digits : List Nat}
    (bound : ∀ digit ∈ digits, digit < base)
    (zeros : ∀ digit ∈ digits.drop (length - i), digit = 0) {rest : List Nat}
    {stop carried : Nat} (pass : mulAdd base factor length i carry digits = (rest, stop, carried)) :
    Passed base factor i carry digits rest stop carried := by
  induction digits generalizing i carry rest stop carried with
  | nil =>
      cases pass
      exact ⟨rfl, bound, by simp, Nat.le_refl i, by simp⟩
  | cons digit digits ih =>
      rw [mulAdd] at pass
      by_cases goesOn : carry ≠ 0 ∨ i < length
      · rw [if_pos goesOn] at pass
        rcases next : mulAdd base factor length (i + 1) ((carry + factor * digit) / base) digits
          with ⟨tail, last, left⟩
        simp only [next] at pass
        cases pass
        have tailBound : ∀ other ∈ digits, other < base :=
          fun other member => bound other (List.mem_cons_of_mem _ member)
        exact (ih tailBound (zeros_tail zeros) next).cons positive
      · rw [if_neg goesOn] at pass
        cases pass
        obtain rfl : carry = 0 := by omega
        rw [show length - i = 0 by omega, List.drop_zero] at zeros
        exact .done bound zeros

/-- A pass keeps the digits in order, as long as the number fits. -/
theorem Holds.mulAdd (positive : 0 < base) {size value carry : Nat} {digits : List Nat}
    (holds : Holds base size length value digits)
    (fits : value * factor + carry < base ^ size) :
    ∃ rest stop, Bytes.mulAdd base factor length 0 carry digits = (rest, stop, 0) ∧
      Holds base size stop (value * factor + carry) rest := by
  rcases pass : Bytes.mulAdd base factor length 0 carry digits with ⟨rest, stop, carried⟩
  have passed := passed_mulAdd positive holds.bound
    (by rw [Nat.sub_zero]; exact holds.zeros) pass
  have sum := passed.sum
  rw [holds.size, holds.value] at sum
  have none : carried = 0 := by
    by_contra some
    have large := Nat.le_mul_of_pos_right (base ^ size) (Nat.pos_of_ne_zero some)
    omega
  subst none
  refine ⟨rest, stop, rfl, passed.size.trans holds.size, passed.bound, ?_, passed.zeros⟩
  omega

end Pass

/-! ## The digits in use -/

/-- Digits without their leading zeros are the digits of their number. -/
theorem rdropWhile_zeros {base : Nat} (large : 1 < base) {digits : List Nat}
    (bound : ∀ digit ∈ digits, digit < base) :
    digits.rdropWhile (· = 0) = Nat.digits base (Nat.ofDigits base digits) := by
  induction digits using List.reverseRecOn with
  | nil => simp
  | append_singleton digits digit ih =>
      by_cases zero : digit = 0
      · rw [List.rdropWhile_concat_pos _ _ _ (by simpa using zero), zero,
          Nat.ofDigits_append_zero]
        exact ih fun other member => bound other (List.mem_append_left _ member)
      · rw [List.rdropWhile_concat_neg _ _ _ (by simpa using zero),
          Nat.digits_ofDigits base large _ bound]
        intro nonempty
        simpa using zero

/-- Most significant digit first, what is left of the array when leading zeros are
skipped. -/
theorem Holds.significant {base size length value : Nat} (large : 1 < base)
    {digits : List Nat} (holds : Holds base size length value digits) :
    (digits.take length).reverse.dropWhile (· = 0) = (Nat.digits base value).reverse := by
  have used : Nat.ofDigits base (digits.take length) = value := by
    have whole := holds.value
    rwa [← List.take_append_drop length digits, Nat.ofDigits_append,
      ofDigits_eq_zero holds.zeros, Nat.mul_zero, Nat.add_zero] at whole
  have bound : ∀ digit ∈ digits.take length, digit < base :=
    fun digit member => holds.bound digit (List.mem_of_mem_take member)
  rw [← used, ← rdropWhile_zeros large bound, List.rdropWhile, List.reverse_reverse]

/-- Most significant digit first, digits that do not start with zero are the digits of
their number. -/
theorem reverse_digits_ofDigits {base : Nat} (large : 1 < base) {digits : List Nat}
    (bound : ∀ digit ∈ digits, digit < base) (start : ∀ digit ∈ digits.head?, digit ≠ 0) :
    (Nat.digits base (Nat.ofDigits base digits.reverse)).reverse = digits := by
  rw [Nat.digits_ofDigits base large, List.reverse_reverse]
  · intro digit member
    exact bound digit (List.mem_reverse.mp member)
  · intro nonempty
    apply start
    rw [← List.getLast?_reverse, List.getLast?_eq_getLast_of_ne_nil nonempty]
    rfl

/-! ## Room for the digits -/

/-- The number that digits denote, most significant digit first. -/
def horner (base : Nat) (value : Nat) (digits : List Nat) : Nat :=
  digits.foldl (fun value digit => value * base + digit) value

theorem horner_zero (base : Nat) (digits : List Nat) :
    horner base 0 digits = Nat.ofDigits base digits.reverse := by
  rw [horner, Nat.ofDigits_eq_foldr, List.foldr_reverse]
  congr 1
  funext value digit
  simp only [Nat.cast_id]
  ring

/-- One more digit does not fill the room for `n` digits before they are all there. -/
theorem horner_step_lt {factor value digit k n : Nat} (valueLt : value < factor ^ k)
    (digitLt : digit < factor) (le : k + 1 ≤ n) : value * factor + digit < factor ^ n := by
  calc value * factor + digit < value * factor + factor := Nat.add_lt_add_left digitLt _
    _ = (value + 1) * factor := by ring
    _ ≤ factor ^ k * factor := Nat.mul_le_mul_right factor valueLt
    _ = factor ^ (k + 1) := (Nat.pow_succ factor k).symm
    _ ≤ factor ^ n := Nat.pow_le_pow_right (Nat.zero_lt_of_lt digitLt) le

/-- If `q` digits of one base have room for `p` of the other, so it is in proportion. -/
theorem pow_lt_of_ratio {a b p q : Nat} (positive : 0 < p) (large : 1 < b)
    (ratio : a ^ p ≤ b ^ q) (n : Nat) : a ^ n < b ^ (n * q / p + 1) := by
  apply lt_of_pow_lt_pow_left₀ p (Nat.zero_le _)
  have room : n * q < (n * q / p + 1) * p := by
    rw [Nat.mul_comm _ p, Nat.mul_add, Nat.mul_one]
    exact Nat.lt_mul_div_succ (n * q) positive
  calc (a ^ n) ^ p = (a ^ p) ^ n := by rw [← Nat.pow_mul, Nat.mul_comm, Nat.pow_mul]
    _ ≤ (b ^ q) ^ n := Nat.pow_le_pow_left ratio n
    _ = b ^ (n * q) := by rw [← Nat.pow_mul, Nat.mul_comm]
    _ < b ^ ((n * q / p + 1) * p) := Nat.pow_lt_pow_right large room
    _ = (b ^ (n * q / p + 1)) ^ p := Nat.pow_mul _ _ _

end IotChain.Bytes
