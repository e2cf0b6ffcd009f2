import IotChain.VM.Undefined

/-!
# Powers

`Exp` halves its exponent and keeps the intermediate power in an `int`.  The low half of
the power survives this at every level, so the value that the `int` stands for is the one
of the exact power, and what is lost is lost in the last round.
-/

namespace IotChain.VM

/-- The `int` that `Exp` keeps of a power, as an operand of its products. -/
def lowInt (power : UInt64) : UInt64 := (expTemp power).toInt64.toUInt64

/-- For an even exponent the power fits in an `int`.  For an odd one, the high half of the
power before the last round is multiplied by zero. -/
def ExpExact (v1 v2 : UInt64) : Prop :=
  if v2 % 2 = 0 then
    FitsInt32 (v1 ^ v2.toNat).toInt64.toInt
  else
    let before := v1 ^ (v2 / 2).toNat
    2 * v1 * (before - lowInt before) * lowInt before = 0

/-- Whenever a power is squared as an `int` on the way, the square fits. -/
def ExpSquaresFit (v1 v2 : UInt64) : Prop :=
  ∀ k, let rest := (· / 2)^[k] v2
    rest ≠ 0 → rest % 2 = 0 →
      FitsInt32 ((expTemp (v1 ^ (rest / 2).toNat)).toInt *
        (expTemp (v1 ^ (rest / 2).toNat)).toInt)

/-! ## Low halves -/

theorem expTemp_eq (power : UInt64) : expTemp power = power.toInt64.toInt32 := by
  apply Int32.toBitVec.inj
  change power.toBitVec.setWidth 32 = power.toBitVec.signExtend 32
  exact (BitVec.signExtend_eq_setWidth_of_le _ (by decide)).symm

theorem expTemp_mul (v1 v2 : UInt64) : expTemp (v1 * v2) = expTemp v1 * expTemp v2 := by
  rw [expTemp, UInt64.toUInt32_mul, UInt32.toInt32_mul]
  rfl

@[simp]
theorem expTemp_lowInt (power : UInt64) : expTemp (lowInt power) = expTemp power := by
  rw [expTemp_eq, lowInt]
  exact Int32.toInt32_toInt64 (expTemp power)

/-- The high half of a value is all that the `int` loses. -/
theorem sub_lowInt_mul_self (power : UInt64) :
    (power - lowInt power) * (power - lowInt power) = 0 := by
  have same : (lowInt power).toUInt32 = power.toUInt32 :=
    congrArg Int32.toUInt32 (expTemp_lowInt power)
  have low : (power - lowInt power).toUInt32 = 0 := by
    rw [UInt64.toUInt32_sub, same, UInt32.sub_self]
  generalize power - lowInt power = high at low
  have multiple : high.toNat % 2 ^ 32 = 0 := congrArg UInt32.toNat low
  obtain ⟨half, whole⟩ := Nat.dvd_of_mod_eq_zero multiple
  have square : 2 ^ 32 * half * (2 ^ 32 * half) = 2 ^ 64 * (half * half) := by ring
  apply UInt64.toNat_inj.mp
  rw [UInt64.toNat_mul, whole, square, Nat.mul_mod_right]
  rfl

theorem lowInt_eq_iff (power : UInt64) :
    lowInt power = power ↔ FitsInt32 power.toInt64.toInt := by
  have value : (lowInt power).toInt64.toInt = power.toInt64.toInt.bmod (2 ^ 32) := by
    rw [lowInt, expTemp_eq]
    change power.toInt64.toInt32.toInt64.toInt = _
    rw [Int32.toInt_toInt64, Int64.toInt_toInt32]
  have same : lowInt power = power ↔ (lowInt power).toInt64.toInt = power.toInt64.toInt := by
    rw [Int64.toInt_inj]
    exact ⟨congrArg UInt64.toInt64, congrArg Int64.toUInt64⟩
  rw [same, value, FitsInt32]
  rw [Int.bmod_def]
  omega

/-! ## Exponents -/

theorem toNat_pow (v : UInt64) (n : Nat) : (v ^ n).toNat = v.toNat ^ n % 2 ^ 64 := by
  induction n with
  | zero => rfl
  | succ n ih =>
      rw [UInt64.pow_succ, UInt64.toNat_mul, ih, Nat.mod_mul_mod, ← Nat.pow_succ]

theorem pow_add (v : UInt64) (m n : Nat) : v ^ (m + n) = v ^ m * v ^ n := by
  apply UInt64.toNat_inj.mp
  rw [UInt64.toNat_mul, toNat_pow, toNat_pow, toNat_pow, ← Nat.mul_mod, Nat.pow_add]

theorem pow_even (v1 : UInt64) {v2 : UInt64} (even : v2 % 2 = 0) :
    v1 ^ v2.toNat = v1 ^ (v2 / 2).toNat * v1 ^ (v2 / 2).toNat := by
  have parity : v2.toNat % 2 = 0 := congrArg UInt64.toNat even
  have double : v2.toNat = (v2 / 2).toNat + (v2 / 2).toNat := by
    rw [UInt64.toNat_div]
    change _ = v2.toNat / 2 + v2.toNat / 2
    omega
  rw [double, pow_add]

theorem pow_odd (v1 : UInt64) {v2 : UInt64} (odd : ¬ v2 % 2 = 0) :
    v1 ^ v2.toNat = v1 * v1 ^ (v2 / 2).toNat * v1 ^ (v2 / 2).toNat := by
  have parity : v2.toNat % 2 ≠ 0 := fun even => odd (UInt64.toNat_inj.mp even)
  have double : v2.toNat = 1 + (v2 / 2).toNat + (v2 / 2).toNat := by
    rw [UInt64.toNat_div]
    change _ = 1 + v2.toNat / 2 + v2.toNat / 2
    omega
  rw [double, pow_add, pow_add, UInt64.pow_succ, UInt64.pow_zero, UInt64.one_mul]

/-! ## What `Exp` computes -/

/-- One level of the recursion. -/
theorem exp_eq {v1 v2 : UInt64} (nonzero : v2 ≠ 0) :
    exp v1 v2 =
      if v2 % 2 = 0 then lowInt (exp v1 (v2 / 2) * exp v1 (v2 / 2))
      else v1 * lowInt (exp v1 (v2 / 2)) * lowInt (exp v1 (v2 / 2)) := by
  rw [exp_of_ne nonzero, lowInt, expTemp_mul]
  rfl

/-- `Exp` has the low half of the power. -/
theorem expTemp_exp (v1 v2 : UInt64) : expTemp (exp v1 v2) = expTemp (v1 ^ v2.toNat) := by
  induction v2 using exp.induct v1 with
  | case1 =>
      rw [exp]
      rfl
  | case2 v2 nonzero even ih =>
      rw [exp_eq nonzero, if_pos even, expTemp_lowInt, expTemp_mul, ih, ← expTemp_mul,
        pow_even v1 even]
  | case3 v2 nonzero odd ih =>
      rw [exp_eq nonzero, if_neg odd, expTemp_mul, expTemp_mul, expTemp_lowInt, ih,
        pow_odd v1 odd, expTemp_mul, expTemp_mul]

theorem lowInt_exp (v1 v2 : UInt64) : lowInt (exp v1 v2) = lowInt (v1 ^ v2.toNat) := by
  rw [lowInt, expTemp_exp]
  rfl

theorem exp_even (v1 : UInt64) {v2 : UInt64} (even : v2 % 2 = 0) :
    exp v1 v2 = lowInt (v1 ^ v2.toNat) := by
  by_cases zero : v2 = 0
  · rw [zero, exp]
    rfl
  · rw [exp_eq zero, if_pos even, lowInt, expTemp_mul, expTemp_exp, ← expTemp_mul,
      pow_even v1 even]
    rfl

theorem exp_odd (v1 : UInt64) {v2 : UInt64} (odd : ¬ v2 % 2 = 0) :
    exp v1 v2 = v1 * lowInt (v1 ^ (v2 / 2).toNat) * lowInt (v1 ^ (v2 / 2).toNat) := by
  have nonzero : v2 ≠ 0 := by
    rintro rfl
    exact odd rfl
  rw [exp_eq nonzero, if_neg odd, lowInt_exp]

/-- Putting the low half in the place of a factor of a square costs twice the high half. -/
theorem mul_lowInt_eq_iff (v1 before : UInt64) :
    v1 * lowInt before * lowInt before = v1 * before * before ↔
      2 * v1 * (before - lowInt before) * lowInt before = 0 := by
  have square := sub_lowInt_mul_self before
  generalize lowInt before = low at square ⊢
  have cost : v1 * before * before =
      v1 * low * low + 2 * v1 * (before - low) * low +
        v1 * ((before - low) * (before - low)) := by
    grind
  rw [square, UInt64.mul_zero, UInt64.add_zero] at cost
  rw [cost]
  constructor
  · intro same
    exact UInt64.left_eq_add.mp same
  · intro zero
    rw [zero, UInt64.add_zero]

theorem exp_eq_pow_iff (v1 v2 : UInt64) : exp v1 v2 = v1 ^ v2.toNat ↔ ExpExact v1 v2 := by
  rw [ExpExact]
  by_cases even : v2 % 2 = 0
  · rw [if_pos even, exp_even v1 even, lowInt_eq_iff]
  · rw [if_neg even, exp_odd v1 even, pow_odd v1 even]
    exact mul_lowInt_eq_iff v1 _

theorem not_expOverflows_iff (v1 v2 : UInt64) : ¬ ExpOverflows v1 v2 ↔ ExpSquaresFit v1 v2 := by
  simp only [ExpOverflows, ExpSquaresFit, expTemp_exp, not_exists, not_and, not_not]

/-- `Exp` with wrapping `int`s is the power modulo `2 ^ 64` exactly if the power is exact.  It
is the power without leaving anything undefined exactly if its squares fit, too. -/
theorem exp_power_iff (v1 v2 : UInt64) :
    ((exp v1 v2).toNat = v1.toNat ^ v2.toNat % 2 ^ 64 ↔ ExpExact v1 v2) ∧
    ((∃ power, checkedExp v1 v2 = some power ∧
        power.toNat = v1.toNat ^ v2.toNat % 2 ^ 64) ↔
      ExpExact v1 v2 ∧ ExpSquaresFit v1 v2) := by
  have exact : (exp v1 v2).toNat = v1.toNat ^ v2.toNat % 2 ^ 64 ↔ ExpExact v1 v2 := by
    rw [← exp_eq_pow_iff, ← toNat_pow, UInt64.toNat_inj]
  constructor
  · exact exact
  · rw [← not_expOverflows_iff, ← exact]
    rcases checkedExp_cases v1 v2 with ⟨overflows, undefined⟩ | ⟨fits, run⟩
    · rw [undefined]
      apply iff_of_false
      · rintro ⟨power, same, _⟩
        cases same
      · exact fun both => both.2 overflows
    · rw [run]
      constructor
      · rintro ⟨power, same, value⟩
        cases same
        exact ⟨value, fits⟩
      · rintro ⟨value, _⟩
        exact ⟨_, rfl, value⟩

/-- The square of `2 ^ 32 + 1` comes out as one, without any overflow. -/
theorem exp_power_fails :
    ¬ ∀ v1 v2 : UInt64, (exp v1 v2).toNat = v1.toNat ^ v2.toNat % 2 ^ 64 := by
  intro powers
  have square := powers 0x100000001 2
  rw [exp_even _ rfl] at square
  exact absurd square (by decide)

end IotChain.VM
