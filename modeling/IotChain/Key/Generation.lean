import IotChain.Key.Verification
import Mathlib.Data.Nat.Digits.Lemmas

/-!
# Generated secrets

A new key pair copies the bytes of its private exponent into the secret, the least
significant byte first.  The curve library reads a secret from the most significant byte
on, so it reads the exponent only when the bytes are the same from both ends.
-/

namespace IotChain

open IotChain.Bytes IotChain.Secp256k1

/-- `Integer::ByteCount`. -/
def byteCount (exp : Nat) : Nat := (Nat.digits 256 exp).length

/-- `Integer::GetByte`. -/
def getByte (exp n : Nat) : UInt8 := UInt8.ofNat (exp / 256 ^ n)

/-- One round of the loop of `KeyPair::KeyPair`, with nothing when it writes behind the
array. -/
def storeByte (exp : Nat) (first : Crypto.SecretKey) (i : Nat) : Option Crypto.SecretKey :=
  if inside : i < 32 then some (first.set ⟨i, inside⟩ (getByte exp i)) else none

/-- The secret that `KeyPair::KeyPair` stores for an exponent. -/
def storeExponent (exp : Nat) : Option Crypto.SecretKey :=
  (List.range (byteCount exp)).foldlM (storeByte exp) (zeroBytes 32)

/-- The bytes of the exponent are the same from both ends. -/
def Mirrored (exp : Nat) : Prop := ∀ i < 32, getByte exp i = getByte exp (31 - i)

/-! ## What the loop stores -/

/-- The array after the rounds before a count. -/
def storedBytes (exp count : Nat) : Crypto.SecretKey :=
  List.Vector.ofFn fun i => if i < count then getByte exp i else 0

theorem storeByte_storedBytes (exp : Nat) {count : Nat} (inside : count < 32) :
    storeByte exp (storedBytes exp count) count = some (storedBytes exp (count + 1)) := by
  rw [storeByte, dif_pos inside]
  congr 1
  apply List.Vector.ext
  intro i
  by_cases now : i = ⟨count, inside⟩
  · rw [now, List.Vector.get_set_same]
    simp [storedBytes]
  · have other : (i : Nat) ≠ count := fun same => now (Fin.ext same)
    rw [List.Vector.get_set_of_ne (Ne.symm now)]
    simp only [storedBytes, List.Vector.get_ofFn]
    have sameSide : (i : Nat) < count + 1 ↔ (i : Nat) < count := by omega
    simp only [sameSide]

theorem storeExponent_rounds (exp : Nat) {count : Nat} (inside : count ≤ 32) :
    (List.range count).foldlM (storeByte exp) (zeroBytes 32) = some (storedBytes exp count) := by
  induction count with
  | zero => rfl
  | succ count ih =>
      rw [List.range_succ, List.foldlM_append, ih (Nat.le_of_succ_le inside)]
      simp [storeByte_storedBytes exp inside]

/-- The bytes from the count on are zero. -/
theorem getByte_of_le {exp n : Nat} (behind : byteCount exp ≤ n) : getByte exp n = 0 := by
  have small : exp < 256 ^ n :=
    Nat.lt_of_lt_of_le (Nat.lt_base_pow_length_digits (by decide))
      (Nat.pow_le_pow_right (by decide) behind)
  rw [getByte, Nat.div_eq_of_lt small]
  rfl

/-- An exponent is stored as a whole, least significant byte first. -/
theorem storeExponent_eq {exp : Nat} (fits : exp < 256 ^ 32) :
    storeExponent exp = some ⟨encodeLE 32 exp, length_encodeLE 32 exp⟩ := by
  have inside : byteCount exp ≤ 32 := (Nat.digits_length_le_iff (by decide) exp).mpr fits
  rw [storeExponent, storeExponent_rounds exp inside]
  congr 1
  apply List.Vector.toList_injective
  change (storedBytes exp (byteCount exp)).toList = encodeLE 32 exp
  apply List.ext_getElem
  · simp
  · intro i _ _
    rw [getElem_encodeLE]
    simp only [storedBytes, List.Vector.toList_ofFn, List.getElem_ofFn]
    split
    · rfl
    · next behind => exact (getByte_of_le (Nat.le_of_not_lt behind)).symm

/-! ## What is read -/

theorem decodeBE_encodeLE_iff {exp : Nat} (fits : exp < 256 ^ 32) :
    decodeBE (encodeLE 32 exp) = exp ↔ Mirrored exp := by
  have length : (encodeLE 32 exp).length = 32 := length_encodeLE 32 exp
  rw [decodeBE_eq_iff (by rwa [length]), length, encodeBE]
  constructor
  · intro same i inside
    have bytes := List.getElem_of_eq same (by rwa [length])
    rw [List.getElem_reverse, getElem_encodeLE, getElem_encodeLE] at bytes
    simpa [getByte] using bytes
  · intro mirrored
    apply List.ext_getElem
    · rw [List.length_reverse]
    · intro i bound _
      rw [length] at bound
      rw [List.getElem_reverse, getElem_encodeLE, getElem_encodeLE]
      simpa [getByte] using mirrored i bound

/-- The stored secret is read as the exponent, and accepted, exactly if the bytes of the
exponent are the same from both ends. -/
theorem storeExponent_denotes_iff (curve : Curve) {exp : Nat} (positive : 1 ≤ exp)
    (below : exp < order) :
    (∃ secret, storeExponent exp = some secret ∧ decodeBE secret.toList = exp ∧
        (pubkeyCreate curve secret).1 = true) ↔
      Mirrored exp := by
  have fits : exp < 256 ^ 32 := Nat.lt_trans below (by decide)
  rw [← decodeBE_encodeLE_iff fits, storeExponent_eq fits]
  constructor
  · rintro ⟨secret, same, denotes, _⟩
    cases same
    exact denotes
  · intro denotes
    have valid : ValidSecret ⟨encodeLE 32 exp, length_encodeLE 32 exp⟩ := by
      change 0 < decodeBE (encodeLE 32 exp) ∧ decodeBE (encodeLE 32 exp) < order
      rw [denotes]
      exact ⟨positive, below⟩
    exact ⟨_, rfl, denotes, (pubkeyCreate_iff curve _).mpr valid⟩

/-- The exponent whose lowest and highest byte are one is read as it is. -/
theorem storeExponent_denotes_iff_ends :
    (∃ secret, storeExponent (256 ^ 31 + 1) = some secret ∧
        decodeBE secret.toList = 256 ^ 31 + 1 ∧
        (pubkeyCreate SampleTransaction.curve secret).1 = true) ↔
      Mirrored (256 ^ 31 + 1) :=
  storeExponent_denotes_iff _ (by decide) (by decide)

/-- The exponent one is stored with its only byte in front. -/
theorem storeExponent_denotes_fails :
    ¬ ∃ curve : Curve, ∀ exp, 1 ≤ exp → exp < order →
      ∃ secret, storeExponent exp = some secret ∧ decodeBE secret.toList = exp ∧
        (pubkeyCreate curve secret).1 = true := by
  rintro ⟨curve, denoted⟩
  obtain ⟨secret, same, denotes, _⟩ := denoted 1 (by decide) (by decide)
  rw [storeExponent_eq (by decide)] at same
  cases same
  exact absurd denotes (by decide)

end IotChain
