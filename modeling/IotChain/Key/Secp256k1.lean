import IotChain.Bytes.BigEndian

/-!
# Recoverable signatures of secp256k1

The functions of the vendored library that the keys call, with the checks on their
scalars and the values that they leave behind when they fail.  The arithmetic on the
curve behind those checks is a `Curve`, which the results take as it comes.
-/

namespace IotChain.Secp256k1

open IotChain.Bytes

/-- The group order. -/
def order : Nat := 0xFFFFFFFFFFFFFFFFFFFFFFFFFFFFFFFEBAAEDCE6AF48A03BBFD25E8CD0364141

/-- `secp256k1_ecdsa_const_p_minus_order`. -/
def pMinusOrder : Nat := 0x14551231950B75FC4402DA1722FC9BAEE

/-- A `secp256k1_scalar`. -/
structure Scalar where
  value : Nat
  lt_order : value < order
  deriving DecidableEq

namespace Scalar

/-- The scalar whose limbs are all zero. -/
def zero : Scalar := ⟨0, by decide⟩

/-- `secp256k1_scalar_set_b32`: the residue modulo the order, and whether the bytes
denote another number. -/
def setB32 (b32 : ByteVec 32) : Scalar × Bool :=
  let number := decodeBE b32.toList
  (⟨number % order, Nat.mod_lt _ (by decide)⟩, order ≤ number)

/-- `secp256k1_scalar_get_b32`. -/
def getB32 (scalar : Scalar) : ByteVec 32 :=
  ⟨encodeBE 32 scalar.value, length_encodeBE _ _⟩

theorem setB32_getB32 (scalar : Scalar) : setB32 scalar.getB32 = (scalar, false) := by
  have fits : scalar.value < 256 ^ 32 :=
    Nat.lt_trans scalar.lt_order (by decide)
  have number : decodeBE scalar.getB32.toList = scalar.value := by
    change decodeBE (encodeBE 32 scalar.value) = scalar.value
    rw [decodeBE_encodeBE, Nat.mod_eq_of_lt fits]
  have inRange : ¬ order ≤ scalar.value := Nat.not_le_of_lt scalar.lt_order
  simp only [setB32, number, Nat.mod_eq_of_lt scalar.lt_order, inRange, decide_false]

end Scalar

/-- A `secp256k1_ecdsa_recoverable_signature`. -/
structure RecoverableSignature where
  r : Scalar
  s : Scalar
  recid : Fin 4
  deriving DecidableEq

namespace RecoverableSignature

/-- The object after `memset(sig, 0, sizeof(*sig))`. -/
def zero : RecoverableSignature := ⟨Scalar.zero, Scalar.zero, 0⟩

end RecoverableSignature

/-- The arithmetic on the curve.  Points come out as `secp256k1_pubkey_save` stores
them. -/
structure Curve where
  /-- `secp256k1_ecmult_gen` of a secret scalar. -/
  generate : Scalar → ByteVec 64
  /-- The rest of `secp256k1_ecdsa_sig_recover` from the coordinate and the parity of
  the nonce point on, for `r`, `s` and the message. -/
  recoverPoint : Nat → Bool → Scalar → Scalar → Scalar → Option (ByteVec 64)
  /-- The loop of `secp256k1_ecdsa_sign_recoverable` over the nonces of
  `secp256k1_nonce_function_rfc6979`, for a message and a valid secret. -/
  signLoop : ByteVec 32 → ByteVec 32 → RecoverableSignature

/-- `secp256k1_ecdsa_recoverable_signature_parse_compact`: its result and the object it
leaves. -/
def parseCompact (input64 : ByteVec 64) (recid : Fin 4) : Bool × RecoverableSignature :=
  let r := Scalar.setB32 (slice input64.toList 0 32)
  let s := Scalar.setB32 (slice input64.toList 32 32)
  if !r.2 && !s.2 then
    (true, ⟨r.1, s.1, recid⟩)
  else
    (false, RecoverableSignature.zero)

/-- `secp256k1_ecdsa_recoverable_signature_serialize_compact`. -/
def serializeCompact (sig : RecoverableSignature) : ByteVec 64 × Fin 4 :=
  (⟨sig.r.getB32.toList ++ sig.s.getB32.toList, by simp⟩, sig.recid)

/-- `secp256k1_ecdsa_sig_recover`. -/
def sigRecover (curve : Curve) (sigr sigs message : Scalar) (recid : Fin 4) :
    Option (ByteVec 64) :=
  let odd := recid.val &&& 1 ≠ 0
  if sigr.value = 0 ∨ sigs.value = 0 then
    none
  else if recid.val &&& 2 ≠ 0 then
    if pMinusOrder ≤ sigr.value then
      none
    else
      curve.recoverPoint (sigr.value + order) odd sigr sigs message
  else
    curve.recoverPoint sigr.value odd sigr sigs message

/-- `secp256k1_ecdsa_recover`: its result and the key it leaves. -/
def recover (curve : Curve) (sig : RecoverableSignature) (msg32 : ByteVec 32) :
    Bool × ByteVec 64 :=
  match sigRecover curve sig.r sig.s (Scalar.setB32 msg32).1 sig.recid with
  | some q => (true, q)
  | none => (false, List.Vector.replicate 64 0)

/-- `secp256k1_ec_pubkey_create`: its result and the key it leaves. -/
def pubkeyCreate (curve : Curve) (seckey : ByteVec 32) : Bool × ByteVec 64 :=
  let sec := Scalar.setB32 seckey
  if !sec.2 && sec.1.value ≠ 0 then
    (true, curve.generate sec.1)
  else
    (false, List.Vector.replicate 64 0)

/-- `secp256k1_ecdsa_sign_recoverable`: its result and the signature it leaves. -/
def signRecoverable (curve : Curve) (msg32 seckey : ByteVec 32) :
    Bool × RecoverableSignature :=
  let sec := Scalar.setB32 seckey
  if !sec.2 && sec.1.value ≠ 0 then
    (true, curve.signLoop msg32 seckey)
  else
    (false, RecoverableSignature.zero)

/-! ## Secrets -/

/-- The bytes denote a scalar that is not zero. -/
def ValidSecret (seckey : ByteVec 32) : Prop :=
  0 < decodeBE seckey.toList ∧ decodeBE seckey.toList < order

/-- The check that the functions of a secret make. -/
theorem setB32_valid_iff (seckey : ByteVec 32) :
    (!(Scalar.setB32 seckey).2 && (Scalar.setB32 seckey).1.value ≠ 0) = true ↔
      ValidSecret seckey := by
  rw [ValidSecret, Scalar.setB32]
  by_cases inRange : decodeBE seckey.toList < order
  · have below : ¬ order ≤ decodeBE seckey.toList := Nat.not_le_of_lt inRange
    simp [Nat.mod_eq_of_lt inRange, inRange, below, Nat.pos_iff_ne_zero]
  · simp [inRange, Nat.le_of_not_lt inRange]

theorem pubkeyCreate_iff (curve : Curve) (seckey : ByteVec 32) :
    (pubkeyCreate curve seckey).1 = true ↔ ValidSecret seckey := by
  rw [← setB32_valid_iff, pubkeyCreate]
  split <;> simp_all

theorem signRecoverable_iff (curve : Curve) (msg32 seckey : ByteVec 32) :
    (signRecoverable curve msg32 seckey).1 = true ↔ ValidSecret seckey := by
  rw [← setB32_valid_iff, signRecoverable]
  split <;> simp_all

/-! ## Failures and the round trip -/

/-- A signature that does not parse leaves the zero signature. -/
theorem parseCompact_failed {input64 : ByteVec 64} {recid : Fin 4}
    (failed : (parseCompact input64 recid).1 = false) :
    (parseCompact input64 recid).2 = RecoverableSignature.zero := by
  rw [parseCompact] at failed ⊢
  by_cases inRange :
      (!(Scalar.setB32 (slice input64.toList 0 32)).2 &&
        !(Scalar.setB32 (slice input64.toList 32 32)).2) = true
  · rw [if_pos inRange] at failed
    cases failed
  · rw [if_neg inRange]

/-- The zero signature does not recover. -/
theorem recover_zero (curve : Curve) (msg32 : ByteVec 32) :
    (recover curve RecoverableSignature.zero msg32).1 = false := by
  rfl

/-- A failing recovery leaves the zero key. -/
theorem recover_failed {curve : Curve} {sig : RecoverableSignature} {msg32 : ByteVec 32}
    (failed : (recover curve sig msg32).1 = false) :
    (recover curve sig msg32).2 = List.Vector.replicate 64 0 := by
  rw [recover] at failed ⊢
  cases recovered : sigRecover curve sig.r sig.s (Scalar.setB32 msg32).1 sig.recid with
  | none => rfl
  | some q =>
      rw [recovered] at failed
      cases failed

/-- Parsing what was serialized gives the signature back. -/
theorem parseCompact_serializeCompact (sig : RecoverableSignature) :
    parseCompact (serializeCompact sig).1 (serializeCompact sig).2 = (true, sig) := by
  have first : slice (serializeCompact sig).1.toList 0 32 = sig.r.getB32 :=
    slice_append [] sig.r.getB32 sig.s.getB32.toList
  have second : slice (serializeCompact sig).1.toList 32 32 = sig.s.getB32 := by
    have part := slice_append sig.r.getB32.toList sig.s.getB32 []
    rwa [List.append_nil, List.Vector.toList_length] at part
  rw [parseCompact, first, second, Scalar.setB32_getB32, Scalar.setB32_getB32]
  rfl

end IotChain.Secp256k1
