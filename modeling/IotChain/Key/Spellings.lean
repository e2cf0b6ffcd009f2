import IotChain.Key.Keys

/-!
# The spellings of a signature

A signature is 65 bytes: a flag and two scalars.  `public_key::verify` takes 27 off the flag
and looks at two bits of what is left, so each signature has 64 spellings, of which
`private_key::sign` writes the least.  The scalars have one spelling each.
-/

namespace IotChain

open IotChain.Bytes IotChain.Secp256k1

/-! ## Scalars and compact signatures -/

namespace Secp256k1

/-- Bytes that do not overflow are those of the scalar. -/
theorem Scalar.setB32_eq_iff {b32 : ByteVec 32} {scalar : Scalar} :
    setB32 b32 = (scalar, false) ↔ b32 = scalar.getB32 := by
  constructor
  · intro set
    have number : decodeBE b32.toList % order = scalar.value :=
      congrArg (fun pair : Scalar × Bool => pair.1.value) set
    have below : ¬ order ≤ decodeBE b32.toList := by
      have flag := congrArg Prod.snd set
      exact of_decide_eq_false flag
    rw [Nat.mod_eq_of_lt (Nat.lt_of_not_le below)] at number
    apply List.Vector.toList_injective
    change b32.toList = encodeBE 32 scalar.value
    have written := encodeBE_decodeBE b32.toList
    rw [b32.toList_length, number] at written
    exact written.symm
  · rintro rfl
    exact setB32_getB32 scalar

/-- `secp256k1_ecdsa_recoverable_signature_parse_compact` accepts what is serialized, and
nothing else. -/
theorem parseCompact_eq_iff {input64 : ByteVec 64} {recid : Fin 4} {sig : RecoverableSignature} :
    parseCompact input64 recid = (true, sig) ↔ (input64, recid) = serializeCompact sig := by
  constructor
  · intro parsed
    rcases first : Scalar.setB32 (slice input64.toList 0 32) with ⟨r, overflow⟩
    rcases second : Scalar.setB32 (slice input64.toList 32 32) with ⟨s, overflow'⟩
    rw [parseCompact, first, second] at parsed
    cases overflow with
    | true => cases parsed
    | false =>
        cases overflow' with
        | true => cases parsed
        | false =>
            cases parsed
            have length : input64.toList.length = 64 := input64.toList_length
            rw [Scalar.setB32_eq_iff] at first second
            have whole : input64.toList = r.getB32.toList ++ s.getB32.toList := by
              have rest : (input64.toList.drop 32).length ≤ 32 := by
                rw [List.length_drop, length]
              rw [← first, ← second, toList_slice (by omega), toList_slice (by omega),
                List.drop_zero, List.take_of_length_le rest, List.take_append_drop]
            exact Prod.ext (List.Vector.toList_injective whole) rfl
  · intro same
    have parsed := parseCompact_serializeCompact sig
    rwa [← same] at parsed

end Secp256k1

/-! ## Flags -/

/-- A signature with the flag raised by a multiple of four. -/
def spelling (sig : RecoverableSignature) (k : Fin 64) : Crypto.Signature :=
  let serialized := serializeCompact sig
  ⟨(27 + UInt8.ofNat serialized.2 + UInt8.ofNat (4 * k)) :: serialized.1.toList, by simp⟩

theorem spelling_zero (sig : RecoverableSignature) : spelling sig 0 = signatureBytes sig := by
  apply List.Vector.toList_injective
  change (27 + UInt8.ofNat sig.recid + 0) :: _ = (27 + UInt8.ofNat sig.recid) :: _
  rw [UInt8.add_zero]

/-- The flags that have the same two bits. -/
theorem flag_iff (flag : UInt8) (recid : Fin 4) :
    ((flag - 27) &&& 3).toNat = recid ↔
      ∃ k : Fin 64, flag = 27 + UInt8.ofNat recid + UInt8.ofNat (4 * k) := by
  have low (byte : UInt8) : (byte &&& 3).toNat = byte.toNat % 4 := by
    rw [UInt8.toNat_and]
    exact Nat.and_two_pow_sub_one_eq_mod byte.toNat 2
  have raised (k : Fin 64) :
      (UInt8.ofNat recid + UInt8.ofNat (4 * k)).toNat = recid + 4 * k := by
    rw [← UInt8.ofNat_add, UInt8.toNat_ofNat']
    exact Nat.mod_eq_of_lt (by omega)
  rw [low]
  constructor
  · intro bits
    have flagLt := (flag - 27).toNat_lt
    refine ⟨⟨(flag - 27).toNat / 4, by omega⟩, ?_⟩
    have rest : UInt8.ofNat recid + UInt8.ofNat (4 * ((flag - 27).toNat / 4)) = flag - 27 := by
      rw [← UInt8.ofNat_add, ← bits, Nat.mod_add_div, UInt8.ofNat_toNat]
    rw [UInt8.add_assoc, rest, UInt8.add_comm, UInt8.sub_add_cancel]
  · rintro ⟨k, rfl⟩
    rw [UInt8.add_assoc, UInt8.add_comm 27, UInt8.add_sub_cancel, raised]
    omega

/-! ## Signatures -/

/-- A signature is its flag and the 64 bytes behind it. -/
theorem signature_eq_iff {sign : Crypto.Signature} {flag : UInt8} {compact : ByteVec 64} :
    sign.toList = flag :: compact.toList ↔
      sign.head = flag ∧ slice sign.toList 1 64 = compact := by
  rcases sign with ⟨_ | ⟨first, rest⟩, length⟩
  · cases length
  · have restLength : rest.length = 64 := Nat.succ.inj length
    have behind : (slice (first :: rest) 1 64).toList = rest := by
      rw [toList_slice (by rw [List.length_cons, restLength]), List.drop_one, List.tail_cons,
        List.take_of_length_le (Nat.le_of_eq restLength)]
    change first :: rest = flag :: compact.toList ↔
      first = flag ∧ slice (first :: rest) 1 64 = compact
    rw [List.cons.injEq]
    constructor
    · rintro ⟨same, same'⟩
      exact ⟨same, List.Vector.toList_injective (behind.trans same')⟩
    · rintro ⟨same, rfl⟩
      exact ⟨same, behind.symm⟩

theorem eq_spelling_iff {sign : Crypto.Signature} {sig : RecoverableSignature} {k : Fin 64} :
    sign = spelling sig k ↔
      sign.head = 27 + UInt8.ofNat sig.recid + UInt8.ofNat (4 * k) ∧
        slice sign.toList 1 64 = (serializeCompact sig).1 := by
  rw [← signature_eq_iff, ← List.Vector.toList_injective.eq_iff]
  rfl

theorem parsed_eq_iff (sign : Crypto.Signature) (sig : RecoverableSignature) :
    PublicKey.parsed sign = (true, sig) ↔ ∃ k, sign = spelling sig k := by
  have recid : PublicKey.recovery sign = sig.recid ↔
      ((sign.head - 27) &&& 3).toNat = sig.recid := Fin.ext_iff
  have pair : (slice sign.toList 1 64, PublicKey.recovery sign) = serializeCompact sig ↔
      slice sign.toList 1 64 = (serializeCompact sig).1 ∧
        PublicKey.recovery sign = sig.recid := Prod.ext_iff
  rw [PublicKey.parsed, parseCompact_eq_iff, pair, recid, flag_iff]
  constructor
  · rintro ⟨compact, k, flag⟩
    exact ⟨k, eq_spelling_iff.mpr ⟨flag, compact⟩⟩
  · rintro ⟨k, same⟩
    rcases eq_spelling_iff.mp same with ⟨flag, compact⟩
    exact ⟨compact, k, flag⟩

theorem spelling_injective (sig : RecoverableSignature) : Function.Injective (spelling sig) := by
  intro k l same
  have flags : 27 + UInt8.ofNat sig.recid + UInt8.ofNat (4 * k) =
      27 + UInt8.ofNat sig.recid + UInt8.ofNat (4 * l) :=
    congrArg (fun sign : Crypto.Signature => sign.head) same
  have raised := congrArg UInt8.toNat ((UInt8.add_right_inj _).mp flags)
  rw [UInt8.toNat_ofNat', UInt8.toNat_ofNat'] at raised
  exact Fin.ext (by omega)

/-- A signature parses exactly if it is one of 64 spellings, of which `private_key::sign` writes
the first, and `public_key::verify` does not tell them apart. -/
theorem spelling_spec (digests : Digests) (curve : Curve) (networkId : UInt8)
    (sig : RecoverableSignature) :
    (∀ sign, PublicKey.parsed sign = (true, sig) ↔ ∃ k, sign = spelling sig k) ∧
    Function.Injective (spelling sig) ∧ spelling sig 0 = signatureBytes sig ∧
    ∀ key hash k, PublicKey.verify digests curve networkId key hash (spelling sig k) =
      PublicKey.verify digests curve networkId key hash (signatureBytes sig) := by
  refine ⟨fun sign => parsed_eq_iff sign sig, spelling_injective sig, spelling_zero sig, ?_⟩
  intro key hash k
  have parsed := (parsed_eq_iff (spelling sig k) sig).mpr ⟨k, rfl⟩
  rw [PublicKey.verify, PublicKey.verify, PublicKey.recovered, PublicKey.recovered, parsed,
    parsed_signatureBytes]

end IotChain
