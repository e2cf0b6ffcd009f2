import IotChain.Chain.Hashing
import IotChain.Key.Secp256k1

/-!
# Keys and addresses

An address is a type byte, the hash of a public key and a checksum.  The digests come
from a library that is not part of the repository, so they are arbitrary functions
into byte arrays of their sizes.
-/

namespace IotChain

open IotChain.Bytes IotChain.Secp256k1

/-- The digests of the cryptographic library. -/
structure Digests where
  sha256 : List UInt8 → Crypto.Hash
  ripemd160 : List UInt8 → Crypto.Hash160

namespace Crypto

variable (digests : Digests)

/-- `Crypto::hash160`. -/
def hash160 (data : List UInt8) (c : UInt8) : Hash160 :=
  let shaDigest := digests.sha256 (sha256Update (sha256Update [] [c]) data)
  digests.ripemd160 shaDigest.toList

/-- `Crypto::calculate_checksum` of some bytes and their type. -/
def calculateChecksum (data : List UInt8) (n : UInt8) : UInt32 :=
  let shaDigest := digests.sha256 (sha256Update (sha256Update [] [n]) data)
  let shaDigest := digests.sha256 shaDigest.toList
  UInt32.ofNat (decodeLE (shaDigest.toList.take 4))

end Crypto

/-! ## Types -/

/-- `enum KeyType`. -/
inductive KeyType
  | accountPublicKey
  | smartContractPublicKey
  | accountPrivateKey
  | smartContractPrivateKey
  deriving DecidableEq, Repr

/-- The value of the enumerator, which is the type byte of a key. -/
def KeyType.value : KeyType → UInt8
  | accountPublicKey => 0
  | smartContractPublicKey => 87
  | accountPrivateKey => 128
  | smartContractPrivateKey => 28

/-- How a function ends that does not return: with an exception or with a failed
assertion. -/
inductive Halt
  | thrown
  | aborted
  deriving DecidableEq, Repr

/-- The bytes of a `private_key` and its type. -/
structure PrivateKey where
  secret : Crypto.SecretKey
  keyType : KeyType

section Functions

variable (digests : Digests) (curve : Curve) (networkId : UInt8)

/-! ## Private keys -/

/-- The address of a key of the library: what `create_public_key` assembles. -/
def address (type : UInt8) (pubKey : ByteVec 64) : Crypto.PublicKey :=
  let hash160 := Crypto.hash160 digests pubKey.toList networkId
  let checksum := Crypto.calculateChecksum digests hash160.toList type
  ⟨type :: (hash160.toList ++ encodeLE 4 checksum.toNat), by simp⟩

/-- `private_key::create_public_key`, with nothing when its assertion fails. -/
def PrivateKey.createPublicKey (key : PrivateKey) : Option Crypto.PublicKey :=
  let pubKeyType :=
    if key.keyType = .smartContractPrivateKey then KeyType.smartContractPublicKey
    else KeyType.accountPublicKey
  let created := pubkeyCreate curve key.secret
  if created.1 then
    some (address digests networkId pubKeyType.value created.2)
  else
    none

/-- The bytes that `private_key::sign` fills from a signature of the library. -/
def signatureBytes (sig : RecoverableSignature) : Crypto.Signature :=
  let serialized := serializeCompact sig
  ⟨(27 + UInt8.ofNat serialized.2) :: serialized.1.toList, by simp⟩

/-- `private_key::sign`, with nothing when its assertions fail. -/
def PrivateKey.sign (key : PrivateKey) (hash : Crypto.Hash) : Option Crypto.Signature :=
  let signed := signRecoverable curve hash key.secret
  if signed.1 then
    some (signatureBytes signed.2)
  else
    none

/-! ## Public keys -/

namespace PublicKey

/-- `public_key::checksum`. -/
def checksum (key : Crypto.PublicKey) : UInt32 :=
  UInt32.ofNat (decodeLE (slice key.toList 21 4).toList)

/-- The recovery number in the first byte of a signature. -/
def recovery (sign : Crypto.Signature) : Fin 4 :=
  let flagByte := sign.head - 27
  ⟨(flagByte &&& 3).toNat, by
    rw [UInt8.toNat_and]
    exact Nat.and_lt_two_pow _ (show (3 : UInt8).toNat < 2 ^ 2 by decide)⟩

/-- The parsing of a signature in `public_key::verify`. -/
def parsed (sign : Crypto.Signature) : Bool × RecoverableSignature :=
  parseCompact (slice sign.toList 1 64) (recovery sign)

/-- The recovery in `public_key::verify`, from whatever the parsing has left. -/
def recovered (hash : Crypto.Hash) (sign : Crypto.Signature) : Bool × ByteVec 64 :=
  recover curve (parsed sign).2 hash

/-- `public_key::verify`. -/
def verify (key : Crypto.PublicKey) (hash : Crypto.Hash) (sign : Crypto.Signature) :
    Bool :=
  let pubKey := (recovered curve hash sign).2
  let hash160 := Crypto.hash160 digests pubKey.toList networkId
  let actual := Crypto.calculateChecksum digests hash160.toList key.head
  let expected := checksum key
  actual = expected && slice key.toList 1 20 = hash160

end PublicKey

/-! ## Transactions -/

/-- `TXHash`. -/
def txHash (tx : TX) : Crypto.Hash := digests.sha256 (txHashInput tx)

/-- The check of `msg_handler::OnNewTransaction`. -/
def onNewTransaction (tx : TX) : Bool :=
  PublicKey.verify digests curve networkId tx.from_ (txHash digests tx) tx.signature

end Functions

/-! ## Addresses -/

section Addresses

variable {digests : Digests} {curve : Curve} {networkId : UInt8}

/-- An address is its type, its hash and its checksum in a row. -/
theorem toList_publicKey (key : Crypto.PublicKey) :
    key.toList = key.head ::
      ((slice key.toList 1 20).toList ++ (slice key.toList 21 4).toList) := by
  have length : key.toList.length = 25 := key.toList_length
  have first : key.toList = key.head :: key.toList.drop 1 := by
    rcases key with ⟨_ | ⟨byte, bytes⟩, size⟩
    · cases size
    · rfl
  have last : (key.toList.drop 21).take 4 = (key.toList.drop 1).drop 20 := by
    rw [List.drop_drop]
    apply List.take_of_length_le
    rw [List.length_drop, length]
  rw [toList_slice (by omega), toList_slice (by omega), last, List.take_append_drop]
  exact first

/-- Four bytes hold a checksum if they are written as it is. -/
theorem checksum_eq_iff {checksum : UInt32} {bytes : List UInt8} (length : bytes.length = 4) :
    checksum = UInt32.ofNat (decodeLE bytes) ↔ bytes = encodeLE 4 checksum.toNat := by
  constructor
  · rintro rfl
    have fits : decodeLE bytes < 2 ^ 32 := by
      have lt := decodeLE_lt bytes
      rwa [length] at lt
    rw [UInt32.toNat_ofNat', Nat.mod_eq_of_lt fits, ← length, encodeLE_decodeLE]
  · rintro rfl
    have fits : checksum.toNat < 256 ^ 4 := checksum.toNat_lt
    rw [decodeLE_encodeLE, Nat.mod_eq_of_lt fits, UInt32.ofNat_toNat]

/-- Verification compares the address with that of the recovered key. -/
theorem verify_iff {key : Crypto.PublicKey} {hash : Crypto.Hash} {sign : Crypto.Signature} :
    PublicKey.verify digests curve networkId key hash sign = true ↔
      key = address digests networkId key.head (PublicKey.recovered curve hash sign).2 := by
  have parts := toList_publicKey key
  rw [PublicKey.verify, Bool.and_eq_true, decide_eq_true_iff, decide_eq_true_iff,
    PublicKey.checksum, checksum_eq_iff (List.Vector.toList_length _)]
  constructor
  · rintro ⟨checksumPart, hashPart⟩
    apply List.Vector.toList_injective
    rw [parts, hashPart, checksumPart]
    rfl
  · intro equal
    have listEq := congrArg List.Vector.toList equal
    rw [parts] at listEq
    obtain ⟨_, rest⟩ := List.cons.inj listEq
    obtain ⟨hashPart, checksumPart⟩ := List.append_inj rest (by simp)
    exact ⟨checksumPart, List.Vector.toList_injective hashPart⟩

/-- The signature bytes parse as the signature that they were filled from. -/
theorem parsed_signatureBytes (sig : RecoverableSignature) :
    PublicKey.parsed (signatureBytes sig) = (true, sig) := by
  have flag : ∀ recid : Fin 4,
      ((27 + UInt8.ofNat recid - 27) &&& 3).toNat = recid.val := by decide
  have recid : PublicKey.recovery (signatureBytes sig) = (serializeCompact sig).2 :=
    Fin.ext (flag sig.recid)
  have compact : slice (signatureBytes sig).toList 1 64 = (serializeCompact sig).1 := by
    have part := slice_append [27 + UInt8.ofNat sig.recid] (serializeCompact sig).1 []
    rwa [List.append_nil] at part
  rw [PublicKey.parsed, recid, compact, parseCompact_serializeCompact]

/-- A valid secret has an address. -/
theorem createPublicKey_of_valid {key : PrivateKey} (valid : ValidSecret key.secret) :
    ∃ publicKey, key.createPublicKey digests curve networkId = some publicKey := by
  rw [PrivateKey.createPublicKey, if_pos ((pubkeyCreate_iff curve _).mpr valid)]
  exact ⟨_, rfl⟩

/-- A valid secret signs every hash. -/
theorem sign_of_valid {key : PrivateKey} (valid : ValidSecret key.secret) (hash : Crypto.Hash) :
    ∃ signature, key.sign curve hash = some signature := by
  rw [PrivateKey.sign, if_pos ((signRecoverable_iff curve hash _).mpr valid)]
  exact ⟨_, rfl⟩

/-- What `verify` recovers from a signature that `sign` has made. -/
theorem recovered_sign {key : PrivateKey} {hash : Crypto.Hash}
    {signature : Crypto.Signature} (signed : key.sign curve hash = some signature)
    (hash' : Crypto.Hash) :
    PublicKey.recovered curve hash' signature =
      recover curve (signRecoverable curve hash key.secret).2 hash' := by
  rw [PrivateKey.sign] at signed
  by_cases valid : (signRecoverable curve hash key.secret).1 = true
  · rw [if_pos valid] at signed
    rw [← Option.some.inj signed, PublicKey.recovered, parsed_signatureBytes]
  · rw [if_neg valid] at signed
    cases signed

end Addresses

end IotChain
