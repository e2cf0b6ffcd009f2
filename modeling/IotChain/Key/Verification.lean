import IotChain.Chain.Commitment
import IotChain.Key.Keys

/-!
# What a verified signature shows

`public_key::verify` goes on when the signature does not parse or does not recover.
The key that is compared then consists of zero bytes, and the signature is accepted
if the address is the one of that key.  The hash of a transaction covers the field
that the signature is stored in, so storing it changes what was signed.
-/

namespace IotChain

open IotChain.Bytes IotChain.Secp256k1

/-! ## Soundness -/

section Soundness

variable (digests : Digests) (curve : Curve) (networkId : UInt8)

/-- The signature parses, it recovers, and the recovered key has the address. -/
structure Genuine (key : Crypto.PublicKey) (hash : Crypto.Hash) (sign : Crypto.Signature) :
    Prop where
  parses : (PublicKey.parsed sign).1 = true
  recovers : (PublicKey.recovered curve hash sign).1 = true
  address_eq :
    key = address digests networkId key.head (PublicKey.recovered curve hash sign).2

/-- Acceptance shows that the signature is genuine. -/
def Sound (key : Crypto.PublicKey) (hash : Crypto.Hash) (sign : Crypto.Signature) : Prop :=
  PublicKey.verify digests curve networkId key hash sign = true →
    Genuine digests curve networkId key hash sign

variable {curve}

/-- When the parsing or the recovery fails, the compared key is all zero bytes. -/
theorem recovered_of_failed {hash : Crypto.Hash} {sign : Crypto.Signature}
    (failed : ¬ ((PublicKey.parsed sign).1 = true ∧
      (PublicKey.recovered curve hash sign).1 = true)) :
    (PublicKey.recovered curve hash sign).2 = zeroBytes 64 := by
  rw [not_and_or, Bool.not_eq_true, Bool.not_eq_true] at failed
  apply recover_failed
  rcases failed with unparsed | unrecovered
  · rw [PublicKey.parsed] at unparsed
    rw [PublicKey.parsed, parseCompact_failed unparsed]
    exact recover_zero curve hash
  · exact unrecovered

/-- Verification is sound unless the address is the one of the zero key and the
signature does not parse or recover. -/
theorem sound_iff (key : Crypto.PublicKey) (hash : Crypto.Hash) (sign : Crypto.Signature) :
    Sound digests curve networkId key hash sign ↔
      key ≠ address digests networkId key.head (zeroBytes 64) ∨
        ((PublicKey.parsed sign).1 = true ∧
          (PublicKey.recovered curve hash sign).1 = true) := by
  by_cases succeeds : (PublicKey.parsed sign).1 = true ∧
      (PublicKey.recovered curve hash sign).1 = true
  · refine iff_of_true (fun accepted => ?_) (.inr succeeds)
    exact ⟨succeeds.1, succeeds.2, verify_iff.mp accepted⟩
  · rw [Sound, verify_iff, recovered_of_failed succeeds]
    constructor
    · intro sound
      refine .inl fun zeroKey => succeeds ?_
      have genuine := sound zeroKey
      exact ⟨genuine.parses, genuine.recovers⟩
    · rintro (differs | ok) zeroKey
      · exact absurd zeroKey differs
      · exact absurd ok succeeds

/-- Whatever the hash functions and the curve are, a signature out of range is accepted
for the address of the zero key. -/
theorem sound_fails :
    ¬ ∃ (digests : Digests) (curve : Curve) (networkId : UInt8),
      ∀ key hash sign, Sound digests curve networkId key hash sign := by
  rintro ⟨digests, curve, networkId, sound⟩
  let sign : Crypto.Signature := List.Vector.replicate 65 0xff
  have unparsed : (PublicKey.parsed sign).1 = false := by decide
  have failed : ¬ ((PublicKey.parsed sign).1 = true ∧
      (PublicKey.recovered curve (zeroBytes 32) sign).1 = true) := by
    rw [unparsed]
    exact fun ok => Bool.false_ne_true ok.1
  have accepted : PublicKey.verify digests curve networkId
      (address digests networkId 0 (zeroBytes 64)) (zeroBytes 32) sign = true := by
    rw [verify_iff, recovered_of_failed failed]
    rfl
  have genuine := sound _ _ _ accepted
  exact failed ⟨genuine.parses, genuine.recovers⟩

end Soundness

/-! ## Completeness -/

section Completeness

variable {digests : Digests} {curve : Curve} {networkId : UInt8}

/-- The transaction with the signature stored in it. -/
def TX.signedWith (tx : TX) (signature : Crypto.Signature) : TX :=
  { tx with signature := signature }

/-- Keys of different hashes have different addresses. -/
theorem hash160_of_address_eq {type type' : UInt8} {left right : ByteVec 64}
    (equal : address digests networkId type left = address digests networkId type' right) :
    Crypto.hash160 digests left.toList networkId =
      Crypto.hash160 digests right.toList networkId := by
  have listEq := congrArg List.Vector.toList equal
  obtain ⟨_, rest⟩ := List.cons.inj listEq
  exact List.Vector.toList_injective (List.append_inj rest (by simp)).1

theorem address_of_createPublicKey {key : PrivateKey} {from_ : Crypto.PublicKey}
    (created : key.createPublicKey digests curve networkId = some from_) :
    from_ = address digests networkId from_.head (pubkeyCreate curve key.secret).2 := by
  rw [PrivateKey.createPublicKey] at created
  by_cases valid : (pubkeyCreate curve key.secret).1 = true
  · rw [if_pos valid] at created
    rw [← Option.some.inj created]
    rfl
  · rw [if_neg valid] at created
    cases created

/-- Storing another signature than the one already there changes the hash input. -/
theorem txHashInput_signedWith_iff {tx : TX} {signature : Crypto.Signature} :
    txHashInput (tx.signedWith signature) = txHashInput tx ↔ tx.signature = signature := by
  rw [txHashInput_eq_iff]
  constructor
  · rintro ⟨_, _, _, same⟩
    exact same.symm
  · rintro rfl
    exact ⟨rfl, rfl, rfl, rfl⟩

/-- The check of a signed transaction succeeds when the hash that is checked is the one
that was signed. -/
theorem onNewTransaction_of_hash_eq {key : PrivateKey} {tx : TX}
    {signature : Crypto.Signature}
    (created : key.createPublicKey digests curve networkId = some tx.from_)
    (recoverSame : (PublicKey.recovered curve (txHash digests tx) signature).2 =
      (pubkeyCreate curve key.secret).2)
    (same : txHash digests (tx.signedWith signature) = txHash digests tx) :
    onNewTransaction digests curve networkId (tx.signedWith signature) = true := by
  rw [onNewTransaction, verify_iff, same]
  change tx.from_ = address digests networkId tx.from_.head
    (PublicKey.recovered curve (txHash digests tx) signature).2
  rw [recoverSame]
  exact address_of_createPublicKey created

/-- The check of a signed transaction fails when another key is recovered. -/
theorem onNewTransaction_of_key_ne {key : PrivateKey} {tx : TX}
    {signature : Crypto.Signature}
    (created : key.createPublicKey digests curve networkId = some tx.from_)
    (keysDiffer : Crypto.hash160 digests (PublicKey.recovered curve
        (txHash digests (tx.signedWith signature)) signature).2.toList networkId ≠
      Crypto.hash160 digests (pubkeyCreate curve key.secret).2.toList networkId) :
    onNewTransaction digests curve networkId (tx.signedWith signature) = false := by
  rw [← Bool.not_eq_true, onNewTransaction, verify_iff]
  intro accepted
  have addresses : tx.from_ = address digests networkId tx.from_.head
      (PublicKey.recovered curve (txHash digests (tx.signedWith signature)) signature).2 :=
    accepted
  exact keysDiffer (hash160_of_address_eq
    (addresses.symm.trans (address_of_createPublicKey created)))

/-- The key that recovery gives for another hash than the signed one. -/
def PrivateKey.recoveredFor (curve : Curve) (key : PrivateKey) (signed hash : Crypto.Hash) :
    ByteVec 64 :=
  (recover curve (signRecoverable curve signed key.secret).2 hash).2

/-- What is assumed of the libraries for one signed transaction. -/
structure LibrariesBehave (digests : Digests) (curve : Curve) (networkId : UInt8)
    (key : PrivateKey) (tx : TX) (signature : Crypto.Signature) : Prop where
  /-- Recovery from the signature and the signed hash succeeds with the signer's key. -/
  recoverSame : recover curve (signRecoverable curve (txHash digests tx) key.secret).2
    (txHash digests tx) = (true, (pubkeyCreate curve key.secret).2)
  /-- Recovery from the signature and another hash does not give the signer's key. -/
  recoverOther : txHash digests (tx.signedWith signature) ≠ txHash digests tx →
    key.recoveredFor curve (txHash digests tx) (txHash digests (tx.signedWith signature)) ≠
      (pubkeyCreate curve key.secret).2
  /-- SHA-256 does not collide on the two hash inputs. -/
  inputsApart : txHashInput (tx.signedWith signature) ≠ txHashInput tx →
    txHash digests (tx.signedWith signature) ≠ txHash digests tx
  /-- The digests do not collide on the two keys. -/
  keysApart :
    key.recoveredFor curve (txHash digests tx) (txHash digests (tx.signedWith signature)) ≠
      (pubkeyCreate curve key.secret).2 →
    Crypto.hash160 digests (key.recoveredFor curve (txHash digests tx)
        (txHash digests (tx.signedWith signature))).toList networkId ≠
      Crypto.hash160 digests (pubkeyCreate curve key.secret).2.toList networkId

/-- A transaction that did not carry its signature before is rejected with it. -/
theorem onNewTransaction_of_not_carried {key : PrivateKey} {tx : TX}
    {signature : Crypto.Signature}
    (created : key.createPublicKey digests curve networkId = some tx.from_)
    (signed : key.sign curve (txHash digests tx) = some signature)
    (behave : LibrariesBehave digests curve networkId key tx signature)
    (carried : tx.signature ≠ signature) :
    onNewTransaction digests curve networkId (tx.signedWith signature) = false := by
  have inputsDiffer := mt txHashInput_signedWith_iff.mp carried
  have hashesDiffer := behave.inputsApart inputsDiffer
  have keysDiffer := behave.keysApart (behave.recoverOther hashesDiffer)
  rw [PrivateKey.recoveredFor, ← recovered_sign signed] at keysDiffer
  exact onNewTransaction_of_key_ne created keysDiffer

/-- The check of a signed transaction succeeds if and only if the transaction carried
its signature before it was signed. -/
theorem onNewTransaction_signedWith_iff {key : PrivateKey} {tx : TX}
    {signature : Crypto.Signature}
    (created : key.createPublicKey digests curve networkId = some tx.from_)
    (signed : key.sign curve (txHash digests tx) = some signature)
    (behave : LibrariesBehave digests curve networkId key tx signature) :
    onNewTransaction digests curve networkId (tx.signedWith signature) = true ↔
      tx.signature = signature := by
  constructor
  · intro accepted
    by_contra carried
    rw [onNewTransaction_of_not_carried created signed behave carried] at accepted
    cases accepted
  · intro carried
    have sameInput := txHashInput_signedWith_iff.mpr carried
    have sameKey := congrArg Prod.snd behave.recoverSame
    rw [← recovered_sign signed] at sameKey
    exact onNewTransaction_of_hash_eq created sameKey (congrArg digests.sha256 sameInput)

end Completeness

/-! ## One signed transaction

The secret one signs an empty transaction of its own address.  The tables give the
digests and the points of the real functions on the inputs that occur. -/

namespace SampleTransaction

/-- The bytes of a number, most significant byte first. -/
def bytesOf (width value : Nat) : ByteVec width :=
  ⟨encodeBE width value, length_encodeBE width value⟩

/-- The private key whose exponent is one. -/
def key : PrivateKey := ⟨bytesOf 32 1, .accountPrivateKey⟩

/-- The generator of the group, as the library stores it. -/
def pubKey : ByteVec 64 := ⟨
  encodeBE 32 0x9817f8165b81f259d928ce2ddbfc9b02070b87ce9562a055acbbdcf97e66be79 ++
  encodeBE 32 0xb8d410fb8fd0479c195485a648b417fda808110efcfba45d65c4a32677da3a48,
  by simp⟩

/-- The key that is recovered for the hash of the signed transaction. -/
def otherKey : ByteVec 64 := ⟨
  encodeBE 32 0xc9ca7941e2b5a7898425f27d25916f84ca143bf982f14cac81e18151b71dcbc9 ++
  encodeBE 32 0xe73cff3b3e6006bb973b8f48edc3af15cd019eb9d29ec9168edf606927dc1f36,
  by simp⟩

/-- The address of the key in network 4. -/
def from_ : Crypto.PublicKey := bytesOf 25
  0x00bdc6825b00a36984d66d47e82ddfef4de7f8fd7fa26e7a35

/-- A transaction from the address, with nothing else in it. -/
def unsigned : TX := { (default : TX) with from_ := from_ }

/-- The first number of the signature. -/
def r : Scalar :=
  ⟨0xd090264efc88255214ca42fe5d9c280d86f5a9b025cdb2a2f4d504d03c457e86, by decide⟩

/-- The second number of the signature. -/
def s : Scalar :=
  ⟨0x36451d941a4ef58fd9f210dc905972fa4dcc1dc8d4334cd90425aa471e6b6cd0, by decide⟩

/-- What the library returns for the hash of the unsigned transaction. -/
def recoverable : RecoverableSignature := { RecoverableSignature.zero with r := r, s := s }

/-- The signature that `PrivateKey::Sign` makes of it. -/
def signature : Crypto.Signature := signatureBytes recoverable

/-- `TXHash` of the unsigned transaction. -/
def unsignedHash : Crypto.Hash := bytesOf 32
  0x9fe2a2887c6e8d373f9a6a26f30061d49276e4418df3f50d8b1fbe3cf7d4a87c

/-- `TXHash` of the transaction with its signature in it. -/
def signedHash : Crypto.Hash := bytesOf 32
  0x9d40b12c66aaeb16dd5097d9e5f36dee205da270c139b1aed9a4a15b7cde9280

/-- The hash in the address of the key. -/
def keyHash : Crypto.Hash160 := bytesOf 20 0xbdc6825b00a36984d66d47e82ddfef4de7f8fd7f

/-- The hash in the address of the other key. -/
def otherKeyHash : Crypto.Hash160 := bytesOf 20 0xd38020cd0f81e9ca4431c373aa7e6e73339d92be

/-- The first block that pays a coin to the address, at time zero. -/
def firstBlock : Block where
  nonce := 0
  timestamp := 0
  prevBlockHash := zeroBytes 32
  coinbase := { (default : TX) with
    inputs := [⟨123456789, []⟩]
    outputs := [⟨123456789, from_⟩] }
  txList := []

/-- The two digest functions, on the inputs that occur. -/
def digests : Digests where
  sha256 bytes := ([
    (txHashInput unsigned, unsignedHash),
    (txHashInput (unsigned.signedWith signature), signedHash),
    (4 :: pubKey.toList, bytesOf 32
      0xfe597a6f954215032ea2e009b923b490b3e876972f625c542d0566813012aeb3),
    (4 :: otherKey.toList, bytesOf 32
      0x9166ae5707874159457b4af408173bd546b266bfe41e2692ec739a6bdc3c15e5),
    (0 :: keyHash.toList, bytesOf 32
      0xe6b616f6009168096ef436698d5fdfa5a454f16c7f3c7432ec7caab339f100d1),
    (encodeBE 32 0xe6b616f6009168096ef436698d5fdfa5a454f16c7f3c7432ec7caab339f100d1,
      bytesOf 32 0xa26e7a352dd2494e881cb37713c4f707038d9dfc36d937492719d1700aeaecdb),
    (0 :: otherKeyHash.toList, bytesOf 32
      0x66206b1796f8a4acacdc8e2d6a6f748ee561f59e776e531b95d39dcacaa52050),
    (encodeBE 32 0x66206b1796f8a4acacdc8e2d6a6f748ee561f59e776e531b95d39dcacaa52050,
      bytesOf 32 0x00ace8c31590eebd09722fbe702b7a3df567465e3f474481dabb08a22aa48ab86),
    (128 :: key.secret.toList, bytesOf 32
      0x41833d672ec6302d6cb71512d923c905e971a725fce5dce2bf0ae476426f0c5b),
    (encodeBE 32 0x41833d672ec6302d6cb71512d923c905e971a725fce5dce2bf0ae476426f0c5b,
      bytesOf 32 0xa85aa87e9879f34d1449e35c58e64d9325733ca2efb4577e6720ec42c3625783),
    (blockHashInput (zeroBytes 4) firstBlock, bytesOf 32
      0x334ce3d6b9af5fd2318342eee2deb2907a3e240774e0b271d0da4043fd5526e7)
    ].lookup bytes).getD (zeroBytes 32)
  ripemd160 bytes := ([
    (encodeBE 32 0xfe597a6f954215032ea2e009b923b490b3e876972f625c542d0566813012aeb3, keyHash),
    (encodeBE 32 0x9166ae5707874159457b4af408173bd546b266bfe41e2692ec739a6bdc3c15e5,
      otherKeyHash)
    ].lookup bytes).getD (zeroBytes 20)

/-- The group and the signing loop, on the inputs that occur. -/
def curve : Curve where
  generate sec := if sec.value = 1 then pubKey else zeroBytes 64
  recoverPoint fx odd sigr sigs message :=
    if fx = r.value ∧ odd = false ∧ sigr = r ∧ sigs = s then
      if message.value = decodeBE unsignedHash.toList then some pubKey
      else if message.value = decodeBE signedHash.toList then some otherKey
      else none
    else none
  signLoop _ _ := recoverable

theorem created : key.createPublicKey digests curve 4 = some unsigned.from_ := by
  decide +kernel

theorem signed : key.sign curve (txHash digests unsigned) = some signature := by
  decide +kernel

theorem behave : LibrariesBehave digests curve 4 key unsigned signature where
  recoverSame := by decide +kernel
  recoverOther := by decide +kernel
  inputsApart := by decide +kernel
  keysApart := by decide +kernel

end SampleTransaction

theorem onNewTransaction_signedWith_iff_sample :
    onNewTransaction SampleTransaction.digests SampleTransaction.curve 4
        (SampleTransaction.unsigned.signedWith SampleTransaction.signature) = true ↔
      SampleTransaction.unsigned.signature = SampleTransaction.signature :=
  onNewTransaction_signedWith_iff SampleTransaction.created SampleTransaction.signed
    SampleTransaction.behave

/-- A transaction signed by the owner of its address is rejected. -/
theorem onNewTransaction_signedWith_fails :
    ¬ ∀ (digests : Digests) (curve : Curve) (networkId : UInt8) (key : PrivateKey)
        (tx : TX) (signature : Crypto.Signature),
      key.createPublicKey digests curve networkId = some tx.from_ →
      key.sign curve (txHash digests tx) = some signature →
      LibrariesBehave digests curve networkId key tx signature →
      onNewTransaction digests curve networkId (tx.signedWith signature) = true := by
  intro complete
  have accepted := complete _ _ _ _ _ _ SampleTransaction.created SampleTransaction.signed
    SampleTransaction.behave
  have carried : SampleTransaction.unsigned.signature ≠ SampleTransaction.signature := by
    decide
  rw [onNewTransaction_of_not_carried SampleTransaction.created SampleTransaction.signed
    SampleTransaction.behave carried] at accepted
  cases accepted

/-! ## Signing and verifying -/

/-- The address of a valid secret verifies what the secret signs, provided that the curve
library recovers the signer from its own signature. -/
theorem verify_sign (digests : Digests) (curve : Curve) (networkId : UInt8) (key : PrivateKey)
    (hash : Crypto.Hash) (valid : ValidSecret key.secret)
    (recoverSame : recover curve (signRecoverable curve hash key.secret).2 hash =
      (true, (pubkeyCreate curve key.secret).2)) :
    ∃ publicKey signature,
      key.createPublicKey digests curve networkId = some publicKey ∧
      key.sign curve hash = some signature ∧
      PublicKey.verify digests curve networkId publicKey hash signature = true := by
  obtain ⟨publicKey, created⟩ := createPublicKey_of_valid valid
  obtain ⟨signature, signed⟩ := sign_of_valid valid hash
  have sameKey : (PublicKey.recovered curve hash signature).2 =
      (pubkeyCreate curve key.secret).2 := by
    rw [recovered_sign signed, recoverSame]
  have verified : PublicKey.verify digests curve networkId publicKey hash signature = true := by
    rw [verify_iff, sameKey]
    exact address_of_createPublicKey created
  exact ⟨publicKey, signature, created, signed, verified⟩

theorem verify_sign_sample :
    ∃ publicKey signature,
      SampleTransaction.key.createPublicKey SampleTransaction.digests
        SampleTransaction.curve 4 = some publicKey ∧
      SampleTransaction.key.sign SampleTransaction.curve SampleTransaction.unsignedHash =
        some signature ∧
      PublicKey.verify SampleTransaction.digests SampleTransaction.curve 4 publicKey
        SampleTransaction.unsignedHash signature = true :=
  verify_sign _ _ _ _ _ ⟨by decide +kernel, by decide +kernel⟩ (by decide +kernel)

end IotChain
