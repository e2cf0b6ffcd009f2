import IotChain.Key.Base58
import IotChain.Key.Verification

/-!
# Keys as text

Both kinds of keys have a constructor from a string, which decodes it, looks at the type
byte and compares a checksum.  Neither constructor looks at the decoded length, nor at
whether the string could be decoded at all.
-/

namespace IotChain

open IotChain.Bytes

section Functions

variable (digests : Digests)

/-! ## Writing -/

/-- `public_key::encoded`. -/
def PublicKey.encoded (key : Crypto.PublicKey) : Except KeyFailure (List UInt8) :=
  Base58.encode key.toList

/-- `private_key::calculate_checksum`. -/
def PrivateKey.calculateChecksum (key : PrivateKey) : UInt32 :=
  Crypto.calculateChecksum digests key.secret.toList key.keyType.value

/-- The bytes that `private_key::encoded` puts together. -/
def PrivateKey.bytes (key : PrivateKey) : List UInt8 :=
  key.keyType.value :: (key.secret.toList ++ encodeLE 4 (key.calculateChecksum digests).toNat)

/-- `private_key::encoded`. -/
def PrivateKey.encoded (key : PrivateKey) : Except KeyFailure (List UInt8) :=
  Base58.encode (key.bytes digests)

/-! ## Reading -/

/-- Four bytes as a `uint32_t`. -/
def uint32 (bytes : List UInt8) : UInt32 := UInt32.ofNat (decodeLE (bytes.take 4))

/-- What the constructors check of the decoded vector.  The first byte is read before the
size is known, and `size() - 5` wraps for less than five bytes. -/
def checkKey (types : List KeyType) (pk : List UInt8) : Except KeyFailure KeyType :=
  match pk with
  | [] => throw .outOfBounds
  | type :: _ =>
      match types.find? (·.value = type) with
      | none => throw .logicError
      | some keyType =>
          if pk.length < 5 then
            throw .outOfBounds
          else if Crypto.calculateChecksum digests ((pk.drop 1).take (pk.length - 5)) type ≠
              uint32 (pk.drop (pk.length - 4)) then
            throw .runtimeError
          else
            return keyType

/-- `std::copy` into an array. -/
def copyInto {n : Nat} (array : ByteVec n) (bytes : List UInt8) :
    Except KeyFailure (ByteVec n) :=
  if fits : bytes.length ≤ n then
    return ⟨bytes ++ array.toList.drop bytes.length, by simp; omega⟩
  else
    throw .outOfBounds

/-- The constructors from a string: they check what they decode and copy `payload` into
their array. -/
def parseKey {n : Nat} (types : List KeyType) (payload : List UInt8 → List UInt8)
    (array : ByteVec n) (key : List UInt8) : Except KeyFailure (KeyType × ByteVec n) := do
  -- The result of `base58_decode` is ignored.
  let pk := (← Base58.decode key).getD []
  let keyType ← checkKey digests types pk
  return (keyType, ← copyInto array (payload pk))

/-- The types of public keys. -/
abbrev publicTypes : List KeyType := [.accountPublicKey, .smartContractPublicKey]

/-- The types of private keys. -/
abbrev privateTypes : List KeyType := [.accountPrivateKey, .smartContractPrivateKey]

/-- What `private_key::private_key` copies: what stands between type and checksum. -/
def secretPart (pk : List UInt8) : List UInt8 := (pk.drop 1).take (pk.length - 5)

/-- `public_key::public_key` of a string, where `array` is what is in the new object. -/
def PublicKey.ofString (array : Crypto.PublicKey) (key : List UInt8) :
    Except KeyFailure Crypto.PublicKey := do
  let (_, bytes) ← parseKey digests publicTypes id array key
  return bytes

/-- `private_key::private_key` of a string, where `array` is what is in the new object. -/
def PrivateKey.ofString (array : Crypto.SecretKey) (key : List UInt8) :
    Except KeyFailure PrivateKey := do
  let (keyType, secret) ← parseKey digests privateTypes secretPart array key
  return { secret, keyType }

end Functions

/-! ## What the check finds -/

theorem KeyType.value_injective : Function.Injective KeyType.value := by
  intro first second same
  cases first <;> cases second <;> first | rfl | exact absurd same (by decide)

/-- The first byte names one type at most. -/
theorem KeyType.eq_of_head {pk : List UInt8} {first second : KeyType}
    (left : pk.head? = some first.value) (right : pk.head? = some second.value) :
    first = second :=
  KeyType.value_injective (Option.some.inj (left.symm.trans right))

theorem find_type {types : List KeyType} {keyType : KeyType} (member : keyType ∈ types) :
    types.find? (·.value = keyType.value) = some keyType := by
  cases found : types.find? (·.value = keyType.value) with
  | none =>
      have differs := List.find?_eq_none.mp found keyType member
      simp at differs
  | some other =>
      have same := List.find?_some found
      rw [KeyType.value_injective (of_decide_eq_true same)]

/-- Some decoded bytes with a checksum that fits. -/
structure Checked (digests : Digests) (types : List KeyType) (keyType : KeyType)
    (pk : List UInt8) : Prop where
  member : keyType ∈ types
  first : pk.head? = some keyType.value
  size : 5 ≤ pk.length
  checksum : Crypto.calculateChecksum digests (secretPart pk) keyType.value =
    uint32 (pk.drop (pk.length - 4))

/-- The four ways in which the check can go. -/
theorem checkKey_cases (digests : Digests) (types : List KeyType) (pk : List UInt8) :
    ((pk = [] ∨ pk.length < 5 ∧ ∃ keyType ∈ types, pk.head? = some keyType.value) ∧
      checkKey digests types pk = .error .outOfBounds) ∨
    (pk ≠ [] ∧ (∀ keyType ∈ types, pk.head? ≠ some keyType.value) ∧
      checkKey digests types pk = .error .logicError) ∨
    (∃ keyType ∈ types, pk.head? = some keyType.value ∧ 5 ≤ pk.length ∧
      ¬ Checked digests types keyType pk ∧ checkKey digests types pk = .error .runtimeError) ∨
    ∃ keyType, Checked digests types keyType pk ∧ checkKey digests types pk = .ok keyType := by
  cases pk with
  | nil => exact .inl ⟨.inl rfl, rfl⟩
  | cons type rest =>
      by_cases known : ∃ keyType ∈ types, keyType.value = type
      · rcases known with ⟨keyType, member, rfl⟩
        rw [checkKey, find_type member]
        by_cases short : (keyType.value :: rest).length < 5
        · exact .inl ⟨.inr ⟨short, keyType, member, rfl⟩, if_pos short⟩
        · simp only [if_neg short]
          right
          right
          by_cases same : Crypto.calculateChecksum digests (secretPart (keyType.value :: rest))
              keyType.value = uint32 ((keyType.value :: rest).drop (rest.length + 1 - 4))
          · right
            refine ⟨keyType, ⟨member, rfl, Nat.le_of_not_lt short, same⟩, if_neg ?_⟩
            exact not_not.mpr same
          · left
            refine ⟨keyType, member, rfl, Nat.le_of_not_lt short, ?_, if_pos same⟩
            exact fun checked => same checked.checksum
      · have missing : types.find? (·.value = type) = none := by
          apply List.find?_eq_none.mpr
          intro keyType member
          simpa using fun same => known ⟨keyType, member, same⟩
        right
        left
        refine ⟨List.cons_ne_nil _ _, ?_, ?_⟩
        · intro keyType member first
          exact known ⟨keyType, member, (Option.some.inj first).symm⟩
        · rw [checkKey, missing]
          rfl

theorem copyInto_of_le {n : Nat} {array : ByteVec n} {bytes : List UInt8}
    (fits : bytes.length ≤ n) :
    ∃ copied, copyInto array bytes = .ok copied ∧
      copied.toList = bytes ++ array.toList.drop bytes.length :=
  ⟨_, dif_pos fits, rfl⟩

theorem copyInto_of_lt {n : Nat} {array : ByteVec n} {bytes : List UInt8}
    (tooLong : n < bytes.length) : copyInto array bytes = .error .outOfBounds :=
  dif_neg (Nat.not_le_of_lt tooLong)

theorem copyInto_exact {n : Nat} (array part : ByteVec n) :
    copyInto array part.toList = .ok part := by
  rcases @copyInto_of_le n array part.toList (Nat.le_of_eq part.toList_length) with
    ⟨copied, run, whole⟩
  rw [List.drop_eq_nil_of_le, List.append_nil] at whole
  · rw [run, List.Vector.toList_injective whole]
  · rw [array.toList_length, part.toList_length]

/-- What the constructor does with decoded bytes. -/
theorem parseKey_of_decoded {digests : Digests} {types : List KeyType} {n : Nat}
    {payload : List UInt8 → List UInt8} {key pk : List UInt8}
    (decoded : Base58.decode key = .ok (some pk)) (array : ByteVec n) :
    parseKey digests types payload array key = (do
      let keyType ← checkKey digests types pk
      return (keyType, ← copyInto array (payload pk))) := by
  rw [parseKey, decoded]
  rfl

/-! ## Round trips -/

/-- The address has the type of a public key and the checksum of its hash. -/
def PublicKey.Valid (digests : Digests) (key : Crypto.PublicKey) : Prop :=
  ∃ keyType ∈ publicTypes, key.head = keyType.value ∧
    Crypto.calculateChecksum digests (slice key.toList 1 20).toList key.head =
      PublicKey.checksum key

section RoundTrips

variable {digests : Digests}

theorem checkKey_of_checked {types : List KeyType} {keyType : KeyType} {pk : List UInt8}
    (checked : Checked digests types keyType pk) : checkKey digests types pk = .ok keyType := by
  have same {other : KeyType} (first : pk.head? = some other.value) : other = keyType :=
    KeyType.eq_of_head first checked.first
  have size := checked.size
  rcases checkKey_cases digests types pk with ⟨bad, _⟩ | ⟨_, unknown, _⟩ |
    ⟨other, _, first, _, mismatch, _⟩ | ⟨other, found, run⟩
  · rcases bad with rfl | ⟨short, _⟩
    · cases checked.first
    · omega
  · exact absurd checked.first (unknown keyType checked.member)
  · rw [same first] at mismatch
    exact absurd checked mismatch
  · rw [run, same found.first]

theorem checkKey_of_unknown {types : List KeyType} {keyType : KeyType} {pk : List UInt8}
    (first : pk.head? = some keyType.value) (unknown : keyType ∉ types) :
    checkKey digests types pk = .error .logicError := by
  have same {other : KeyType} (head : pk.head? = some other.value) : other = keyType :=
    KeyType.eq_of_head head first
  rcases checkKey_cases digests types pk with ⟨bad, _⟩ | ⟨_, _, run⟩ |
    ⟨other, member, head, _⟩ | ⟨other, found, _⟩
  · rcases bad with rfl | ⟨_, other, member, head⟩
    · cases first
    · exact absurd (same head ▸ member) unknown
  · exact run
  · exact absurd (same head ▸ member) unknown
  · exact absurd (same found.first ▸ found.member) unknown

/-- The other constructor takes the type byte for a foreign one. -/
theorem parseKey_of_unknown {n : Nat} {types : List KeyType} {keyType : KeyType}
    {payload : List UInt8 → List UInt8} {key pk : List UInt8}
    (decoded : Base58.decode key = .ok (some pk)) (first : pk.head? = some keyType.value)
    (unknown : keyType ∉ types) (array : ByteVec n) :
    parseKey digests types payload array key = .error .logicError := by
  rw [parseKey_of_decoded decoded, checkKey_of_unknown first unknown]
  rfl

theorem parseKey_of_checked {n : Nat} {types : List KeyType} {keyType : KeyType}
    {payload : List UInt8 → List UInt8} {key pk : List UInt8} {part : ByteVec n}
    (decoded : Base58.decode key = .ok (some pk))
    (checked : Checked digests types keyType pk) (copied : payload pk = part.toList)
    (array : ByteVec n) :
    parseKey digests types payload array key = .ok (keyType, part) := by
  rw [parseKey_of_decoded decoded, checkKey_of_checked checked, copied]
  change (copyInto array part.toList >>= fun bytes => pure (keyType, bytes)) = _
  rw [copyInto_exact]
  rfl

theorem uint32_encodeLE (checksum : UInt32) : uint32 (encodeLE 4 checksum.toNat) = checksum := by
  rw [uint32, List.take_of_length_le (by simp)]
  exact ((checksum_eq_iff (length_encodeLE 4 _)).mpr rfl).symm

/-- What stands in the bytes of an encoded secret. -/
theorem checked_secret {key : PrivateKey} (type : key.keyType ∈ privateTypes) :
    Checked digests privateTypes key.keyType (key.bytes digests) ∧
      secretPart (key.bytes digests) = key.secret.toList := by
  have length : (key.bytes digests).length = 37 := by simp [PrivateKey.bytes]
  have secret : secretPart (key.bytes digests) = key.secret.toList := by
    rw [secretPart, length, PrivateKey.bytes, List.drop_one, List.tail_cons]
    exact List.take_left' key.secret.toList_length
  have last : (key.bytes digests).drop (37 - 4) =
      encodeLE 4 (key.calculateChecksum digests).toNat := by
    rw [PrivateKey.bytes]
    exact List.drop_left' key.secret.toList_length
  constructor
  · refine ⟨type, rfl, by omega, ?_⟩
    rw [secret, length, last, uint32_encodeLE]
    rfl
  · exact secret

/-- What stands in the bytes of a valid address. -/
theorem checked_address {key : Crypto.PublicKey} {keyType : KeyType}
    (type : keyType ∈ publicTypes) (first : key.head = keyType.value)
    (checksum : Crypto.calculateChecksum digests (slice key.toList 1 20).toList key.head =
      PublicKey.checksum key) :
    Checked digests publicTypes keyType key.toList := by
  have length := key.toList_length
  refine ⟨type, ?_, by omega, ?_⟩
  · rw [toList_publicKey, first]
    rfl
  · rw [secretPart, length, ← toList_slice (by omega), ← first, checksum, PublicKey.checksum,
      toList_slice (by omega), uint32]

theorem PrivateKey.ofString_encoded {key : PrivateKey} (type : key.keyType ∈ privateTypes) :
    ∃ text, key.encoded digests = .ok text ∧
      (∀ array, PrivateKey.ofString digests array text = .ok key) ∧
      ∀ array, PublicKey.ofString digests array text = .error .logicError := by
  have short : (key.bytes digests).length < 2 ^ 30 := by simp [PrivateKey.bytes]
  rcases Base58.decode_encode short with ⟨text, encoded, decoded⟩
  rcases checked_secret type with ⟨checked, secret⟩
  refine ⟨text, encoded, ?_, ?_⟩
  · intro array
    rw [PrivateKey.ofString, parseKey_of_checked decoded checked secret]
    rfl
  · intro array
    have foreign : key.keyType ∉ publicTypes := by
      intro member
      cases both : key.keyType <;> rw [both] at member type <;> revert member type <;> decide
    rw [PublicKey.ofString, parseKey_of_unknown decoded checked.first foreign]
    rfl

theorem PublicKey.ofString_encoded {key : Crypto.PublicKey}
    (valid : PublicKey.Valid digests key) :
    ∃ text, PublicKey.encoded key = .ok text ∧
      (∀ array, PublicKey.ofString digests array text = .ok key) ∧
      ∀ array, PrivateKey.ofString digests array text = .error .logicError := by
  rcases valid with ⟨keyType, type, first, checksum⟩
  have short : key.toList.length < 2 ^ 30 := by simp
  rcases Base58.decode_encode short with ⟨text, encoded, decoded⟩
  have checked := checked_address type first checksum
  refine ⟨text, encoded, ?_, ?_⟩
  · intro array
    rw [PublicKey.ofString, parseKey_of_checked decoded checked rfl]
    rfl
  · intro array
    have foreign : keyType ∉ privateTypes := by
      intro member
      cases keyType <;> revert member type <;> decide
    rw [PrivateKey.ofString, parseKey_of_unknown decoded checked.first foreign]
    rfl

/-- What `create_public_key` assembles is a valid address. -/
theorem valid_address (type : KeyType) (member : type ∈ publicTypes) (networkId : UInt8)
    (pubKey : ByteVec 64) :
    PublicKey.Valid digests (address digests networkId type.value pubKey) := by
  let hash := Crypto.hash160 digests pubKey.toList networkId
  let checksum := Crypto.calculateChecksum digests hash.toList type.value
  have hashPart : slice (address digests networkId type.value pubKey).toList 1 20 = hash :=
    slice_append [type.value] hash (encodeLE 4 checksum.toNat)
  have whole : (address digests networkId type.value pubKey).toList =
      (type.value :: hash.toList) ++ encodeLE 4 checksum.toNat := rfl
  have last : (slice (address digests networkId type.value pubKey).toList 21 4).toList =
      encodeLE 4 checksum.toNat := by
    rw [toList_slice (by simp), whole, List.drop_left' (by simp)]
    exact List.take_of_length_le (by simp)
  refine ⟨type, member, rfl, ?_⟩
  rw [hashPart, PublicKey.checksum, last]
  exact (checksum_eq_iff (length_encodeLE 4 _)).mpr rfl

end RoundTrips

/-- Secrets and addresses survive being written and read, and each constructor rejects what
the other kind of key is written as. -/
theorem keyText_roundTrip (digests : Digests) :
    (∀ key : PrivateKey, key.keyType ∈ privateTypes →
      ∃ text, key.encoded digests = .ok text ∧
        (∀ array, PrivateKey.ofString digests array text = .ok key) ∧
        ∀ array, PublicKey.ofString digests array text = .error .logicError) ∧
    (∀ key, PublicKey.Valid digests key →
      ∃ text, PublicKey.encoded key = .ok text ∧
        (∀ array, PublicKey.ofString digests array text = .ok key) ∧
        ∀ array, PrivateKey.ofString digests array text = .error .logicError) ∧
    ∀ curve networkId (key : PrivateKey) created,
      key.createPublicKey digests curve networkId = some created →
        PublicKey.Valid digests created := by
  refine ⟨fun key => PrivateKey.ofString_encoded, fun key => PublicKey.ofString_encoded, ?_⟩
  intro curve networkId key created run
  have type : (if key.keyType = .smartContractPrivateKey then KeyType.smartContractPublicKey
      else KeyType.accountPublicKey) ∈ publicTypes := by
    split <;> decide
  rw [PrivateKey.createPublicKey] at run
  split at run
  · cases run
    exact valid_address _ type networkId _
  · cases run

/-- The secret one as a text. -/
theorem keyText_roundTrip_one :
    ∃ text, PrivateKey.encoded SampleTransaction.digests SampleTransaction.key = .ok text ∧
      PrivateKey.ofString SampleTransaction.digests (zeroBytes 32) text =
        .ok SampleTransaction.key := by
  rcases (keyText_roundTrip SampleTransaction.digests).1 SampleTransaction.key (by decide) with
    ⟨text, encoded, decoded, _⟩
  exact ⟨text, encoded, decoded _⟩

end IotChain
