import IotChain.Json.Codec
import IotChain.Key.Verification
import IotChain.Transition.Fallible

/-!
# The round trip of blocks

A block that is written and read comes back if and only if no buffer of it is empty or
too large.
-/

namespace IotChain

open IotChain.Bytes IotChain.Transition

theorem hexBuffer_eq_ok_iff {data text : List UInt8} :
    hexBuffer data = .ok text ↔ data.length < 2 ^ 31 ∧ text = hexText data := by
  rw [hexBuffer]
  split
  · rename_i small
    rw [and_iff_right small]
    constructor
    · intro same
      cases same
      rfl
    · rintro rfl
      rfl
  · rename_i large
    exact iff_of_false (fun same => by cases same) (fun both => large both.1)

theorem hexBuffer_of_survives {data : List UInt8} (survives : Survives data) :
    hexBuffer data = .ok (hexText data) :=
  hexBuffer_eq_ok_iff.mpr ⟨by have := survives.2; omega, rfl⟩

theorem hexBuffer_array {n : Nat} (small : n < 2 ^ 31) (array : ByteVec n) :
    hexBuffer array.toList = .ok (hexText array.toList) :=
  hexBuffer_eq_ok_iff.mpr ⟨by rwa [array.toList_length], rfl⟩

/-! ## Buffers -/

/-- `integer_buffer` writes the bytes of the data and nothing else, each once, in their order
and to their positions. -/
structure ReadsBack (data text : List UInt8) : Prop where
  writes : integerWrites text 2 = data.zipIdx
  run : ∀ out, integerBuffer text out =
    (replay writeAt out data.zipIdx).elim (.error .outOfBounds) .ok
  written : ∀ out, data.length ≤ out.length →
    integerBuffer text out = .ok (data ++ out.drop data.length)

/-- The text of a buffer that is not empty is read back, and no other buffer has it. -/
theorem hexBuffer_inverse :
    (∀ data : List UInt8, data ≠ [] → data.length < 2 ^ 30 →
      ∃ text, hexBuffer data = .ok text ∧ ReadsBack data text) ∧
    ∀ data other text, hexBuffer data = .ok text → hexBuffer other = .ok text →
      data = other := by
  constructor
  · intro data nonempty small
    have survives : Survives data :=
      ⟨List.length_pos_of_ne_nil nonempty, Nat.le_trans (Nat.le_of_lt small) (by decide)⟩
    exact ⟨hexText data, hexBuffer_of_survives survives, integerWrites_hexText data,
      integerBuffer_hexText_eq_replay survives, fun _ => integerBuffer_hexText survives⟩
  · intro data other text written again
    have first := (hexBuffer_eq_ok_iff.mp written).2
    have second := (hexBuffer_eq_ok_iff.mp again).2
    exact hexText_injective (first.symm.trans second)

/-! ## Transactions -/

section Transactions

variable {digests : Digests}

/-- The addresses that a transaction names are valid. -/
structure TX.ValidAddresses (digests : Digests) (tx : TX) : Prop where
  from_ : PublicKey.Valid digests tx.from_
  outputs : ∀ out ∈ tx.outputs, PublicKey.Valid digests out.to_

/-- The buffers of a transaction survive. -/
structure TX.Survives (tx : TX) : Prop where
  extra : IotChain.Survives tx.extra
  inputs : ∀ inp ∈ tx.inputs, IotChain.Survives inp.data

/-- The text of a valid address is read as the address. -/
theorem address_roundTrip {key : Crypto.PublicKey} (valid : PublicKey.Valid digests key) :
    ∃ text, liftKey (PublicKey.encoded key) = .ok text ∧
      ∀ array, liftKey (PublicKey.ofString digests array text) = .ok key := by
  rcases PublicKey.ofString_encoded valid with ⟨text, encoded, back, _⟩
  refine ⟨text, ?_, fun array => ?_⟩
  · rw [encoded]
    rfl
  · rw [back]
    rfl

theorem deserializeInput_eq (amount : UInt64) (text : List UInt8) :
    deserializeInput (.object [("amount", .number amount), ("data", .string text)]) = (do
      let data ← readVector text
      return { amount, data }) :=
  rfl

theorem input_roundTrip {inp : TXInput} (survives : Survives inp.data) :
    ∃ j, serializeInput inp = .ok j ∧ deserializeInput j = .ok inp := by
  refine ⟨_, bind_of_eq_ok (hexBuffer_of_survives survives) _, ?_⟩
  rw [deserializeInput_eq, readVector_hexText survives]
  rfl

theorem output_roundTrip {out : TXOutput} (valid : PublicKey.Valid digests out.to_) :
    ∃ j, serializeOutput out = .ok j ∧
      ∀ fresh, deserializeOutput digests fresh j = .ok out := by
  rcases address_roundTrip valid with ⟨text, encoded, back⟩
  refine ⟨_, bind_of_eq_ok encoded _, fun fresh => ?_⟩
  exact bind_of_eq_ok (back fresh.address) _

/-- The value that `serialize_tx` makes of its parts. -/
def txJson (tx : TX) (hash from_ sign extra : List UInt8) (inputs outputs : List Json) : Json :=
  .object [
    ("hash", .string hash),
    ("from", .string from_),
    ("sign", .string sign),
    ("time", .number tx.time),
    ("inputs", .ofList inputs),
    ("outputs", .ofList outputs),
    ("extra", .string extra)]

theorem deserializeTxJson_txJson (tx : TX) (hash from_ sign extra : List UInt8)
    (inputs outputs : List Json) (fresh : Fresh) :
    deserializeTxJson digests fresh (txJson tx hash from_ sign extra inputs outputs) = (do
      let from_ ← liftKey (PublicKey.ofString digests fresh.address from_)
      let signature ← readArray sign fresh.signature
      let extra ← readVector extra
      let inputs ← (Json.ofList inputs).elements.mapM deserializeInput
      let outputs ← (Json.ofList outputs).elements.mapM (deserializeOutput digests fresh)
      return { time := tx.time, inputs, outputs, extra, from_, signature }) :=
  rfl

theorem tx_roundTrip {tx : TX} (valid : tx.ValidAddresses digests) (survives : tx.Survives) :
    ∃ j, serializeTxJson digests tx = .ok j ∧
      ∀ fresh, deserializeTxJson digests fresh j = .ok tx := by
  rcases address_roundTrip valid.from_ with ⟨text, encoded, back⟩
  have inputRuns (inp : TXInput) (member : inp ∈ tx.inputs) :
      ∃ j, serializeInput inp = .ok j ∧ ∀ _ : Fresh, deserializeInput j = .ok inp := by
    rcases input_roundTrip (survives.inputs inp member) with ⟨j, written, read⟩
    exact ⟨j, written, fun _ => read⟩
  rcases mapM_roundTrip inputRuns with ⟨inputs, inputsRun, inputsBack⟩
  rcases mapM_roundTrip fun out member => output_roundTrip (valid.outputs out member) with
    ⟨outputs, outputsRun, outputsBack⟩
  refine ⟨txJson tx (hexText (txHash digests tx).toList) text (hexText tx.signature.toList)
    (hexText tx.extra) inputs outputs, ?_, fun fresh => ?_⟩
  · rw [serializeTxJson, bind_of_eq_ok inputsRun, bind_of_eq_ok outputsRun,
      bind_of_eq_ok (hexBuffer_array (by decide) _), bind_of_eq_ok encoded,
      bind_of_eq_ok (hexBuffer_array (by decide) _),
      bind_of_eq_ok (hexBuffer_of_survives survives.extra)]
    rfl
  · rw [deserializeTxJson_txJson, Json.elements_ofList, Json.elements_ofList,
      bind_of_eq_ok (back fresh.address),
      bind_of_eq_ok (readArray_hexText (by decide) (by decide) tx.signature _),
      bind_of_eq_ok (readVector_hexText survives.extra), bind_of_eq_ok (inputsBack fresh),
      bind_of_eq_ok (outputsBack fresh)]
    rfl

/-! ## What has come back -/

theorem input_survives {inp back : TXInput} {j : Json} (written : serializeInput inp = .ok j)
    (read : deserializeInput j = .ok back) : Survives inp.data := by
  rcases bind_eq_ok_iff.mp written with ⟨text, textRun, same⟩
  cases same
  rw [deserializeInput_eq] at read
  rcases bind_eq_ok_iff.mp read with ⟨data, dataRun, _⟩
  rw [(hexBuffer_eq_ok_iff.mp textRun).2] at dataRun
  exact survives_of_readVector dataRun

theorem tx_survives {tx back : TX} {j : Json} {fresh : Fresh}
    (written : serializeTxJson digests tx = .ok j)
    (read : deserializeTxJson digests fresh j = .ok back) : tx.Survives := by
  simp only [serializeTxJson, bind_eq_ok_iff] at written
  rcases written with ⟨inputs, inputsRun, outputs, _, hash, _, from_, _, sign, _, extra, extraRun,
    same⟩
  cases same
  change deserializeTxJson digests fresh (txJson tx hash from_ sign extra inputs outputs) = _
    at read
  rw [deserializeTxJson_txJson, Json.elements_ofList, Json.elements_ofList] at read
  simp only [bind_eq_ok_iff] at read
  rcases read with ⟨_, _, _, _, _, extraBack, _, inputsBack, _⟩
  rw [(hexBuffer_eq_ok_iff.mp extraRun).2] at extraBack
  exact ⟨survives_of_readVector extraBack, mapM_forall input_survives inputsRun inputsBack⟩

end Transactions

/-! ## Blocks -/

section Blocks

variable {digests : Digests}

/-- The transactions of a block, the one of its creator first. -/
def Block.transactions (bl : Block) : List TX := bl.coinbase :: bl.txList

/-- Writing and reading gives the block back, whatever is in the new objects. -/
def JsonRoundTrips (digests : Digests) (padding : ByteVec 4) (bl : Block) : Prop :=
  ∃ j, serializeBlockJson digests padding bl = .ok j ∧
    ∀ fresh, deserializeBlockJson digests fresh j = .ok bl

/-- The value that `serialize_block` makes of its parts. -/
def blockJson (bl : Block) (hash prevBlockHash : List UInt8) (coinbase : Json)
    (txes : List Json) : Json :=
  .object [
    ("hash", .string hash),
    ("nonce", .number bl.nonce.toUInt64),
    ("timestamp", .number bl.timestamp),
    ("prev_block_hash", .string prevBlockHash),
    ("coinbase", coinbase),
    ("transactions", .ofList txes)]

theorem deserializeBlockJson_blockJson (bl : Block) (hash prevBlockHash : List UInt8)
    (coinbase : Json) (txes : List Json) (fresh : Fresh) :
    deserializeBlockJson digests fresh (blockJson bl hash prevBlockHash coinbase txes) = (do
      let prevBlockHash ← readArray prevBlockHash fresh.hash
      let coinbase ← deserializeTxJson digests fresh coinbase
      let txList ← (Json.ofList txes).elements.mapM (deserializeTxJson digests fresh)
      return {
        nonce := bl.nonce.toUInt64.toUInt32, timestamp := bl.timestamp, prevBlockHash, coinbase,
        txList }) :=
  rfl

theorem block_roundTrip {padding : ByteVec 4} {bl : Block}
    (valid : ∀ tx ∈ bl.transactions, tx.ValidAddresses digests)
    (survive : ∀ tx ∈ bl.transactions, tx.Survives) : JsonRoundTrips digests padding bl := by
  rw [Block.transactions, List.forall_mem_cons] at valid survive
  rcases tx_roundTrip valid.1 survive.1 with ⟨coinbase, coinbaseRun, coinbaseBack⟩
  rcases mapM_roundTrip fun tx member => tx_roundTrip (valid.2 tx member) (survive.2 tx member) with
    ⟨txes, txesRun, txesBack⟩
  refine ⟨blockJson bl (hexText (blockHash digests.sha256 padding bl).toList)
    (hexText bl.prevBlockHash.toList) coinbase txes, ?_, fun fresh => ?_⟩
  · rw [serializeBlockJson, bind_of_eq_ok txesRun, bind_of_eq_ok (hexBuffer_array (by decide) _),
      bind_of_eq_ok (hexBuffer_array (by decide) _), bind_of_eq_ok coinbaseRun]
    rfl
  · rw [deserializeBlockJson_blockJson, Json.elements_ofList,
      bind_of_eq_ok (readArray_hexText (by decide) (by decide) bl.prevBlockHash _),
      bind_of_eq_ok (coinbaseBack fresh), bind_of_eq_ok (txesBack fresh), UInt32.toUInt32_toUInt64]
    rfl

theorem block_survives {padding : ByteVec 4} {bl back : Block} {j : Json} {fresh : Fresh}
    (written : serializeBlockJson digests padding bl = .ok j)
    (read : deserializeBlockJson digests fresh j = .ok back) :
    ∀ tx ∈ bl.transactions, tx.Survives := by
  simp only [serializeBlockJson, bind_eq_ok_iff] at written
  rcases written with ⟨txes, txesRun, hash, _, prevBlockHash, _, coinbase, coinbaseRun, same⟩
  cases same
  change deserializeBlockJson digests fresh (blockJson bl hash prevBlockHash coinbase txes) = _
    at read
  rw [deserializeBlockJson_blockJson, Json.elements_ofList] at read
  simp only [bind_eq_ok_iff] at read
  rcases read with ⟨_, _, _, coinbaseBack, _, txesBack, _⟩
  exact List.forall_mem_cons.mpr
    ⟨tx_survives coinbaseRun coinbaseBack, mapM_forall tx_survives txesRun txesBack⟩

end Blocks

/-- A block with valid addresses comes back if and only if none of its buffers is empty or
has more than `2 ^ 31 - 2` bytes. -/
theorem jsonRoundTrips_iff {digests : Digests} {bl : Block} (padding : ByteVec 4)
    (valid : ∀ tx ∈ bl.transactions, tx.ValidAddresses digests) :
    JsonRoundTrips digests padding bl ↔ ∀ tx ∈ bl.transactions, tx.Survives := by
  constructor
  · rintro ⟨j, written, read⟩
    exact block_survives written (read ⟨zeroBytes 25, zeroBytes 65, zeroBytes 32⟩)
  · exact block_roundTrip valid

/-! ## The first block -/

namespace SampleBlock

/-- A block whose coinbase has this data and extra, and spends to its own address. -/
def block (buffer : List UInt8) : Block where
  nonce := 0
  timestamp := 1
  prevBlockHash := zeroBytes 32
  coinbase := {
    time := 1
    inputs := [⟨0, buffer⟩]
    outputs := [⟨123456789, SampleTransaction.from_⟩]
    extra := buffer
    from_ := SampleTransaction.from_
    signature := zeroBytes 65 }
  txList := []

/-- The digest functions on the inputs that occur: those of the address, and the two blocks
with zeros in the padding. -/
def digests : Digests where
  sha256 bytes := ([
    (blockHashInput (zeroBytes 4) (block []), SampleTransaction.bytesOf 32
      0x73e6dd4fa1b4dc3a759935380845ce15554cc867a81ba106416d8f5c87331807),
    (blockHashInput (zeroBytes 4) (block [7]), SampleTransaction.bytesOf 32
      0x6b67cd281d6d45e72887169bc7dacce8b281db58ebc5b8b2012dd0bf28ed0c1b)
    ].lookup bytes).getD (SampleTransaction.digests.sha256 bytes)
  ripemd160 := SampleTransaction.digests.ripemd160

theorem validAddress : PublicKey.Valid digests SampleTransaction.from_ :=
  ⟨.accountPublicKey, by decide, rfl, by decide +kernel⟩

theorem valid (buffer : List UInt8) :
    ∀ tx ∈ (block buffer).transactions, tx.ValidAddresses digests := by
  intro tx member
  obtain rfl := List.mem_singleton.mp member
  refine ⟨validAddress, fun out outMember => ?_⟩
  obtain rfl := List.mem_singleton.mp outMember
  exact validAddress

end SampleBlock

theorem jsonRoundTrips_iff_sample :
    JsonRoundTrips SampleBlock.digests (zeroBytes 4) (SampleBlock.block [7]) ↔
      ∀ tx ∈ (SampleBlock.block [7]).transactions, tx.Survives :=
  jsonRoundTrips_iff (zeroBytes 4) (SampleBlock.valid [7])

/-- A block like the first one, whose buffers are empty, does not come back. -/
theorem jsonRoundTrips_fails :
    ¬ ∀ (digests : Digests) (padding : ByteVec 4) (bl : Block),
      (∀ tx ∈ bl.transactions, tx.ValidAddresses digests) → JsonRoundTrips digests padding bl := by
  intro back
  rcases back _ (zeroBytes 4) _ (SampleBlock.valid []) with ⟨j, written, read⟩
  have survive := block_survives written (read ⟨zeroBytes 25, zeroBytes 65, zeroBytes 32⟩)
  have nonempty := (survive _ List.mem_cons_self).extra.1
  exact absurd nonempty (by decide)

end IotChain
