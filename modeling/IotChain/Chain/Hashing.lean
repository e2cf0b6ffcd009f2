import IotChain.Chain.Types

/-!
# What is hashed

`TXHash` and `BlockHash` feed the fields of a record to a hash object one after
another.  This module collects the bytes that reach the object.
-/

namespace IotChain

open IotChain.Bytes

/-- `SHA256::Update` on an object that has been fed some bytes already. -/
def sha256Update (fed bytes : List UInt8) : List UInt8 := fed ++ bytes

/-! ## Transactions -/

/-- The body of the loop over `inputs_`. -/
def updateInput (fed : List UInt8) (input : TXInput) : List UInt8 :=
  let fed := sha256Update fed (encodeLE 8 input.amount.toNat)
  sha256Update fed input.data

/-- The body of the loop over `outputs_`. -/
def updateOutput (fed : List UInt8) (output : TXOutput) : List UInt8 :=
  let fed := sha256Update fed (encodeLE 8 output.amount.toNat)
  sha256Update fed output.to_.toList

/-- `TXHash::TXHash(const TX&, SHA256&)`. -/
def txHashUpdates (tx : TX) (fed : List UInt8) : List UInt8 :=
  let fed := sha256Update fed (encodeLE 8 tx.time.toNat)
  let fed := tx.inputs.foldl updateInput fed
  let fed := tx.outputs.foldl updateOutput fed
  let fed := sha256Update fed tx.extra
  let fed := sha256Update fed tx.from_.toList
  sha256Update fed tx.signature.toList

/-- `TXHash::TXHash(const TX&)` makes the same updates on a fresh object and then
takes the digest. -/
def txHashInput (tx : TX) : List UInt8 :=
  txHashUpdates tx []

/-! ## Blocks -/

/-- The object representation of a `BlockHeader`: four bytes of padding align
`timestamp_` to eight bytes. -/
def headerObject (padding : ByteVec 4) (header : BlockHeader) : List UInt8 :=
  encodeLE 4 header.nonce.toNat ++ padding.toList ++
    encodeLE 8 header.timestamp.toNat ++ header.prevBlockHash.toList

/-- `BlockHash::BlockHash`, up to the digest. -/
def blockHashInput (padding : ByteVec 4) (bl : Block) : List UInt8 :=
  let fed := sha256Update [] (headerObject padding bl.toBlockHeader)
  let fed := txHashUpdates bl.coinbase fed
  bl.txList.foldl (fun fed tx => txHashUpdates tx fed) fed

/-! ## The shape of the input -/

/-- The bytes that `updateInput` feeds. -/
def inputHashBytes (input : TXInput) : List UInt8 :=
  encodeLE 8 input.amount.toNat ++ input.data

/-- The bytes that `updateOutput` feeds. -/
def outputHashBytes (output : TXOutput) : List UInt8 :=
  encodeLE 8 output.amount.toNat ++ output.to_.toList

/-- The bytes between `time_` and `from_`. -/
def middleBytes (tx : TX) : List UInt8 :=
  tx.inputs.flatMap inputHashBytes ++ (tx.outputs.flatMap outputHashBytes ++ tx.extra)

/-- A loop that feeds an item a round feeds the items' bytes one after another. -/
theorem foldl_updates {ι : Type} {update : List UInt8 → ι → List UInt8}
    {encode : ι → List UInt8} (updates : ∀ fed item, update fed item = fed ++ encode item)
    (items : List ι) (fed : List UInt8) :
    items.foldl update fed = fed ++ items.flatMap encode := by
  induction items generalizing fed with
  | nil => simp
  | cons item items ih =>
      rw [List.foldl_cons, ih, updates, List.flatMap_cons, List.append_assoc]

theorem updateInput_eq (fed : List UInt8) (input : TXInput) :
    updateInput fed input = fed ++ inputHashBytes input := by
  simp [updateInput, sha256Update, inputHashBytes]

theorem updateOutput_eq (fed : List UInt8) (output : TXOutput) :
    updateOutput fed output = fed ++ outputHashBytes output := by
  simp [updateOutput, sha256Update, outputHashBytes]

theorem txHashUpdates_eq_append (tx : TX) (fed : List UInt8) :
    txHashUpdates tx fed =
      fed ++ (encodeLE 8 tx.time.toNat ++
        (middleBytes tx ++ (tx.from_.toList ++ tx.signature.toList))) := by
  simp only [txHashUpdates, sha256Update, middleBytes, foldl_updates updateInput_eq,
    foldl_updates updateOutput_eq, List.append_assoc]

theorem txHashInput_eq (tx : TX) :
    txHashInput tx = encodeLE 8 tx.time.toNat ++
      (middleBytes tx ++ (tx.from_.toList ++ tx.signature.toList)) := by
  rw [txHashInput, txHashUpdates_eq_append, List.nil_append]

/-- Hashing a transaction after other data appends the transaction's own input. -/
theorem txHashUpdates_eq (tx : TX) (fed : List UInt8) :
    txHashUpdates tx fed = fed ++ txHashInput tx := by
  rw [txHashInput_eq, txHashUpdates_eq_append]

theorem blockHashInput_eq (padding : ByteVec 4) (bl : Block) :
    blockHashInput padding bl = headerObject padding bl.toBlockHeader ++
      (txHashInput bl.coinbase ++ bl.txList.flatMap txHashInput) := by
  have updates : ∀ (fed : List UInt8) (tx : TX),
      (fun fed tx => txHashUpdates tx fed) fed tx = fed ++ txHashInput tx :=
    fun fed tx => txHashUpdates_eq tx fed
  rw [blockHashInput, foldl_updates updates, txHashUpdates_eq, sha256Update,
    List.nil_append, List.append_assoc]

theorem length_txHashInput (tx : TX) :
    (txHashInput tx).length = 98 + (middleBytes tx).length := by
  rw [txHashInput_eq]
  simp only [List.length_append, length_encodeLE, List.Vector.toList_length]
  omega

theorem length_headerObject (padding : ByteVec 4) (header : BlockHeader) :
    (headerObject padding header).length = 48 := by
  simp [headerObject]

end IotChain
