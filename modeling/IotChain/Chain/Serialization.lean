import IotChain.Chain.Types
import IotChain.Stream.Reading

/-!
# The binary codec

`stream_serializer` writes every variable-length part behind its length.  The
readers resize each list of records to the length they have read and then append
as many records again, so they return every such list behind as many
value-initialized records.
-/

namespace IotChain.StreamSerializer

open IotChain.Bytes

/-! ## Writing -/

/-- `buffer_stream::write<uint32_t>`. -/
def writeUInt32 (out : Stream) (value : UInt32) : Stream :=
  out.write (encodeLE 4 value.toNat)

/-- `buffer_stream::write` of a `uint64_t`. -/
def writeUInt64 (out : Stream) (value : UInt64) : Stream :=
  out.write (encodeLE 8 value.toNat)

/-- The body of the loop over `inputs_`. -/
def serializeInput (out : Stream) (input : TXInput) : Stream :=
  let out := writeUInt64 out input.amount
  let out := writeUInt32 out (UInt32.ofNat input.data.length)
  out.write input.data

/-- The body of the loop over `outputs_`. -/
def serializeOutput (out : Stream) (output : TXOutput) : Stream :=
  let out := writeUInt64 out output.amount
  out.write output.to_.toList

/-- `stream_serializer::serialize_tx`. -/
def serializeTx (tx : TX) (out : Stream) : Stream :=
  let out := writeUInt64 out tx.time
  let out := writeUInt32 out (UInt32.ofNat tx.inputs.length)
  let out := tx.inputs.foldl serializeInput out
  let out := writeUInt32 out (UInt32.ofNat tx.outputs.length)
  let out := tx.outputs.foldl serializeOutput out
  let out := writeUInt32 out (UInt32.ofNat tx.extra.length)
  let out := out.write tx.extra
  let out := out.write tx.from_.toList
  out.write tx.signature.toList

/-- `stream_serializer::serialize_block`. -/
def serializeBlock (bl : Block) (out : Stream) : Stream :=
  let out := writeUInt32 out bl.nonce
  let out := writeUInt64 out bl.timestamp
  let out := out.write bl.prevBlockHash.toList
  let out := serializeTx bl.coinbase out
  let out := writeUInt32 out (UInt32.ofNat bl.txList.length)
  bl.txList.foldl (fun out tx => serializeTx tx out) out

/-! ## Reading -/

/-- The body of the loop over the inputs. -/
def deserializeInput : Reading TXInput := do
  let amount ← Reading.uint64
  let dataSize ← Reading.uint32
  let data ← Reading.bytes dataSize.toNat
  return ⟨amount, data⟩

/-- The body of the loop over the outputs. -/
def deserializeOutput : Reading TXOutput := do
  let amount ← Reading.uint64
  let to_ ← Reading.array 25
  return ⟨amount, to_⟩

/-- `items.resize(size)` on an empty vector, then the loop that pushes `size` items
back. -/
def deserializeList {α : Type} [Inhabited α] (item : Reading α) : Reading (List α) := do
  let size ← Reading.uint32
  Reading.pushLoop item 0 size.toNat (List.replicate size.toNat default)

/-- `stream_serializer::deserialize_tx`. -/
def deserializeTx : Reading TX := do
  let time ← Reading.uint64
  let inputs ← deserializeList deserializeInput
  let outputs ← deserializeList deserializeOutput
  let extraSize ← Reading.uint32
  let extra ← Reading.bytes extraSize.toNat
  let from_ ← Reading.array 25
  let signature ← Reading.array 65
  return ⟨⟨time, inputs, outputs, extra⟩, from_, signature⟩

/-- `stream_serializer::deserialize_block`. -/
def deserializeBlock : Reading Block := do
  let nonce ← Reading.uint32
  let timestamp ← Reading.uint64
  let prevBlockHash ← Reading.array 32
  let coinbase ← deserializeTx
  let txList ← deserializeList deserializeTx
  return ⟨⟨nonce, timestamp, prevBlockHash⟩, coinbase, txList⟩

/-! ## The encodings -/

/-- The bytes written for a 32-bit length. -/
def lengthBytes (length : Nat) : List UInt8 :=
  encodeLE 4 (UInt32.ofNat length).toNat

/-- The bytes that `serializeInput` writes. -/
def inputBytes (input : TXInput) : List UInt8 :=
  encodeLE 8 input.amount.toNat ++ (lengthBytes input.data.length ++ input.data)

/-- The bytes that `serializeOutput` writes. -/
def outputBytes (output : TXOutput) : List UInt8 :=
  encodeLE 8 output.amount.toNat ++ output.to_.toList

/-- The bytes that `serializeTx` writes. -/
def txBytes (tx : TX) : List UInt8 :=
  encodeLE 8 tx.time.toNat ++
    ((lengthBytes tx.inputs.length ++ tx.inputs.flatMap inputBytes) ++
      ((lengthBytes tx.outputs.length ++ tx.outputs.flatMap outputBytes) ++
        (lengthBytes tx.extra.length ++ (tx.extra ++
          (tx.from_.toList ++ tx.signature.toList)))))

/-- The bytes that `serializeBlock` writes. -/
def blockBytes (bl : Block) : List UInt8 :=
  encodeLE 4 bl.nonce.toNat ++ (encodeLE 8 bl.timestamp.toNat ++
    (bl.prevBlockHash.toList ++ (txBytes bl.coinbase ++
      (lengthBytes bl.txList.length ++ bl.txList.flatMap txBytes))))

/-- A function that writes some bytes at the cursor and does nothing else. -/
def Writes (action : Stream → Stream) (bytes : List UInt8) : Prop :=
  ∀ out : Stream, out.n ≤ out.size → action out = out.write bytes

theorem Writes.comp {first second : Stream → Stream} {bytes more : List UInt8}
    (firstWrites : Writes first bytes) (secondWrites : Writes second more) :
    Writes (fun out => second (first out)) (bytes ++ more) := by
  intro out inside
  beta_reduce
  rw [firstWrites out inside, secondWrites _ (Stream.write_inside inside bytes),
    Stream.write_write inside]

theorem Writes.write (bytes : List UInt8) : Writes (fun out => out.write bytes) bytes :=
  fun _ _ => rfl

/-- A loop that writes an item a round writes the items' bytes one after another. -/
theorem Writes.foldl {ι : Type} {item : Stream → ι → Stream} {encode : ι → List UInt8}
    (writes : ∀ source, Writes (fun out => item out source) (encode source))
    (sources : List ι) : Writes (sources.foldl item) (sources.flatMap encode) := by
  induction sources with
  | nil => exact fun out _ => (Stream.write_nil out).symm
  | cons source sources ih => exact (writes source).comp ih

theorem writes_input (input : TXInput) :
    Writes (fun out => serializeInput out input) (inputBytes input) :=
  (Writes.write _).comp ((Writes.write _).comp (Writes.write _))

theorem writes_output (output : TXOutput) :
    Writes (fun out => serializeOutput out output) (outputBytes output) :=
  (Writes.write _).comp (Writes.write _)

theorem writes_tx (tx : TX) : Writes (serializeTx tx) (txBytes tx) := by
  have inputs := (Writes.write (lengthBytes tx.inputs.length)).comp
    (Writes.foldl writes_input tx.inputs)
  have outputs := (Writes.write (lengthBytes tx.outputs.length)).comp
    (Writes.foldl writes_output tx.outputs)
  have extra := (Writes.write (lengthBytes tx.extra.length)).comp
    ((Writes.write tx.extra).comp
      ((Writes.write tx.from_.toList).comp (Writes.write tx.signature.toList)))
  exact (Writes.write (encodeLE 8 tx.time.toNat)).comp (inputs.comp (outputs.comp extra))

theorem writes_block (bl : Block) : Writes (serializeBlock bl) (blockBytes bl) := by
  have list := (Writes.write (lengthBytes bl.txList.length)).comp
    (Writes.foldl writes_tx bl.txList)
  exact (Writes.write _).comp ((Writes.write _).comp ((Writes.write _).comp
    ((writes_tx bl.coinbase).comp list)))

/-- What `serialize_tx` leaves in an empty `buffer_stream`. -/
theorem serializeTx_empty (tx : TX) : (serializeTx tx Stream.empty).buf = txBytes tx := by
  rw [writes_tx tx Stream.empty (Nat.le_refl _), Stream.empty_write]

/-- What `serialize_block` leaves in an empty `buffer_stream`. -/
theorem serializeBlock_empty (bl : Block) :
    (serializeBlock bl Stream.empty).buf = blockBytes bl := by
  rw [writes_block bl Stream.empty (Nat.le_refl _), Stream.empty_write]

end IotChain.StreamSerializer
