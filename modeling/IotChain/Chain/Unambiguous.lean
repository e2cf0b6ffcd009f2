import IotChain.Bytes.Delimiting
import IotChain.Chain.RoundTrip

/-!
# The encoding is unambiguous

Every list and every byte vector stands behind its own length, so two encodings can
only continue to the same bytes if they encode the same record, and then they end at
the same place.  The length is written with 32 bits, hence the bound on the sizes.
-/

namespace IotChain.StreamSerializer

open IotChain.Bytes

variable {tx tx' : TX} {bl bl' : Block}

theorem splits_uint32 (value value' : UInt32) :
    Splits (value = value') (encodeLE 4 value.toNat) (encodeLE 4 value'.toNat) :=
  (Splits.of_length (by simp)).imp encode32_inj

theorem splits_uint64 (value value' : UInt64) :
    Splits (value = value') (encodeLE 8 value.toNat) (encodeLE 8 value'.toNat) :=
  (Splits.of_length (by simp)).imp encode64_inj

theorem splits_array {n : Nat} (value value' : ByteVec n) :
    Splits (value = value') value.toList value'.toList :=
  (Splits.of_length (by simp)).imp fun equal => List.Vector.toList_injective equal

theorem splits_length {length length' : Nat} (bound : length < 2 ^ 32)
    (bound' : length' < 2 ^ 32) :
    Splits (length = length') (lengthBytes length) (lengthBytes length') := by
  apply (splits_uint32 _ _).imp
  intro equal
  have numbers := congrArg UInt32.toNat equal
  rwa [UInt32.toNat_ofNat', UInt32.toNat_ofNat', Nat.mod_eq_of_lt bound,
    Nat.mod_eq_of_lt bound'] at numbers

/-- A byte vector behind its length. -/
theorem splits_data {data data' : List UInt8} (bound : data.length < 2 ^ 32)
    (bound' : data'.length < 2 ^ 32) :
    Splits (data = data') (lengthBytes data.length ++ data)
      (lengthBytes data'.length ++ data') :=
  ((splits_length bound bound').append fun length => Splits.of_length length).imp And.right

/-- A list of records behind its length. -/
theorem splits_list {ι : Type} {encode : ι → List UInt8} {items items' : List ι}
    (bound : items.length < 2 ^ 32) (bound' : items'.length < 2 ^ 32)
    (split : ∀ item ∈ items, ∀ item' ∈ items',
      Splits (item = item') (encode item) (encode item')) :
    Splits (items = items') (lengthBytes items.length ++ items.flatMap encode)
      (lengthBytes items'.length ++ items'.flatMap encode) :=
  ((splits_length bound bound').append fun length => Splits.flatMap split length).imp
    And.right

theorem splits_input {input input' : TXInput} (bound : input.data.length < 2 ^ 32)
    (bound' : input'.data.length < 2 ^ 32) :
    Splits (input = input') (inputBytes input) (inputBytes input') := by
  apply ((splits_uint64 _ _).append fun _ => splits_data bound bound').imp
  rintro ⟨amount, data⟩
  exact TXInput.mk.injEq .. ▸ ⟨amount, data⟩

theorem splits_output (output output' : TXOutput) :
    Splits (output = output') (outputBytes output) (outputBytes output') := by
  apply ((splits_uint64 _ _).append fun _ => splits_array _ _).imp
  rintro ⟨amount, to_⟩
  exact TXOutput.mk.injEq .. ▸ ⟨amount, to_⟩

theorem splits_tx (bound : tx.SizesBelow (2 ^ 32)) (bound' : tx'.SizesBelow (2 ^ 32)) :
    Splits (tx = tx') (txBytes tx) (txBytes tx') := by
  have inputs := splits_list bound.inputs bound'.inputs
    fun input member input' member' =>
      splits_input (bound.data input member) (bound'.data input' member')
  have outputs := splits_list bound.outputs bound'.outputs
    fun output _ output' _ => splits_output output output'
  have extra := splits_data bound.extra bound'.extra
  have owner := (splits_array tx.from_ tx'.from_).append
    fun _ => splits_array tx.signature tx'.signature
  rw [txBytes, txBytes, ← List.append_assoc (lengthBytes tx.extra.length),
    ← List.append_assoc (lengthBytes tx'.extra.length)]
  apply ((splits_uint64 tx.time tx'.time).append fun _ => inputs.append fun _ =>
    outputs.append fun _ => extra.append fun _ => owner).imp
  rcases tx with ⟨⟨_, _, _, _⟩, _, _⟩
  rcases tx' with ⟨⟨_, _, _, _⟩, _, _⟩
  rintro ⟨time, inputs, outputs, extra, from_, signature⟩
  simp only at time inputs outputs extra from_ signature
  rw [time, inputs, outputs, extra, from_, signature]

theorem splits_block (bound : bl.SizesBelow (2 ^ 32)) (bound' : bl'.SizesBelow (2 ^ 32)) :
    Splits (bl = bl') (blockBytes bl) (blockBytes bl') := by
  have txList := splits_list bound.txList bound'.txList
    fun tx member tx' member' => splits_tx (bound.txs tx member) (bound'.txs tx' member')
  apply ((splits_uint32 bl.nonce bl'.nonce).append fun _ =>
    (splits_uint64 bl.timestamp bl'.timestamp).append fun _ =>
      (splits_array bl.prevBlockHash bl'.prevBlockHash).append fun _ =>
        (splits_tx bound.coinbase bound'.coinbase).append fun _ => txList).imp
  rcases bl with ⟨⟨_, _, _⟩, _, _⟩
  rcases bl' with ⟨⟨_, _, _⟩, _, _⟩
  rintro ⟨nonce, timestamp, prevBlockHash, coinbase, txList⟩
  simp only at nonce timestamp prevBlockHash coinbase txList
  rw [nonce, timestamp, prevBlockHash, coinbase, txList]

/-- Serialized blocks, and serialized transactions, with anything behind them: equal
bytes are the same record and the same rest. -/
theorem serialize_splits (bl bl' : Block) (tx tx' : TX) (blBound : bl.SizesBelow (2 ^ 32))
    (blBound' : bl'.SizesBelow (2 ^ 32)) (txBound : tx.SizesBelow (2 ^ 32))
    (txBound' : tx'.SizesBelow (2 ^ 32)) :
    (∀ rest rest', (serializeBlock bl Stream.empty).buf ++ rest =
        (serializeBlock bl' Stream.empty).buf ++ rest' → bl = bl' ∧ rest = rest') ∧
    ∀ rest rest', (serializeTx tx Stream.empty).buf ++ rest =
        (serializeTx tx' Stream.empty).buf ++ rest' → tx = tx' ∧ rest = rest' := by
  simp only [serializeBlock_empty, serializeTx_empty]
  exact ⟨splits_block blBound blBound', splits_tx txBound txBound'⟩

/-- A block without any transaction data. -/
def emptyBlock : Block := ⟨⟨0, 0, zeroBytes 32⟩, default, []⟩

theorem emptyBlock_sizesBelow : emptyBlock.SizesBelow (2 ^ 32) where
  coinbase := ⟨by decide, by decide, by decide, by decide⟩
  txList := by decide
  txs := List.forall_mem_nil _

theorem serialize_splits_oneInput :
    (∀ rest rest', (serializeBlock oneInputBlock Stream.empty).buf ++ rest =
        (serializeBlock emptyBlock Stream.empty).buf ++ rest' →
      oneInputBlock = emptyBlock ∧ rest = rest') ∧
    ∀ rest rest', (serializeTx oneInput Stream.empty).buf ++ rest =
        (serializeTx default Stream.empty).buf ++ rest' → oneInput = default ∧ rest = rest' :=
  serialize_splits oneInputBlock emptyBlock oneInput default
    (oneInputBlock_sizesBelow.mono (by decide)) emptyBlock_sizesBelow
    (oneInput_sizesBelow.mono (by decide)) emptyBlock_sizesBelow.coinbase

end IotChain.StreamSerializer
