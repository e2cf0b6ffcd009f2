import IotChain.Chain.Serialization

/-!
# Rereading a serialized record

The readers take every byte that the writers wrote and stop behind the last one.
What they return is the record with each of its lists of records behind as many
value-initialized ones, so a record comes back unchanged exactly when it has no
such list entries.
-/

namespace IotChain

open IotChain.Bytes

/-- The sizes of all of a transaction's containers are below the bound. -/
structure TX.SizesBelow (bound : Nat) (tx : TX) : Prop where
  inputs : tx.inputs.length < bound
  data : ∀ input ∈ tx.inputs, input.data.length < bound
  outputs : tx.outputs.length < bound
  extra : tx.extra.length < bound

/-- The sizes of all of a block's containers are below the bound. -/
structure Block.SizesBelow (bound : Nat) (bl : Block) : Prop where
  coinbase : bl.coinbase.SizesBelow bound
  txList : bl.txList.length < bound
  txs : ∀ tx ∈ bl.txList, tx.SizesBelow bound

theorem TX.SizesBelow.mono {bound limit : Nat} {tx : TX} (sizes : tx.SizesBelow bound)
    (le : bound ≤ limit) : tx.SizesBelow limit where
  inputs := Nat.lt_of_lt_of_le sizes.inputs le
  data := fun input member => Nat.lt_of_lt_of_le (sizes.data input member) le
  outputs := Nat.lt_of_lt_of_le sizes.outputs le
  extra := Nat.lt_of_lt_of_le sizes.extra le

theorem Block.SizesBelow.mono {bound limit : Nat} {bl : Block} (sizes : bl.SizesBelow bound)
    (le : bound ≤ limit) : bl.SizesBelow limit where
  coinbase := sizes.coinbase.mono le
  txList := Nat.lt_of_lt_of_le sizes.txList le
  txs := fun tx member => (sizes.txs tx member).mono le

namespace StreamSerializer

variable {tx : TX} {bl : Block}

/-- What a list is after it was resized to its own length before the first push. -/
def resized {α : Type} [Inhabited α] (items : List α) : List α :=
  List.replicate items.length default ++ items

@[simp]
theorem resized_eq_self_iff {α : Type} [Inhabited α] {items : List α} :
    resized items = items ↔ items = [] := by
  constructor
  · intro equal
    have lengthEq := congrArg List.length equal
    rw [resized, List.length_append, List.length_replicate] at lengthEq
    exact List.eq_nil_of_length_eq_zero (by omega)
  · rintro rfl
    rfl

/-- The transaction that reading a serialized transaction returns. -/
def rereadTx (tx : TX) : TX :=
  { tx with inputs := resized tx.inputs, outputs := resized tx.outputs }

/-- The block that reading a serialized block returns. -/
def rereadBlock (bl : Block) : Block :=
  { bl with
    coinbase := rereadTx bl.coinbase
    txList := List.replicate bl.txList.length default ++ bl.txList.map rereadTx }

theorem rereadTx_eq_self_iff : rereadTx tx = tx ↔ tx.inputs = [] ∧ tx.outputs = [] := by
  constructor
  · intro equal
    have inputs : resized tx.inputs = tx.inputs := congrArg (fun t => t.inputs) equal
    have outputs : resized tx.outputs = tx.outputs := congrArg (fun t => t.outputs) equal
    exact ⟨resized_eq_self_iff.mp inputs, resized_eq_self_iff.mp outputs⟩
  · rintro ⟨inputs, outputs⟩
    rw [rereadTx, resized_eq_self_iff.mpr inputs, resized_eq_self_iff.mpr outputs]

theorem rereadBlock_eq_self_iff :
    rereadBlock bl = bl ↔
      bl.txList = [] ∧ bl.coinbase.inputs = [] ∧ bl.coinbase.outputs = [] := by
  constructor
  · intro equal
    have coinbase : rereadTx bl.coinbase = bl.coinbase := congrArg (fun b => b.coinbase) equal
    have lengthEq := congrArg (fun b => b.txList.length) equal
    simp only [rereadBlock, List.length_append, List.length_replicate, List.length_map]
      at lengthEq
    exact ⟨List.eq_nil_of_length_eq_zero (by omega), rereadTx_eq_self_iff.mp coinbase⟩
  · rintro ⟨txList, coinbase⟩
    rw [rereadBlock, rereadTx_eq_self_iff.mpr coinbase, txList]
    cases bl
    cases txList
    rfl

/-! ## What the readers return -/

theorem toNat_length {length : Nat} (bound : length < 2 ^ 31) :
    (UInt32.ofNat length).toNat = length := by
  rw [UInt32.toNat_ofNat']
  exact Nat.mod_eq_of_lt (by omega)

theorem reads_length (length : Nat) :
    Reads Reading.uint32 (lengthBytes length) (UInt32.ofNat length) :=
  Reads.uint32 _

/-- A byte vector behind its length. -/
theorem reads_data {data : List UInt8} (bound : data.length < 2 ^ 31) :
    Reads (Reading.bytes (UInt32.ofNat data.length).toNat) data data :=
  Reads.ofBytes_of_length (toNat_length bound).symm

theorem reads_list {ι α : Type} [Inhabited α] {item : Reading α}
    {encode : ι → List UInt8} (decode : ι → α) {sources : List ι}
    (reads : ∀ source ∈ sources, Reads item (encode source) (decode source))
    (bound : sources.length < 2 ^ 31) :
    Reads (deserializeList item) (lengthBytes sources.length ++ sources.flatMap encode)
      (List.replicate sources.length default ++ sources.map decode) := by
  apply (reads_length sources.length).bind
  rw [toNat_length bound]
  have fromZero : 0 + sources.length < 2 ^ 31 := by omega
  exact Reads.pushLoop reads fromZero _

theorem reads_input {input : TXInput} (bound : input.data.length < 2 ^ 31) :
    Reads deserializeInput (inputBytes input) input := by
  apply (Reads.uint64 input.amount).bind
  apply (reads_length input.data.length).bind
  exact (reads_data bound).map fun data => TXInput.mk input.amount data

theorem reads_output (output : TXOutput) :
    Reads deserializeOutput (outputBytes output) output :=
  (Reads.uint64 output.amount).bind
    ((Reads.array output.to_).map fun to_ => TXOutput.mk output.amount to_)

theorem reads_tx (bound : tx.SizesBelow (2 ^ 31)) :
    Reads deserializeTx (txBytes tx) (rereadTx tx) := by
  have inputs : Reads (deserializeList deserializeInput)
      (lengthBytes tx.inputs.length ++ tx.inputs.flatMap inputBytes)
      (resized tx.inputs) := by
    have list := reads_list id
      (fun input member => reads_input (bound.data input member)) bound.inputs
    rwa [List.map_id] at list
  have outputs : Reads (deserializeList deserializeOutput)
      (lengthBytes tx.outputs.length ++ tx.outputs.flatMap outputBytes)
      (resized tx.outputs) := by
    have list := reads_list id
      (fun output _ => reads_output output) bound.outputs
    rwa [List.map_id] at list
  apply (Reads.uint64 tx.time).bind
  apply inputs.bind
  apply outputs.bind
  apply (reads_length tx.extra.length).bind
  apply (reads_data bound.extra).bind
  apply (Reads.array tx.from_).bind
  exact (Reads.array tx.signature).map fun signature =>
    TX.mk ⟨tx.time, resized tx.inputs, resized tx.outputs, tx.extra⟩ tx.from_ signature

theorem reads_block (bound : bl.SizesBelow (2 ^ 31)) :
    Reads deserializeBlock (blockBytes bl) (rereadBlock bl) := by
  have txList := reads_list rereadTx (fun tx member => reads_tx (bound.txs tx member)) bound.txList
  apply (Reads.uint32 bl.nonce).bind
  apply (Reads.uint64 bl.timestamp).bind
  apply (Reads.array bl.prevBlockHash).bind
  apply (reads_tx bound.coinbase).bind
  exact txList.map fun txList =>
    Block.mk ⟨bl.nonce, bl.timestamp, bl.prevBlockHash⟩ (rereadTx bl.coinbase) txList

/-! ## The round trip -/

/-- Reading the bytes that `serialize` leaves, with `rest` behind them, returns the
record they were written from and leaves the cursor at `rest`. -/
def RoundTrips {α : Type} (serialize : α → Stream → Stream) (deserialize : Reading α)
    (rest : List UInt8) (record : α) : Prop :=
  let written := (serialize record Stream.empty).buf
  deserialize ⟨written ++ rest, 0⟩ = .ok (record, ⟨written ++ rest, written.length⟩)

/-- A reader that always stops behind the writer's bytes gives the record back if
and only if it returns that record. -/
theorem roundTrips_iff {α : Type} {serialize : α → Stream → Stream}
    {deserialize : Reading α} {record reread : α}
    (reads : Reads deserialize (serialize record Stream.empty).buf reread)
    (rest : List UInt8) :
    RoundTrips serialize deserialize rest record ↔ reread = record := by
  have run := reads [] rest
  rw [List.nil_append, List.length_nil, Nat.zero_add] at run
  rw [RoundTrips, run]
  constructor
  · intro equal
    exact congrArg Prod.fst (Except.ok.inj equal)
  · rintro rfl
    rfl

/-- Which blocks and transactions survive being written and read. -/
theorem roundTrips_iff_no_entries (bl : Block) (tx : TX) (rest : List UInt8)
    (blBound : bl.SizesBelow (2 ^ 31)) (txBound : tx.SizesBelow (2 ^ 31)) :
    (RoundTrips serializeBlock deserializeBlock rest bl ↔
      bl.txList = [] ∧ bl.coinbase.inputs = [] ∧ bl.coinbase.outputs = []) ∧
    (RoundTrips serializeTx deserializeTx rest tx ↔
      tx.inputs = [] ∧ tx.outputs = []) := by
  constructor
  · have reads := reads_block blBound
    rw [← serializeBlock_empty] at reads
    exact (roundTrips_iff reads rest).trans rereadBlock_eq_self_iff
  · have reads := reads_tx txBound
    rw [← serializeTx_empty] at reads
    exact (roundTrips_iff reads rest).trans rereadTx_eq_self_iff

/-- A transaction with one input and no data. -/
def oneInput : TX := { (default : TX) with inputs := [default] }

theorem oneInput_sizesBelow : oneInput.SizesBelow (2 ^ 31) where
  inputs := by decide
  data := by decide
  outputs := by decide
  extra := by decide

/-- A block whose coinbase has one input. -/
def oneInputBlock : Block := ⟨⟨0, 0, zeroBytes 32⟩, oneInput, []⟩

theorem oneInputBlock_sizesBelow : oneInputBlock.SizesBelow (2 ^ 31) where
  coinbase := oneInput_sizesBelow
  txList := by decide
  txs := List.forall_mem_nil _

theorem roundTrips_iff_no_entries_oneInput :
    (RoundTrips serializeBlock deserializeBlock [] oneInputBlock ↔
      oneInputBlock.txList = [] ∧ oneInputBlock.coinbase.inputs = [] ∧
        oneInputBlock.coinbase.outputs = []) ∧
    (RoundTrips serializeTx deserializeTx [] oneInput ↔
      oneInput.inputs = [] ∧ oneInput.outputs = []) :=
  roundTrips_iff_no_entries oneInputBlock oneInput [] oneInputBlock_sizesBelow
    oneInput_sizesBelow

/-- The round trip does not hold of all records: a transaction with one input comes
back with two. -/
theorem roundTrips_fails :
    ¬ ((∀ bl : Block, bl.SizesBelow (2 ^ 31) →
          ∀ rest, RoundTrips serializeBlock deserializeBlock rest bl) ∧
        ∀ tx : TX, tx.SizesBelow (2 ^ 31) →
          ∀ rest, RoundTrips serializeTx deserializeTx rest tx) := by
  rintro ⟨_, txs⟩
  have roundTrip := txs oneInput oneInput_sizesBelow []
  have reads := reads_tx oneInput_sizesBelow
  rw [← serializeTx_empty] at reads
  rw [roundTrips_iff reads, rereadTx_eq_self_iff] at roundTrip
  exact absurd roundTrip.1 (List.cons_ne_nil _ _)

end StreamSerializer

end IotChain
