import IotChain.Chain.Unambiguous
import IotChain.Stream.Accepting

/-!
# What the decoder accepts

Each reader accepts the encodings of its record and nothing else, whatever counts the
stream announces.  A reader that stops has therefore stepped over the encoding of some
record, and a part of an encoding is not the encoding of another one.
-/

namespace IotChain.StreamSerializer

open IotChain.Bytes

/-! ## Lists -/

/-- Values and words that come from the same sources. -/
theorem exists_sources {ι α : Type} {encode : ι → List UInt8} {decode : ι → α}
    {values : List α} {words : List (List UInt8)}
    (images : List.Forall₂ (Image encode decode) values words) :
    ∃ sources : List ι, values = sources.map decode ∧ words = sources.map encode := by
  induction images with
  | nil => exact ⟨[], rfl, rfl⟩
  | cons image _ ih =>
      obtain ⟨source, rfl, rfl⟩ := image
      obtain ⟨sources, rfl, rfl⟩ := ih
      exact ⟨source :: sources, rfl, rfl⟩

theorem lengthBytes_of_toNat {length : Nat} {size : UInt32} (equal : length = size.toNat) :
    lengthBytes length = encodeLE 4 size.toNat := by
  rw [lengthBytes, equal, UInt32.ofNat_toNat]

theorem accepts_list {ι α : Type} [Inhabited α] {item : Reading α}
    {encode : ι → List UInt8} {decode : ι → α} (accepts : Accepts item (Image encode decode))
    (nonempty : ∀ source, encode source ≠ []) :
    Accepts (deserializeList item)
      (Image (fun sources : List ι => lengthBytes sources.length ++ sources.flatMap encode)
        fun sources => List.replicate sources.length default ++ sources.map decode) := by
  intro before rest short
  apply ((Accepts.uint32 before rest short).bind fun size word after restEq _ =>
    accepts.pushLoop ?_ size.toNat _ (Nat.zero_le _) ?_).mono
  · rintro result _ ⟨size, _, _, rfl, rfl, values, words, rfl, length, rfl, images⟩
    obtain ⟨sources, rfl, rfl⟩ := exists_sources images
    rw [List.length_map] at length
    refine ⟨sources, ?_, ?_⟩
    · beta_reduce
      rw [length]
    · beta_reduce
      rw [lengthBytes_of_toNat length, List.flatMap]
  · rintro _ _ ⟨source, _, rfl⟩
    exact nonempty source
  · rw [restEq, List.length_append] at short
    rw [List.length_append]
    omega

/-! ## Records -/

theorem accepts_input : Accepts deserializeInput (Image inputBytes id) := by
  apply (Accepts.uint64.bind fun amount => Accepts.uint32.bind fun dataSize =>
    (Accepts.bytes dataSize.toNat).map fun data => TXInput.mk amount data).mono
  rintro _ _ ⟨amount, _, _, rfl, rfl, dataSize, _, _, rfl, rfl, data, rfl, rfl, length⟩
  exact ⟨⟨amount, data⟩, rfl, by rw [inputBytes, lengthBytes_of_toNat length]⟩

theorem accepts_output : Accepts deserializeOutput (Image outputBytes id) := by
  apply (Accepts.uint64.bind fun amount =>
    (Accepts.array 25).map fun to_ => TXOutput.mk amount to_).mono
  rintro _ _ ⟨amount, _, _, rfl, rfl, to_, rfl, rfl⟩
  exact ⟨⟨amount, to_⟩, rfl, rfl⟩

theorem inputBytes_ne_nil (input : TXInput) : inputBytes input ≠ [] := by
  simp [inputBytes, encodeLE]

theorem outputBytes_ne_nil (output : TXOutput) : outputBytes output ≠ [] := by
  simp [outputBytes, encodeLE]

theorem txBytes_ne_nil (tx : TX) : txBytes tx ≠ [] := by
  simp [txBytes, encodeLE]

theorem accepts_tx : Accepts deserializeTx (Image txBytes rereadTx) := by
  apply (Accepts.uint64.bind fun time =>
    (accepts_list accepts_input inputBytes_ne_nil).bind fun inputs =>
      (accepts_list accepts_output outputBytes_ne_nil).bind fun outputs =>
        Accepts.uint32.bind fun extraSize => (Accepts.bytes extraSize.toNat).bind fun extra =>
          (Accepts.array 25).bind fun from_ => (Accepts.array 65).map fun signature =>
            TX.mk ⟨time, inputs, outputs, extra⟩ from_ signature).mono
  rintro _ _ ⟨time, _, _, rfl, rfl, _, _, _, rfl, ⟨inputs, rfl, rfl⟩, _, _, _, rfl,
    ⟨outputs, rfl, rfl⟩, extraSize, _, _, rfl, rfl, extra, _, _, rfl, ⟨rfl, length⟩, from_,
    _, _, rfl, rfl, signature, rfl, rfl⟩
  refine ⟨⟨⟨time, inputs, outputs, extra⟩, from_, signature⟩, ?_, ?_⟩
  · simp [rereadTx, resized]
  · rw [txBytes, lengthBytes_of_toNat length]

theorem accepts_block : Accepts deserializeBlock (Image blockBytes rereadBlock) := by
  apply (Accepts.uint32.bind fun nonce => Accepts.uint64.bind fun timestamp =>
    (Accepts.array 32).bind fun prevBlockHash => accepts_tx.bind fun coinbase =>
      (accepts_list accepts_tx txBytes_ne_nil).map fun txList =>
        Block.mk ⟨nonce, timestamp, prevBlockHash⟩ coinbase txList).mono
  rintro _ _ ⟨nonce, _, _, rfl, rfl, timestamp, _, _, rfl, rfl, prevBlockHash, _, _, rfl, rfl,
    _, _, _, rfl, ⟨coinbase, rfl, rfl⟩, _, rfl, txList, rfl, rfl⟩
  exact ⟨⟨⟨nonce, timestamp, prevBlockHash⟩, coinbase, txList⟩, rfl, rfl⟩

/-! ## Sizes -/

/-- An item is no longer than the list it is written in. -/
theorem length_le_flatMap {ι : Type} {encode : ι → List UInt8} {items : List ι} {item : ι}
    (member : item ∈ items) : (encode item).length ≤ (items.flatMap encode).length := by
  induction items with
  | nil => cases member
  | cons first items ih =>
      rw [List.flatMap_cons, List.length_append]
      rcases List.mem_cons.mp member with rfl | member
      · exact Nat.le_add_right _ _
      · exact Nat.le_trans (ih member) (Nat.le_add_left _ _)

/-- A list has no more items than bytes. -/
theorem count_le_flatMap {ι : Type} {encode : ι → List UInt8} {items : List ι}
    (nonempty : ∀ item, encode item ≠ []) : items.length ≤ (items.flatMap encode).length := by
  induction items with
  | nil => exact Nat.le_refl _
  | cons first items ih =>
      have taken : 0 < (encode first).length := List.length_pos_iff.mpr (nonempty first)
      rw [List.flatMap_cons, List.length_append, List.length_cons]
      omega

variable {tx : TX} {bl : Block} {bound : Nat}

theorem sizesBelow_of_txBytes (short : (txBytes tx).length < bound) : tx.SizesBelow bound := by
  have inputs : tx.inputs.length ≤ (tx.inputs.flatMap inputBytes).length :=
    count_le_flatMap inputBytes_ne_nil
  have outputs : tx.outputs.length ≤ (tx.outputs.flatMap outputBytes).length :=
    count_le_flatMap outputBytes_ne_nil
  simp only [txBytes, List.length_append] at short
  constructor
  · omega
  · intro input member
    have data : (inputBytes input).length ≤ (tx.inputs.flatMap inputBytes).length :=
      length_le_flatMap member
    rw [inputBytes, List.length_append, List.length_append] at data
    omega
  · omega
  · omega

theorem sizesBelow_of_blockBytes (short : (blockBytes bl).length < bound) :
    bl.SizesBelow bound := by
  have txList : bl.txList.length ≤ (bl.txList.flatMap txBytes).length :=
    count_le_flatMap txBytes_ne_nil
  simp only [blockBytes, List.length_append] at short
  constructor
  · apply sizesBelow_of_txBytes
    omega
  · omega
  · intro tx member
    have bytes : (txBytes tx).length ≤ (bl.txList.flatMap txBytes).length :=
      length_le_flatMap member
    apply sizesBelow_of_txBytes
    omega

/-! ## Acceptance -/

/-- Over these bytes the reader stops behind exactly the encodings among their first
parts, and otherwise throws end of stream; and it throws over a part of the encoding of
a record of the given size. -/
def DecodesExactly {α : Type} (serialize : α → Stream → Stream) (deserialize : Reading α)
    (sized : α → Prop) (bytes : List UInt8) : Prop :=
  (∀ k, (∃ record next, deserialize (Stream.memoryReader bytes) = .ok (record, next) ∧
      next.n = k) ↔
    k ≤ bytes.length ∧ ∃ record, (serialize record Stream.empty).buf = bytes.take k) ∧
  (∀ failure, deserialize (Stream.memoryReader bytes) = .error failure →
    failure = endOfStream) ∧
  ∀ record, sized record → bytes <+: (serialize record Stream.empty).buf →
    bytes ≠ (serialize record Stream.empty).buf →
    deserialize (Stream.memoryReader bytes) = .error endOfStream

/-- A reader that accepts the encodings and nothing else decodes exactly, as long as
encodings split. -/
theorem decodesExactly_of_accepts {α : Type} {serialize : α → Stream → Stream}
    {deserialize : Reading α} {encode : α → List UInt8} {decode : α → α} {sized : α → Prop}
    {bytes : List UInt8} (short : bytes.length < 2 ^ 31)
    (written : ∀ record, (serialize record Stream.empty).buf = encode record)
    (accepts : Accepts deserialize (Image encode decode))
    (reads : ∀ record, (encode record).length ≤ bytes.length →
      Reads deserialize (encode record) (decode record))
    (splits : ∀ record record', (encode record').length ≤ bytes.length → sized record →
      Splits (record = record') (encode record) (encode record')) :
    DecodesExactly serialize deserialize sized bytes := by
  have exact := accepts.exact short reads
  simp only [DecodesExactly, written]
  refine ⟨exact, fun failure run => accepts.failure_eq short run, ?_⟩
  rintro record size ⟨missing, encoded⟩ proper
  cases run : deserialize (Stream.memoryReader bytes) with
  | error failure => rw [accepts.failure_eq short run]
  | ok result =>
      obtain ⟨le, record', wordEq⟩ := (exact result.2.n).mp ⟨_, _, run, rfl⟩
      have bytesEq : encode record' ++ bytes.drop result.2.n = bytes := by
        rw [wordEq, List.take_append_drop]
      have lengthEq := congrArg List.length bytesEq
      rw [List.length_append] at lengthEq
      have joined : encode record ++ [] = encode record' ++
          (bytes.drop result.2.n ++ missing) := by
        rw [← List.append_assoc, bytesEq, encoded, List.append_nil]
      obtain ⟨_, nothing⟩ := splits record record' (by omega) size _ _ joined
      rw [(List.append_eq_nil_iff.mp nothing.symm).2, List.append_nil] at encoded
      exact absurd encoded proper

/-- Both readers decode exactly what the writers write. -/
theorem deserialize_exact (bytes : List UInt8) (short : bytes.length < 2 ^ 31) :
    DecodesExactly serializeBlock deserializeBlock (Block.SizesBelow (2 ^ 32)) bytes ∧
    DecodesExactly serializeTx deserializeTx (TX.SizesBelow (2 ^ 32)) bytes := by
  constructor
  · apply decodesExactly_of_accepts short serializeBlock_empty accepts_block
    · intro bl le
      exact reads_block (sizesBelow_of_blockBytes (by omega))
    · intro bl bl' le size
      exact splits_block size (sizesBelow_of_blockBytes (by omega))
  · apply decodesExactly_of_accepts short serializeTx_empty accepts_tx
    · intro tx le
      exact reads_tx (sizesBelow_of_txBytes (by omega))
    · intro tx tx' le size
      exact splits_tx size (sizesBelow_of_txBytes (by omega))

/-- Three bytes are less than any encoding. -/
theorem deserialize_exact_three :
    DecodesExactly serializeBlock deserializeBlock (Block.SizesBelow (2 ^ 32)) [1, 2, 3] ∧
    DecodesExactly serializeTx deserializeTx (TX.SizesBelow (2 ^ 32)) [1, 2, 3] :=
  deserialize_exact [1, 2, 3] (by decide)

end IotChain.StreamSerializer
