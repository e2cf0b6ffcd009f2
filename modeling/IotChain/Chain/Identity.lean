import IotChain.Chain.Commitment
import IotChain.Chain.RoundTrip

/-!
# What the hash of a block depends on

`BlockHash` hashes the header as an object, so the padding of the header is hashed with
its fields.  Two objects with the same field values have the same hash input exactly
when their padding is the same, and a block read back from the database finds its own
key only then.
-/

namespace IotChain

open IotChain.Bytes StreamSerializer

/-! ## The database -/

/-- The digest of `BlockHash`, for the object with this padding. -/
def blockHash (sha256 : List UInt8 → Crypto.Hash) (padding : ByteVec 4) (bl : Block) :
    Crypto.Hash :=
  sha256 (blockHashInput padding bl)

/-- The key and the value that `block_container::generate_genesis` puts into the
database for a block. -/
def storedBlock (sha256 : List UInt8 → Crypto.Hash) (padding : ByteVec 4) (bl : Block) :
    Crypto.Hash × List UInt8 :=
  (blockHash sha256 padding bl, (serializeBlock bl Stream.empty).buf)

/-- Two objects with the fields of this block hash alike, whatever the hash function. -/
def HashesAlike (padding padding' : ByteVec 4) (bl : Block) : Prop :=
  ∀ sha256, blockHash sha256 padding' bl = blockHash sha256 padding bl

/-- The object that is rebuilt from a stored value hashes to its key, whatever the hash
function. -/
def HashesToKey (padding padding' : ByteVec 4) (bl : Block) : Prop :=
  ∀ sha256, ∃ record next,
    deserializeBlock (Stream.memoryReader (storedBlock sha256 padding bl).2) =
        .ok (record, next) ∧
      blockHash sha256 padding' record = (storedBlock sha256 padding bl).1

variable {padding padding' : ByteVec 4} {bl bl' : Block} {tx : TX}

/-- Bytes that hash alike under every function are equal. -/
theorem eq_of_forall_sha256 {left right : List UInt8}
    (alike : ∀ sha256 : List UInt8 → Crypto.Hash, sha256 left = sha256 right) :
    left = right := by
  by_contra differs
  have marked := alike fun bytes => if bytes = left then zeroBytes 32 else
    List.Vector.replicate 32 1
  rw [if_pos rfl, if_neg (Ne.symm differs)] at marked
  exact absurd marked (by decide)

theorem padding_of_headerObject {header header' : BlockHeader}
    (equal : headerObject padding' header' = headerObject padding header) :
    padding' = padding := by
  simp only [headerObject, List.append_assoc] at equal
  obtain ⟨_, equal⟩ := List.append_inj equal (by simp)
  obtain ⟨paddingEq, _⟩ := List.append_inj equal (by simp)
  exact List.Vector.toList_injective paddingEq

/-- Equal hash inputs have equal padding. -/
theorem padding_of_blockHashInput (equal : blockHashInput padding' bl' =
    blockHashInput padding bl) : padding' = padding := by
  rw [blockHashInput_eq, blockHashInput_eq] at equal
  exact padding_of_headerObject
    (List.append_inj equal (by rw [length_headerObject, length_headerObject])).1

/-! ## Reread records -/

theorem length_flatMap_resized {α : Type} [Inhabited α] {encode : α → List UInt8}
    (items : List α) : ((resized items).flatMap encode).length =
      items.length * (encode default).length + (items.flatMap encode).length := by
  simp [resized, List.length_flatMap]

theorem length_middleBytes_reread (tx : TX) :
    (middleBytes (rereadTx tx)).length =
      (middleBytes tx).length + tx.inputs.length * 8 + tx.outputs.length * 33 := by
  have inputDefault : (inputHashBytes default).length = 8 := by decide
  have outputDefault : (outputHashBytes default).length = 33 := by decide
  simp only [middleBytes, rereadTx, List.length_append, length_flatMap_resized, inputDefault,
    outputDefault]
  omega

theorem length_txHashInput_reread (tx : TX) :
    (txHashInput (rereadTx tx)).length =
      (txHashInput tx).length + tx.inputs.length * 8 + tx.outputs.length * 33 := by
  rw [length_txHashInput, length_txHashInput, length_middleBytes_reread]
  omega

/-- Rereading does not shorten the hash inputs of listed transactions. -/
theorem length_flatMap_reread (txs : List TX) :
    (txs.flatMap txHashInput).length ≤ ((txs.map rereadTx).flatMap txHashInput).length := by
  induction txs with
  | nil => exact Nat.le_refl _
  | cons tx txs ih =>
      have first := length_txHashInput_reread tx
      rw [List.map_cons, List.flatMap_cons, List.flatMap_cons, List.length_append,
        List.length_append]
      omega

/-- A reread block with the hash input of its source is its source. -/
theorem rereadBlock_of_blockHashInput (equal : blockHashInput padding' (rereadBlock bl) =
    blockHashInput padding bl) : rereadBlock bl = bl := by
  rw [blockHashInput_eq, blockHashInput_eq] at equal
  have lengthEq := congrArg List.length equal
  have coinbase := length_txHashInput_reread bl.coinbase
  have listed := length_flatMap_reread bl.txList
  have txDefault : (txHashInput default).length = 98 := by decide
  have fillers : ((List.replicate bl.txList.length (default : TX)).flatMap
      txHashInput).length = bl.txList.length * 98 := by
    simp [List.length_flatMap, txDefault]
  simp only [rereadBlock, List.flatMap_append, List.length_append, length_headerObject,
    fillers] at lengthEq
  apply rereadBlock_eq_self_iff.mpr
  refine ⟨List.eq_nil_of_length_eq_zero ?_, List.eq_nil_of_length_eq_zero ?_,
    List.eq_nil_of_length_eq_zero ?_⟩
  all_goals omega

/-- A stored block is read back as the reread block. -/
theorem deserialize_stored (bound : bl.SizesBelow (2 ^ 31)) :
    deserializeBlock (Stream.memoryReader (serializeBlock bl Stream.empty).buf) =
      .ok (rereadBlock bl, ⟨blockBytes bl, (blockBytes bl).length⟩) := by
  have run := reads_block bound [] []
  rw [List.append_nil, List.nil_append, List.length_nil, Nat.zero_add] at run
  rw [serializeBlock_empty]
  exact run

/-- Objects with the same fields hash alike exactly when their padding is the same, and
a block read back hashes to its key exactly when, besides, it has no list entries. -/
theorem hashes_iff_padding (padding padding' : ByteVec 4) (bl : Block) :
    (HashesAlike padding padding' bl ↔ padding' = padding) ∧
    (bl.SizesBelow (2 ^ 31) → (HashesToKey padding padding' bl ↔ padding' = padding ∧
      bl.txList = [] ∧ bl.coinbase.inputs = [] ∧ bl.coinbase.outputs = [])) := by
  constructor
  · constructor
    · intro alike
      exact padding_of_blockHashInput (eq_of_forall_sha256 alike)
    · rintro rfl sha256
      rfl
  · intro bound
    rw [← rereadBlock_eq_self_iff]
    constructor
    · intro toKey
      have equal : blockHashInput padding' (rereadBlock bl) = blockHashInput padding bl := by
        apply eq_of_forall_sha256
        intro sha256
        obtain ⟨record, next, run, hashEq⟩ := toKey sha256
        rw [storedBlock, deserialize_stored bound] at run
        cases run
        exact hashEq
      exact ⟨padding_of_blockHashInput equal, rereadBlock_of_blockHashInput equal⟩
    · rintro ⟨rfl, same⟩ sha256
      refine ⟨_, _, deserialize_stored bound, ?_⟩
      rw [same]
      rfl

theorem hashes_iff_padding_oneInput :
    HashesToKey (zeroBytes 4) (zeroBytes 4) oneInputBlock ↔ zeroBytes 4 = zeroBytes 4 ∧
      oneInputBlock.txList = [] ∧ oneInputBlock.coinbase.inputs = [] ∧
        oneInputBlock.coinbase.outputs = [] :=
  (hashes_iff_padding (zeroBytes 4) (zeroBytes 4) oneInputBlock).2 oneInputBlock_sizesBelow

/-- Two objects of the same block, one with zero padding and one without. -/
theorem hashes_alike_fails :
    ¬ ∀ (padding padding' : ByteVec 4) (bl : Block), HashesAlike padding padding' bl := by
  intro alike
  have same := eq_of_forall_sha256
    (alike (zeroBytes 4) (List.Vector.replicate 4 1) oneInputBlock)
  exact absurd (padding_of_blockHashInput same) (by decide)

end IotChain
