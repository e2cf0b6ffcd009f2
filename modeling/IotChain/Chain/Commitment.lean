import IotChain.Chain.Hashing

/-!
# What a hash commits to

The input of `TXHash` starts and ends with fields of fixed size.  Everything between
them is fed without lengths, so from eight bytes on the middle can be read both as
`extra_` and as an input.  The input of `BlockHash` runs on in the same way from one
transaction to the next.
-/

namespace IotChain

open IotChain.Bytes

variable {tx other : TX} {bl : Block}

/-! ## Headers -/

theorem headerObject_inj {padding padding' : ByteVec 4} {header header' : BlockHeader}
    (equal : headerObject padding header = headerObject padding' header') :
    header = header' := by
  simp only [headerObject, List.append_assoc] at equal
  obtain ⟨nonce, equal⟩ := List.append_inj equal (by simp)
  obtain ⟨_, equal⟩ := List.append_inj equal (by simp)
  obtain ⟨timestamp, prevBlockHash⟩ := List.append_inj equal (by simp)
  cases header
  cases header'
  rw [BlockHeader.mk.injEq]
  exact ⟨encode32_inj nonce, encode64_inj timestamp,
    List.Vector.toList_injective prevBlockHash⟩

/-! ## Transactions -/

/-- What `TXHash` commits to: the fields around the middle, and the middle as one
string of bytes. -/
theorem txHashInput_eq_iff :
    txHashInput other = txHashInput tx ↔
      other.time = tx.time ∧ middleBytes other = middleBytes tx ∧
        other.from_ = tx.from_ ∧ other.signature = tx.signature := by
  constructor
  · intro equal
    rw [txHashInput_eq, txHashInput_eq] at equal
    obtain ⟨time, equal⟩ := List.append_inj equal (by simp)
    obtain ⟨middle, equal⟩ := List.append_inj' equal (by simp)
    obtain ⟨from_, signature⟩ := List.append_inj equal (by simp)
    exact ⟨encode64_inj time, middle, List.Vector.toList_injective from_,
      List.Vector.toList_injective signature⟩
  · rintro ⟨time, middle, from_, signature⟩
    rw [txHashInput_eq, txHashInput_eq, time, middle, from_, signature]

/-- Items of eight bytes or more do not fit into less than eight bytes. -/
theorem eq_nil_of_length_flatMap_lt {ι : Type} {items : List ι} {encode : ι → List UInt8}
    (least : ∀ item, 8 ≤ (encode item).length)
    (short : (items.flatMap encode).length < 8) : items = [] := by
  rcases items with _ | ⟨item, items⟩
  · rfl
  · have itemLength := least item
    rw [List.flatMap_cons, List.length_append] at short
    omega

/-- A middle of less than eight bytes has room for `extra_` only. -/
theorem length_middleBytes_lt_iff :
    (middleBytes tx).length < 8 ↔
      tx.inputs = [] ∧ tx.outputs = [] ∧ tx.extra.length < 8 := by
  constructor
  · intro short
    rw [middleBytes, List.length_append, List.length_append] at short
    have inputs : tx.inputs = [] :=
      eq_nil_of_length_flatMap_lt (fun input => by simp [inputHashBytes])
        (show (tx.inputs.flatMap inputHashBytes).length < 8 by omega)
    have outputs : tx.outputs = [] :=
      eq_nil_of_length_flatMap_lt (fun output => by simp [outputHashBytes])
        (show (tx.outputs.flatMap outputHashBytes).length < 8 by omega)
    exact ⟨inputs, outputs, by omega⟩
  · rintro ⟨inputs, outputs, extra⟩
    simpa [middleBytes, inputs, outputs] using extra

/-- A transaction with a short middle is determined by its hash input. -/
theorem eq_of_txHashInput_eq (short : (middleBytes tx).length < 8)
    (equal : txHashInput other = txHashInput tx) : other = tx := by
  obtain ⟨time, middle, from_, signature⟩ := txHashInput_eq_iff.mp equal
  have shortOther : (middleBytes other).length < 8 := middle ▸ short
  obtain ⟨inputs, outputs, _⟩ := length_middleBytes_lt_iff.mp short
  obtain ⟨inputsOther, outputsOther, _⟩ := length_middleBytes_lt_iff.mp shortOther
  have extra : other.extra = tx.extra := by
    simpa [middleBytes, inputs, outputs, inputsOther, outputsOther] using middle
  rcases tx with ⟨⟨_, _, _, _⟩, _, _⟩
  rcases other with ⟨⟨_, _, _, _⟩, _, _⟩
  simp_all

/-- The transaction with the middle moved into `extra_`. -/
def asExtra (tx : TX) : TX :=
  { tx with inputs := [], outputs := [], extra := middleBytes tx }

/-- The transaction with the middle moved into the data of one input. -/
def asInput (amount : UInt64) (tx : TX) : TX :=
  { tx with inputs := [⟨amount, (middleBytes tx).drop 8⟩], outputs := [], extra := [] }

theorem txHashInput_asExtra (tx : TX) : txHashInput (asExtra tx) = txHashInput tx :=
  txHashInput_eq_iff.mpr ⟨rfl, by simp [middleBytes, asExtra], rfl, rfl⟩

theorem txHashInput_asInput {amount : UInt64}
    (bytes : encodeLE 8 amount.toNat = (middleBytes tx).take 8) :
    txHashInput (asInput amount tx) = txHashInput tx := by
  have middle : middleBytes (asInput amount tx) = middleBytes tx := by
    have parts := List.take_append_drop 8 (middleBytes tx)
    rw [← bytes] at parts
    simpa [middleBytes, asInput, inputHashBytes] using parts
  exact txHashInput_eq_iff.mpr ⟨rfl, middle, rfl, rfl⟩

/-- A transaction with a middle of eight bytes or more shares its hash input. -/
theorem exists_other_tx (long : 8 ≤ (middleBytes tx).length) :
    ∃ other, other ≠ tx ∧ txHashInput other = txHashInput tx := by
  by_cases inputs : tx.inputs = []
  · have length : ((middleBytes tx).take 8).length = 8 := by
      rw [List.length_take]
      omega
    obtain ⟨amount, bytes⟩ := exists_encode64 length
    refine ⟨asInput amount tx, ?_, txHashInput_asInput bytes⟩
    intro equal
    have oneInput := congrArg (fun t => t.inputs) equal
    simp [asInput, inputs] at oneInput
  · refine ⟨asExtra tx, ?_, txHashInput_asExtra tx⟩
    intro equal
    exact inputs (congrArg (fun t => t.inputs) equal).symm

/-! ## Blocks -/

/-- Ninety-eight bytes or more are the hash input of a transaction. -/
theorem exists_txHashInput {bytes : List UInt8} (long : 98 ≤ bytes.length) :
    ∃ tx, txHashInput tx = bytes := by
  let rest := bytes.drop 8
  let tail := rest.drop (rest.length - 90)
  have headLength : (bytes.take 8).length = 8 := by
    rw [List.length_take]
    omega
  have tailLength : tail.length = 90 := by
    simp only [tail, rest, List.length_drop]
    omega
  obtain ⟨time, timeBytes⟩ := exists_encode64 headLength
  obtain ⟨from_, fromBytes⟩ := exists_byteVec (show (tail.take 25).length = 25 by
    rw [List.length_take, tailLength]; rfl)
  obtain ⟨signature, signatureBytes⟩ := exists_byteVec (show (tail.drop 25).length = 65 by
    rw [List.length_drop, tailLength])
  refine ⟨⟨⟨time, [], [], rest.take (rest.length - 90)⟩, from_, signature⟩, ?_⟩
  rw [txHashInput_eq, timeBytes, fromBytes, signatureBytes, List.take_append_drop]
  have middle : middleBytes ⟨⟨time, [], [], rest.take (rest.length - 90)⟩, from_,
      signature⟩ = rest.take (rest.length - 90) := rfl
  rw [middle, List.take_append_drop, List.take_append_drop]

/-- A block without listed transactions whose coinbase has a short middle is determined
by its hash input. -/
theorem eq_of_blockHashInput_eq {other : Block} {padding padding' : ByteVec 4}
    (noTxs : bl.txList = []) (short : (middleBytes bl.coinbase).length < 8)
    (equal : blockHashInput padding' other = blockHashInput padding bl) : other = bl := by
  rw [blockHashInput_eq, blockHashInput_eq, noTxs, List.flatMap_nil, List.append_nil]
    at equal
  obtain ⟨header, txs⟩ := List.append_inj equal (by simp [length_headerObject])
  have lengthEq := congrArg List.length txs
  rw [List.length_append, length_txHashInput, length_txHashInput] at lengthEq
  have noTxsOther : other.txList = [] :=
    eq_nil_of_length_flatMap_lt (fun tx => by rw [length_txHashInput]; omega)
      (show (other.txList.flatMap txHashInput).length < 8 by omega)
  rw [noTxsOther, List.flatMap_nil, List.append_nil] at txs
  have headerEq := headerObject_inj header
  have coinbaseEq := eq_of_txHashInput_eq short txs
  rcases bl with ⟨_, _, _⟩
  rcases other with ⟨_, _, _⟩
  simp_all

/-- A block that lists transactions, or whose coinbase has a middle of eight bytes or
more, shares its hash input. -/
theorem exists_other_block (padding : ByteVec 4)
    (shared : bl.txList ≠ [] ∨ 8 ≤ (middleBytes bl.coinbase).length) :
    ∃ other, other ≠ bl ∧ blockHashInput padding other = blockHashInput padding bl := by
  rcases shared with txs | long
  · have length : 98 ≤
        (txHashInput bl.coinbase ++ bl.txList.flatMap txHashInput).length := by
      rw [List.length_append, length_txHashInput]
      omega
    obtain ⟨coinbase, bytes⟩ := exists_txHashInput length
    refine ⟨⟨bl.toBlockHeader, coinbase, []⟩, ?_, ?_⟩
    · intro equal
      exact txs (congrArg (fun b => b.txList) equal).symm
    · rw [blockHashInput_eq, blockHashInput_eq, bytes, List.flatMap_nil, List.append_nil]
  · obtain ⟨coinbase, differs, bytes⟩ := exists_other_tx long
    refine ⟨⟨bl.toBlockHeader, coinbase, bl.txList⟩, ?_, ?_⟩
    · intro equal
      exact differs (congrArg (fun b => b.coinbase) equal)
    · rw [blockHashInput_eq, blockHashInput_eq, bytes]

/-! ## Commitment -/

/-- No other transaction feeds the same bytes to SHA-256. -/
def TxCommits (tx : TX) : Prop :=
  ∀ other, other ≠ tx → txHashInput other ≠ txHashInput tx

/-- No other block feeds the same bytes to SHA-256, whatever the padding of the two
headers holds. -/
def BlockCommits (bl : Block) : Prop :=
  ∀ other, other ≠ bl →
    ∀ padding padding', blockHashInput padding' other ≠ blockHashInput padding bl

/-- Which transactions and blocks their hash commits to. -/
theorem commits_iff (tx : TX) (bl : Block) :
    (TxCommits tx ↔ tx.inputs = [] ∧ tx.outputs = [] ∧ tx.extra.length < 8) ∧
    (BlockCommits bl ↔ bl.txList = [] ∧ bl.coinbase.inputs = [] ∧
      bl.coinbase.outputs = [] ∧ bl.coinbase.extra.length < 8) := by
  simp only [← length_middleBytes_lt_iff]
  constructor
  · constructor
    · intro commits
      by_contra long
      obtain ⟨other, differs, equal⟩ := exists_other_tx (Nat.le_of_not_lt long)
      exact commits other differs equal
    · intro short other differs equal
      exact differs (eq_of_txHashInput_eq short equal)
  · constructor
    · intro commits
      have committed : ¬ (bl.txList ≠ [] ∨ 8 ≤ (middleBytes bl.coinbase).length) := by
        intro shared
        obtain ⟨other, differs, equal⟩ := exists_other_block (zeroBytes 4) shared
        exact commits other differs _ _ equal
      rw [not_or, not_not, Nat.not_le] at committed
      exact committed
    · rintro ⟨noTxs, short⟩ other differs padding padding' equal
      exact differs (eq_of_blockHashInput_eq noTxs short equal)

/-- A transaction whose `extra_` is eight zero bytes. -/
def zeroExtra : TX := { (default : TX) with extra := List.replicate 8 0 }

/-- A transaction whose one input has amount zero and no data. -/
def zeroInput : TX := { (default : TX) with inputs := [⟨0, []⟩] }

/-- Not every transaction is committed to: an input of amount zero hashes like eight
zero bytes of `extra_`. -/
theorem commits_fails :
    ¬ ((∀ tx, TxCommits tx) ∧ ∀ bl, BlockCommits bl) := by
  rintro ⟨txs, _⟩
  have differs : zeroInput ≠ zeroExtra := by decide
  have equal : txHashInput zeroInput = txHashInput zeroExtra := by decide
  exact txs zeroExtra zeroInput differs equal

end IotChain
