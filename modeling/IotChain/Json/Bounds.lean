import IotChain.Json.Codec
import IotChain.Key.Verification
import IotChain.Transition.Fallible

/-!
# The buffers of JSON texts

`integer_buffer` finds the number of bytes from the length of its text, and its callers give
it buffers of sizes that they find otherwise: half the length for a vector, a fixed size for
an array.  The reader stays inside of these buffers exactly if the texts have suitable
lengths, each as long as the ones in front of it are read.
-/

namespace IotChain

open IotChain.Bytes IotChain.Transition

/-! ## One buffer -/

/-- The bytes of a text have their places in a buffer, and the counter reaches its end. -/
def TextFits (length size : Nat) : Prop := length ≤ 2 ^ 32 - 2 ∧ length ≤ 2 * size + 2

/-- What the loop does depends on the lengths alone.  It never ends in a buffer that has a
place for each value of the counter. -/
theorem integerBufferLoop_ends {text : List UInt8} {i : Nat} {out : List UInt8}
    (even : i % 2 = 0) (start : 2 ≤ i) (reached : i = 2 ∨ i < text.length + 2)
    (inside : i ≤ 2 * out.length + 2) :
    (integerBufferLoop text i out ≠ .error .outOfBounds ↔
        TextFits text.length out.length ∨
          2 ^ 32 - 2 < text.length ∧ 2 ^ 32 ≤ out.length) ∧
      ((∃ written, integerBufferLoop text i out = .ok written) ↔
        TextFits text.length out.length) := by
  simp only [TextFits]
  induction i, out using integerBufferLoop.induct text with
  | case1 i out small goesOn byte room ih =>
      have size : (out.set (i / 2 - 1) byte).length = out.length := List.length_set
      rw [size] at ih
      rw [integerBufferLoop, if_pos small, if_pos goesOn, if_pos room]
      exact ih (by omega) (by omega) (by omega) (by omega)
  | case2 i out small goesOn full =>
      rw [integerBufferLoop, if_pos small, if_pos goesOn, if_neg full]
      constructor
      · apply iff_of_false (not_not_intro rfl)
        omega
      · apply iff_of_false
        · rintro ⟨written, same⟩
          cases same
        · omega
  | case3 i out small ended =>
      rw [integerBufferLoop, if_pos small, if_neg ended]
      have fits : text.length ≤ 2 ^ 32 - 2 ∧ text.length ≤ 2 * out.length + 2 := by omega
      exact ⟨iff_of_true (by rintro ⟨⟩) (.inl fits), iff_of_true ⟨out, rfl⟩ fits⟩
  | case4 i out large wraps =>
      rw [integerBufferLoop, if_neg large, if_pos wraps]
      constructor
      · apply iff_of_true (by rintro ⟨⟩)
        omega
      · apply iff_of_false
        · rintro ⟨written, same⟩
          cases same
        · omega
  | case5 i out large full =>
      rw [integerBufferLoop, if_neg large, if_neg full]
      constructor
      · apply iff_of_false (not_not_intro rfl)
        omega
      · apply iff_of_false
        · rintro ⟨written, same⟩
          cases same
        · omega

theorem integerBuffer_ends (text out : List UInt8) :
    (integerBuffer text out ≠ .error .outOfBounds ↔
        TextFits text.length out.length ∨
          2 ^ 32 - 2 < text.length ∧ 2 ^ 32 ≤ out.length) ∧
      ((∃ written, integerBuffer text out = .ok written) ↔
        TextFits text.length out.length) := by
  rw [integerBuffer]
  by_cases empty : text.isEmpty = true
  · have fits : TextFits text.length out.length := by
      rw [List.isEmpty_iff.mp empty]
      exact ⟨Nat.zero_le _, Nat.zero_le _⟩
    rw [if_pos empty]
    exact ⟨iff_of_true (by rintro ⟨⟩) (.inl fits), iff_of_true ⟨out, rfl⟩ fits⟩
  · rw [if_neg empty]
    exact integerBufferLoop_ends rfl (Nat.le_refl 2) (.inl rfl) (Nat.le_add_left 2 _)

/-! ## One text -/

/-- What a text of a JSON value is read as. -/
inductive JsonText
  | address (text : List UInt8)
  | array (n : Nat) (text : List UInt8)
  | vector (text : List UInt8)

namespace JsonText

/-- The text is read inside of its buffer.  `resize` throws for less than two characters. -/
def Stays : JsonText → Prop
  | address _ => True
  | array n text => text.length ≤ 2 * n + 2
  | vector text =>
      text.length < 2 ∨ text.length % 2 = 0 ∧ text.length ≤ 2 ^ 32 - 2 ∨
        2 ^ 33 + 2 ≤ text.length

/-- The text is read to its end. -/
def Returns (digests : Digests) (fresh : Fresh) : JsonText → Prop
  | address text => ∃ key, PublicKey.ofString digests fresh.address text = .ok key
  | array n text => text.length ≤ 2 * n + 2
  | vector text => 2 ≤ text.length ∧ text.length % 2 = 0 ∧ text.length ≤ 2 ^ 32 - 2

end JsonText

section Texts

variable {digests : Digests} {fresh : Fresh}

/-- Some texts are read in this order. -/
abbrev ReadsTexts {α : Type} (digests : Digests) (fresh : Fresh) (run : Except JsonFailure α)
    (texts : List JsonText) : Prop :=
  Takes .outOfBounds JsonText.Stays (JsonText.Returns digests fresh) run texts

theorem reads_singleton {α : Type} {run : Except JsonFailure α} {text : JsonText}
    (avoids : run ≠ .error .outOfBounds ↔ text.Stays)
    (returns : (∃ a, run = .ok a) ↔ text.Returns digests fresh) :
    ReadsTexts digests fresh run [text] where
  avoids := by
    rw [avoids, SafeInOrder]
    exact (and_iff_left fun _ => trivial).symm
  returns := by
    rw [returns]
    exact List.forall_mem_singleton.symm

theorem reads_address {j : Json} {key : String} {text : List UInt8}
    (typed : stringField j key = .ok text) :
    ReadsTexts digests fresh (addressField digests fresh j key) [.address text] := by
  rw [addressField, bind_of_eq_ok typed]
  cases run : PublicKey.ofString digests fresh.address text with
  | error failure =>
      apply reads_singleton
      · exact iff_of_true (by rintro ⟨⟩) trivial
      · apply iff_of_false
        · rintro ⟨address, same⟩
          cases same
        · rintro ⟨address, same⟩
          cases run.symm.trans same
  | ok address =>
      apply reads_singleton
      · exact iff_of_true (by rintro ⟨⟩) trivial
      · exact iff_of_true ⟨address, rfl⟩ ⟨address, run⟩

theorem reads_array {n : Nat} (small : n ≤ 2 ^ 31 - 2) (text : List UInt8) (array : ByteVec n) :
    ReadsTexts digests fresh (readArray text array) [.array n text] := by
  have ends := integerBuffer_ends text array.toList
  rw [array.toList_length] at ends
  have first : ReadsTexts digests fresh (integerBuffer text array.toList) [.array n text] := by
    apply reads_singleton
    · rw [ends.1, TextFits, JsonText.Stays]
      omega
    · rw [ends.2, TextFits, JsonText.Returns]
      omega
  exact first.bind fun _ _ => .of_ok rfl

theorem reads_vector (text : List UInt8) :
    ReadsTexts digests fresh (readVector text) [.vector text] := by
  by_cases short : text.length < 2
  · have stopped : readVector text = .error .lengthError := by
      rw [readVector, resize, if_pos short]
      rfl
    rw [stopped]
    apply reads_singleton
    · exact iff_of_true (by rintro ⟨⟩) (.inl short)
    · apply iff_of_false
      · rintro ⟨read, same⟩
        cases same
      · rw [JsonText.Returns]
        omega
  · have resized : resize text = .ok (List.replicate (text.length / 2 - 1) 0) := if_neg short
    have ends := integerBuffer_ends text (List.replicate (text.length / 2 - 1) 0)
    rw [List.length_replicate] at ends
    rw [readVector, bind_of_eq_ok resized]
    apply reads_singleton
    · rw [ends.1, TextFits, JsonText.Stays]
      omega
    · rw [ends.2, TextFits, JsonText.Returns]
      omega

end Texts

/-! ## Transactions -/

/-- The value of an input has fields of the types that are read, and this text of data. -/
structure InputOf (it : Json) (data : List UInt8) : Prop where
  amount : ∃ amount, numberField it "amount" = .ok amount
  data : stringField it "data" = .ok data

/-- The value of an output has fields of the types that are read, and this address. -/
structure OutputOf (it : Json) (to_ : List UInt8) : Prop where
  to_ : stringField it "to" = .ok to_
  amount : ∃ amount, numberField it "amount" = .ok amount

/-- The texts of a transaction. -/
structure TxTexts where
  from_ : List UInt8
  sign : List UInt8
  extra : List UInt8
  inputs : List (List UInt8)
  outputs : List (List UInt8)
  deriving DecidableEq, Repr

namespace TxTexts

/-- The value has fields of the types that `deserialize_tx` asks for, and these texts. -/
structure Of (j : Json) (texts : TxTexts) : Prop where
  from_ : stringField j "from" = .ok texts.from_
  sign : stringField j "sign" = .ok texts.sign
  time : ∃ time, numberField j "time" = .ok time
  extra : stringField j "extra" = .ok texts.extra
  inputs : ∃ inputs, j.field "inputs" = .ok inputs ∧
    List.Forall₂ InputOf inputs.elements texts.inputs
  outputs : ∃ outputs, j.field "outputs" = .ok outputs ∧
    List.Forall₂ OutputOf outputs.elements texts.outputs

/-- The texts in the order of reading. -/
def inOrder (texts : TxTexts) : List JsonText :=
  [.address texts.from_] ++ [.array 65 texts.sign] ++ [.vector texts.extra] ++
    texts.inputs.flatMap (fun data => [.vector data]) ++
    texts.outputs.flatMap fun to_ => [.address to_]

end TxTexts

section Values

variable {digests : Digests} {fresh : Fresh}

theorem reads_input {it : Json} {data : List UInt8} (typed : InputOf it data) :
    ReadsTexts digests fresh (deserializeInput it) [.vector data] := by
  rcases typed.amount with ⟨amount, amountField⟩
  rw [deserializeInput, bind_of_eq_ok amountField, bind_of_eq_ok typed.data]
  exact (reads_vector data).bind fun _ _ => .of_ok rfl

theorem reads_output {it : Json} {to_ : List UInt8} (typed : OutputOf it to_) :
    ReadsTexts digests fresh (deserializeOutput digests fresh it) [.address to_] := by
  rcases typed.amount with ⟨amount, amountField⟩
  refine (reads_address typed.to_).bind fun _ _ => ?_
  rw [bind_of_eq_ok amountField]
  exact .of_ok rfl

theorem reads_tx {j : Json} {texts : TxTexts} (typed : texts.Of j) :
    ReadsTexts digests fresh (deserializeTxJson digests fresh j) texts.inOrder := by
  rcases typed.time with ⟨time, timeField⟩
  rcases typed.inputs with ⟨inputs, inputsField, inputsTyped⟩
  rcases typed.outputs with ⟨outputs, outputsField, outputsTyped⟩
  rw [TxTexts.inOrder, List.append_assoc, List.append_assoc, List.append_assoc]
  refine (reads_address typed.from_).bind fun _ _ => ?_
  rw [bind_of_eq_ok typed.sign]
  refine (reads_array (by decide) texts.sign _).bind fun _ _ => ?_
  rw [bind_of_eq_ok timeField, bind_of_eq_ok typed.extra]
  refine (reads_vector texts.extra).bind fun _ _ => ?_
  rw [bind_of_eq_ok inputsField]
  refine (Takes.mapM inputsTyped reads_input).bind fun _ _ => ?_
  rw [bind_of_eq_ok outputsField, ← List.append_nil (List.flatMap _ _)]
  exact (Takes.mapM outputsTyped reads_output).bind fun _ _ => .of_ok rfl

end Values

/-! ## Blocks -/

/-- The texts of a block. -/
structure BlockTexts where
  prevBlockHash : List UInt8
  coinbase : TxTexts
  txList : List TxTexts
  deriving DecidableEq, Repr

namespace BlockTexts

/-- The value has fields of the types that `deserialize_block` asks for, and these texts. -/
structure Of (j : Json) (texts : BlockTexts) : Prop where
  nonce : ∃ nonce, numberField j "nonce" = .ok nonce
  timestamp : ∃ timestamp, numberField j "timestamp" = .ok timestamp
  prevBlockHash : stringField j "prev_block_hash" = .ok texts.prevBlockHash
  coinbase : ∃ coinbase, j.field "coinbase" = .ok coinbase ∧ texts.coinbase.Of coinbase
  txList : ∃ txes, j.field "transactions" = .ok txes ∧
    List.Forall₂ TxTexts.Of txes.elements texts.txList

/-- The texts in the order of reading. -/
def inOrder (texts : BlockTexts) : List JsonText :=
  [.array 32 texts.prevBlockHash] ++ texts.coinbase.inOrder ++
    texts.txList.flatMap TxTexts.inOrder

end BlockTexts

theorem reads_block {digests : Digests} {fresh : Fresh} {j : Json} {texts : BlockTexts}
    (typed : texts.Of j) :
    ReadsTexts digests fresh (deserializeBlockJson digests fresh j) texts.inOrder := by
  rcases typed.nonce with ⟨nonce, nonceField⟩
  rcases typed.timestamp with ⟨timestamp, timestampField⟩
  rcases typed.coinbase with ⟨coinbase, coinbaseField, coinbaseTyped⟩
  rcases typed.txList with ⟨txes, txesField, txesTyped⟩
  rw [BlockTexts.inOrder, List.append_assoc, deserializeBlockJson, bind_of_eq_ok nonceField,
    bind_of_eq_ok timestampField, bind_of_eq_ok typed.prevBlockHash]
  refine (reads_array (by decide) texts.prevBlockHash _).bind fun _ _ => ?_
  rw [bind_of_eq_ok coinbaseField]
  refine (reads_tx coinbaseTyped).bind fun _ _ => ?_
  rw [bind_of_eq_ok txesField, ← List.append_nil (List.flatMap _ _)]
  exact (Takes.mapM txesTyped reads_tx).bind fun _ _ => .of_ok rfl

/-- From a value with fields of the types that are asked for, `integer_buffer` only writes
inside of its buffers exactly if the texts that are reached have suitable lengths. -/
theorem json_stays_iff (digests : Digests) (fresh : Fresh) :
    (∀ j texts, TxTexts.Of j texts →
      (deserializeTxJson digests fresh j ≠ .error .outOfBounds ↔
        SafeInOrder JsonText.Stays (JsonText.Returns digests fresh) texts.inOrder)) ∧
      ∀ j texts, BlockTexts.Of j texts →
        (deserializeBlockJson digests fresh j ≠ .error .outOfBounds ↔
          SafeInOrder JsonText.Stays (JsonText.Returns digests fresh) texts.inOrder) :=
  ⟨fun _ _ typed => (reads_tx typed).avoids, fun _ _ typed => (reads_block typed).avoids⟩

namespace SampleTexts

/-- The text of the address of the sample transaction. -/
def address : List UInt8 := "1JJSWvBvzdmTEwh5qX6k57VL4Zs3gNUe3e".toUTF8.toList

/-- Arrays that are all zero. -/
def fresh : Fresh := ⟨zeroBytes 25, zeroBytes 65, zeroBytes 32⟩

/-- A transaction with these texts of its sender and extra. -/
def tx (from_ extra : List UInt8) : Json :=
  .object [("from", .string from_), ("sign", .string []), ("time", .number 0),
    ("extra", .string extra), ("inputs", .array []), ("outputs", .array [])]

theorem tx_texts (from_ extra : List UInt8) : TxTexts.Of (tx from_ extra)
    ⟨from_, [], extra, [], []⟩ where
  from_ := rfl
  sign := rfl
  time := ⟨0, rfl⟩
  extra := rfl
  inputs := ⟨_, rfl, .nil⟩
  outputs := ⟨_, rfl, .nil⟩

/-- A block without other transactions whose previous hash has this text. -/
def block (prevBlockHash : List UInt8) : Json :=
  .object [("nonce", .number 0), ("timestamp", .number 0),
    ("prev_block_hash", .string prevBlockHash), ("coinbase", tx [] []),
    ("transactions", .array [])]

theorem block_texts (prevBlockHash : List UInt8) :
    BlockTexts.Of (block prevBlockHash) ⟨prevBlockHash, ⟨[], [], [], [], []⟩, []⟩ where
  nonce := ⟨0, rfl⟩
  timestamp := ⟨0, rfl⟩
  prevBlockHash := rfl
  coinbase := ⟨_, rfl, tx_texts [] []⟩
  txList := ⟨_, rfl, .nil⟩

end SampleTexts

/-- A transaction with an odd text, and a block whose previous hash is too long. -/
theorem json_stays_iff_sample :
    (deserializeTxJson SampleTransaction.digests SampleTexts.fresh
          (SampleTexts.tx SampleTexts.address [48, 120, 55]) ≠ .error .outOfBounds ↔
        SafeInOrder JsonText.Stays (JsonText.Returns SampleTransaction.digests SampleTexts.fresh)
          (TxTexts.inOrder ⟨SampleTexts.address, [], [48, 120, 55], [], []⟩)) ∧
      (deserializeBlockJson SampleTransaction.digests SampleTexts.fresh
            (SampleTexts.block (List.replicate 68 48)) ≠ .error .outOfBounds ↔
        SafeInOrder JsonText.Stays (JsonText.Returns SampleTransaction.digests SampleTexts.fresh)
          (BlockTexts.inOrder ⟨List.replicate 68 48, ⟨[], [], [], [], []⟩, []⟩)) :=
  ⟨(json_stays_iff _ _).1 _ _ (SampleTexts.tx_texts _ _),
    (json_stays_iff _ _).2 _ _ (SampleTexts.block_texts _)⟩

/-- A hash of 33 bytes is written past the end of its array. -/
theorem json_stays_fails :
    ¬ ∀ digests fresh,
      (∀ j texts, TxTexts.Of j texts →
        deserializeTxJson digests fresh j ≠ .error .outOfBounds) ∧
      ∀ j texts, BlockTexts.Of j texts →
        deserializeBlockJson digests fresh j ≠ .error .outOfBounds := by
  intro stays
  have stay := (stays SampleTransaction.digests SampleTexts.fresh).2 _ _
    (SampleTexts.block_texts (List.replicate 68 48))
  have fits : (List.replicate 68 (48 : UInt8)).length ≤ 2 * 32 + 2 :=
    ((reads_block (SampleTexts.block_texts _)).avoids.mp stay).1
  exact absurd fits (by decide)

end IotChain
