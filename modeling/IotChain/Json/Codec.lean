import IotChain.Chain.Identity
import IotChain.Json.HexBuffer
import IotChain.Key.Text

/-!
# Blocks as JSON

`json_serializer` turns transactions and blocks into JSON values and back.  The JSON
library is assumed to store and return what it is given.  Only the kinds of values that
the writers make are modelled.
-/

namespace IotChain

open IotChain.Bytes

/-! ## Values -/

/-- `nlohmann::json`.  A string is a `std::string`. -/
inductive Json
  | null
  | number (value : UInt64)
  | string (value : List UInt8)
  | array (values : List Json)
  | object (fields : List (String × Json))

namespace Json

/-- A value that starts as null and takes elements by `push_back`. -/
def ofList : List Json → Json
  | [] => .null
  | value :: values => .array (value :: values)

/-- The values that a loop over a value goes through. -/
def elements : Json → List Json
  | .null => []
  | .array values => values
  | .object fields => fields.map Prod.snd
  | value => [value]

/-- `operator[]` with a key. -/
def field (j : Json) (key : String) : Except JsonFailure Json :=
  match j with
  | .object fields => return (fields.lookup key).getD .null
  | .null => return .null
  | _ => throw .domainError

/-- `get<std::string>()`. -/
def getString : Json → Except JsonFailure (List UInt8)
  | .string value => return value
  | _ => throw .domainError

/-- `get<uint64_t>()`. -/
def getNumber : Json → Except JsonFailure UInt64
  | .number value => return value
  | _ => throw .domainError

@[simp]
theorem elements_ofList (values : List Json) : (ofList values).elements = values := by
  cases values <;> rfl

end Json

/-- A failure of the functions on keys. -/
def liftKey {α : Type} (run : Except KeyFailure α) : Except JsonFailure α :=
  run.mapError JsonFailure.key

section Functions

variable (digests : Digests)

/-! ## Writing -/

/-- The body of the loop over `inputs_` in `serialize_tx`. -/
def serializeInput (inp : TXInput) : Except JsonFailure Json := do
  return .object [
    ("amount", .number inp.amount),
    ("data", .string (← hexBuffer inp.data))]

/-- The body of the loop over `outputs_` in `serialize_tx`. -/
def serializeOutput (out : TXOutput) : Except JsonFailure Json := do
  return .object [
    ("amount", .number out.amount),
    ("to", .string (← liftKey (PublicKey.encoded out.to_)))]

/-- `json_serializer::serialize_tx`. -/
def serializeTxJson (tx : TX) : Except JsonFailure Json := do
  let inputs ← tx.inputs.mapM serializeInput
  let outputs ← tx.outputs.mapM serializeOutput
  return .object [
    ("hash", .string (← hexBuffer (txHash digests tx).toList)),
    ("from", .string (← liftKey (PublicKey.encoded tx.from_))),
    ("sign", .string (← hexBuffer tx.signature.toList)),
    ("time", .number tx.time),
    ("inputs", .ofList inputs),
    ("outputs", .ofList outputs),
    ("extra", .string (← hexBuffer tx.extra))]

/-- `json_serializer::serialize_block`. -/
def serializeBlockJson (padding : ByteVec 4) (bl : Block) : Except JsonFailure Json := do
  let txes ← bl.txList.mapM (serializeTxJson digests)
  return .object [
    ("hash", .string (← hexBuffer (blockHash digests.sha256 padding bl).toList)),
    ("nonce", .number bl.nonce.toUInt64),
    ("timestamp", .number bl.timestamp),
    ("prev_block_hash", .string (← hexBuffer bl.prevBlockHash.toList)),
    ("coinbase", ← serializeTxJson digests bl.coinbase),
    ("transactions", .ofList txes)]

/-! ## Reading -/

/-- What is in the arrays of new objects. -/
structure Fresh where
  address : Crypto.PublicKey
  signature : Crypto.Signature
  hash : Crypto.Hash

variable (fresh : Fresh)

/-- A field with a string. -/
def stringField (j : Json) (key : String) : Except JsonFailure (List UInt8) := do
  (← j.field key).getString

/-- A field with a number. -/
def numberField (j : Json) (key : String) : Except JsonFailure UInt64 := do
  (← j.field key).getNumber

/-- A field with an address. -/
def addressField (j : Json) (key : String) : Except JsonFailure Crypto.PublicKey := do
  liftKey (PublicKey.ofString digests fresh.address (← stringField j key))

/-- The body of the loop over `"inputs"` in `deserialize_tx`. -/
def deserializeInput (it : Json) : Except JsonFailure TXInput := do
  let amount ← numberField it "amount"
  let data ← readVector (← stringField it "data")
  return { amount, data }

/-- The body of the loop over `"outputs"` in `deserialize_tx`. -/
def deserializeOutput (it : Json) : Except JsonFailure TXOutput := do
  let to_ ← addressField digests fresh it "to"
  let amount ← numberField it "amount"
  return { amount, to_ }

/-- `json_serializer::deserialize_tx`. -/
def deserializeTxJson (j : Json) : Except JsonFailure TX := do
  let from_ ← addressField digests fresh j "from"
  let signature ← readArray (← stringField j "sign") fresh.signature
  let time ← numberField j "time"
  let extra ← readVector (← stringField j "extra")
  let inputs ← (← j.field "inputs").elements.mapM deserializeInput
  let outputs ← (← j.field "outputs").elements.mapM (deserializeOutput digests fresh)
  return { time, inputs, outputs, extra, from_, signature }

/-- `json_serializer::deserialize_block`. -/
def deserializeBlockJson (j : Json) : Except JsonFailure Block := do
  let nonce := (← numberField j "nonce").toUInt32
  let timestamp ← numberField j "timestamp"
  let prevBlockHash ← readArray (← stringField j "prev_block_hash") fresh.hash
  let coinbase ← deserializeTxJson digests fresh (← j.field "coinbase")
  let txList ← (← j.field "transactions").elements.mapM (deserializeTxJson digests fresh)
  return { nonce, timestamp, prevBlockHash, coinbase, txList }

end Functions

end IotChain
