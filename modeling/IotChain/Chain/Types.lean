import IotChain.Bytes.LittleEndian

/-!
# Chain types

Transactions and blocks as the source declares them.  The fixed-size arrays of
`CryptoTypes.h` carry their size in their type.  The default value of each record
is the value-initialized object that `std::vector::resize` appends.
-/

namespace IotChain

open IotChain.Bytes

namespace Crypto

/-- `Crypto::Hash`: the bytes of a digest. -/
abbrev Hash := ByteVec 32

/-- `Crypto::PublicKey`: an address, which is a type byte, a hash and a checksum. -/
abbrev PublicKey := ByteVec 25

/-- `Crypto::SecretKey`. -/
abbrev SecretKey := ByteVec 32

/-- `Crypto::Signature`: two numbers and a recovery id. -/
abbrev Signature := ByteVec 65

/-- The digest of RIPEMD-160. -/
abbrev Hash160 := ByteVec 20

end Crypto

/-- An array object of zero bytes. -/
def zeroBytes (n : Nat) : ByteVec n := List.Vector.replicate n 0

/-- `TXInput`. -/
structure TXInput where
  amount : UInt64
  data : List UInt8
  deriving DecidableEq

/-- `TXOutput`. -/
structure TXOutput where
  amount : UInt64
  to_ : Crypto.PublicKey
  deriving DecidableEq

/-- The part of a transaction in front of its sender. -/
structure TXPrefix where
  time : UInt64
  inputs : List TXInput
  outputs : List TXOutput
  extra : List UInt8
  deriving DecidableEq

/-- A transaction with its sender and the signature. -/
structure TX extends TXPrefix where
  from_ : Crypto.PublicKey
  signature : Crypto.Signature
  deriving DecidableEq

/-- The fields of a block header.  The object has four bytes of padding after
`nonce`, which are not part of its value. -/
structure BlockHeader where
  nonce : UInt32
  timestamp : UInt64
  prevBlockHash : Crypto.Hash
  deriving DecidableEq

/-- A block: a header, the coinbase transaction and the others. -/
structure Block extends BlockHeader where
  coinbase : TX
  txList : List TX
  deriving DecidableEq

instance : Inhabited TXInput := ⟨0, []⟩

instance : Inhabited TXOutput := ⟨0, zeroBytes 25⟩

instance : Inhabited TX := ⟨⟨0, [], [], []⟩, zeroBytes 25, zeroBytes 65⟩

end IotChain
