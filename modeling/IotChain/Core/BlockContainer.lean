import IotChain.Bytes.BigEndian
import IotChain.Chain.Identity
import IotChain.Store.KeyValue
import IotChain.Transition.Fallible

/-!
# The block container

`block_container` has the stored blocks three times: in the database, in the multimap
`blocks_` of pairs of a parent and a child, and in the deque `index_` of the longest
chain.  The constructor fills the multimap from the database, and nothing else fills it.
-/

namespace IotChain

open IotChain.Bytes IotChain.Store IotChain.StreamSerializer IotChain.Transition

/-- `g_db`, whose keys are hashes and whose values are serialized blocks. -/
abbrev Database := KeyValueStore Crypto.Hash (List UInt8)

/-- How the functions on blocks end without a result. -/
inductive ContainerFailure
  | thrown (exception : StdException)
  | reading (failure : ReadFailure)
  | assertion
  | outOfBounds
  /-- The sum is no `int`, which is undefined. -/
  | overflow
  deriving DecidableEq, Repr

/-! ## The index -/

/-- `container_` of a `block_index`. -/
abbrev BlockIndex := List Crypto.Hash

namespace BlockIndex

/-- `block_index::block_at`.  The assertion lets the end of the deque pass. -/
def blockAt (index : BlockIndex) (height : Nat) : Except ContainerFailure Crypto.Hash :=
  if height ≤ index.length then
    match index[height]? with
    | some hash => return hash
    | none => throw .outOfBounds
  else
    throw .assertion

/-- `block_index::push`. -/
def push (index : BlockIndex) (hash : Crypto.Hash) : BlockIndex := index ++ [hash]

/-- `block_index::pop`, which takes the block at the back away. -/
def pop (index : BlockIndex) : BlockIndex := index.dropLast

/-- `block_index::clear`. -/
def clear (_ : BlockIndex) : BlockIndex := []

/-- `block_index::size`. -/
def size (index : BlockIndex) : Nat := index.length

/-- `block_index::front_block`. -/
def frontBlock (index : BlockIndex) : Except ContainerFailure Crypto.Hash :=
  match index.head? with
  | some hash => return hash
  | none => throw .assertion

end BlockIndex

/-! ## The container -/

/-- The members of a `block_container`.  The multimap is a list, in which the children of a
parent stand in the order of `equal_range`; an `unordered_multimap` may have any order there. -/
structure BlockContainer where
  blocks : List (Crypto.Hash × Crypto.Hash)
  index : BlockIndex

/-- A container and the database that it has opened. -/
structure Session (database : Database) where
  db : database.State
  container : BlockContainer

section Functions

variable {database : Database}

/-- The body of the loop of the constructor. -/
def loadBlock (entry : Crypto.Hash × List UInt8) :
    Except ReadFailure (Crypto.Hash × Crypto.Hash) := do
  let (bl, _) ← deserializeBlock (Stream.memoryReader entry.2)
  return (bl.prevBlockHash, entry.1)

/-- `block_container::block_container`. -/
def BlockContainer.construct (db : database.State) : Except ReadFailure BlockContainer := do
  let blocks ← (database.scan db).mapM loadBlock
  return { blocks, index := [] }

/-- The block that `generate_genesis` makes at a time. -/
def genesis (baseTx : TX) (time : UInt64) : Block where
  nonce := 0
  timestamp := time
  prevBlockHash := zeroBytes 32
  coinbase := baseTx
  txList := []

variable (sha256 : List UInt8 → Crypto.Hash)

/-- `block_container::generate_genesis`, at a time and with some padding in the new
block. -/
def Session.generateGenesis (s : Session database) (baseTx : TX) (time : UInt64)
    (padding : ByteVec 4) : Except ContainerFailure Block × Session database :=
  if 0 < s.container.index.length then
    (throw (.thrown (.logicError "already has genesis")), s)
  else
    let newBlock := genesis baseTx time
    let entry := storedBlock sha256 padding newBlock
    (return newBlock, { s with db := database.put s.db entry.1 entry.2 })

/-- What a `PinnableSlice` holds after `Get`: nothing if there is no such key. -/
def pinned (db : database.State) (hash : Crypto.Hash) : List UInt8 :=
  (database.get db hash).getD []

/-- `block_container::genesis_block`. -/
def Session.genesisBlock (s : Session database) : Except ContainerFailure Block := do
  let hash ← s.container.index.blockAt 0
  match deserializeBlock (Stream.memoryReader (pinned s.db hash)) with
  | .ok (bl, _) => return bl
  | .error failure => throw (.reading failure)

end Functions

/-! ## Stored blocks -/

/-- `prev_block_hash_` of a serialized block. -/
def storedPrevBlockHash (value : List UInt8) : Crypto.Hash := slice value 12 32

theorem storedPrevBlockHash_blockBytes (bl : Block) :
    storedPrevBlockHash (blockBytes bl) = bl.prevBlockHash := by
  have part := slice_append (encodeLE 4 bl.nonce.toNat ++ encodeLE 8 bl.timestamp.toNat)
    bl.prevBlockHash (txBytes bl.coinbase ++
      (lengthBytes bl.txList.length ++ bl.txList.flatMap txBytes))
  rw [List.append_assoc] at part
  exact part

theorem storedBlock_snd (sha256 : List UInt8 → Crypto.Hash) (padding : ByteVec 4) (bl : Block) :
    (storedBlock sha256 padding bl).2 = blockBytes bl :=
  serializeBlock_empty bl

/-- The fields in front of the transactions. -/
def deserializeHeader : Reading BlockHeader := do
  let nonce ← Reading.uint32
  let timestamp ← Reading.uint64
  let prevBlockHash ← Reading.array 32
  return { nonce, timestamp, prevBlockHash }

theorem reads_header (bl : Block) :
    Reads deserializeHeader
      (encodeLE 4 bl.nonce.toNat ++ (encodeLE 8 bl.timestamp.toNat ++ bl.prevBlockHash.toList))
      bl.toBlockHeader := by
  apply (Reads.uint32 bl.nonce).bind
  apply (Reads.uint64 bl.timestamp).bind
  exact (Reads.array bl.prevBlockHash).map fun prevBlockHash =>
    BlockHeader.mk bl.nonce bl.timestamp prevBlockHash

theorem deserializeBlock_eq :
    deserializeBlock = (do
      let header ← deserializeHeader
      let coinbase ← deserializeTx
      let txList ← deserializeList deserializeTx
      return ⟨header, coinbase, txList⟩) := by
  simp only [deserializeBlock, deserializeHeader, bind_assoc, pure_bind]

/-- A stored block that can be read has its parent in the header. -/
theorem prevBlockHash_of_deserialized {bl record : Block} {next : Stream}
    (run : deserializeBlock (Stream.memoryReader (blockBytes bl)) = .ok (record, next)) :
    record.prevBlockHash = bl.prevBlockHash := by
  have header := reads_header bl [] (txBytes bl.coinbase ++
    (lengthBytes bl.txList.length ++ bl.txList.flatMap txBytes))
  have whole : Stream.memoryReader (blockBytes bl) =
      ⟨[] ++ (encodeLE 4 bl.nonce.toNat ++
        (encodeLE 8 bl.timestamp.toNat ++ bl.prevBlockHash.toList)) ++
        (txBytes bl.coinbase ++
          (lengthBytes bl.txList.length ++ bl.txList.flatMap txBytes)), 0⟩ := by
    simp only [Stream.memoryReader, blockBytes, List.nil_append, List.append_assoc]
  rw [deserializeBlock_eq, whole] at run
  rcases bind_eq_ok_iff.mp run with ⟨first, firstRun, rest⟩
  cases header.symm.trans firstRun
  rcases bind_eq_ok_iff.mp rest with ⟨coinbase, _, rest⟩
  rcases bind_eq_ok_iff.mp rest with ⟨txList, _, same⟩
  cases same
  rfl

/-- What the constructor makes of an entry with a block. -/
theorem loadBlock_eq_ok {entry : Crypto.Hash × List UInt8} {pair : Crypto.Hash × Crypto.Hash}
    {bl : Block} (value : entry.2 = blockBytes bl) (run : loadBlock entry = .ok pair) :
    pair = (storedPrevBlockHash entry.2, entry.1) := by
  rcases bind_eq_ok_iff.mp run with ⟨⟨record, next⟩, readRun, same⟩
  cases same
  rw [value] at readRun
  rw [value, storedPrevBlockHash_blockBytes, prevBlockHash_of_deserialized readRun]

/-- The pairs of parent and child over the blocks of a database. -/
def storedPairs {database : Database} (db : database.State) :
    List (Crypto.Hash × Crypto.Hash) :=
  (database.scan db).map fun entry => (storedPrevBlockHash entry.2, entry.1)

/-- A container that has just been opened has a pair for each stored block. -/
theorem construct_eq_ok {database : Database} {db : database.State} {container : BlockContainer}
    (blocks : ∀ entry ∈ database.scan db, ∃ bl, entry.2 = blockBytes bl)
    (run : BlockContainer.construct db = .ok container) :
    container = ⟨storedPairs db, []⟩ := by
  rcases bind_eq_ok_iff.mp run with ⟨pairs, pairsRun, same⟩
  cases same
  have loaded := mapM_eq_ok_iff.mp pairsRun
  have pairsEq : pairs = storedPairs db := by
    rw [storedPairs]
    clear pairsRun run
    generalize database.scan db = entries at blocks loaded
    induction loaded with
    | nil => rfl
    | @cons entry pair entries others entryRun _ ih =>
        rcases blocks entry List.mem_cons_self with ⟨bl, value⟩
        rw [List.map_cons, loadBlock_eq_ok value entryRun,
          ih fun other member => blocks other (List.mem_cons_of_mem _ member)]
  rw [pairsEq]

end IotChain
