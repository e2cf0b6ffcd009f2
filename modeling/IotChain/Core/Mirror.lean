import IotChain.Core.Genesis

/-!
# The container and its database

The constructor of `block_container` takes a pair out of each stored block.  What
`generate_genesis` stores after that gets no pair.
-/

namespace IotChain

open IotChain.Bytes IotChain.Store IotChain.StreamSerializer IotChain.Transition

/-- The public operations of `block_container`. -/
inductive Operation
  | generateGenesis (baseTx : TX) (time : UInt64) (padding : ByteVec 4)
  | genesisBlock
  | blocks

namespace Session

variable {database : Database} (sha256 : List UInt8 → Crypto.Hash)

/-- What an operation does to a container and its database. -/
def operate (s : Session database) : Operation → Session database
  | .generateGenesis baseTx time padding => (s.generateGenesis sha256 baseTx time padding).2
  | .genesisBlock => s
  | .blocks => s

/-- The container and its database behind some operations. -/
def operateAll (s : Session database) (operations : List Operation) : Session database :=
  operations.foldl (operate sha256) s

/-- `blocks_` has the parents and the keys of the stored blocks. -/
def Mirrors (s : Session database) : Prop :=
  s.container.blocks.Perm (storedPairs s.db)

/-- The operation does not store a block under a new key. -/
def Rewrites (s : Session database) : Operation → Prop
  | .generateGenesis baseTx time padding =>
      database.get s.db (blockHash sha256 padding (genesis baseTx time)) ≠ none
  | _ => True

/-- The operations of a run with the containers in front of them. -/
def operations (s : Session database) (calls : List Operation) :
    List (Session database × Operation) :=
  trail (operate sha256) s calls

variable {sha256} {s : Session database}

/-! ## One operation -/

/-- A container whose database this program has written. -/
abbrev Written (sha256 : List UInt8 → Crypto.Hash) (s : Session database) : Prop :=
  (World.ofSession s).Regular sha256

theorem Written.index_eq_nil (written : Written sha256 s) : s.container.index = [] :=
  written.index s.container rfl

theorem Written.operate (written : Written sha256 s) (operation : Operation) :
    Written sha256 (s.operate sha256 operation) := by
  cases operation with
  | generateGenesis baseTx time padding =>
      exact World.Regular.step written (.generateGenesis baseTx time padding)
  | genesisBlock => exact written
  | blocks => exact written

theorem Written.generated_db (written : Written sha256 s) (baseTx : TX) (time : UInt64)
    (padding : ByteVec 4) :
    (s.generateGenesis sha256 baseTx time padding).2.db =
      database.put s.db (blockHash sha256 padding (genesis baseTx time))
        (blockBytes (genesis baseTx time)) := by
  rw [generateGenesis, if_neg, ← storedBlock_snd sha256 padding]
  · rfl
  · rw [written.index_eq_nil]
    exact Nat.lt_irrefl 0

/-- No operation touches the members of the container. -/
theorem Written.operate_container (written : Written sha256 s) (operation : Operation) :
    (s.operate sha256 operation).container = s.container := by
  cases operation with
  | generateGenesis baseTx time padding =>
      rw [Session.operate, generateGenesis, if_neg]
      rw [written.index_eq_nil]
      exact Nat.lt_irrefl 0
  | genesisBlock => rfl
  | blocks => rfl

/-- Every stored block is without a parent. -/
theorem Written.storedPrevBlockHash (written : Written sha256 s)
    {entry : Crypto.Hash × List UInt8} (member : entry ∈ database.scan s.db) :
    IotChain.storedPrevBlockHash entry.2 = zeroBytes 32 := by
  rcases written.written entry member with ⟨baseTx, time, padding, rfl⟩
  rw [storedBlock_snd, storedPrevBlockHash_blockBytes]
  rfl

/-- A rewriting operation changes no pair. -/
theorem Written.storedPairs_of_rewrites (written : Written sha256 s) {operation : Operation}
    (rewrites : Rewrites sha256 s operation) :
    (storedPairs (s.operate sha256 operation).db).Perm (storedPairs s.db) := by
  cases operation with
  | generateGenesis baseTx time padding =>
      rcases Option.ne_none_iff_exists'.mp rewrites with ⟨value, held⟩
      rw [Session.operate, written.generated_db]
      apply database.map_scan_put_of_held held
      have before := written.storedPrevBlockHash ((database.mem_scan _ _ _).mpr held)
      simp only [storedPrevBlockHash_blockBytes, before]
      rfl
  | genesisBlock => exact List.Perm.refl _
  | blocks => exact List.Perm.refl _

/-- Any other operation adds one. -/
theorem Written.length_of_not_rewrites (written : Written sha256 s) {operation : Operation}
    (new : ¬ Rewrites sha256 s operation) :
    (storedPairs (s.operate sha256 operation).db).length = (storedPairs s.db).length + 1 := by
  cases operation with
  | generateGenesis baseTx time padding =>
      rw [Session.operate, written.generated_db]
      have added := database.scan_put_of_new (not_not.mp new) (blockBytes (genesis baseTx time))
      simp only [storedPairs, List.length_map]
      exact added.length_eq
  | genesisBlock => exact absurd trivial new
  | blocks => exact absurd trivial new

/-! ## Whole runs -/

theorem Written.length_le_operate (written : Written sha256 s) (operation : Operation) :
    (storedPairs s.db).length ≤ (storedPairs (s.operate sha256 operation).db).length := by
  by_cases rewrites : Rewrites sha256 s operation
  · exact (written.storedPairs_of_rewrites rewrites).length_eq.ge
  · rw [written.length_of_not_rewrites rewrites]
    exact Nat.le_succ _

/-- A run keeps the members of the container and loses no pair. -/
theorem Written.operateAll (written : Written sha256 s) (calls : List Operation) :
    (s.operateAll sha256 calls).container = s.container ∧
      (storedPairs s.db).length ≤ (storedPairs (s.operateAll sha256 calls).db).length := by
  induction calls generalizing s with
  | nil => exact ⟨rfl, Nat.le_refl _⟩
  | cons call calls ih =>
      rcases ih (written.operate call) with ⟨container, length⟩
      exact ⟨container.trans (written.operate_container call),
        (written.length_le_operate call).trans length⟩

/-- The pairs of a container stay the stored ones exactly as long as every operation
rewrites. -/
theorem Written.mirrors_operateAll_iff (written : Written sha256 s) (mirrors : Mirrors s)
    (calls : List Operation) :
    Mirrors (s.operateAll sha256 calls) ↔
      ∀ p ∈ s.operations sha256 calls, Rewrites sha256 p.1 p.2 := by
  induction calls generalizing s with
  | nil => exact iff_of_true mirrors (List.forall_mem_nil _)
  | cons call calls ih =>
      have next := written.operate call
      have container := written.operate_container call
      rw [operations, forall_trail_cons]
      by_cases rewrites : Rewrites sha256 s call
      · rw [and_iff_right rewrites]
        apply ih next
        rw [Mirrors, container]
        exact mirrors.trans (written.storedPairs_of_rewrites rewrites).symm
      · apply iff_of_false
        · -- The new pair is stored for good, and the container stays as it is.
          intro later
          rcases next.operateAll calls with ⟨kept, length⟩
          have before := mirrors.length_eq
          have behind : (s.operate sha256 call).container.blocks.length =
              (storedPairs ((s.operate sha256 call).operateAll sha256 calls).db).length := by
            rw [← kept]
            exact later.length_eq
          rw [written.length_of_not_rewrites rewrites] at length
          rw [container] at behind
          omega
        · intro all
          exact rewrites all.1

end Session

open World

/-- A container that has been opened on a database of this program has the stored pairs
behind some operations exactly if each generation among them has written under a key that
was in use. -/
theorem mirrors_iff {database : Database} (sha256 : List UInt8 → Crypto.Hash)
    (calls : List Call) {container : BlockContainer}
    (opened : BlockContainer.construct (run sha256 (start : World database) calls).db =
      .ok container) (operations : List Operation) :
    let s : Session database := ⟨(run sha256 start calls).db, container⟩
    (s.operateAll sha256 operations).Mirrors ↔
      ∀ p ∈ s.operations sha256 operations, p.1.Rewrites sha256 p.2 := by
  intro s
  have regular : (run sha256 (start : World database) calls).Regular sha256 :=
    regular_start.run calls
  have loaded := construct_eq_ok regular.blockBytes opened
  have written : s.Written sha256 := by
    constructor
    · exact regular.written
    · intro other same
      cases same
      exact congrArg BlockContainer.index loaded
  exact written.mirrors_operateAll_iff
    (List.Perm.of_eq (congrArg BlockContainer.blocks loaded)) operations

/-- The container is opened on the block that `blockchain::init` has stored. -/
theorem mirrors_iff_reopened :
    let s : Session (inMemory _ _) := ⟨SampleBlocks.world.db, SampleBlocks.container⟩
    let operations :=
      [.genesisBlock, .generateGenesis (SampleBlocks.inputs.tx none) 1 (zeroBytes 4)]
    (s.operateAll SampleBlocks.sha256 operations).Mirrors ↔
      ∀ p ∈ s.operations SampleBlocks.sha256 operations, p.1.Rewrites SampleBlocks.sha256 p.2 :=
  mirrors_iff SampleBlocks.sha256 [.init true SampleBlocks.inputs] SampleBlocks.construct_world _

/-- A first block that is generated on an empty database gets no pair. -/
theorem mirrors_fails :
    ¬ ∀ (database : Database) sha256 calls container,
      BlockContainer.construct (run sha256 (start : World database) calls).db = .ok container →
      ∀ operations,
        let s : Session database := ⟨(run sha256 start calls).db, container⟩
        (s.operateAll sha256 operations).Mirrors := by
  intro mirrors
  have perm := mirrors (inMemory _ _) SampleBlocks.sha256 [] ⟨[], []⟩ rfl
    [.generateGenesis (SampleBlocks.inputs.tx none) 0 (zeroBytes 4)]
  have length : 0 = 1 := perm.length_eq
  cases length

end IotChain
