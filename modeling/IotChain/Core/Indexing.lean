import IotChain.Core.Genesis
import IotChain.Core.LongestChain

/-!
# The index over a whole run

Only `build_longest_chain` puts hashes into the index of a container, and it takes all of them
out again, unless the hash of a block is all zeros, so that the block is its own parent.  So
`generate_genesis` never finds one there, and `genesis_block` looks for the first block in vain,
however often the chain has been built.
-/

namespace IotChain

open IotChain.Bytes IotChain.Store IotChain.StreamSerializer IotChain.Graph IotChain.Transition
open IotChain.Building

/-- What is done with the blocks: one of the calls of `Call`, or `build_longest_chain`, which
has taken so many rounds. -/
inductive Use
  | call (call : Call)
  | build (rounds : Nat)

namespace World

variable {database : Database} (sha256 : List UInt8 → Crypto.Hash)

/-- What happens next.  A call of `build_longest_chain` that is still going round does not
return. -/
def react : Reaction (World database) Use := fun w use =>
  match use with
  | .call call => some (w.step sha256 call).1
  | .build rounds =>
      match w.process with
      | .opened container =>
          match container.buildLongestChain rounds with
          | .inl _ => none
          | .inr (.ok b) => some { w with process := .opened { container with index := b.index } }
          | .inr (.error _) => some { w with process := .broken }
      | _ => none

end World

/-- How `build_longest_chain` ends on blocks without parents: at once if there are none, and
otherwise behind the first of them, unless its own hash is that of no parent.  Then all blocks
are its children, and it is the first of them. -/
def BuiltOf (blocks : List (Crypto.Hash × Crypto.Hash))
    (result : Except ContainerFailure Building) : Prop :=
  (blocks = [] ∧ result = .ok ⟨[], 0, [], []⟩) ∨
  (∃ hash others, blocks = (zeroBytes 32, hash) :: others ∧ hash ≠ zeroBytes 32 ∧
    result = .ok ⟨[], 1, [hash], [hash]⟩) ∨
  ∃ others, blocks = (zeroBytes 32, zeroBytes 32) :: others ∧
    EndsAtFork blocks (zeroBytes 32)
      ⟨blocks.map Prod.snd, 1, [zeroBytes 32], [zeroBytes 32]⟩ result

/-- What comes of an open container. -/
structure Unindexed (sha256 : List UInt8 → Crypto.Hash) {database : Database}
    (s : Session database) : Prop where
  index : s.container.index = []
  genesis : s.genesisBlock = .error .outOfBounds
  generates : ∀ baseTx time padding,
    (s.generateGenesis sha256 baseTx time padding).1 = .ok (IotChain.genesis baseTx time)

/-! ## Blocks without parents -/

section Rooted

variable {blocks : List (Crypto.Hash × Crypto.Hash)}

/-- No block has a parent. -/
def Rooted (blocks : List (Crypto.Hash × Crypto.Hash)) : Prop :=
  ∀ pair ∈ blocks, pair.1 = zeroBytes 32

theorem Rooted.children_of_ne (rooted : Rooted blocks) {a : Crypto.Hash}
    (ne : a ≠ zeroBytes 32) : children blocks a = [] := by
  rw [children, List.map_eq_nil_iff, List.filter_eq_nil_iff]
  intro pair member same
  exact ne ((of_decide_eq_true same).symm.trans (rooted pair member))

theorem Rooted.children_zero (rooted : Rooted blocks) :
    children blocks (zeroBytes 32) = blocks.map Prod.snd := by
  rw [children, List.filter_eq_self.mpr]
  exact fun pair member => decide_eq_true (rooted pair member)

theorem Rooted.enterChain {container : BlockContainer} {pair : Crypto.Hash × Crypto.Hash}
    {others : List (Crypto.Hash × Crypto.Hash)} (rooted : Rooted container.blocks)
    (blocks : container.blocks = pair :: others) :
    container.enterChain = .inl ⟨[pair.2], 0, [], []⟩ := by
  have root : pair.1 = zeroBytes 32 := rooted pair (blocks ▸ List.mem_cons_self)
  rw [BlockContainer.enterChain, blocks, List.find?_cons, decide_eq_true root]
  rfl

/-- The loop looks for the children of the first block, which has none. -/
theorem Rooted.exits (rooted : Rooted blocks) {hash : Crypto.Hash} (ne : hash ≠ zeroBytes 32) :
    Exits (round blocks) ⟨[hash], 0, [], []⟩ (.ok ⟨[], 1, [hash], [hash]⟩) := by
  rw [exits_iff_of_inl (round_singleton hash (by decide) [] []), rooted.children_of_ne ne]
  exact exits_of_inr (round_of_zero rfl)

/-- A block that is its only child is looked up until the height overflows. -/
theorem exits_iff_of_only {node : Crypto.Hash} (only : children blocks node = [node])
    (nodes popped : List Crypto.Hash) (result : Except ContainerFailure Building) :
    Exits (round blocks) ⟨[node], 1, nodes, popped⟩ result ↔ .error .overflow = result := by
  have full {result : Except ContainerFailure Building}
      (run : Exits (round blocks) ⟨[node], 1, nodes, popped⟩ result) :
      .error .overflow = result := by
    apply run.of_invariant (fun b => b.index = [node]) (fun result => .error .overflow = result)
    · rintro ⟨index, height, nodes, popped⟩ rfl
      by_cases low : height < intMax
      · rw [round_singleton node low, only]
        rfl
      · have one : intOfSize (BlockIndex.size [node]) ≠ 0 := Int.one_ne_zero
        rw [round_of_overflow one low]
        rfl
    · rfl
  constructor
  · exact full
  · rintro rfl
    obtain ⟨result, run⟩ := exits_of_low blocks ⟨[node], 1, nodes, popped⟩
    rwa [← full run] at run

/-- A block that has the hash of no parent is the first of its own children. -/
theorem Rooted.exits_zero_iff {others : List (Crypto.Hash × Crypto.Hash)} (rooted : Rooted blocks)
    (own : blocks = (zeroBytes 32, zeroBytes 32) :: others)
    (result : Except ContainerFailure Building) :
    Exits (round blocks) ⟨[zeroBytes 32], 0, [], []⟩ result ↔
      EndsAtFork blocks (zeroBytes 32)
        ⟨blocks.map Prod.snd, 1, [zeroBytes 32], [zeroBytes 32]⟩ result := by
  have kids := rooted.children_zero
  have hashes : blocks.map Prod.snd = zeroBytes 32 :: others.map Prod.snd := by
    rw [own]
    rfl
  rw [exits_iff_of_inl (round_singleton (zeroBytes 32) (by decide) [] []), kids]
  cases others with
  | nil =>
      rw [List.map_nil] at hashes
      rw [hashes] at kids ⊢
      have one : ¬ RunsOut 1 1 (children blocks (zeroBytes 32)).length := by
        rw [kids]
        rintro ⟨rounds, ends⟩
        have zero := ends.zero
        rw [List.length_singleton, one_pow] at zero
        cases zero
      refine (exits_iff_of_only kids _ _ result).trans ?_
      constructor
      · rintro rfl
        exact .inr ⟨one, rfl⟩
      · rintro (⟨rounds, ends, _⟩ | ⟨_, rfl⟩)
        · exact absurd ⟨rounds, ends⟩ one
        · rfl
  | cons other others =>
      have stuck : Stuck (zeroBytes 32)
          ⟨blocks.map Prod.snd, 1, [zeroBytes 32], [zeroBytes 32]⟩ :=
        ⟨other.2 :: others.map Prod.snd, List.cons_ne_nil _ _, hashes⟩
      exact stuck.exits_iff (show 1 ≤ intMax by decide) result

theorem builds_iff_of_enterChain {container : BlockContainer} {b : Building}
    (enter : container.enterChain = .inl b) (result : Except ContainerFailure Building) :
    container.Builds result ↔ Exits (round container.blocks) b result := by
  simp only [BlockContainer.Builds, BlockContainer.buildLongestChain, enter]
  rfl

theorem Rooted.builds_iff {container : BlockContainer} (rooted : Rooted container.blocks)
    (result : Except ContainerFailure Building) :
    container.Builds result ↔ BuiltOf container.blocks result := by
  cases blocks : container.blocks with
  | nil =>
      have enter : container.enterChain = .inr (.ok ⟨[], 0, [], []⟩) := by
        rw [BlockContainer.enterChain, blocks]
        rfl
      simp only [BlockContainer.Builds, BlockContainer.buildLongestChain, enter, BuiltOf]
      constructor
      · rintro ⟨_, same⟩
        exact .inl ⟨trivial, (Sum.inr.inj same).symm⟩
      · rintro (⟨_, rfl⟩ | ⟨_, _, absent, _⟩ | ⟨_, absent, _⟩)
        · exact ⟨0, rfl⟩
        · cases absent
        · cases absent
  | cons pair others =>
      rcases pair with ⟨root, hash⟩
      obtain rfl : root = zeroBytes 32 := rooted (root, hash) (blocks ▸ List.mem_cons_self)
      rw [builds_iff_of_enterChain (rooted.enterChain blocks), ← blocks]
      by_cases zero : hash = zeroBytes 32
      · subst zero
        rw [rooted.exits_zero_iff blocks, BuiltOf, blocks]
        constructor
        · exact fun ends => .inr (.inr ⟨others, rfl, ends⟩)
        · rintro (⟨absent, _⟩ | ⟨_, _, same, ne, _⟩ | ⟨_, same, ends⟩)
          · cases absent
          · cases same
            exact absurd rfl ne
          · exact ends
      · rw [BuiltOf, blocks]
        rw [blocks] at rooted
        constructor
        · intro run
          exact .inr (.inl ⟨hash, others, rfl, zero, run.unique (rooted.exits zero)⟩)
        · rintro (⟨absent, _⟩ | ⟨_, _, same, ne, rfl⟩ | ⟨_, same, _⟩)
          · cases absent
          · cases same
            exact rooted.exits ne
          · cases same
            exact absurd rfl zero

end Rooted

/-! ## Whole runs -/

namespace World

variable {database : Database} {sha256 : List UInt8 → Crypto.Hash} {w next : World database}

/-- The database is the same, or a first block has been written. -/
def Writes (sha256 : List UInt8 → Crypto.Hash) (db next : database.State) : Prop :=
  next = db ∨ ∃ baseTx time padding,
    let entry := storedBlock sha256 padding (genesis baseTx time)
    next = database.put db entry.1 entry.2

theorem writes_generate (s : Session database) (baseTx : TX) (time : UInt64)
    (padding : ByteVec 4) :
    Writes sha256 s.db (generate sha256 s baseTx time padding).1.db := by
  by_cases index : 0 < s.container.index.length
  · rw [generate, Session.generateGenesis, if_pos index]
    exact .inl rfl
  · rw [generate, Session.generateGenesis, if_neg index]
    exact .inr ⟨baseTx, time, padding, rfl⟩

theorem writes_initGenesis (s : Session database) (inputs : InitInputs) :
    Writes sha256 s.db (initGenesis sha256 s inputs).1.db := by
  unfold initGenesis
  split
  · split
    · exact writes_generate s _ _ _
    · exact .inl rfl
    · exact .inl rfl
  · exact .inl rfl

theorem writes_step (w : World database) (call : Call) :
    Writes sha256 w.db (w.step sha256 call).1.db := by
  rcases w with ⟨db, process⟩
  cases call with
  | restart => exact .inl rfl
  | init same inputs =>
      cases process with
      | fresh =>
          cases run : BlockContainer.construct db with
          | ok container =>
              simp only [step, run]
              exact writes_initGenesis ⟨db, container⟩ inputs
          | error failure =>
              simp only [step, run]
              exact .inl rfl
      | opened container =>
          cases same with
          | true => exact writes_initGenesis ⟨db, container⟩ inputs
          | false => exact .inl rfl
      | broken => exact .inl rfl
  | generateGenesis baseTx time padding =>
      cases process with
      | opened container => exact writes_generate ⟨db, container⟩ baseTx time padding
      | fresh => exact .inl rfl
      | broken => exact .inl rfl
  | genesisBlock => cases process <;> exact .inl rfl

/-- What has been stored under a hash may be replaced, but not taken away. -/
theorem Writes.keeps_key {db after : database.State} (writes : Writes sha256 db after)
    {entry : Crypto.Hash × List UInt8} (held : entry ∈ database.scan db) :
    ∃ other ∈ database.scan after, other.1 = entry.1 := by
  rcases writes with rfl | ⟨baseTx, time, padding, rfl⟩
  · exact ⟨entry, held, rfl⟩
  · by_cases same : entry.1 = (storedBlock sha256 padding (genesis baseTx time)).1
    · exact ⟨_, database.mem_scan_put.mpr (.inl ⟨rfl, rfl⟩), same.symm⟩
    · exact ⟨entry, database.mem_scan_put.mpr (.inr ⟨same, held⟩), rfl⟩

/-- No stored block has a hash of zeros. -/
def Hashed (db : database.State) : Prop :=
  ∀ entry ∈ database.scan db, entry.1 ≠ zeroBytes 32

theorem Hashed.of_writes {db after : database.State} (hashed : Hashed after)
    (writes : Writes sha256 db after) : Hashed db := by
  intro entry held zero
  obtain ⟨other, member, same⟩ := writes.keeps_key held
  exact hashed other member (same.trans zero)

/-- Only first blocks are stored.  An open container has only first blocks that are stored, and
no index as long as no block has a hash of zeros. -/
structure Unbuilt (sha256 : List UInt8 → Crypto.Hash) (w : World database) : Prop where
  written : ∀ entry ∈ database.scan w.db, ∃ baseTx time padding,
    entry = storedBlock sha256 padding (genesis baseTx time)
  rooted : ∀ container, w.process = .opened container → Rooted container.blocks
  stored : ∀ container, w.process = .opened container →
    ∀ pair ∈ container.blocks, ∃ entry ∈ database.scan w.db, entry.1 = pair.2
  index : Hashed w.db → ∀ container, w.process = .opened container → container.index = []

theorem unbuilt_start : Unbuilt sha256 (start : World database) where
  written := regular_start.written
  rooted _ opened := nomatch opened
  stored _ opened := nomatch opened
  index _ _ opened := nomatch opened

/-- What the constructor of a container loads. -/
theorem Unbuilt.loaded {container : BlockContainer} (unbuilt : Unbuilt sha256 w)
    (run : BlockContainer.construct w.db = .ok container) :
    Rooted container.blocks ∧
      ∀ pair ∈ container.blocks, ∃ entry ∈ database.scan w.db, entry.1 = pair.2 := by
  have blocks : ∀ entry ∈ database.scan w.db, ∃ bl, entry.2 = blockBytes bl := by
    intro entry held
    obtain ⟨baseTx, time, padding, rfl⟩ := unbuilt.written entry held
    exact ⟨_, storedBlock_snd sha256 padding _⟩
  rw [construct_eq_ok blocks run]
  constructor
  · intro pair member
    obtain ⟨entry, held, rfl⟩ := List.mem_map.mp member
    obtain ⟨baseTx, time, padding, rfl⟩ := unbuilt.written entry held
    rw [storedBlock_snd, storedPrevBlockHash_blockBytes]
    rfl
  · intro pair member
    obtain ⟨entry, held, rfl⟩ := List.mem_map.mp member
    exact ⟨entry, held, rfl⟩

theorem Unbuilt.step (unbuilt : Unbuilt sha256 w) (call : Call) :
    Unbuilt sha256 (w.step sha256 call).1 := by
  have writes : Writes sha256 w.db (w.step sha256 call).1.db := writes_step w call
  constructor
  · intro entry member
    rcases writes with same | ⟨baseTx, time, padding, same⟩
    · exact unbuilt.written entry (same ▸ member)
    · rw [same] at member
      rcases database.mem_scan_put.mp member with ⟨key, value⟩ | ⟨_, held⟩
      · exact ⟨baseTx, time, padding, Prod.ext key value⟩
      · exact unbuilt.written entry held
  · intro container opened
    rcases opened_step opened with before | run
    · exact unbuilt.rooted container before
    · exact (unbuilt.loaded run).1
  · intro container opened pair member
    have before : ∃ entry ∈ database.scan w.db, entry.1 = pair.2 := by
      rcases opened_step opened with before | run
      · exact unbuilt.stored container before pair member
      · exact (unbuilt.loaded run).2 pair member
    obtain ⟨entry, held, hash⟩ := before
    obtain ⟨other, kept, same⟩ := writes.keeps_key held
    exact ⟨other, kept, same.trans hash⟩
  · intro hashed container opened
    rcases opened_step opened with before | run
    · exact unbuilt.index (hashed.of_writes writes) container before
    · exact construct_index run

/-- If no block has a hash of zeros, the function returns and leaves nothing in the index. -/
theorem index_of_built {blocks : List (Crypto.Hash × Crypto.Hash)} {b : Building}
    (built : BuiltOf blocks (.ok b)) (hashes : ∀ pair ∈ blocks, pair.2 ≠ zeroBytes 32) :
    b.index = [] := by
  rcases built with ⟨_, same⟩ | ⟨hash, _, _, _, same⟩ | ⟨others, own, _⟩
  · cases same
    rfl
  · cases same
    rfl
  · exact absurd rfl (hashes (zeroBytes 32, zeroBytes 32) (own ▸ List.mem_cons_self))

theorem Unbuilt.react {use : Use} (unbuilt : Unbuilt sha256 w)
    (step : react sha256 w use = some next) : Unbuilt sha256 next := by
  cases use with
  | call call =>
      cases step
      exact unbuilt.step call
  | build rounds =>
      rcases w with ⟨db, process⟩
      cases process with
      | fresh => cases step
      | broken => cases step
      | opened container =>
          have rooted := unbuilt.rooted container rfl
          have stored := unbuilt.stored container rfl
          rw [World.react] at step
          dsimp only at step
          cases run : container.buildLongestChain rounds with
          | inl b =>
              rw [run] at step
              cases step
          | inr result =>
              rw [run] at step
              have built := (rooted.builds_iff result).mp ⟨rounds, run⟩
              cases result with
              | error failure =>
                  cases step
                  exact ⟨unbuilt.written, nofun, nofun, nofun⟩
              | ok b =>
                  cases step
                  refine ⟨unbuilt.written, ?_, ?_, ?_⟩
                  · rintro _ ⟨⟩
                    exact rooted
                  · rintro _ ⟨⟩
                    exact stored
                  · rintro hashed _ ⟨⟩
                    apply index_of_built built
                    intro pair member zero
                    obtain ⟨entry, held, same⟩ := stored pair member
                    exact hashed entry held (same.trans zero)

/-- However often processes have generated first blocks, opened them and built the chain, what
`build_longest_chain` comes to is known.  And as long as no stored block has a hash of zeros, an
open container has no index, so that `genesis_block` reads past its end and `generate_genesis`
makes one more block. -/
theorem never_indexed {uses : List Use} (run : replay (react sha256) start uses = some w)
    {container : BlockContainer} (opened : w.process = .opened container) :
    (∀ result, container.Builds result ↔ BuiltOf container.blocks result) ∧
      ((∀ entry ∈ database.scan w.db, entry.1 ≠ zeroBytes 32) →
        Unindexed sha256 ⟨w.db, container⟩) := by
  have unbuilt : Unbuilt sha256 w :=
    replay_invariant (Unbuilt sha256) Unbuilt.react unbuilt_start run
  refine ⟨(unbuilt.rooted container opened).builds_iff, ?_⟩
  intro hashed
  have index := unbuilt.index hashed container opened
  constructor
  · exact index
  · exact genesisBlock_eq index
  · intro baseTx time padding
    rw [Session.generateGenesis, if_neg]
    · rfl
    · rw [index]
      exact Nat.lt_irrefl 0

/-- A process makes the first block, and the next one opens it and builds the chain. -/
theorem never_indexed_built :
    ∃ w : World (inMemory _ _),
      replay (react SampleBlocks.sha256) start [.call (.init true SampleBlocks.inputs),
        .call .restart, .call (.init true SampleBlocks.inputs), .build 2] = some w ∧
      w.process = .opened SampleBlocks.container ∧
      Unindexed SampleBlocks.sha256 ⟨w.db, SampleBlocks.container⟩ ∧
      SampleBlocks.container.Builds
        (.ok ⟨[], 1, [SampleBlocks.earlier], [SampleBlocks.earlier]⟩) := by
  let opened : World (inMemory _ _) :=
    ⟨SampleBlocks.world.db, .opened SampleBlocks.container⟩
  have reopened : (SampleBlocks.world.step SampleBlocks.sha256 .restart).1.step
      SampleBlocks.sha256 (.init true SampleBlocks.inputs) = (opened, .idle) := by
    change World.step SampleBlocks.sha256 ⟨SampleBlocks.world.db, .fresh⟩ _ = _
    rw [World.step, SampleBlocks.construct_world]
    rfl
  have built : react SampleBlocks.sha256 opened (.build 2) = some opened := rfl
  have run : replay (react SampleBlocks.sha256) start [.call (.init true SampleBlocks.inputs),
      .call .restart, .call (.init true SampleBlocks.inputs), .build 2] = some opened := by
    apply replay_cons.mpr ⟨SampleBlocks.world, rfl, _⟩
    apply replay_cons.mpr ⟨_, rfl, _⟩
    apply replay_cons.mpr ⟨opened, _, _⟩
    · exact congrArg (some ·.1) reopened
    · exact replay_cons.mpr ⟨_, built, replay_nil _ _⟩
  have nonzero : SampleBlocks.earlier ≠ zeroBytes 32 := by decide
  have hashed : ∀ entry ∈ (inMemory Crypto.Hash (List UInt8)).scan SampleBlocks.world.db,
      entry.1 ≠ zeroBytes 32 := by
    intro entry held
    obtain rfl := List.mem_singleton.mp held
    change blockHash SampleBlocks.sha256 (zeroBytes 4) (SampleBlocks.block 0) ≠ _
    rw [SampleBlocks.blockHash_earlier]
    exact nonzero
  have indexed := never_indexed run rfl
  exact ⟨_, run, rfl, indexed.2 hashed,
    (indexed.1 _).mpr (.inr (.inl ⟨_, [], rfl, nonzero, rfl⟩))⟩

end World

end IotChain
