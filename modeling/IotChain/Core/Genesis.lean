import IotChain.Core.BlockContainer
import IotChain.Key.Keys
import IotChain.Transition.Events

/-!
# The first block over a whole run

One data folder is used by one process after another.  A process opens it at most once,
and whether there is a first block already is asked of `blocks_` by `blockchain::init` and
of `index_` by `generate_genesis` and `genesis_block`.
-/

namespace IotChain

open IotChain.Bytes IotChain.Store IotChain.StreamSerializer IotChain.Transition

/-! ## Processes -/

/-- A process: it has not opened the database, it has a container, or it has opened the
database and can do nothing more, because the constructor of the container has thrown or
an assertion has failed. -/
inductive Process
  | fresh
  | opened (container : BlockContainer)
  | broken

/-- The data folder and the process that runs. -/
structure World (database : Database) where
  db : database.State
  process : Process

/-- What `blockchain::init` gets from outside: a new wallet if one is wanted, which may fail
to be made, the times that it asks for, and what is in its new objects. -/
structure InitInputs where
  wallet : Except Halt (Option Crypto.PublicKey)
  txTime : UInt64
  signature : Crypto.Signature
  time : UInt64
  padding : ByteVec 4

/-- The transaction of the first block that `blockchain::init` makes. -/
def InitInputs.tx (inputs : InitInputs) (wallet : Option Crypto.PublicKey) : TX where
  time := inputs.txTime
  inputs := [⟨if wallet.isSome then 123456789 else 0, []⟩]
  outputs :=
    match wallet with
    | some publicKey => [⟨123456789, publicKey⟩]
    | none => [⟨0, zeroBytes 25⟩]
  extra := []
  from_ := zeroBytes 25
  signature := inputs.signature

/-- No wallet is wanted, or it can be made. -/
def InitInputs.Ready (inputs : InitInputs) : Prop := ∃ wallet, inputs.wallet = .ok wallet

/-- What a run consists of.  A call of `init` is on the object that has the container or
on another one. -/
inductive Call
  | restart
  | init (same : Bool) (inputs : InitInputs)
  | generateGenesis (baseTx : TX) (time : UInt64) (padding : ByteVec 4)
  | genesisBlock

/-- What a call has come to: a run of `generate_genesis`, one of `genesis_block`, or
neither. -/
inductive Event
  | idle
  | generation (result : Except ContainerFailure Block)
  | reading (result : Except ContainerFailure Block)

namespace World

variable {database : Database} (sha256 : List UInt8 → Crypto.Hash)

/-- A world whose process has a container. -/
def ofSession (s : Session database) : World database := ⟨s.db, .opened s.container⟩

/-- `generate_genesis`, as a part of a call. -/
def generate (s : Session database) (baseTx : TX) (time : UInt64) (padding : ByteVec 4) :
    World database × Event :=
  let (result, s) := s.generateGenesis sha256 baseTx time padding
  (ofSession s, .generation result)

/-- `blockchain::init` behind `load_blocks`. -/
def initGenesis (s : Session database) (inputs : InitInputs) : World database × Event :=
  if s.container.blocks.isEmpty then
    match inputs.wallet with
    | .ok wallet => generate sha256 s (inputs.tx wallet) inputs.time inputs.padding
    | .error .thrown => (ofSession s, .idle)
    | .error .aborted => (⟨s.db, .broken⟩, .idle)
  else
    (ofSession s, .idle)

/-- One call. -/
def step (w : World database) : Call → World database × Event
  | .restart => ({ w with process := .fresh }, .idle)
  | .init same inputs =>
      match w.process with
      | .fresh =>
          match BlockContainer.construct w.db with
          | .ok container => initGenesis sha256 ⟨w.db, container⟩ inputs
          | .error _ => ({ w with process := .broken }, .idle)
      | .opened container =>
          -- Another object would open the database again, against the assertion.
          if same then
            initGenesis sha256 ⟨w.db, container⟩ inputs
          else
            ({ w with process := .broken }, .idle)
      | .broken => (w, .idle)
  | .generateGenesis baseTx time padding =>
      match w.process with
      | .opened container => generate sha256 ⟨w.db, container⟩ baseTx time padding
      | _ => (w, .idle)
  | .genesisBlock =>
      match w.process with
      | .opened container => (w, .reading (Session.genesisBlock ⟨w.db, container⟩))
      | _ => (w, .idle)

/-- An empty folder. -/
def start : World database := ⟨database.empty, .fresh⟩

/-- The calls of a run with the worlds in front of them. -/
def steps (w : World database) (calls : List Call) : List (World database × Call) :=
  trail (fun w call => (w.step sha256 call).1) w calls

/-- The world behind a run. -/
def run (w : World database) (calls : List Call) : World database :=
  calls.foldl (fun w call => (w.step sha256 call).1) w

/-! ## First blocks -/

/-- The database holds a block without a parent. -/
def HasGenesis (db : database.State) : Prop :=
  ∃ entry ∈ database.scan db, storedPrevBlockHash entry.2 = zeroBytes 32

/-- The number of blocks without a parent. -/
def genesisCount (db : database.State) : Nat :=
  (database.scan db).countP fun entry => storedPrevBlockHash entry.2 = zeroBytes 32

/-- The database holds this block, which has no parent. -/
def Stored (db : database.State) (bl : Block) : Prop :=
  bl.prevBlockHash = zeroBytes 32 ∧ ∃ padding, storedBlock sha256 padding bl ∈ database.scan db

/-- The call keeps the first block the only one and finds it. -/
structure KeepsGenesis (w : World database) (call : Call) : Prop where
  single : genesisCount (w.step sha256 call).1.db ≤ 1
  second : HasGenesis w.db → ∀ result, (w.step sha256 call).2 = .generation result →
    (∃ exception, result = .error (.thrown exception)) ∧ (w.step sha256 call).1.db = w.db
  found : ∀ bl, Stored sha256 w.db bl → ∀ result, (w.step sha256 call).2 = .reading result →
    result = .ok bl

/-- The call comes to `generate_genesis`. -/
def Generates (w : World database) : Call → Prop
  | .init same inputs =>
      inputs.Ready ∧ ((w.process = .fresh ∧ database.scan w.db = []) ∨
        ∃ container, w.process = .opened container ∧ same = true ∧ container.blocks = [])
  | .generateGenesis _ _ _ => ∃ container, w.process = .opened container
  | _ => False

/-- The call comes to `genesis_block`. -/
def AsksGenesis (w : World database) : Call → Prop
  | .genesisBlock => ∃ container, w.process = .opened container
  | _ => False

/-- While there is a first block, none is generated and it is not asked for. -/
def Careful (w : World database) (call : Call) : Prop :=
  HasGenesis w.db → ¬ w.Generates call ∧ ¬ w.AsksGenesis call

/-! ## Invariants -/

/-- Only first blocks are stored, and no block is ever in the index. -/
structure Regular (w : World database) : Prop where
  written : ∀ entry ∈ database.scan w.db, ∃ baseTx time padding,
    entry = storedBlock sha256 padding (genesis baseTx time)
  index : ∀ container, w.process = .opened container → container.index = []

variable {sha256} {w : World database}

theorem regular_start : Regular sha256 (start : World database) where
  written := by
    intro entry member
    rw [start, database.scan_empty] at member
    cases member
  index := by
    intro container opened
    cases opened

theorem Regular.blockBytes (regular : Regular sha256 w) :
    ∀ entry ∈ database.scan w.db, ∃ bl, entry.2 = blockBytes bl := by
  intro entry member
  rcases regular.written entry member with ⟨baseTx, time, padding, rfl⟩
  exact ⟨_, storedBlock_snd sha256 padding _⟩

theorem Regular.hasGenesis_iff (regular : Regular sha256 w) :
    HasGenesis w.db ↔ database.scan w.db ≠ [] := by
  constructor
  · rintro ⟨entry, member, _⟩
    exact List.ne_nil_of_mem member
  · intro nonempty
    rcases List.exists_mem_of_ne_nil _ nonempty with ⟨entry, member⟩
    refine ⟨entry, member, ?_⟩
    rcases regular.written entry member with ⟨baseTx, time, padding, rfl⟩
    rw [storedBlock_snd, storedPrevBlockHash_blockBytes]
    rfl

/-! ## One call -/

/-- What a call can do, in terms of what it comes to. -/
inductive Effect (sha256 : List UInt8 → Crypto.Hash) (w : World database) (call : Call) : Prop
  | idle (generates : ¬ w.Generates call) (asks : ¬ w.AsksGenesis call)
      (event : (w.step sha256 call).2 = .idle) (db : (w.step sha256 call).1.db = w.db)
  | generation (baseTx : TX) (time : UInt64) (padding : ByteVec 4)
      (generates : w.Generates call) (asks : ¬ w.AsksGenesis call)
      (event : (w.step sha256 call).2 = .generation (.ok (genesis baseTx time)))
      (db : (w.step sha256 call).1.db =
        let entry := storedBlock sha256 padding (genesis baseTx time)
        database.put w.db entry.1 entry.2)
  | reading (generates : ¬ w.Generates call) (asks : w.AsksGenesis call)
      (event : (w.step sha256 call).2 = .reading (.error .outOfBounds))
      (db : (w.step sha256 call).1.db = w.db)

/-- The guard of `generate_genesis` always lets the call pass. -/
theorem generate_eq {s : Session database} (index : s.container.index = []) (baseTx : TX)
    (time : UInt64) (padding : ByteVec 4) :
    generate sha256 s baseTx time padding =
      let entry := storedBlock sha256 padding (genesis baseTx time)
      (⟨database.put s.db entry.1 entry.2, .opened s.container⟩,
        .generation (.ok (genesis baseTx time))) := by
  simp [generate, Session.generateGenesis, ofSession, index, pure, Except.pure]

theorem genesisBlock_eq {s : Session database} (index : s.container.index = []) :
    s.genesisBlock = .error .outOfBounds := by
  rw [Session.genesisBlock, index]
  rfl

/-- A container has blocks exactly if the database that it has just opened has some. -/
theorem storedPairs_eq_nil {db : database.State} :
    storedPairs db = [] ↔ database.scan db = [] :=
  List.map_eq_nil_iff

theorem construct_of_empty {db : database.State} (empty : database.scan db = []) :
    BlockContainer.construct db = .ok ⟨[], []⟩ := by
  rw [BlockContainer.construct, empty]
  rfl

variable {call : Call}

theorem effect_of_generate {container : BlockContainer} (index : container.index = [])
    {baseTx : TX} {time : UInt64} {padding : ByteVec 4}
    (stepped : w.step sha256 call = generate sha256 ⟨w.db, container⟩ baseTx time padding)
    (generates : w.Generates call) (asks : ¬ w.AsksGenesis call) : Effect sha256 w call := by
  rw [generate_eq index] at stepped
  exact .generation baseTx time padding generates asks (congrArg Prod.snd stepped)
    (congrArg (·.1.db) stepped)

theorem initGenesis_of_empty {s : Session database} (empty : s.container.blocks = [])
    {inputs : InitInputs} {wallet : Option Crypto.PublicKey} (made : inputs.wallet = .ok wallet) :
    initGenesis sha256 s inputs =
      generate sha256 s (inputs.tx wallet) inputs.time inputs.padding := by
  rw [initGenesis, empty, made]
  rfl

theorem initGenesis_of_halt {s : Session database} {inputs : InitInputs} {halt : Halt}
    (failed : inputs.wallet = .error halt) :
    (initGenesis sha256 s inputs).2 = .idle ∧ (initGenesis sha256 s inputs).1.db = s.db := by
  rw [initGenesis, failed]
  cases halt <;> split <;> exact ⟨rfl, rfl⟩

/-- The guard of `blockchain::init` asks the pairs. -/
theorem effect_of_initGenesis {container : BlockContainer} (index : container.index = [])
    {inputs : InitInputs}
    (stepped : w.step sha256 call = initGenesis sha256 ⟨w.db, container⟩ inputs)
    (generates : w.Generates call ↔ inputs.Ready ∧ container.blocks = [])
    (asks : ¬ w.AsksGenesis call) : Effect sha256 w call := by
  by_cases empty : container.blocks = []
  · cases made : inputs.wallet with
    | ok wallet =>
        exact effect_of_generate index (stepped.trans (initGenesis_of_empty empty made))
          (generates.mpr ⟨⟨wallet, made⟩, empty⟩) asks
    | error halt =>
        have halted : (initGenesis sha256 ⟨w.db, container⟩ inputs).2 = .idle ∧
            (initGenesis sha256 ⟨w.db, container⟩ inputs).1.db = w.db :=
          initGenesis_of_halt made
        rw [← stepped] at halted
        apply Effect.idle _ asks halted.1 halted.2
        intro comes
        rcases (generates.mp comes).1 with ⟨wallet, ready⟩
        cases made.symm.trans ready
  · rw [initGenesis, if_neg (by rwa [List.isEmpty_iff])] at stepped
    exact .idle (fun comes => empty (generates.mp comes).2) asks (congrArg Prod.snd stepped)
      (congrArg (·.1.db) stepped)

theorem generates_init_fresh {db : database.State} {same : Bool} {inputs : InitInputs} :
    Generates ⟨db, .fresh⟩ (.init same inputs) ↔ inputs.Ready ∧ database.scan db = [] := by
  constructor
  · rintro ⟨ready, ⟨_, empty⟩ | ⟨_, opened, _⟩⟩
    · exact ⟨ready, empty⟩
    · cases opened
  · rintro ⟨ready, empty⟩
    exact ⟨ready, .inl ⟨rfl, empty⟩⟩

theorem generates_init_opened {db : database.State} {container : BlockContainer} {same : Bool}
    {inputs : InitInputs} :
    Generates ⟨db, .opened container⟩ (.init same inputs) ↔
      inputs.Ready ∧ same = true ∧ container.blocks = [] := by
  constructor
  · rintro ⟨ready, ⟨fresh, _⟩ | ⟨_, opened, both⟩⟩
    · cases fresh
    · cases opened
      exact ⟨ready, both⟩
  · rintro ⟨ready, both⟩
    exact ⟨ready, .inr ⟨container, rfl, both⟩⟩

theorem not_generates_init_broken {db : database.State} {same : Bool} {inputs : InitInputs} :
    ¬ Generates ⟨db, .broken⟩ (.init same inputs) := by
  rintro ⟨_, ⟨fresh, _⟩ | ⟨_, opened, _⟩⟩
  · cases fresh
  · cases opened

theorem Regular.effect_init (regular : Regular sha256 w) (same : Bool) (inputs : InitInputs) :
    Effect sha256 w (.init same inputs) := by
  rcases w with ⟨db, process⟩
  cases process with
  | fresh =>
      cases run : BlockContainer.construct db with
      | ok container =>
          have loaded := construct_eq_ok regular.blockBytes run
          have stepped : step sha256 ⟨db, .fresh⟩ (.init same inputs) =
              initGenesis sha256 ⟨db, container⟩ inputs := by
            rw [step, run]
          apply effect_of_initGenesis (by rw [loaded]) stepped _ id
          rw [generates_init_fresh, loaded, storedPairs_eq_nil]
      | error failure =>
          have stepped : step sha256 ⟨db, .fresh⟩ (.init same inputs) =
              (⟨db, .broken⟩, .idle) := by
            rw [step, run]
          apply Effect.idle _ id (congrArg Prod.snd stepped) (congrArg (·.1.db) stepped)
          rw [generates_init_fresh]
          rintro ⟨_, empty⟩
          rw [construct_of_empty empty] at run
          cases run
  | opened container =>
      cases same with
      | true =>
          apply effect_of_initGenesis (regular.index container rfl) rfl _ id
          rw [generates_init_opened, and_iff_right rfl]
      | false =>
          apply Effect.idle _ id rfl rfl
          rintro generates
          cases (generates_init_opened.mp generates).2.1
  | broken => exact .idle not_generates_init_broken id rfl rfl

/-- Every call in a regular world is one of the three. -/
theorem Regular.effect (regular : Regular sha256 w) (call : Call) : Effect sha256 w call := by
  cases call with
  | restart => exact .idle id id rfl rfl
  | init same inputs => exact regular.effect_init same inputs
  | generateGenesis baseTx time padding =>
      rcases w with ⟨db, process⟩
      cases process with
      | opened container =>
          exact effect_of_generate (regular.index container rfl) rfl ⟨container, rfl⟩ id
      | fresh => exact .idle (fun ⟨_, opened⟩ => nomatch opened) id rfl rfl
      | broken => exact .idle (fun ⟨_, opened⟩ => nomatch opened) id rfl rfl
  | genesisBlock =>
      rcases w with ⟨db, process⟩
      cases process with
      | opened container =>
          exact .reading id ⟨container, rfl⟩
            (congrArg Event.reading (genesisBlock_eq (regular.index container rfl))) rfl
      | fresh => exact .idle id (fun ⟨_, opened⟩ => nomatch opened) rfl rfl
      | broken => exact .idle id (fun ⟨_, opened⟩ => nomatch opened) rfl rfl

theorem construct_index {db : database.State} {container : BlockContainer}
    (run : BlockContainer.construct db = .ok container) : container.index = [] := by
  rcases bind_eq_ok_iff.mp run with ⟨_, _, same⟩
  cases same
  rfl

theorem generate_process (s : Session database) (baseTx : TX) (time : UInt64)
    (padding : ByteVec 4) :
    (generate sha256 s baseTx time padding).1.process = .opened s.container := by
  by_cases index : 0 < s.container.index.length
  · rw [generate, Session.generateGenesis, if_pos index]
    rfl
  · rw [generate, Session.generateGenesis, if_neg index]
    rfl

theorem opened_initGenesis {s : Session database} {inputs : InitInputs}
    {container : BlockContainer}
    (opened : (initGenesis sha256 s inputs).1.process = .opened container) :
    s.container = container := by
  unfold initGenesis at opened
  split at opened
  · split at opened
    · rw [generate_process] at opened
      exact Process.opened.inj opened
    · exact Process.opened.inj opened
    · cases opened
  · exact Process.opened.inj opened

/-- A container that is open behind a call was open in front of it or has just been
constructed. -/
theorem opened_step {container : BlockContainer}
    (opened : (w.step sha256 call).1.process = .opened container) :
    w.process = .opened container ∨ BlockContainer.construct w.db = .ok container := by
  rcases w with ⟨db, process⟩
  cases call with
  | restart => cases opened
  | init same inputs =>
      cases process with
      | fresh =>
          cases run : BlockContainer.construct db with
          | ok loaded =>
              simp only [step, run] at opened
              obtain rfl := opened_initGenesis opened
              exact .inr rfl
          | error failure =>
              simp only [step, run] at opened
              cases opened
      | opened before =>
          cases same with
          | true => exact .inl (congrArg Process.opened (opened_initGenesis opened))
          | false => cases opened
      | broken => cases opened
  | generateGenesis baseTx time padding =>
      cases process with
      | opened before =>
          exact .inl ((generate_process ⟨db, before⟩ baseTx time padding).symm.trans opened)
      | fresh => cases opened
      | broken => cases opened
  | genesisBlock =>
      cases process with
      | opened before => exact .inl opened
      | fresh => cases opened
      | broken => cases opened

theorem Regular.step (regular : Regular sha256 w) (call : Call) :
    Regular sha256 (w.step sha256 call).1 where
  written := by
    intro entry member
    cases regular.effect call with
    | idle _ _ _ db => exact regular.written entry (db ▸ member)
    | reading _ _ _ db => exact regular.written entry (db ▸ member)
    | generation baseTx time padding _ _ _ db =>
        rw [db] at member
        rcases database.mem_scan_put.mp member with ⟨key, value⟩ | ⟨_, held⟩
        · exact ⟨baseTx, time, padding, Prod.ext key value⟩
        · exact regular.written entry held
  index := by
    intro container opened
    rcases opened_step opened with before | run
    · exact regular.index container before
    · exact construct_index run

theorem Regular.run (regular : Regular sha256 w) (calls : List Call) :
    Regular sha256 (w.run sha256 calls) := by
  induction calls generalizing w with
  | nil => exact regular
  | cons call calls ih => exact ih (regular.step call)

/-! ## Whole runs -/

/-- A database without first blocks is empty, so one generation leaves one of them. -/
theorem Regular.genesisCount_put (regular : Regular sha256 w) (none : ¬ HasGenesis w.db)
    (entry : Crypto.Hash × List UInt8) :
    genesisCount (database.put w.db entry.1 entry.2) ≤ 1 := by
  have empty : database.scan w.db = [] := by
    by_contra nonempty
    exact none (regular.hasGenesis_iff.mpr nonempty)
  have length := (database.scan_put_perm w.db entry.1 entry.2).length_eq
  rw [KeyValueStore.others, empty] at length
  exact List.countP_le_length.trans length.le

/-- A call keeps the first block exactly if it is careful. -/
theorem Regular.keepsGenesis_iff_careful (regular : Regular sha256 w)
    (single : genesisCount w.db ≤ 1) (call : Call) :
    KeepsGenesis sha256 w call ↔ Careful w call := by
  constructor
  · intro keeps held
    cases regular.effect call with
    | idle generates asks => exact ⟨generates, asks⟩
    | generation baseTx time padding _ _ event =>
        rcases (keeps.second held _ event).1 with ⟨exception, same⟩
        cases same
    | reading _ _ event =>
        rcases held with ⟨entry, member, first⟩
        rcases regular.written entry member with ⟨baseTx, time, padding, rfl⟩
        cases keeps.found (genesis baseTx time) ⟨rfl, padding, member⟩ _ event
  · intro careful
    cases regular.effect call with
    | idle _ _ event db =>
        constructor
        · rwa [db]
        · intro _ result same
          cases event.symm.trans same
        · intro _ _ result same
          cases event.symm.trans same
    | generation baseTx time padding generates _ event db =>
        have none : ¬ HasGenesis w.db := fun held => (careful held).1 generates
        constructor
        · rw [db]
          exact regular.genesisCount_put none _
        · intro held
          exact absurd held none
        · intro _ _ result same
          cases event.symm.trans same
    | reading _ asks event db =>
        have none : ¬ HasGenesis w.db := fun held => (careful held).2 asks
        constructor
        · rwa [db]
        · intro held
          exact absurd held none
        · rintro bl ⟨first, padding, member⟩
          have parent := storedPrevBlockHash_blockBytes bl
          rw [← storedBlock_snd sha256 padding] at parent
          exact absurd ⟨_, member, parent.trans first⟩ none

theorem genesisCount_start : genesisCount (start : World database).db ≤ 1 := by
  rw [genesisCount, start, database.scan_empty]
  exact Nat.zero_le 1

end World

open World

/-- A run keeps the first block the only one and finds it, exactly if no call comes to
`generate_genesis` or to `genesis_block` while there is a first block. -/
theorem genesis_kept_iff {database : Database} (sha256 : List UInt8 → Crypto.Hash)
    (calls : List Call) :
    (∀ p ∈ steps sha256 (start : World database) calls, KeepsGenesis sha256 p.1 p.2) ↔
      ∀ p ∈ steps sha256 (start : World database) calls, Careful p.1 p.2 := by
  apply forall_trail_iff fun w => World.Regular sha256 w ∧ genesisCount w.db ≤ 1
  · intro w call ⟨regular, single⟩
    exact regular.keepsGenesis_iff_careful single call
  · intro w call ⟨regular, _⟩ keeps
    exact ⟨regular.step call, keeps.single⟩
  · exact ⟨regular_start, genesisCount_start⟩

/-! ## Two first blocks -/

namespace SampleBlocks

/-- `blockchain::init` without a wallet and at time zero. -/
def inputs : InitInputs := ⟨.ok none, 0, zeroBytes 65, 0, zeroBytes 4⟩

/-- The first block that is made at this time. -/
def block (time : UInt64) : Block := genesis (inputs.tx none) time

/-- The hash of the block of time zero. -/
def earlier : Crypto.Hash :=
  ⟨encodeBE 32 0x9708fd0c3a64591c024c02167f3b7cad1dcda62d1d41b6d0a27b96989b63864f, by simp⟩

/-- The hash of the block of time one. -/
def later : Crypto.Hash :=
  ⟨encodeBE 32 0xce710a8e1f06e8951c4248c39b686005e4199e9ccc9944850756f9777159152d, by simp⟩

/-- The digest function on these two blocks, with zeros in their padding. -/
@[irreducible]
def sha256 (bytes : List UInt8) : Crypto.Hash :=
  if bytes = blockHashInput (zeroBytes 4) (block 0) then earlier
  else if bytes = blockHashInput (zeroBytes 4) (block 1) then later
  else zeroBytes 32

theorem blockHash_earlier : blockHash sha256 (zeroBytes 4) (block 0) = earlier := by
  rw [blockHash, sha256]
  exact if_pos rfl

/-- The folder behind the first call of `blockchain::init`. -/
def world : World (inMemory _ _) := (step sha256 start (.init true inputs)).1

/-- The container that is opened on the folder. -/
def container : BlockContainer := ⟨[(zeroBytes 32, earlier)], []⟩

theorem construct_world : BlockContainer.construct world.db = .ok container := by
  have sizes : (block 0).SizesBelow (2 ^ 31) := by
    constructor
    · constructor <;> decide
    · decide
    · exact List.forall_mem_nil _
  have load : loadBlock (storedBlock sha256 (zeroBytes 4) (block 0)) =
      .ok (zeroBytes 32, earlier) := by
    rw [loadBlock, storedBlock, bind_of_eq_ok (deserialize_stored sizes), blockHash_earlier]
    rfl
  apply bind_eq_ok_iff.mpr
  exact ⟨_, mapM_eq_ok_iff.mpr (.cons load .nil), rfl⟩

end SampleBlocks

/-- A second call in the same process makes another first block. -/
theorem genesis_kept_fails :
    ¬ ∀ (database : Database) sha256 calls,
      ∀ p ∈ steps sha256 (start : World database) calls, KeepsGenesis sha256 p.1 p.2 := by
  intro keeps
  have second := (keeps (inMemory _ _) SampleBlocks.sha256 [.init true SampleBlocks.inputs,
      .generateGenesis (SampleBlocks.inputs.tx none) 1 (zeroBytes 4)] (SampleBlocks.world, _)
    (List.mem_cons_of_mem _ List.mem_cons_self)).second
  have held : HasGenesis SampleBlocks.world.db := by
    refine ⟨storedBlock SampleBlocks.sha256 (zeroBytes 4) (SampleBlocks.block 0),
      List.mem_cons_self, ?_⟩
    rw [storedBlock_snd, storedPrevBlockHash_blockBytes]
    rfl
  rcases (second held (.ok (SampleBlocks.block 1)) rfl).1 with ⟨exception, same⟩
  cases same

end IotChain
