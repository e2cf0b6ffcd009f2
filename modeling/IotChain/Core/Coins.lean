import IotChain.Core.Genesis
import IotChain.Key.Wallet

/-!
# The coins of the first block

`blockchain::init` may give all coins to a new wallet.  The wallet writes its file, and after
that the first block, which names the address of the wallet, goes to the database.  These are
two places: the working directory and the data folder.
-/

namespace IotChain

open IotChain.Bytes IotChain.Store IotChain.StreamSerializer IotChain.Transition
open IotChain.Secp256k1 IotChain.World

/-- What `blockchain::init` gets from outside, if it asks for it: whether a wallet is wanted,
with what its key pair meets, the times, and what is in its new objects. -/
structure Setup where
  answer : Option Making
  txTime : UInt64
  signature : Crypto.Signature
  time : UInt64
  padding : ByteVec 4

/-- The same for a call that has come to this wallet. -/
def Setup.inputs (setup : Setup) (wallet : Except Halt (Option Crypto.PublicKey)) :
    InitInputs :=
  ⟨wallet, setup.txTime, setup.signature, setup.time, setup.padding⟩

/-- What a process does, or that another one takes its place.  Only `blockchain::init` calls
`generate_genesis`. -/
inductive Occasion
  | restart
  | init (same : Bool) (setup : Setup)
  | genesisBlock
  | keyPair (making : Making)

/-- A process with its data folder and its working directory. -/
structure Installation (database : Database) where
  world : World database
  wallets : Wallets

namespace Installation

variable {database : Database}

/-- The database is open already, and `blockchain::init` opens it again. -/
def reopens (world : World database) (same : Bool) : Bool :=
  match world.process with
  | .fresh => false
  | .opened _ => !same
  | .broken => true

/-- `blockchain::init` finds no block and asks whether a wallet is wanted. -/
def prompts (world : World database) (same : Bool) : Bool :=
  match world.process with
  | .fresh =>
      match BlockContainer.construct world.db with
      | .ok container => container.blocks.isEmpty
      | .error _ => false
  | .opened container => same && container.blocks.isEmpty
  | .broken => false

section Functions

variable (digests : Digests) (curve : Curve) (networkId : UInt8)

/-- The address of the wallet, or how making it has failed. -/
def address (wallets : Wallets) (making : Making) : Except Halt (Option Crypto.PublicKey) :=
  match ((Wallets.keyPair digests curve networkId making).run wallets.contexts).1 with
  | .ok made => .ok (some made.publicKey)
  | .error halt => .error halt

/-- Empty folders. -/
def start : Installation database := ⟨World.start, Wallets.start⟩

/-- `blockchain::init`.  The answer is not asked for if there is a block. -/
def init (same : Bool) (setup : Setup) (installation : Installation database) :
    Option (Installation database) :=
  let call wallet := (installation.world.step digests.sha256 (.init same (setup.inputs wallet))).1
  if reopens installation.world same then
    some ⟨call (.ok none), { installation.wallets with aborted := true }⟩
  else
    match if prompts installation.world same then setup.answer else none with
    | some making =>
        (Wallets.construct digests curve networkId installation.wallets making).map fun wallets =>
          ⟨call (address digests curve networkId installation.wallets making), wallets⟩
    | none => some ⟨call (.ok none), installation.wallets⟩

/-- What happens next.  Nothing does in a process that has ended. -/
def react : Reaction (Installation database) Occasion := fun installation occasion =>
  match occasion with
  | .restart =>
      some ⟨(installation.world.step digests.sha256 .restart).1,
        { installation.wallets with contexts := Contexts.fresh, aborted := false }⟩
  | .init same setup =>
      if installation.wallets.aborted then
        none
      else
        installation.init digests curve networkId same setup
  | .genesisBlock =>
      if installation.wallets.aborted then
        none
      else
        some ⟨(installation.world.step digests.sha256 .genesisBlock).1, installation.wallets⟩
  | .keyPair making =>
      (Wallets.construct digests curve networkId installation.wallets making).map fun wallets =>
        ⟨if wallets.aborted then { installation.world with process := .broken }
          else installation.world, wallets⟩

end Functions

end Installation

/-- The output gives all coins to the address of a key pair that was made: one whose file could
not be opened, or one which a file restores. -/
structure Owned (digests : Digests) (curve : Curve) (networkId : UInt8) (wallets : Wallets)
    (output : TXOutput) : Prop where
  amount : output.amount = 123456789
  key : (∃ made ∈ wallets.lost, made.publicKey = output.to_) ∨
    ∃ name text, PublicKey.encoded output.to_ = .ok name ∧
      wallets.files (name ++ privateSuffix) = some text ∧
        Restores digests curve networkId output.to_ text

/-- The entry is a first block that `blockchain::init` has made, without a wallet or with one. -/
def Granted (digests : Digests) (wallets : Wallets) (entry : Crypto.Hash × List UInt8) : Prop :=
  ∃ (inputs : InitInputs) (wallet : Option Crypto.PublicKey),
    entry = storedBlock digests.sha256 inputs.padding
      (genesis (inputs.tx wallet) inputs.time) ∧
    ∀ publicKey, wallet = some publicKey →
      ∃ made ∈ wallets.saved ++ wallets.lost, made.publicKey = publicKey

namespace Installation

variable {database : Database} {digests : Digests} {curve : Curve} {networkId : UInt8}

/-! ## Writing -/

theorem written_initGenesis {s : Session database} (index : s.container.index = [])
    {inputs : InitInputs} {entry : Crypto.Hash × List UInt8}
    (member : entry ∈ database.scan (initGenesis digests.sha256 s inputs).1.db) :
    entry ∈ database.scan s.db ∨ ∃ wallet, inputs.wallet = .ok wallet ∧
      s.container.blocks = [] ∧
      entry = storedBlock digests.sha256 inputs.padding
        (genesis (inputs.tx wallet) inputs.time) := by
  by_cases empty : s.container.blocks = []
  · cases made : inputs.wallet with
    | ok wallet =>
        rw [initGenesis_of_empty empty made, generate_eq index] at member
        rcases database.mem_scan_put.mp member with ⟨key, value⟩ | ⟨_, held⟩
        · exact .inr ⟨wallet, rfl, empty, Prod.ext key value⟩
        · exact .inl held
    | error halt =>
        have halted : (initGenesis digests.sha256 s inputs).2 = .idle ∧
            (initGenesis digests.sha256 s inputs).1.db = s.db := initGenesis_of_halt made
        exact .inl (halted.2 ▸ member)
  · rw [initGenesis, if_neg (by rwa [List.isEmpty_iff])] at member
    exact .inl member

/-- `blockchain::init` writes at most one entry, and only if it has asked. -/
theorem written_init {world : World database} (regular : World.Regular digests.sha256 world)
    {same : Bool} {inputs : InitInputs} {entry : Crypto.Hash × List UInt8}
    (member : entry ∈
      database.scan (world.step digests.sha256 (.init same inputs)).1.db) :
    entry ∈ database.scan world.db ∨ ∃ wallet, inputs.wallet = .ok wallet ∧
      prompts world same = true ∧
      entry = storedBlock digests.sha256 inputs.padding
        (genesis (inputs.tx wallet) inputs.time) := by
  rcases world with ⟨db, process⟩
  cases process with
  | fresh =>
      cases run : BlockContainer.construct db with
      | ok container =>
          rw [World.step, run] at member
          rcases written_initGenesis (construct_index run) member with
            held | ⟨wallet, made, empty, same⟩
          · exact .inl held
          · refine .inr ⟨wallet, made, ?_, same⟩
            rw [prompts, run]
            exact List.isEmpty_iff.mpr empty
      | error failure =>
          rw [World.step, run] at member
          exact .inl member
  | opened container =>
      cases same with
      | true =>
          rcases written_initGenesis (regular.index container rfl) member with
            held | ⟨wallet, made, empty, same⟩
          · exact .inl held
          · exact .inr ⟨wallet, made, List.isEmpty_iff.mpr empty, same⟩
      | false => exact .inl member
  | broken => exact .inl member

theorem mem_init_start (digests : Digests) (database : Database) (same : Bool)
    {inputs : InitInputs} {wallet : Option Crypto.PublicKey} (made : inputs.wallet = .ok wallet) :
    storedBlock digests.sha256 inputs.padding (genesis (inputs.tx wallet) inputs.time) ∈
      database.scan
        ((World.start : World database).step digests.sha256 (.init same inputs)).1.db := by
  have empty : BlockContainer.construct (database.empty) = .ok ⟨[], []⟩ :=
    construct_of_empty database.scan_empty
  rw [World.start, World.step, empty]
  dsimp only
  rw [initGenesis_of_empty rfl made, generate_eq rfl]
  exact database.mem_scan_put.mpr (.inl ⟨rfl, rfl⟩)

/-- A call of `KeyPair::KeyPair` forgets no key pair. -/
theorem mem_of_construct {wallets next : Wallets} {making : Making}
    (react : Wallets.construct digests curve networkId wallets making = some next)
    {made : Saved} (member : made ∈ wallets.saved ++ wallets.lost) :
    made ∈ next.saved ++ next.lost := by
  rw [List.mem_append] at member ⊢
  rw [Wallets.construct] at react
  split at react
  · cases react
  · split at react
    · cases react
      exact member
    · split at react
      · cases react
        exact member.imp_left (List.mem_append_left _)
      · cases react
        exact member.imp_right (List.mem_append_left _)

/-- The address of the wallet is that of the key pair which the call adds. -/
theorem mem_of_address {wallets next : Wallets} {making : Making}
    (react : Wallets.construct digests curve networkId wallets making = some next)
    {wallet : Option Crypto.PublicKey}
    (returned : address digests curve networkId wallets making = .ok wallet)
    {publicKey : Crypto.PublicKey} (some_ : wallet = some publicKey) :
    ∃ made ∈ next.saved ++ next.lost, made.publicKey = publicKey := by
  rw [Wallets.construct] at react
  rw [address] at returned
  split at react
  · cases react
  · rcases run : (Wallets.keyPair digests curve networkId making).run wallets.contexts with
      ⟨halt | made, contexts⟩
    · rw [run] at returned
      cases returned
    · rw [run] at returned react
      cases returned
      cases some_
      dsimp only at react
      refine ⟨made, List.mem_append.mpr ?_, rfl⟩
      split at react
      · cases react
        exact .inl (List.mem_append_right _ (List.mem_singleton_self made))
      · cases react
        exact .inr (List.mem_append_right _ (List.mem_singleton_self made))

/-- The address of a key pair whose file has been written. -/
theorem address_of_saved {wallets next : Wallets} {making : Making}
    (react : Wallets.construct digests curve networkId wallets making = some next)
    (saved : next.saved ≠ wallets.saved) :
    ∃ publicKey, address digests curve networkId wallets making = .ok (some publicKey) := by
  rw [Wallets.construct] at react
  rw [address]
  split at react
  · cases react
  · rcases run : (Wallets.keyPair digests curve networkId making).run wallets.contexts with
      ⟨halt | made, contexts⟩
    · rw [run] at react
      cases react
      exact absurd rfl saved
    · exact ⟨made.publicKey, rfl⟩

/-! ## Every run -/

/-- The files are those of the key pairs, and each entry of the database is a first block which
gives nothing away or gives all coins to one of them. -/
structure Consistent (digests : Digests) (curve : Curve) (networkId : UInt8)
    (installation : Installation database) : Prop where
  regular : World.Regular digests.sha256 installation.world
  kept : Wallets.Kept digests curve networkId installation.wallets
  granted : ∀ entry ∈ database.scan installation.world.db,
    Granted digests installation.wallets entry

end Installation

theorem Granted.mono {digests : Digests} {wallets next : Wallets}
    {entry : Crypto.Hash × List UInt8} (granted : Granted digests wallets entry)
    (more : ∀ made ∈ wallets.saved ++ wallets.lost, made ∈ next.saved ++ next.lost) :
    Granted digests next entry := by
  obtain ⟨inputs, wallet, stored, made⟩ := granted
  refine ⟨inputs, wallet, stored, fun publicKey some_ => ?_⟩
  obtain ⟨key, member, same⟩ := made publicKey some_
  exact ⟨key, more key member, same⟩

namespace Installation

variable {database : Database} {digests : Digests} {curve : Curve} {networkId : UInt8}
  {installation next : Installation database}

theorem consistent_start :
    Consistent digests curve networkId (start : Installation database) where
  regular := regular_start
  kept := Wallets.kept_start
  granted entry member := by
    rw [start, World.start, database.scan_empty] at member
    cases member

/-- Only the wallets' contexts and whether the process has ended are different. -/
theorem kept_of_same {wallets : Wallets} (kept : Wallets.Kept digests curve networkId wallets)
    (contexts : Contexts) (aborted : Bool) :
    Wallets.Kept digests curve networkId { wallets with contexts, aborted } :=
  ⟨kept.good, kept.written, kept.present⟩

/-- `blockchain::init` when no wallet is made. -/
theorem Consistent.init_none (consistent : Consistent digests curve networkId installation)
    (same : Bool) (setup : Setup) (contexts : Contexts) (aborted : Bool) :
    Consistent digests curve networkId
      (⟨(installation.world.step digests.sha256 (.init same (setup.inputs (.ok none)))).1,
        { installation.wallets with contexts, aborted }⟩ : Installation database) where
  regular := consistent.regular.step _
  kept := kept_of_same consistent.kept contexts aborted
  granted entry member := by
    rcases written_init consistent.regular member with held | ⟨wallet, made, _, stored⟩
    · exact consistent.granted entry held
    · cases made
      exact ⟨_, none, stored, fun publicKey absent => nomatch absent⟩

/-- `blockchain::init` when it makes a wallet, or tries to. -/
theorem Consistent.init_some (consistent : Consistent digests curve networkId installation)
    (same : Bool) (setup : Setup) {making : Making} {wallets : Wallets}
    (react : Wallets.construct digests curve networkId installation.wallets making =
      some wallets) :
    Consistent digests curve networkId
      (⟨(installation.world.step digests.sha256 (.init same
        (setup.inputs (address digests curve networkId installation.wallets making)))).1,
        wallets⟩ : Installation database) where
  regular := consistent.regular.step _
  kept := consistent.kept.construct react
  granted entry member := by
    rcases written_init consistent.regular member with held | ⟨wallet, made, _, stored⟩
    · exact (consistent.granted entry held).mono fun _ => mem_of_construct react
    · exact ⟨_, wallet, stored, fun _ => mem_of_address react made⟩

theorem Consistent.react {occasion : Occasion}
    (consistent : Consistent digests curve networkId installation)
    (step : react digests curve networkId installation occasion = some next) :
    Consistent digests curve networkId next := by
  cases occasion with
  | restart =>
      cases step
      exact ⟨consistent.regular.step _, kept_of_same consistent.kept _ _, consistent.granted⟩
  | init same setup =>
      rw [Installation.react] at step
      split at step
      · cases step
      · rw [init] at step
        dsimp only at step
        split at step
        · cases step
          exact consistent.init_none same setup installation.wallets.contexts true
        · split at step
          · obtain ⟨wallets, made, rfl⟩ := Option.map_eq_some_iff.mp step
            exact consistent.init_some same setup made
          · cases step
            exact consistent.init_none same setup installation.wallets.contexts
              installation.wallets.aborted
  | genesisBlock =>
      rw [Installation.react] at step
      split at step
      · cases step
      · cases step
        refine ⟨consistent.regular.step _, consistent.kept, fun entry member => ?_⟩
        cases consistent.regular.effect .genesisBlock with
        | idle _ _ _ db => exact consistent.granted entry (db ▸ member)
        | reading _ _ _ db => exact consistent.granted entry (db ▸ member)
        | generation _ _ _ generates => exact absurd generates id
  | keyPair making =>
      obtain ⟨wallets, made, rfl⟩ := Option.map_eq_some_iff.mp step
      have granted : ∀ entry ∈ database.scan installation.world.db,
          Granted digests wallets entry := fun entry member =>
        (consistent.granted entry member).mono fun _ => mem_of_construct made
      have kept := consistent.kept.construct made
      dsimp only
      split
      · exact ⟨⟨consistent.regular.written, fun _ opened => nomatch opened⟩, kept, granted⟩
      · exact ⟨consistent.regular, kept, granted⟩

/-! ## What is read back -/

theorem sizesBelow_genesis (inputs : InitInputs) (wallet : Option Crypto.PublicKey) :
    (genesis (inputs.tx wallet) inputs.time).SizesBelow (2 ^ 31) where
  coinbase :=
    { inputs := Nat.one_lt_two_pow (by decide)
      data := by
        intro input member
        obtain rfl := List.mem_singleton.mp member
        exact Nat.two_pow_pos 31
      outputs := by
        change (inputs.tx wallet).outputs.length < 2 ^ 31
        cases wallet <;> exact Nat.one_lt_two_pow (by decide)
      extra := Nat.two_pow_pos 31 }
  txList := Nat.two_pow_pos 31
  txs := List.forall_mem_nil _

/-- Reading puts an output of nothing in front of the one that was written. -/
theorem outputs_reread (inputs : InitInputs) (wallet : Option Crypto.PublicKey)
    {output : TXOutput} (member : output ∈ (rereadTx (inputs.tx wallet)).outputs)
    (coins : output.amount ≠ 0) :
    ∃ publicKey, wallet = some publicKey ∧ output = ⟨123456789, publicKey⟩ := by
  cases wallet with
  | none =>
      rcases List.mem_pair.mp member with rfl | rfl <;> exact absurd rfl coins
  | some publicKey =>
      rcases List.mem_pair.mp member with rfl | rfl
      · exact absurd rfl coins
      · exact ⟨publicKey, rfl, rfl⟩

end Installation

open Installation

/-- Whatever a computer has been through, every block of its data folder can be read, is a
first block and has one transaction, and every coin that this gives away belongs to a key pair
that was made there.  A file of the working directory still restores its key, unless the file
could not be opened. -/
theorem genesis_spendable {database : Database} {digests : Digests} {curve : Curve}
    {networkId : UInt8} {installation : Installation database} {occasions : List Occasion}
    (run : replay (react digests curve networkId) start occasions = some installation) :
    ∀ entry ∈ database.scan installation.world.db, ∃ bl next,
      deserializeBlock (Stream.memoryReader entry.2) = .ok (bl, next) ∧
        bl.prevBlockHash = zeroBytes 32 ∧ bl.txList = [] ∧
          ∀ output ∈ bl.coinbase.outputs, output.amount ≠ 0 →
            Owned digests curve networkId installation.wallets output := by
  have consistent : Consistent digests curve networkId installation :=
    replay_invariant (Consistent digests curve networkId) Consistent.react consistent_start run
  intro entry member
  obtain ⟨inputs, wallet, rfl, made⟩ := consistent.granted entry member
  refine ⟨_, _, deserialize_stored (sizesBelow_genesis inputs wallet), rfl, rfl, ?_⟩
  intro output outputs coins
  obtain ⟨publicKey, some_, rfl⟩ := outputs_reread inputs wallet outputs coins
  obtain ⟨key, keyMember, rfl⟩ := made publicKey some_
  refine ⟨rfl, ?_⟩
  rcases List.mem_append.mp keyMember with saved | lost
  · exact .inr (consistent.kept.restored saved)
  · exact .inl ⟨key, lost, rfl⟩

/-- On empty folders `blockchain::init` makes a wallet and a block that pays it. -/
theorem genesis_spendable_one :
    ∃ installation : Installation (inMemory _ _),
      replay (react SampleTransaction.digests SampleTransaction.curve 4) start
          [.init true ⟨some Wallets.sampleMaking, 0, zeroBytes 65, 0, zeroBytes 4⟩] =
        some installation ∧
      ∃ entry ∈ (inMemory _ _).scan installation.world.db, ∃ bl next,
        deserializeBlock (Stream.memoryReader entry.2) = .ok (bl, next) ∧
          bl.prevBlockHash = zeroBytes 32 ∧ bl.txList = [] ∧
            ∀ output ∈ bl.coinbase.outputs, output.amount ≠ 0 →
              Owned SampleTransaction.digests SampleTransaction.curve 4
                installation.wallets output := by
  obtain ⟨wallets, made, construct, saved⟩ := Wallets.construct_sampleMaking
  let setup : Setup := ⟨some Wallets.sampleMaking, 0, zeroBytes 65, 0, zeroBytes 4⟩
  let found := Installation.address SampleTransaction.digests SampleTransaction.curve 4
    Wallets.start Wallets.sampleMaking
  let installation : Installation (inMemory _ _) :=
    ⟨(World.start.step SampleTransaction.digests.sha256 (.init true (setup.inputs found))).1,
      wallets⟩
  have step : react SampleTransaction.digests SampleTransaction.curve 4 start
      (.init true setup) = some installation :=
    Option.map_eq_some_iff.mpr ⟨wallets, construct, rfl⟩
  have run := replay_cons.mpr ⟨installation, step, replay_nil _ _⟩
  obtain ⟨publicKey, returned⟩ : ∃ publicKey, found = .ok (some publicKey) :=
    address_of_saved construct (by rw [saved]; exact List.cons_ne_nil _ _)
  have wallet : (setup.inputs found).wallet = .ok (some publicKey) := returned
  have stored := mem_init_start SampleTransaction.digests (inMemory _ _) true wallet
  exact ⟨installation, run, _, stored, genesis_spendable run _ stored⟩

end IotChain
