import IotChain.Key.Contexts
import IotChain.Key.Generation
import IotChain.Key.Text

/-!
# The files of new keys

A new key pair writes its private key, as text, to a file that is named after its address.  A
file that is there already is overwritten.  Whatever has happened before, each file restores a
key whose address is the one in its name.
-/

namespace IotChain

open IotChain.Bytes IotChain.Secp256k1 IotChain.Transition

/-- What a call of `KeyPair::KeyPair` meets: the sources of randomness, the private exponent
that the pool leads to or how it ends instead, and whether the file can be opened. -/
structure Making where
  type : Contexts.KeyPairType
  device : Bool
  randomized : Bool
  exponent : Except Halt { exp : Nat // 1 ≤ exp ∧ exp < order }
  opens : Bool

namespace Making

/-- The bytes of the exponent.  It does not have more than there is room for. -/
def secret (making : Making) : Except Halt Crypto.SecretKey :=
  match making.exponent with
  | .error halt => .error halt
  | .ok exp => .ok ((storeExponent exp).getD (zeroBytes 32))

/-- What the constructor of a key pair draws. -/
def randomness (making : Making) : Contexts.Randomness :=
  ⟨making.device, making.randomized, making.secret⟩

/-- The type of the private key, as `KeyPair::KeyPair` chooses it. -/
def keyType (making : Making) : KeyType :=
  if making.type = .smartContractKey then .smartContractPrivateKey else .accountPrivateKey

end Making

/-- `"_private.txt"` -/
def privateSuffix : List UInt8 := "_private.txt".toList.map fun c => UInt8.ofNat c.toNat

/-- A key pair, and the name and the text of its file. -/
structure Saved where
  secret : Crypto.SecretKey
  publicKey : Crypto.PublicKey
  file : List UInt8
  text : List UInt8

/-- The working directory of a process, and the key pairs that it has made. -/
structure Wallets where
  contexts : Contexts
  files : List UInt8 → Option (List UInt8)
  /-- The key pairs whose file could be opened. -/
  saved : List Saved
  /-- The key pairs whose file could not be opened. -/
  lost : List Saved
  aborted : Bool

namespace Wallets

section Functions

variable (digests : Digests) (curve : Curve) (networkId : UInt8)

/-- The name and the text of the file. -/
def contents (key : PrivateKey) (publicKey : Crypto.PublicKey) : Except KeyFailure Saved := do
  let name ← PublicKey.encoded publicKey
  let text ← PrivateKey.encoded digests key
  return ⟨key.secret, publicKey, name ++ privateSuffix, text⟩

/-- `KeyPair::KeyPair`, with the file that it writes. -/
def keyPair (making : Making) : Contexts.Action Saved := do
  Contexts.signStart making.randomness
  match making.secret with
  | .error halt => throw halt
  | .ok secret =>
      let key : PrivateKey := ⟨secret, making.keyType⟩
      let publicKey ← Contexts.createPublicKey digests curve networkId key
      match contents digests key publicKey with
      | .error _ => throw .thrown
      | .ok made =>
          Contexts.signStop
          return made

/-- Nothing in the directory. -/
def start : Wallets := ⟨Contexts.fresh, fun _ => none, [], [], false⟩

/-- A call of `KeyPair::KeyPair`.  The file is truncated when it is opened; what is written to
one that could not be opened is dropped.  An abort ends the process. -/
def construct : Reaction Wallets Making := fun wallets making =>
  if wallets.aborted then
    none
  else
    match (keyPair digests curve networkId making).run wallets.contexts with
    | (.error halt, contexts) => some { wallets with contexts, aborted := halt = .aborted }
    | (.ok made, contexts) =>
        if making.opens then
          some { wallets with
            contexts
            files := Function.update wallets.files made.file (some made.text)
            saved := wallets.saved ++ [made] }
        else
          some { wallets with contexts, lost := wallets.lost ++ [made] }

end Functions

end Wallets

/-- The text is that of a key with this address, which signs. -/
structure Restores (digests : Digests) (curve : Curve) (networkId : UInt8)
    (publicKey : Crypto.PublicKey) (text : List UInt8) : Prop where
  key : ∃ key : PrivateKey, (∀ array, PrivateKey.ofString digests array text = .ok key) ∧
    key.createPublicKey digests curve networkId = some publicKey ∧
      ∀ hash, ∃ signature, key.sign curve hash = some signature

/-- What is true of the file of a key pair. -/
structure Saved.Good (digests : Digests) (curve : Curve) (networkId : UInt8) (made : Saved) :
    Prop where
  valid : PublicKey.Valid digests made.publicKey
  named : ∃ name, PublicKey.encoded made.publicKey = .ok name ∧ made.file = name ++ privateSuffix
  restores : Restores digests curve networkId made.publicKey made.text

namespace Wallets

variable {digests : Digests} {curve : Curve} {networkId : UInt8}

/-! ## One call -/

theorem keyType_mem (making : Making) : making.keyType ∈ privateTypes := by
  rw [Making.keyType]
  split <;> decide

theorem valid_of_createPublicKey {key : PrivateKey} {publicKey : Crypto.PublicKey}
    (created : key.createPublicKey digests curve networkId = some publicKey) :
    ValidSecret key.secret ∧ PublicKey.Valid digests publicKey := by
  rw [PrivateKey.createPublicKey] at created
  split at created
  · rename_i valid
    cases created
    refine ⟨(pubkeyCreate_iff curve _).mp valid, valid_address _ ?_ networkId _⟩
    split <;> decide
  · cases created

/-- Neither text is too long to be written, and the texts are those of a good file. -/
theorem contents_of_created {key : PrivateKey} {publicKey : Crypto.PublicKey}
    (type : key.keyType ∈ privateTypes)
    (created : key.createPublicKey digests curve networkId = some publicKey) :
    ∃ made, contents digests key publicKey = .ok made ∧ made.secret = key.secret ∧
      made.publicKey = publicKey ∧ made.Good digests curve networkId := by
  rcases valid_of_createPublicKey created with ⟨secret, valid⟩
  rcases PublicKey.ofString_encoded valid with ⟨name, named, _⟩
  have written : ∃ text, key.encoded digests = .ok text ∧
      (∀ array, PrivateKey.ofString digests array text = .ok key) ∧
      ∀ array, PublicKey.ofString digests array text = .error .logicError :=
    PrivateKey.ofString_encoded type
  rcases written with ⟨text, encoded, restored, _⟩
  refine ⟨⟨key.secret, publicKey, name ++ privateSuffix, text⟩, ?_, rfl, rfl, ?_⟩
  · rw [contents, named, encoded]
    rfl
  · exact ⟨valid, ⟨name, named, rfl⟩, ⟨key, restored, created, sign_of_valid secret⟩⟩

/-- `private_key::create_public_key` has returned. -/
theorem created_of_run {key : PrivateKey} {publicKey : Crypto.PublicKey}
    {contexts next : Contexts}
    (run : (Contexts.createPublicKey digests curve networkId key).run contexts =
      (.ok publicKey, next)) :
    key.createPublicKey digests curve networkId = some publicKey := by
  rw [Contexts.createPublicKey] at run
  obtain ⟨_, _, _, run⟩ := ok_of_run_bind run
  obtain ⟨_, _, _, run⟩ := ok_of_run_bind run
  cases created : key.createPublicKey digests curve networkId with
  | none =>
      rw [created] at run
      cases run
  | some publicKey' =>
      rw [created] at run
      cases run
      rfl

/-- What a call has made when it returns. -/
theorem good_of_keyPair {making : Making} {contexts next : Contexts} {made : Saved}
    (run : (keyPair digests curve networkId making).run contexts = (.ok made, next)) :
    made.Good digests curve networkId := by
  rw [keyPair] at run
  obtain ⟨_, _, _, run⟩ := ok_of_run_bind run
  rcases pool : making.secret with halt | secret
  · rw [pool] at run
    cases run
  · rw [pool] at run
    obtain ⟨publicKey, _, create, run⟩ := ok_of_run_bind run
    obtain ⟨made', written, _, _, good⟩ :=
      contents_of_created (keyType_mem making) (created_of_run create)
    rw [written] at run
    obtain ⟨_, _, _, run⟩ := ok_of_run_bind run
    cases run
    exact good

/-! ## Every call -/

/-- The directory holds the texts of the key pairs whose files could be opened, and nothing
else.  Two of them with one address share a file. -/
structure Kept (digests : Digests) (curve : Curve) (networkId : UInt8) (wallets : Wallets) :
    Prop where
  good : ∀ made ∈ wallets.saved, made.Good digests curve networkId
  written : ∀ file text, wallets.files file = some text →
    ∃ made ∈ wallets.saved, made.file = file ∧ made.text = text
  present : ∀ made ∈ wallets.saved, ∃ text, wallets.files made.file = some text

theorem kept_start : Kept digests curve networkId start where
  good _ member := nomatch member
  written _ _ held := nomatch held
  present _ member := nomatch member

/-- A file that is overwritten belongs to the newest key pair of its address. -/
theorem Kept.save {wallets : Wallets} (kept : Kept digests curve networkId wallets)
    {made : Saved} (good : made.Good digests curve networkId) (contexts : Contexts) :
    Kept digests curve networkId { wallets with
      contexts
      files := Function.update wallets.files made.file (some made.text)
      saved := wallets.saved ++ [made] } where
  good other member := by
    rcases List.mem_append.mp member with old | new
    · exact kept.good other old
    · obtain rfl := List.mem_singleton.mp new
      exact good
  written file text held := by
    dsimp only at held
    by_cases same : file = made.file
    · subst same
      rw [Function.update_self] at held
      exact ⟨made, List.mem_append_right _ (List.mem_singleton_self made), rfl,
        Option.some.inj held⟩
    · rw [Function.update_of_ne same] at held
      obtain ⟨other, old, named, texts⟩ := kept.written file text held
      exact ⟨other, List.mem_append_left _ old, named, texts⟩
  present other member := by
    dsimp only
    by_cases same : other.file = made.file
    · exact ⟨made.text, by rw [same, Function.update_self]⟩
    · rw [Function.update_of_ne same]
      rcases List.mem_append.mp member with old | new
      · exact kept.present other old
      · obtain rfl := List.mem_singleton.mp new
        exact absurd rfl same

theorem Kept.construct {wallets next : Wallets} {making : Making}
    (kept : Kept digests curve networkId wallets)
    (react : construct digests curve networkId wallets making = some next) :
    Kept digests curve networkId next := by
  rw [Wallets.construct] at react
  split at react
  · cases react
  · rcases run : (keyPair digests curve networkId making).run wallets.contexts with
      ⟨halt | made, contexts⟩
    · rw [run] at react
      cases react
      exact ⟨kept.good, kept.written, kept.present⟩
    · rw [run] at react
      dsimp only at react
      split at react
      · cases react
        exact kept.save (good_of_keyPair run) contexts
      · cases react
        exact ⟨kept.good, kept.written, kept.present⟩

/-- An address is read off the name of its file. -/
theorem publicKey_of_file {made other : Saved} (good : made.Good digests curve networkId)
    (otherGood : other.Good digests curve networkId) (same : made.file = other.file) :
    made.publicKey = other.publicKey := by
  obtain ⟨name, encoded, file⟩ := good.named
  obtain ⟨name', encoded', file'⟩ := otherGood.named
  obtain rfl : name = name' := List.append_cancel_right (file.symm.trans (same.trans file'))
  obtain ⟨text, written, parsed, _⟩ := PublicKey.ofString_encoded good.valid
  obtain ⟨text', written', parsed', _⟩ := PublicKey.ofString_encoded otherGood.valid
  obtain rfl : text = name := Except.ok.inj (written.symm.trans encoded)
  obtain rfl : text' = text := Except.ok.inj (written'.symm.trans encoded')
  exact Except.ok.inj ((parsed (zeroBytes 25)).symm.trans (parsed' (zeroBytes 25)))

/-- The file of a key pair restores a key with its address, also if another key pair has
overwritten it. -/
theorem Kept.restored {wallets : Wallets} (kept : Kept digests curve networkId wallets)
    {made : Saved} (member : made ∈ wallets.saved) :
    ∃ name text, PublicKey.encoded made.publicKey = .ok name ∧
      wallets.files (name ++ privateSuffix) = some text ∧
        Restores digests curve networkId made.publicKey text := by
  have good := kept.good made member
  obtain ⟨name, encoded, named⟩ := good.named
  obtain ⟨text, held⟩ := kept.present made member
  obtain ⟨other, otherMember, same, rfl⟩ := kept.written made.file text held
  have otherGood := kept.good other otherMember
  rw [publicKey_of_file good otherGood same.symm]
  rw [publicKey_of_file good otherGood same.symm] at encoded
  exact ⟨name, other.text, encoded, named ▸ held, otherGood.restores⟩

theorem run_signStart {contexts : Contexts} {randomness : Contexts.Randomness}
    (idle : contexts.sign = none) (device : randomness.device = true)
    (randomized : randomness.randomized = true) :
    (Contexts.signStart randomness).run contexts =
      (.ok (), { contexts with
        sign := some contexts.created
        created := contexts.created + 1 }) := by
  rcases contexts with ⟨sign, verify, created, destroyed, uses⟩
  rcases randomness with ⟨working, changed, pool⟩
  cases idle
  cases device
  cases randomized
  rfl

theorem run_createPublicKey {contexts : Contexts} {key : PrivateKey}
    {publicKey : Crypto.PublicKey}
    (created : key.createPublicKey digests curve networkId = some publicKey) :
    (Contexts.createPublicKey digests curve networkId key).run contexts =
      (.ok publicKey, { contexts with
        uses := contexts.uses ++ [⟨contexts.sign, contexts.destroyed⟩] }) := by
  rw [Contexts.createPublicKey, created]
  rfl

/-- A call while no key pair is being made has its file written, if the randomness works, the
secret is one and the file can be opened. -/
theorem construct_of_valid {wallets : Wallets} {making : Making} {secret : Crypto.SecretKey}
    (running : wallets.aborted = false) (idle : wallets.contexts.sign = none)
    (device : making.device = true) (randomized : making.randomized = true)
    (pool : making.secret = .ok secret) (valid : ValidSecret secret)
    (opens : making.opens = true) :
    ∃ next made, construct digests curve networkId wallets making = some next ∧
      next.saved = wallets.saved ++ [made] ∧ made.secret = secret := by
  have creates : ∃ publicKey, PrivateKey.createPublicKey digests curve networkId
      ⟨secret, making.keyType⟩ = some publicKey := createPublicKey_of_valid valid
  obtain ⟨publicKey, created⟩ := creates
  obtain ⟨made, written, secret', _, _⟩ := contents_of_created (keyType_mem making) created
  rcases run : (keyPair digests curve networkId making).run wallets.contexts with
    ⟨result, contexts⟩
  have returned : result = .ok made := by
    rw [keyPair, run_bind_of_ok (run_signStart idle device randomized), pool] at run
    dsimp only at run
    rw [run_bind_of_ok (run_createPublicKey created), written] at run
    cases run
    rfl
  subst returned
  refine ⟨{ wallets with
    contexts
    files := Function.update wallets.files made.file (some made.text)
    saved := wallets.saved ++ [made] }, made, ?_, rfl, secret'⟩
  rw [construct, if_neg (by rw [running]; decide), run]
  dsimp only
  rw [if_pos opens]

/-- A call that finds the exponent whose bytes are stored as those of the secret one. -/
def sampleMaking : Making :=
  ⟨.accountKey, true, true, .ok ⟨2 ^ 248, by decide, by decide⟩, true⟩

theorem construct_sampleMaking :
    ∃ wallets made,
      construct SampleTransaction.digests SampleTransaction.curve 4 start sampleMaking =
          some wallets ∧ wallets.saved = [made] := by
  let secret : Crypto.SecretKey := ⟨encodeLE 32 (2 ^ 248), length_encodeLE 32 (2 ^ 248)⟩
  have pool : sampleMaking.secret = .ok secret := by
    change Except.ok ((storeExponent (2 ^ 248)).getD (zeroBytes 32)) = _
    rw [storeExponent_eq (by decide)]
    rfl
  have valid : ValidSecret secret := by
    change 0 < decodeBE (encodeLE 32 (2 ^ 248)) ∧ decodeBE (encodeLE 32 (2 ^ 248)) < order
    decide
  obtain ⟨wallets, made, react, saved, _⟩ :
      ∃ next made,
        construct SampleTransaction.digests SampleTransaction.curve 4 start sampleMaking =
            some next ∧ next.saved = start.saved ++ [made] ∧ made.secret = secret :=
    construct_of_valid rfl rfl rfl rfl pool valid rfl
  exact ⟨wallets, made, react, saved⟩

/-- Whatever calls have been made, and whichever of them have failed: each file in the
directory restores a key with the address that it is named after, and the address of each key
pair whose file could be opened still has such a file. -/
theorem wallet_restores {wallets : Wallets} {makings : List Making}
    (run : replay (construct digests curve networkId) start makings = some wallets) :
    (∀ file text, wallets.files file = some text →
      ∃ publicKey name, PublicKey.encoded publicKey = .ok name ∧ file = name ++ privateSuffix ∧
        Restores digests curve networkId publicKey text) ∧
    ∀ made ∈ wallets.saved, ∃ name text, PublicKey.encoded made.publicKey = .ok name ∧
      wallets.files (name ++ privateSuffix) = some text ∧
        Restores digests curve networkId made.publicKey text := by
  have kept : Kept digests curve networkId wallets :=
    replay_invariant (Kept digests curve networkId) Kept.construct kept_start run
  constructor
  · intro file text held
    obtain ⟨made, member, rfl, rfl⟩ := kept.written file text held
    obtain ⟨name, encoded, named⟩ := (kept.good made member).named
    exact ⟨made.publicKey, name, encoded, named, (kept.good made member).restores⟩
  · exact fun made member => kept.restored member

theorem wallet_restores_one :
    ∃ wallets made, replay (construct SampleTransaction.digests SampleTransaction.curve 4) start
        [sampleMaking] = some wallets ∧ wallets.saved = [made] ∧
        ∃ name text, PublicKey.encoded made.publicKey = .ok name ∧
          wallets.files (name ++ privateSuffix) = some text ∧
            Restores SampleTransaction.digests SampleTransaction.curve 4 made.publicKey text := by
  obtain ⟨wallets, made, react, saved⟩ := construct_sampleMaking
  have run := replay_cons.mpr ⟨wallets, react, replay_nil _ _⟩
  refine ⟨wallets, made, run, saved, (wallet_restores run).2 made ?_⟩
  rw [saved]
  exact List.mem_singleton_self made

end Wallets

end IotChain
