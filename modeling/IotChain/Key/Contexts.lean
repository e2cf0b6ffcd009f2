import IotChain.Key.Keys
import IotChain.Transition.Stopping

/-!
# The contexts of the curve library

The curve library keeps its tables in contexts.  The repository has two global ones, for
signing and for verifying, which are created and destroyed by functions of its own.  The
model numbers the contexts in the order of their creation and records each call that is
given one.
-/

namespace IotChain

open IotChain.Secp256k1 IotChain.Transition Std.Do

/-- A call of the curve library: the context that it is given, and those that have been
destroyed by then. -/
structure ContextUse where
  context : Option Nat
  destroyed : List Nat
  deriving DecidableEq, Repr

/-- The context is not null and not destroyed. -/
def ContextUse.Live (use : ContextUse) : Prop :=
  ∃ id, use.context = some id ∧ id ∉ use.destroyed

/-- The global contexts, and what has happened to contexts. -/
structure Contexts where
  /-- `g_secp256k1_sign_context` -/
  sign : Option Nat
  /-- `g_secp256k1_verify_context` -/
  verify : UInt32 × Option Nat
  created : Nat
  destroyed : List Nat
  uses : List ContextUse
  deriving DecidableEq, Repr

namespace Contexts

/-- The globals before anything is called. -/
def fresh : Contexts := ⟨none, (0, none), 0, [], []⟩

/-- A function of the repository that works on the contexts. -/
abbrev Action := Stopping Contexts Halt

/-- `assert`. -/
def check (condition : Bool) : Action Unit :=
  if condition then return () else throw .aborted

/-- `secp256k1_context_create`. -/
def create : Action Nat := do
  let id := (← get).created
  modify fun c => { c with created := id + 1 }
  return id

/-- `secp256k1_context_destroy`. -/
def destroy (id : Nat) : Action Unit :=
  modify fun c => { c with destroyed := c.destroyed ++ [id] }

/-- A call of the curve library with a context. -/
def use (context : Option Nat) : Action Unit :=
  modify fun c => { c with uses := c.uses ++ [⟨context, c.destroyed⟩] }

/-! ## Starting and stopping -/

/-- `secp256k1_verify_start`. -/
def verifyStart : Action Unit := do
  if (← get).verify.1 = 0 then
    check (← get).verify.2.isNone
    let ctx ← create
    modify fun c => { c with verify := (c.verify.1, some ctx) }
  modify fun c => { c with verify := (c.verify.1 + 1, c.verify.2) }

/-- `secp256k1_verify_stop`. -/
def verifyStop : Action Unit := do
  modify fun c => { c with verify := (c.verify.1 - 1, c.verify.2) }
  if (← get).verify.1 = 0 then
    match (← get).verify.2 with
    | none => throw .aborted
    | some ctx => destroy ctx
    modify fun c => { c with verify := (c.verify.1, none) }

/-- `enum KeyPairType`. -/
inductive KeyPairType
  | accountKey
  | smartContractKey
  deriving DecidableEq, Repr

/-- What the sources of randomness give while a key is made: whether the random device
works, whether it randomizes the context, and what the pool leads to, which is an
exception, a failed assertion or a secret. -/
structure Randomness where
  device : Bool
  randomized : Bool
  pool : Except Halt Crypto.SecretKey

/-- `secp256k1_sign_start`. -/
def signStart (randomness : Randomness) : Action Unit := do
  check (← get).sign.isNone
  let ctx ← create
  if randomness.device then
    check randomness.randomized
    modify fun c => { c with sign := some ctx }
  else
    throw .thrown

/-- `secp256k1_sign_stop`. -/
def signStop : Action Unit := do
  let ctx := (← get).sign
  modify fun c => { c with sign := none }
  match ctx with
  | some ctx => destroy ctx
  | none => return ()

/-! ## Their callers -/

section Callers

variable (digests : Digests) (curve : Curve) (networkId : UInt8)

/-- `private_key::create_public_key`. -/
def createPublicKey (key : PrivateKey) : Action Crypto.PublicKey := do
  use (← get).sign
  match key.createPublicKey digests curve networkId with
  | some publicKey => return publicKey
  | none => throw .aborted

/-- `public_key::verify`, which parses and recovers. -/
def verifyKey (key : Crypto.PublicKey) (hash : Crypto.Hash) (sign : Crypto.Signature) :
    Action Bool := do
  use (← get).verify.2
  use (← get).verify.2
  return PublicKey.verify digests curve networkId key hash sign

/-- `KeyPair::KeyPair`. -/
def keyPair (type : KeyPairType) (randomness : Randomness) : Action Crypto.PublicKey := do
  signStart randomness
  let keyType :=
    if type = .smartContractKey then KeyType.smartContractPrivateKey
    else KeyType.accountPrivateKey
  match randomness.pool with
  | .error halt => throw halt
  | .ok secret =>
      let publicKey ← createPublicKey digests curve networkId ⟨secret, keyType⟩
      signStop
      return publicKey

end Callers

/-! ## What always holds -/

/-- The global context for signing is live, and so was every context that has been used. -/
structure Safe (c : Contexts) : Prop where
  sign : ∀ id, c.sign = some id → id < c.created ∧ id ∉ c.destroyed
  destroyed : ∀ id ∈ c.destroyed, id < c.created
  uses : ∀ use ∈ c.uses, use.Live

theorem safe_fresh : fresh.Safe where
  sign _ same := nomatch same
  destroyed := List.forall_mem_nil _
  uses := List.forall_mem_nil _

/-- A new context is not one of the destroyed ones. -/
theorem Safe.started {c : Contexts} (safe : c.Safe) :
    Safe { c with sign := some c.created, created := c.created + 1 } where
  sign id same := by
    cases same
    exact ⟨Nat.lt_succ_self _, fun destroyed => Nat.lt_irrefl _ (safe.destroyed _ destroyed)⟩
  destroyed id member := Nat.lt_succ_of_lt (safe.destroyed id member)
  uses := safe.uses

theorem Safe.created {c : Contexts} (safe : c.Safe) :
    Safe { c with created := c.created + 1 } where
  sign id same := ⟨Nat.lt_succ_of_lt (safe.sign id same).1, (safe.sign id same).2⟩
  destroyed id member := Nat.lt_succ_of_lt (safe.destroyed id member)
  uses := safe.uses

theorem Safe.used {c : Contexts} (safe : c.Safe) (started : c.sign ≠ none) :
    Safe { c with uses := c.uses ++ [⟨c.sign, c.destroyed⟩] } where
  sign := safe.sign
  destroyed := safe.destroyed
  uses := by
    intro use member
    rcases List.mem_append.mp member with old | new
    · exact safe.uses use old
    · obtain rfl := List.mem_singleton.mp new
      rcases Option.ne_none_iff_exists'.mp started with ⟨id, same⟩
      exact ⟨id, same, (safe.sign id same).2⟩

theorem Safe.cleared {c : Contexts} (safe : c.Safe) : Safe { c with sign := none } where
  sign _ same := nomatch same
  destroyed := safe.destroyed
  uses := safe.uses

theorem Safe.stopped {c : Contexts} (safe : c.Safe) {id : Nat} (same : c.sign = some id) :
    Safe { c with sign := none, destroyed := c.destroyed ++ [id] } where
  sign _ none := nomatch none
  destroyed other member := by
    rcases List.mem_append.mp member with old | new
    · exact safe.destroyed other old
    · obtain rfl := List.mem_singleton.mp new
      exact (safe.sign _ same).1
  uses := safe.uses

set_option mvcgen.warning false in
@[spec]
theorem signStart_spec (randomness : Randomness) :
    ⦃fun c => ⌜c.Safe⌝⦄ signStart randomness
      ⦃post⟨fun _ c => ⌜c.Safe ∧ c.sign ≠ none⌝, fun _ c => ⌜c.Safe⌝⟩⦄ := by
  mvcgen [signStart, check, create]
  · exact ⟨Safe.started ‹_›, Option.some_ne_none _⟩
  · exact Safe.created ‹_›
  · exact Safe.created ‹_›

set_option mvcgen.warning false in
@[spec]
theorem createPublicKey_spec (digests : Digests) (curve : Curve) (networkId : UInt8)
    (key : PrivateKey) :
    ⦃fun c => ⌜c.Safe ∧ c.sign ≠ none⌝⦄ createPublicKey digests curve networkId key
      ⦃post⟨fun _ c => ⌜c.Safe⌝, fun _ c => ⌜c.Safe⌝⟩⦄ := by
  mvcgen [createPublicKey, use]
  all_goals
    have held : _ ∧ _ := ‹_›
    exact held.1.used held.2

set_option mvcgen.warning false in
@[spec]
theorem signStop_spec :
    ⦃fun c => ⌜c.Safe⌝⦄ signStop ⦃post⟨fun _ c => ⌜c.Safe⌝, fun _ c => ⌜c.Safe⌝⟩⦄ := by
  mvcgen [signStop, destroy]
  · have safe : Safe _ := ‹_›
    exact safe.stopped ‹_›
  · exact Safe.cleared ‹_›

set_option mvcgen.warning false in
/-- Making a key keeps the contexts safe, also when it fails. -/
@[spec]
theorem keyPair_spec (digests : Digests) (curve : Curve) (networkId : UInt8)
    (type : KeyPairType) (randomness : Randomness) :
    ⦃fun c => ⌜c.Safe⌝⦄ keyPair digests curve networkId type randomness
      ⦃post⟨fun _ c => ⌜c.Safe⌝, fun _ c => ⌜c.Safe⌝⟩⦄ := by
  mvcgen [keyPair]
  have held : Safe _ ∧ _ := ‹_›
  exact held.1

end Contexts

end IotChain
