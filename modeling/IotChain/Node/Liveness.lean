import IotChain.Key.Counting
import IotChain.Key.Verification
import IotChain.Node.Handlers

/-!
# The contexts in a running node

Making a key starts the context for signing and stops it.  Nothing starts the context for
verifying, and nothing needs it: a received transaction is never read.
-/

namespace IotChain

open IotChain.P2P IotChain.Secp256k1 IotChain.StreamSerializer IotChain.Transition
open Contexts Std.Do

/-- What happens in a process.  A call of `blockchain::init` makes a wallet or does not,
and a frame is what `protocol::receive` makes a message of. -/
inductive NodeCall
  | blockchain
  | keyPair (type : KeyPairType) (randomness : Randomness)
  | init (wallet : Option Randomness)
  | sendTx (tx : TX)
  | frame (header : MessageHeader) (readable : Option (List UInt8))

section Calls

variable (digests : Digests) (curve : Curve) (networkId : UInt8)

/-- The handler `OnNewTransaction`. -/
def handleNewTransaction (msg : Message) : Action Bool :=
  match deserializeTx msg.toStream with
  | .ok (tx, _) =>
      verifyKey digests curve networkId tx.from_ (txHash digests tx) tx.signature
  | .error _ => throw .thrown

/-- `p2p_node::process_msg`, as far as it works on the contexts. -/
def processMsg (msg : Message) : Action Unit := do
  match MsgHandler.mHandlers.lookup msg.header.type with
  | some .onNewTransaction =>
      let _ ← handleNewTransaction digests curve networkId msg
  | _ => return ()

/-- What a call does with the contexts. -/
def NodeCall.action : NodeCall → Action Unit
  | .blockchain => return ()
  | .keyPair type randomness => do
      let _ ← Contexts.keyPair digests curve networkId type randomness
  | .init wallet => do
      match wallet with
      | some randomness =>
          let _ ← Contexts.keyPair digests curve networkId .accountKey randomness
      | none => return ()
  | .sendTx _ => return ()
  | .frame header readable =>
      match Message.ofHeader header readable with
      | some msg => processMsg digests curve networkId msg.hop
      | none => return ()

/-- The contexts behind some calls.  An exception ends a call, an abort the process. -/
def contextsBehind (calls : List NodeCall) : Contexts :=
  runAll (NodeCall.action digests curve networkId) (fun halt => halt = .aborted) calls fresh

/-! ## What every call keeps -/

theorem Message.ofHeader_atEnd {header : MessageHeader} {readable : Option (List UInt8)}
    {msg : Message} (made : Message.ofHeader header readable = some msg) :
    msg.toStream = ⟨msg.buf, msg.buf.length⟩ := by
  cases readable with
  | none =>
      cases made
      rfl
  | some bytes =>
      rw [Message.ofHeader] at made
      by_cases pos : header.size > 0
      · by_cases short : bytes.length < header.size.toNat
        · rw [if_pos pos, if_pos short] at made
          cases made
        · rw [if_pos pos, if_neg short] at made
          cases made
          rw [Stream.empty_write]
      · rw [if_neg pos] at made
        cases made
        rfl

variable {digests curve networkId}

theorem handleNewTransaction_eq {msg : Message}
    (atEnd : msg.toStream = ⟨msg.buf, msg.buf.length⟩) :
    handleNewTransaction digests curve networkId msg = throw .thrown := by
  rw [handleNewTransaction, atEnd, deserializeTx_atEnd]

set_option mvcgen.warning false in
/-- A message that has arrived never gets as far as a context. -/
theorem processMsg_spec {msg : Message} (atEnd : msg.toStream = ⟨msg.buf, msg.buf.length⟩) :
    ⦃fun c => ⌜c.Safe⌝⦄ processMsg digests curve networkId msg
      ⦃post⟨fun _ c => ⌜c.Safe⌝, fun _ c => ⌜c.Safe⌝⟩⦄ := by
  simp only [processMsg, handleNewTransaction_eq atEnd]
  mvcgen

set_option mvcgen.warning false in
theorem NodeCall.action_spec (call : NodeCall) :
    ⦃fun c => ⌜c.Safe⌝⦄ call.action digests curve networkId
      ⦃post⟨fun _ c => ⌜c.Safe⌝, fun _ c => ⌜c.Safe⌝⟩⦄ := by
  cases call with
  | blockchain => mvcgen [NodeCall.action]
  | keyPair type randomness => mvcgen [NodeCall.action]
  | init wallet => mvcgen [NodeCall.action]
  | sendTx tx => mvcgen [NodeCall.action]
  | frame header readable =>
      rw [NodeCall.action]
      cases made : Message.ofHeader header readable with
      | none => mvcgen
      | some msg =>
          have atEnd := Message.ofHeader_atEnd made
          have hopped : msg.hop.toStream = ⟨msg.hop.buf, msg.hop.buf.length⟩ := atEnd
          exact processMsg_spec hopped

end Calls

/-- In a running node every context that the curve library is given is live, and calls that
are balanced and do not overflow the count keep the context for verifying. -/
theorem contexts_live (digests : Digests) (curve : Curve) (networkId : UInt8) :
    (∀ calls, ∀ use ∈ (contextsBehind digests curve networkId calls).uses, use.Live) ∧
    ∀ calls, Balanced calls → Bounded calls → Tracks calls := by
  constructor
  · intro calls
    exact (runAll_invariant Contexts.Safe NodeCall.action_spec safe_fresh calls).uses
  · intro calls balanced bounded
    exact tracks_of_bounded balanced bounded

theorem contexts_live_once :
    (∀ use ∈ (contextsBehind SampleTransaction.digests SampleTransaction.curve 4
      [.keyPair .accountKey ⟨true, true, .ok SampleTransaction.key.secret⟩]).uses, use.Live) ∧
    Tracks [.start, .start, .stop, .stop, .start] := by
  have live := contexts_live SampleTransaction.digests SampleTransaction.curve 4
  constructor
  · exact live.1 _
  · apply live.2
    · intro before prefixed
      rw [← List.mem_inits] at prefixed
      revert before
      decide
    · intro before prefixed
      rw [← List.mem_inits] at prefixed
      revert before
      decide

/-- So many starts as overflow the count leave a context behind a count of zero. -/
theorem contexts_live_fails :
    ¬ ∃ (digests : Digests) (curve : Curve) (networkId : UInt8),
      (∀ calls, ∀ use ∈ (contextsBehind digests curve networkId calls).uses, use.Live) ∧
      ∀ calls, Balanced calls → Tracks calls := by
  rintro ⟨_, _, _, _, tracks⟩
  exact not_tracks_full (tracks _ (balanced_starts _))

end IotChain
