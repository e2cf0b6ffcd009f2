import IotChain.P2P.Peer
import IotChain.P2P.Rereading

/-!
# The message handlers of a node

`p2p_node::process_msg` looks up the handler for the type of a message.  What the handlers
do is left open: they may accept, reject or throw, depending on the message and on what the
connection has led to before.
-/

namespace IotChain

open IotChain.P2P
open IotChain.Transition

/-- `MSG_TYPE_NEW_BLOCK`. -/
abbrev msgTypeNewBlock : UInt8 := 4

/-- The handlers of `msg_handler`. -/
inductive MsgHandler
  | onNewTransaction
  | onNewBlock
  deriving DecidableEq, Repr

namespace MsgHandler

/-- `m_handlers`, as the constructor of `msg_handler` fills it. -/
def mHandlers : List (UInt8 × MsgHandler) :=
  [(msgTypeNewTx, .onNewTransaction), (msgTypeNewBlock, .onNewBlock)]

/-- How the calls of the handlers end. -/
abbrev Behaviour := MsgHandler → List Effect → Message → Answer

/-- `msg_handler::handle_message`, which `p2p_node::process_msg` calls. -/
def handleMessage (behaviour : Behaviour) : Processing := fun log msg =>
  match mHandlers.lookup msg.header.type with
  | some handler => some (behaviour handler log msg)
  | none => none

/-- The handler registered for the type of a message has accepted it. -/
def Accepted (behaviour : Behaviour) (log : List Effect) (msg : Message) : Prop :=
  ∃ handler, mHandlers.lookup msg.header.type = some handler ∧
    behaviour handler log msg = .goOn

theorem accepted_of_handleMessage {behaviour : Behaviour} {log : List Effect} {msg : Message}
    (processed : handleMessage behaviour log msg = some .goOn) :
    Accepted behaviour log msg := by
  rw [handleMessage] at processed
  split at processed
  · rename_i handler registered
    exact ⟨handler, registered, Option.some.inj processed⟩
  · cases processed

end MsgHandler

open MsgHandler

/-- A connection of a node, behind any memory, whatever the handlers do: it relays pings,
pongs and messages that their handlers have accepted, and after a message that was rejected
or has no handler, an exception or an error, it leads to nothing any more. -/
theorem relay_gated {memory : List Effect → List UInt8} {behaviour : Behaviour}
    {first later : List ReadEvent} {conn last : Connection}
    (run : replay (Connection.react memory (handleMessage behaviour)) Connection.fresh first =
      some conn)
    (more : replay (Connection.react memory (handleMessage behaviour)) conn later =
      some last) :
    Gated (Accepted behaviour) conn.log ∧
      ((∃ effect ∈ conn.log, effect.Fatal) → last.log = conn.log) := by
  have gated := (Connection.inv_of_replay run).gated
  constructor
  · constructor
    · intro before msg after logEq
      rcases gated.relayed before msg after logEq with ping | pong | ⟨earlier, beforeEq, accepts⟩
      · exact .inl ping
      · exact .inr (.inl pong)
      · exact .inr (.inr ⟨earlier, beforeEq, accepted_of_handleMessage accepts⟩)
    · exact gated.last
  · rintro ⟨effect, member, fatal⟩
    exact Connection.log_eq_of_fatal run more member fatal

/-- A ping with two hops to live and a block arrive in one chunk; the block is rejected. -/
theorem relay_gated_two :
    Gated (Accepted fun _ _ _ => .stop)
      [.sent (Message.create msgTypePong 1 0), .broadcast ⟨Stream.empty, ⟨0, 1, 1⟩⟩,
        .handled ⟨Stream.empty, ⟨0, 4, 0⟩⟩ .stop] := by
  have run : replay
      (Connection.react (fun _ => []) (handleMessage fun _ _ _ => .stop)) Connection.fresh
      [.completed [0, 0, 0, 0, 1, 2, 0, 0, 0, 0, 4, 1], .round, .round] =
        some ⟨Protocol.fresh, [.sent (Message.create msgTypePong 1 0),
          .broadcast ⟨Stream.empty, ⟨0, 1, 1⟩⟩, .handled ⟨Stream.empty, ⟨0, 4, 0⟩⟩ .stop],
          .done⟩ := by rfl
  exact (relay_gated run (replay_nil _ _)).1

end IotChain
