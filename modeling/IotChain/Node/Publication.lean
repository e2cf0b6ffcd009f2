import IotChain.P2P.PeerList
import IotChain.P2P.Rereading

/-!
# Publishing a transaction

`blockchain::send_tx` broadcasts a transaction without an origin, and a broadcast without
an origin passes every peer by.
-/

namespace IotChain

open IotChain.P2P
open IotChain.StreamSerializer

/-- `blockchain::send_tx`, with the calls of `peer::send` that it leads to. -/
def sendTx (list : PeerList) (tx : TX) (size : UInt32) : Bool × List (Peer × Message) :=
  (true, list.broadcast (txMessage tx size) none)

/-- Every live peer is sent one `NEW_TX` message that contains the transaction. -/
def Publishes (list : PeerList) (tx : TX) (size : UInt32) : Prop :=
  ∃ msg : Message, msg.header.type = msgTypeNewTx ∧
    msg.buf = (serializeTx tx Stream.empty).buf ∧
      PeerList.Sends (sendTx list tx size).2 msg fun spt => spt ∈ list.live

/-- A transaction is published, and a message without an origin is passed on, exactly if
there is no live peer; a message with an origin is passed on exactly if no other live peer
has the `uuid_` of the origin. -/
theorem publishes_iff (list : PeerList) (tx : TX) (size : UInt32) (msg : Message) (p : Peer) :
    (Publishes list tx size ↔ list.live = []) ∧
      (PeerList.Sends (list.broadcast msg none) msg (list.Others none) ↔ list.live = []) ∧
        (PeerList.Sends (list.broadcast msg (some p)) msg (list.Others (some p)) ↔
          ∀ spt ∈ list.live, spt ≠ p → spt.uuid ≠ p.uuid) := by
  refine ⟨?_, list.sends_broadcast_none_iff msg, list.sends_broadcast_some_iff msg p⟩
  have nothing : (sendTx list tx size).2 = [] := list.broadcast_none _
  rw [Publishes, List.eq_nil_iff_forall_not_mem, nothing]
  constructor
  · rintro ⟨msg, _, _, sends⟩
    exact (PeerList.sends_nil_iff msg _).mp sends
  · intro noPeer
    exact ⟨txMessage tx size, rfl, rfl, (PeerList.sends_nil_iff _ _).mpr noPeer⟩

/-- With one live peer, the default transaction is not published. -/
theorem publishes_fails :
    ¬ ∀ (list : PeerList) (tx : TX) (size : UInt32),
      (txMessage tx size).size ≤ maxPktSize → Publishes list tx size := by
  intro publishes
  rcases publishes ⟨[some ⟨0, zeroBytes 16⟩], List.nodup_singleton _⟩ default 0
    txMessage_default_le with ⟨msg, _, _, sends⟩
  rw [sendTx, PeerList.broadcast_none, PeerList.sends_nil_iff] at sends
  exact sends ⟨0, zeroBytes 16⟩ List.mem_cons_self

end IotChain
