import IotChain.Node.Contracts
import IotChain.P2P.Dispatching
import IotChain.P2P.Flooding

/-!
# How contracts are distributed

The nodes of `___sunum` publish contracts at any time, to the peers that they have registered
then.  Each peer writes what it is given to the other end of its connection, which reads it in
chunks of its own.  Whatever the order of all this, each contract is executed once by each
peer that it was published to, in the order of publication, and nothing else is sent.
-/

namespace IotChain

open IotChain.P2P IotChain.Transition

/-- To which node a peer object belongs, and the peer object whose bytes it reads. -/
structure Wiring (ν : Type) where
  node : Peer → ν
  far : Peer → Peer

/-- The peer objects of all nodes: their sending sides, the bytes that each has read, and their
reading sides. -/
structure Distribution where
  sender : Peer → Sender
  arrived : Peer → List UInt8
  conn : Peer → Connection

/-- What happens at a node or a peer. -/
inductive Occurrence (ν : Type)
  /-- The command `newtx`, with a file of this kind. -/
  | newtx (n : ν) (contract : Contract) (size : UInt32)
  | written (p : Peer) (write : Nat)
  | failed (p : Peer) (write : Nat)
  | reads (p : Peer) (event : ReadEvent)

/-- What happens, with the peers that each node has registered by then. -/
structure Instant (ν : Type) where
  list : ν → PeerList
  occurrence : Occurrence ν

namespace Distribution

variable {ν : Type}

/-- Nothing is sent or read yet. -/
def start : Distribution := ⟨fun _ => Sender.fresh, fun _ => [], fun _ => Connection.fresh⟩

/-- Calls of `peer::send`, one after the other. -/
def sendAll (sender : Peer → Sender) (calls : List (Peer × Message)) : Peer → Sender :=
  calls.foldl (fun sender call =>
    Function.update sender call.1 ((sender call.1).send call.2)) sender

/-- The calls of `peer::send` that an effect on a connection comes to. -/
def calls (list : PeerList) (p : Peer) : Effect → List (Peer × Message)
  | .sent response => [(p, response)]
  | .broadcast msg => list.sunumBroadcast msg (some p)
  | .handled _ _ => []
  | .unhandled _ => []
  | .refused _ => []

/-- The completion of a write. -/
def completes (distribution : Distribution) (p : Peer) (event : SendEvent) :
    Option Distribution :=
  match (distribution.sender p).react event with
  | none => none
  | some sender =>
      some { distribution with sender := Function.update distribution.sender p sender }

/-- A peer reads bytes that have been handed over at the other end, in order. -/
def react (wiring : Wiring ν) (memory : Peer → List Effect → List UInt8) :
    Reaction Distribution (Instant ν) := fun distribution instant =>
  match instant.occurrence with
  | .newtx n contract size =>
      some { distribution with
        sender := sendAll distribution.sender
          ((instant.list n).sunumBroadcast (contract.message size) none) }
  | .written p write => distribution.completes p (.written write)
  | .failed p write => distribution.completes p (.failed write)
  | .reads p event =>
      if distribution.arrived p ++ event.bytes <+:
          (distribution.sender (wiring.far p)).handed.flatten then
        match Connection.react (memory p) sunumProcess (distribution.conn p) event with
        | none => none
        | some next =>
            let fresh := next.log.drop (distribution.conn p).log.length
            some {
              sender := sendAll distribution.sender
                (fresh.flatMap (calls (instant.list (wiring.node p)) p))
              arrived := Function.update distribution.arrived p
                (distribution.arrived p ++ event.bytes)
              conn := Function.update distribution.conn p next }
      else
        none

/-- The contract that a peer is given, if it is registered where one is published. -/
def publishedAt (p : Peer) (instant : Instant ν) : Option (Contract × UInt32) :=
  match instant.occurrence with
  | .newtx n contract size =>
      if p ∈ (instant.list n).live then some (contract, size) else none
  | .written _ _ => none
  | .failed _ _ => none
  | .reads _ _ => none

/-- The contracts that a peer has been given, in the order of publication. -/
def published (p : Peer) (instants : List (Instant ν)) : List (Contract × UInt32) :=
  instants.filterMap (publishedAt p)

end Distribution

/-! ## Senders -/

namespace P2P.Sender

theorem handed_doWrite {peer : Sender} {handed : List (List UInt8)} (same : peer.handed = handed) :
    handed <+: peer.doWrite.handed := by
  cases sending : peer.sending with
  | true =>
      rw [doWrite_of_sending sending, same]
  | false =>
      cases queued : peer.protocol.sendQueue with
      | nil => rw [doWrite_of_empty queued, same]
      | cons msg queue =>
          rw [doWrite_cons sending queued, ← same]
          exact List.prefix_append _ _

/-- What has been handed over stays so. -/
theorem handed_of_react {peer next : Sender} {event : SendEvent}
    (step : react peer event = some next) : peer.handed <+: next.handed := by
  cases event with
  | send msg =>
      cases step
      by_cases big : maxPktSize < msg.size
      · rw [send_of_gt big]
      · rw [send_of_le (Nat.le_of_not_lt big)]
        exact handed_doWrite rfl
  | written write =>
      rcases Option.ite_none_right_eq_some.mp step with ⟨_, same⟩
      rw [written_eq_doWrite] at same
      cases same
      exact handed_doWrite rfl
  | failed write =>
      rcases Option.ite_none_right_eq_some.mp step with ⟨_, same⟩
      cases same
      exact List.prefix_rfl

/-- What has been handed over are the first of the messages accepted. -/
theorem Accounts.handed_flatten {peer : Sender} (accounts : peer.Accounts) :
    peer.handed.flatten <+: peer.accepted.flatMap Protocol.wireBytes := by
  rcases accounts with ⟨sent, waiting, accepted, handed, _⟩
  rw [handed, accepted, List.flatMap_append, ← List.flatMap_def]
  exact List.prefix_append _ _

/-- A sender that is idle has handed over all of them. -/
theorem flatten_of_idle {peer : Sender} (accounts : peer.Accounts) (flight : peer.Flight)
    (idle : peer.sending = false) :
    peer.handed.flatten = peer.accepted.flatMap Protocol.wireBytes := by
  rcases accounts with ⟨sent, waiting, accepted, handed, queue⟩
  cases flight with
  | idle _ _ empty =>
      have noneWaiting : waiting = [] := List.map_eq_nil_iff.mp (queue.symm.trans empty)
      rw [handed, accepted, noneWaiting, List.append_nil, ← List.flatMap_def]
  | writing sending _ => exact absurd (idle.symm.trans sending) Bool.false_ne_true
  | failed sending _ => exact absurd (idle.symm.trans sending) Bool.false_ne_true

end P2P.Sender

namespace Distribution

variable {ν : Type}

/-- Each of some different peers is sent a message. -/
theorem sendAll_map (sender : Peer → Sender) {peers : List Peer} (distinct : peers.Nodup)
    (msg : Message) (p : Peer) :
    sendAll sender (peers.map fun spt => (spt, msg)) p =
      if p ∈ peers then (sender p).send msg else sender p := by
  induction peers generalizing sender with
  | nil => rfl
  | cons spt peers ih =>
      rw [List.nodup_cons] at distinct
      rw [List.map_cons, sendAll, List.foldl_cons]
      refine (ih _ distinct.2).trans ?_
      by_cases same : p = spt
      · subst same
        rw [if_neg distinct.1, Function.update_self, if_pos List.mem_cons_self]
      · rw [Function.update_of_ne same]
        by_cases member : p ∈ peers
        · rw [if_pos member, if_pos (List.mem_cons_of_mem _ member)]
        · rw [if_neg member, if_neg (List.not_mem_cons_of_ne_of_not_mem same member)]

/-- `peer_list::broadcast` without an origin sends to each live peer. -/
theorem sendAll_newtx (sender : Peer → Sender) (list : PeerList) (msg : Message) (p : Peer) :
    sendAll sender (list.sunumBroadcast msg none) p =
      if p ∈ list.live then (sender p).send msg else sender p := by
  have everyone : list.live.filter (PeerList.sunumPasses none) = list.live :=
    List.filter_eq_self.mpr fun _ _ => rfl
  rw [PeerList.sunumBroadcast, PeerList.broadcastIf_eq_map, everyone]
  exact sendAll_map sender list.distinct msg p

/-! ## What always holds -/

/-- The message of a contract that is published. -/
def message (publication : Contract × UInt32) : Message :=
  publication.1.message publication.2

theorem size_message (publication : Contract × UInt32) :
    (message publication).size ≤ maxPktSize := by
  change (publication.1.message publication.2).toStream.size ≤ maxPktSize
  rw [Stream.size, Contract.message_buf, Contract.length_payload]
  exact publication.1.fits

/-- Each peer has accepted the contracts that it was given, and its connection has read a part
of what has been handed over at the other end. -/
structure Inv (wiring : Wiring ν) (memory : Peer → List Effect → List UInt8)
    (instants : List (Instant ν)) (distribution : Distribution) : Prop where
  sender : ∀ p, (distribution.sender p).Accounts ∧ (distribution.sender p).Flight
  accepted : ∀ p, (distribution.sender p).accepted = (published p instants).map message
  conn : ∀ p, ∃ events,
    replay (Connection.react (memory p) sunumProcess) Connection.fresh events =
      some (distribution.conn p) ∧
    events.flatMap ReadEvent.bytes = distribution.arrived p
  arrived : ∀ p, distribution.arrived p <+:
    (distribution.sender (wiring.far p)).handed.flatten

theorem inv_start (wiring : Wiring ν) (memory : Peer → List Effect → List UInt8) :
    start.Inv wiring memory [] where
  sender _ := Sender.fresh_keeps
  accepted _ := rfl
  conn _ := ⟨[], rfl, rfl⟩
  arrived _ := List.nil_prefix

variable {wiring : Wiring ν} {memory : Peer → List Effect → List UInt8}
  {instants : List (Instant ν)} {distribution next : Distribution} {instant : Instant ν}

theorem published_concat (p : Peer) (instants : List (Instant ν)) (instant : Instant ν) :
    published p (instants ++ [instant]) =
      published p instants ++ (publishedAt p instant).toList := by
  rw [published, List.filterMap_append, published]
  congr 1

/-- Senders may accept what is published, and hand over more. -/
theorem Inv.senders (inv : distribution.Inv wiring memory instants) {sender : Peer → Sender}
    (keeps : ∀ p, (sender p).Accounts ∧ (sender p).Flight)
    (accepted : ∀ p, (sender p).accepted =
      (distribution.sender p).accepted ++ (publishedAt p instant).toList.map message)
    (handed : ∀ p, (distribution.sender p).handed <+: (sender p).handed) :
    Inv wiring memory (instants ++ [instant]) { distribution with sender } where
  sender := keeps
  accepted p := by
    rw [published_concat, List.map_append, ← inv.accepted p]
    exact accepted p
  conn := inv.conn
  arrived p := (inv.arrived p).trans (handed (wiring.far p)).flatten

theorem Inv.newtx (inv : distribution.Inv wiring memory instants) {n : ν} {contract : Contract}
    {size : UInt32} (occurs : instant.occurrence = .newtx n contract size) :
    Inv wiring memory (instants ++ [instant]) { distribution with
      sender := sendAll distribution.sender
        ((instant.list n).sunumBroadcast (contract.message size) none) } := by
  have fits : (contract.message size).size ≤ maxPktSize := size_message (contract, size)
  apply inv.senders
  · intro p
    rw [sendAll_newtx]
    split
    · exact ⟨(inv.sender p).1.send _, (inv.sender p).2.send _⟩
    · exact inv.sender p
  · intro p
    rw [sendAll_newtx, publishedAt, occurs]
    dsimp only
    split
    · exact Sender.accepted_send fits
    · exact (List.append_nil _).symm
  · intro p
    rw [sendAll_newtx]
    split
    · have sent : Sender.react (distribution.sender p) (.send (contract.message size)) =
          some ((distribution.sender p).send (contract.message size)) := rfl
      exact Sender.handed_of_react sent
    · exact List.prefix_rfl

theorem Inv.completes (inv : distribution.Inv wiring memory instants) {p : Peer}
    {event : SendEvent} (nothing : ∀ q, publishedAt q instant = none)
    (notSend : ∀ msg, event ≠ .send msg)
    (step : distribution.completes p event = some next) :
    next.Inv wiring memory (instants ++ [instant]) := by
  rw [Distribution.completes] at step
  cases reacted : (distribution.sender p).react event with
  | none =>
      rw [reacted] at step
      cases step
  | some sender =>
      rw [reacted] at step
      cases step
      apply inv.senders
      · intro q
        by_cases same : q = p
        · subst same
          rw [Function.update_self]
          exact Sender.react_keeps (inv.sender q) reacted
        · rw [Function.update_of_ne same]
          exact inv.sender q
      · intro q
        rw [nothing q, Option.toList_none, List.map_nil, List.append_nil]
        by_cases same : q = p
        · subst same
          rw [Function.update_self]
          exact Sender.accepted_of_react notSend reacted
        · rw [Function.update_of_ne same]
      · intro q
        by_cases same : q = p
        · subst same
          rw [Function.update_self]
          exact Sender.handed_of_react reacted
        · rw [Function.update_of_ne same]

/-- What has arrived is a part of the contracts that were published. -/
theorem Inv.arrived_wire (inv : distribution.Inv wiring memory instants) (p : Peer) :
    (distribution.sender (wiring.far p)).handed.flatten <+:
      ((published (wiring.far p) instants).map Prod.fst).flatMap Contract.wire := by
  have handed := (inv.sender (wiring.far p)).1.handed_flatten
  rw [inv.accepted, List.flatMap_map] at handed
  rw [List.flatMap_map]
  simpa only [message, Contract.wireBytes_message] using handed

/-- The contracts that have arrived at a peer are executed in order. -/
theorem executes_of_arrived {publications : List (Contract × UInt32)}
    (padded : ∀ publication ∈ publications, publication.1.tail = padding.bytes)
    {events : List ReadEvent} {conn : Connection}
    (run : replay (Connection.react (memory p) sunumProcess) Connection.fresh events = some conn)
    (arrived : events.flatMap ReadEvent.bytes <+:
      (publications.map Prod.fst).flatMap Contract.wire) :
    ∃ first later, publications.map Prod.fst = first ++ later ∧
      List.Forall₂ Executes first conn.log ∧
      (conn.task = .waiting → events.flatMap ReadEvent.bytes =
        (publications.map Prod.fst).flatMap Contract.wire → later = []) := by
  apply executes_of_replay _ run arrived
  intro contract member
  rcases List.mem_map.mp member with ⟨publication, among, rfl⟩
  exact padded publication among

/-- A read executes contracts, and nothing is sent. -/
theorem Inv.reads (inv : distribution.Inv wiring memory instants) {p : Peer} {event : ReadEvent}
    (padded : ∀ publication ∈ published (wiring.far p) instants,
      publication.1.tail = padding.bytes)
    (occurs : instant.occurrence = .reads p event)
    (step : Distribution.react wiring memory distribution instant = some next) :
    next.Inv wiring memory (instants ++ [instant]) := by
  rw [Distribution.react, occurs] at step
  rcases Option.ite_none_right_eq_some.mp step with ⟨further, step⟩
  cases reacted : Connection.react (memory p) sunumProcess (distribution.conn p) event with
  | none =>
      rw [reacted] at step
      cases step
  | some conn =>
      rw [reacted] at step
      cases step
      obtain ⟨events, run, bytesEq⟩ := inv.conn p
      have run' := replay_concat.mpr ⟨_, run, reacted⟩
      have bytesEq' : (events ++ [event]).flatMap ReadEvent.bytes =
          distribution.arrived p ++ event.bytes := by
        rw [List.flatMap_append, List.flatMap_singleton, bytesEq]
      have arrived : (events ++ [event]).flatMap ReadEvent.bytes <+:
          ((published (wiring.far p) instants).map Prod.fst).flatMap Contract.wire := by
        rw [bytesEq']
        exact further.trans (inv.arrived_wire p)
      obtain ⟨first, _, _, executes, _⟩ := executes_of_arrived padded run' arrived
      -- what is handled has a connection send nothing
      have silent : (conn.log.drop (distribution.conn p).log.length).flatMap
          (calls (instant.list (wiring.node p)) p) = [] := by
        apply List.flatMap_eq_nil_iff.mpr
        intro effect member
        obtain ⟨msg, answer, rfl⟩ := handled_of_executes executes (List.mem_of_mem_drop member)
        rfl
      have nothing (q : Peer) : publishedAt q instant = none := by
        rw [publishedAt, occurs]
      constructor
      · rw [silent]
        exact inv.sender
      · intro q
        rw [published_concat, nothing q, Option.toList_none, List.append_nil, silent]
        exact inv.accepted q
      · intro q
        dsimp only
        by_cases same : q = p
        · subst same
          rw [Function.update_self, Function.update_self]
          exact ⟨_, run', bytesEq'⟩
        · rw [Function.update_of_ne same, Function.update_of_ne same]
          exact inv.conn q
      · intro q
        rw [silent]
        change Function.update distribution.arrived p _ q <+:
          (distribution.sender (wiring.far q)).handed.flatten
        by_cases same : q = p
        · subst same
          rw [Function.update_self]
          exact further
        · rw [Function.update_of_ne same]
          exact inv.arrived q

theorem Inv.react (inv : distribution.Inv wiring memory instants)
    (padded : ∀ p, ∀ publication ∈ published p instants, publication.1.tail = padding.bytes)
    (step : Distribution.react wiring memory distribution instant = some next) :
    next.Inv wiring memory (instants ++ [instant]) := by
  cases occurs : instant.occurrence with
  | newtx n contract size =>
      rw [Distribution.react, occurs] at step
      cases step
      exact inv.newtx occurs
  | written p write =>
      rw [Distribution.react, occurs] at step
      exact inv.completes (fun q => by rw [publishedAt, occurs]) (by simp) step
  | failed p write =>
      rw [Distribution.react, occurs] at step
      exact inv.completes (fun q => by rw [publishedAt, occurs]) (by simp) step
  | reads p event => exact inv.reads (padded _) occurs step

theorem padded_of_publishedAt {p : Peer} {publication : Contract × UInt32}
    (padded : ∀ n contract size,
      instant.occurrence = .newtx n contract size → contract.tail = padding.bytes)
    (given : publishedAt p instant = some publication) :
    publication.1.tail = padding.bytes := by
  rw [publishedAt] at given
  split at given
  · rename_i n contract size occurs
    rcases Option.ite_none_right_eq_some.mp given with ⟨_, same⟩
    cases same
    exact padded n contract size occurs
  · cases given
  · cases given
  · cases given

/-- All that is written to a peer has been read, and it waits for more. -/
structure Settled (wiring : Wiring ν) (distribution : Distribution) (p : Peer) : Prop where
  idle : (distribution.sender (wiring.far p)).sending = false
  all : distribution.arrived p = (distribution.sender (wiring.far p)).handed.flatten
  waits : (distribution.conn p).task = .waiting

/-- If all contracts that are published end in a pong with its last hop to make, then in every
interleaving of publications, writes and reads each peer sends the contracts that it was given
and nothing else; the peer at the other end executes the first of them, each once and in order,
and has executed all of them when everything has been read. -/
theorem contracts_distributed
    (padded : ∀ instant ∈ instants, ∀ n contract size,
      instant.occurrence = .newtx n contract size → contract.tail = padding.bytes)
    (run : replay (Distribution.react wiring memory) start instants = some distribution)
    (p : Peer) :
    (distribution.sender p).accepted =
      ((published p instants).map fun publication => publication.1.message publication.2) ∧
    ∃ first later, (published (wiring.far p) instants).map Prod.fst = first ++ later ∧
      List.Forall₂ Executes first (distribution.conn p).log ∧
      (distribution.Settled wiring p → later = []) := by
  have tails : ∀ q, ∀ publication ∈ published q instants,
      publication.1.tail = padding.bytes := by
    intro q publication member
    rcases List.mem_filterMap.mp member with ⟨instant, among, given⟩
    exact padded_of_publishedAt (padded instant among) given
  have inv : distribution.Inv wiring memory instants := by
    apply replay_history (fun instants distribution =>
      (∀ q, ∀ publication ∈ published q instants, publication.1.tail = padding.bytes) →
        distribution.Inv wiring memory instants) _ _ run tails
    · intro instants state instant next kept step tails
      have before : ∀ q, ∀ publication ∈ published q instants,
          publication.1.tail = padding.bytes := by
        intro q publication member
        apply tails q publication
        rw [published_concat]
        exact List.mem_append_left _ member
      exact (kept before).react before step
    · exact fun _ => inv_start wiring memory
  obtain ⟨events, behind, bytesEq⟩ := inv.conn p
  have arrived : events.flatMap ReadEvent.bytes <+:
      ((published (wiring.far p) instants).map Prod.fst).flatMap Contract.wire := by
    rw [bytesEq]
    exact (inv.arrived p).trans (inv.arrived_wire p)
  obtain ⟨first, later, publishedEq, executes, complete⟩ :=
    executes_of_arrived (tails _) behind arrived
  refine ⟨inv.accepted p, first, later, publishedEq, executes, ?_⟩
  intro settled
  apply complete settled.waits
  have keeps := inv.sender (wiring.far p)
  rw [bytesEq, settled.all, Sender.flatten_of_idle keeps.1 keeps.2 settled.idle, inv.accepted,
    List.flatMap_map, List.flatMap_map]
  simp only [message, Contract.wireBytes_message]

/-- A contract that stops at once. -/
def stopContract : Contract where
  code := [0, 9]
  tail := padding.bytes
  nonempty := by decide
  six := rfl
  fits := by decide

/-- The peers of three nodes in a line. -/
def lineWiring : Wiring Nat := ⟨Flood.line.node, Flood.line.far⟩

/-- Of three nodes in a line the first publishes a contract, and the second reads it. -/
def lineInstants : List (Instant Nat) :=
  [.newtx 0 stopContract 0, .reads (Flood.linePeer 1) (.completed [8, 0, 0, 0, 5, 1, 0]),
    .written (Flood.linePeer 0) 1, .reads (Flood.linePeer 1) .round,
    .reads (Flood.linePeer 1) .round, .reads (Flood.linePeer 1) .round,
    .reads (Flood.linePeer 1) (.completed [9, 0, 0, 0, 0, 2, 1]),
    .reads (Flood.linePeer 1) .round, .reads (Flood.linePeer 1) .round,
    .reads (Flood.linePeer 1) .round].map (Instant.mk Flood.line.list)

/-- The second node has executed the contract, behind other bytes. -/
theorem contracts_distributed_line :
    ∃ distribution,
      replay (react lineWiring fun _ _ => [7, 7, 7, 7, 7, 7]) start lineInstants =
        some distribution ∧
      List.Forall₂ Executes [stopContract] (distribution.conn (Flood.linePeer 1)).log := by
  have happened : ∃ distribution,
      replay (react lineWiring fun _ _ => [7, 7, 7, 7, 7, 7]) start lineInstants =
        some distribution ∧
      (distribution.sender (Flood.linePeer 0)).sending = false ∧
      (distribution.sender (Flood.linePeer 0)).handed =
        [[8, 0, 0, 0, 5, 1, 0, 9, 0, 0, 0, 0, 2, 1]] ∧
      distribution.arrived (Flood.linePeer 1) = [8, 0, 0, 0, 5, 1, 0, 9, 0, 0, 0, 0, 2, 1] ∧
      (distribution.conn (Flood.linePeer 1)).task = .waiting := ⟨_, rfl, rfl, rfl, rfl, rfl⟩
  obtain ⟨distribution, run, idle, handed, arrived, waits⟩ := happened
  have all : distribution.arrived (Flood.linePeer 1) =
      (distribution.sender (Flood.linePeer 0)).handed.flatten := by
    rw [arrived, handed, List.flatten_singleton]
  have padded : ∀ instant ∈ lineInstants, ∀ n contract size,
      instant.occurrence = .newtx n contract size → contract.tail = padding.bytes := by
    intro instant member n contract size occurs
    rcases List.mem_map.mp member with ⟨occurrence, among, rfl⟩
    rcases List.mem_cons.mp among with rfl | later
    · cases occurs
      rfl
    · dsimp only at occurs
      subst occurs
      simp at later
  obtain ⟨_, first, later, publishedEq, executes, complete⟩ :=
    contracts_distributed padded run (Flood.linePeer 1)
  obtain rfl := complete ⟨idle, all, waits⟩
  have given : (published (lineWiring.far (Flood.linePeer 1)) lineInstants).map Prod.fst =
      [stopContract] := rfl
  rw [given, List.append_nil] at publishedEq
  rw [publishedEq]
  exact ⟨distribution, run, executes⟩

end Distribution

end IotChain
