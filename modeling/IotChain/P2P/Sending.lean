import IotChain.P2P.Framing
import IotChain.Transition.Events

/-!
# The sending side of a peer

`peer::send` runs on the strand, and so does the completion handler of a write.  Both
end in `do_write`, which starts a write unless `sending_` says that one is under way.
The model counts the assignments to `send_buffer_` and has each outstanding write
remember the count, so that a write whose bytes were replaced under it would show.
-/

namespace IotChain.P2P

open IotChain.Transition

/-- `protocol::has_packet`. -/
def Protocol.hasPacket (protocol : Protocol) : Bool := !protocol.sendQueue.isEmpty

/-- The sending members of a peer, and what has happened on its strand. -/
structure Sender where
  protocol : Protocol
  sendBuffer : List UInt8
  sending : Bool
  /-- The assignments to `send_buffer_`. -/
  assignments : Nat
  /-- For each write that has not completed, the assignment that its bytes are from. -/
  outstanding : List Nat
  /-- The bytes of each call of `async_write`. -/
  handed : List (List UInt8)
  /-- The messages that `protocol::send` accepted. -/
  accepted : List Message
  deriving DecidableEq, Repr

/-- What happens on the strand of a peer. -/
inductive SendEvent
  | send (msg : Message)
  | written (write : Nat)
  | failed (write : Nat)
  deriving DecidableEq, Repr

namespace Sender

/-- A peer that has just been constructed. -/
def fresh : Sender := ⟨Protocol.fresh, [], false, 0, [], [], []⟩

/-- `send_buffer_ = packet; sending_ = true; async_write(...)`. -/
def write (peer : Sender) (packet : List UInt8) : Sender :=
  { peer with
    sendBuffer := packet
    sending := true
    assignments := peer.assignments + 1
    outstanding := peer.outstanding ++ [peer.assignments + 1]
    handed := peer.handed ++ [packet] }

/-- `peer::do_write`. -/
def doWrite (peer : Sender) : Sender :=
  if peer.sending then
    peer
  else if peer.protocol.hasPacket then
    match peer.protocol.getPacket with
    | none => peer
    | some (packet, protocol) => write { peer with protocol := protocol } packet
  else
    peer

/-- The handler that `peer::send` dispatches.  A message that is too big makes
`protocol::send` throw, and `do_write` is not called. -/
def send (peer : Sender) (msg : Message) : Sender :=
  match peer.protocol.send msg with
  | .error _ => peer
  | .ok protocol =>
      doWrite { peer with protocol := protocol, accepted := peer.accepted ++ [msg] }

/-- The completion handler of a write that succeeded. -/
def written (peer : Sender) : Sender :=
  let idle := { peer with sending := false }
  if idle.protocol.hasPacket then idle.doWrite else idle

/-- A write can complete if it is outstanding.  After a failure its handler only logs. -/
def react : Reaction Sender SendEvent
  | peer, .send msg => some (peer.send msg)
  | peer, .written write =>
      if write ∈ peer.outstanding then
        some (written { peer with outstanding := peer.outstanding.erase write })
      else
        none
  | peer, .failed write =>
      if write ∈ peer.outstanding then
        some { peer with outstanding := peer.outstanding.erase write }
      else
        none

/-! ## What always holds -/

/-- The messages handed over, followed by the messages queued, are the messages accepted. -/
def Accounts (peer : Sender) : Prop :=
  ∃ sent waiting, peer.accepted = sent ++ waiting ∧
    peer.handed = sent.map Protocol.wireBytes ∧
      peer.protocol.sendQueue = waiting.map Message.copy

/-- At most the latest write is outstanding, and only while `sending_` is set.  It stays
set after a write that failed. -/
inductive Flight (peer : Sender) : Prop
  | idle (sending : peer.sending = false) (none : peer.outstanding = [])
      (queue : peer.protocol.sendQueue = [])
  | writing (sending : peer.sending = true) (latest : peer.outstanding = [peer.assignments])
  | failed (sending : peer.sending = true) (none : peer.outstanding = [])

theorem doWrite_of_sending {peer : Sender} (sending : peer.sending = true) :
    peer.doWrite = peer := by
  rw [doWrite, if_pos sending]

theorem doWrite_of_empty {peer : Sender} (queue : peer.protocol.sendQueue = []) :
    peer.doWrite = peer := by
  have noPacket : ¬ peer.protocol.hasPacket = true := by
    simp [Protocol.hasPacket, queue]
  rw [doWrite, if_neg noPacket, ite_self]

theorem doWrite_cons {peer : Sender} {msg : Message} {queue : List Message}
    (sending : peer.sending = false) (queued : peer.protocol.sendQueue = msg :: queue) :
    peer.doWrite =
      write { peer with protocol := { peer.protocol with sendQueue := queue } }
        (Protocol.wireBytes msg) := by
  have packet : peer.protocol.hasPacket = true := by
    simp [Protocol.hasPacket, queued]
  rw [doWrite, sending, if_neg Bool.false_ne_true, if_pos packet,
    Protocol.getPacket_cons peer.protocol msg queue queued]

/-- `do_write` moves the first waiting message to those handed over, or nothing. -/
theorem Accounts.doWrite {peer : Sender} (accounts : peer.Accounts) :
    peer.doWrite.Accounts := by
  cases sending : peer.sending with
  | true => rwa [doWrite_of_sending sending]
  | false =>
      rcases accounts with ⟨sent, waiting, accepted, handed, queue⟩
      cases waiting with
      | nil =>
          rw [doWrite_of_empty queue]
          exact ⟨sent, [], accepted, handed, queue⟩
      | cons msg waiting =>
          rw [doWrite_cons sending queue, Protocol.wireBytes_copy]
          refine ⟨sent ++ [msg], waiting, ?_, ?_, rfl⟩
          · simp [write, accepted]
          · simp [write, handed]

/-- With no write outstanding, `do_write` starts one or finds the queue empty. -/
theorem Flight.doWrite {peer : Sender} (sending : peer.sending = false)
    (none : peer.outstanding = []) : Flight peer.doWrite := by
  cases queued : peer.protocol.sendQueue with
  | nil =>
      rw [doWrite_of_empty queued]
      exact .idle sending none queued
  | cons msg queue =>
      rw [doWrite_cons sending queued]
      apply Flight.writing
      · rfl
      · simp [write, none]

/-! ## Events -/

theorem send_of_le {peer : Sender} {msg : Message} (fits : msg.size ≤ maxPktSize) :
    peer.send msg = doWrite { peer with
      protocol := { peer.protocol with sendQueue := peer.protocol.sendQueue ++ [msg.copy] }
      accepted := peer.accepted ++ [msg] } := by
  rw [send, Protocol.send_of_le fits]

theorem send_of_gt {peer : Sender} {msg : Message} (big : maxPktSize < msg.size) :
    peer.send msg = peer := by
  rw [send, Protocol.send_of_gt big]

theorem Accounts.send {peer : Sender} (accounts : peer.Accounts) (msg : Message) :
    (peer.send msg).Accounts := by
  by_cases big : maxPktSize < msg.size
  · rw [send_of_gt big]
    exact accounts
  · rw [send_of_le (Nat.le_of_not_lt big)]
    apply Accounts.doWrite
    rcases accounts with ⟨sent, waiting, accepted, handed, queue⟩
    refine ⟨sent, waiting ++ [msg], ?_, handed, ?_⟩
    · simp [accepted]
    · simp [queue]

theorem Flight.send {peer : Sender} (flight : peer.Flight) (msg : Message) :
    (peer.send msg).Flight := by
  by_cases big : maxPktSize < msg.size
  · rw [send_of_gt big]
    exact flight
  · rw [send_of_le (Nat.le_of_not_lt big)]
    cases flight with
    | idle sending none queue => exact Flight.doWrite sending none
    | writing sending latest =>
        rw [doWrite_of_sending]
        · exact .writing sending latest
        · exact sending
    | failed sending none =>
        rw [doWrite_of_sending]
        · exact .failed sending none
        · exact sending

/-- The handler of a successful write leaves the queue to `do_write`. -/
theorem written_eq_doWrite (peer : Sender) :
    peer.written = doWrite { peer with sending := false } := by
  rw [written]
  by_cases packet : peer.protocol.hasPacket = true
  · exact if_pos packet
  · have queue : peer.protocol.sendQueue = [] := by
      simpa [Protocol.hasPacket] using packet
    rw [doWrite_of_empty]
    · exact if_neg packet
    · exact queue

/-- A write that can complete is the only one. -/
theorem Flight.erase_eq_nil {peer : Sender} (flight : peer.Flight) {write : Nat}
    (member : write ∈ peer.outstanding) :
    peer.sending = true ∧ peer.outstanding.erase write = [] := by
  cases flight with
  | idle _ none _ =>
      rw [none] at member
      cases member
  | writing sending latest =>
      rw [latest] at member
      rw [latest, List.mem_singleton.mp member]
      exact ⟨sending, List.erase_cons_head _ _⟩
  | failed _ none =>
      rw [none] at member
      cases member

/-- Every event keeps both invariants. -/
theorem react_keeps {peer next : Sender} {event : SendEvent}
    (holds : peer.Accounts ∧ peer.Flight) (step : react peer event = some next) :
    next.Accounts ∧ next.Flight := by
  rcases holds with ⟨accounts, flight⟩
  cases event with
  | send msg =>
      cases step
      exact ⟨accounts.send msg, flight.send msg⟩
  | written write =>
      rcases Option.ite_none_right_eq_some.mp step with ⟨member, same⟩
      rw [written_eq_doWrite] at same
      cases same
      constructor
      · apply Accounts.doWrite
        exact accounts
      · exact Flight.doWrite rfl (flight.erase_eq_nil member).2
  | failed write =>
      rcases Option.ite_none_right_eq_some.mp step with ⟨member, same⟩
      cases same
      rcases flight.erase_eq_nil member with ⟨sending, none⟩
      exact ⟨accounts, .failed sending none⟩

theorem fresh_keeps : fresh.Accounts ∧ fresh.Flight :=
  ⟨⟨[], [], rfl, rfl, rfl⟩, .idle rfl rfl rfl⟩

/-- Sending is ordered and in single flight. -/
structure Orderly (peer : Sender) : Prop where
  single : peer.outstanding.length ≤ 1
  /-- `send_buffer_` has not been assigned since the write was started. -/
  unchanged : ∀ write ∈ peer.outstanding, write = peer.assignments
  ordered : ∃ sent waiting, peer.accepted = sent ++ waiting ∧
    peer.handed = sent.map Protocol.wireBytes
  complete : peer.sending = false →
    peer.protocol.sendQueue = [] ∧ peer.handed = peer.accepted.map Protocol.wireBytes

/-- In every interleaving of sends and completions, sending is ordered and in single
flight. -/
theorem orderly_of_replay {events : List SendEvent} {peer : Sender}
    (run : replay react fresh events = some peer) : peer.Orderly := by
  rcases replay_invariant (fun peer => peer.Accounts ∧ peer.Flight) react_keeps fresh_keeps run
    with ⟨⟨sent, waiting, accepted, handed, queue⟩, flight⟩
  have ordered : ∃ sent waiting, peer.accepted = sent ++ waiting ∧
      peer.handed = sent.map Protocol.wireBytes := ⟨sent, waiting, accepted, handed⟩
  cases flight with
  | idle sending none empty =>
      have noneWaiting : waiting = [] := List.map_eq_nil_iff.mp (queue.symm.trans empty)
      exact {
        single := by simp [none]
        unchanged := by simp [none]
        ordered := ordered
        complete := fun _ => ⟨empty, by simp [accepted, noneWaiting, handed]⟩ }
  | writing sending latest =>
      exact {
        single := by simp [latest]
        unchanged := by simp [latest]
        ordered := ordered
        complete := fun idle => by simp [sending] at idle }
  | failed sending none =>
      exact {
        single := by simp [none]
        unchanged := by simp [none]
        ordered := ordered
        complete := fun idle => by simp [sending] at idle }

/-- Two messages, the second sent while the first is being written. -/
theorem orderly_of_replay_two :
    Orderly ⟨⟨[], 6, []⟩, [0, 0, 0, 0, 1, 1], true, 2, [2],
      [[1, 0, 0, 0, 3, 45, 7], [0, 0, 0, 0, 1, 1]],
      [⟨⟨[7], 1⟩, ⟨0, 3, 45⟩⟩, ⟨⟨[], 0⟩, ⟨0, 1, 1⟩⟩]⟩ := by
  have run : replay react fresh
      [.send ⟨⟨[7], 1⟩, ⟨0, 3, 45⟩⟩, .send ⟨⟨[], 0⟩, ⟨0, 1, 1⟩⟩, .written 1] =
        some ⟨⟨[], 6, []⟩, [0, 0, 0, 0, 1, 1], true, 2, [2],
          [[1, 0, 0, 0, 3, 45, 7], [0, 0, 0, 0, 1, 1]],
          [⟨⟨[7], 1⟩, ⟨0, 3, 45⟩⟩, ⟨⟨[], 0⟩, ⟨0, 1, 1⟩⟩]⟩ := by rfl
  exact orderly_of_replay run

end Sender

end IotChain.P2P
