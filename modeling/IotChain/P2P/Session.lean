import IotChain.P2P.Hops
import IotChain.P2P.Sending
import IotChain.P2P.Streams

/-!
# The life of a peer

A peer is kept alive by shared pointers: those that its owners hold, and the one that each
closure on its strand and each handler of an outstanding operation has captured.  When the
last of them is gone its destructor calls `on_session_end_`.  The model has both sides of a
peer on one strand, in any interleaving with its owners.
-/

namespace IotChain.P2P

open IotChain.Transition

/-! ## Writes that have failed -/

namespace Sender

/-- No write is outstanding, but `sending_` is still set. -/
def Broken (peer : Sender) : Prop := peer.sending = true ∧ peer.outstanding = []

theorem Broken.of_doWrite {peer : Sender} (broken : peer.doWrite.Broken) : peer.Broken := by
  cases sending : peer.sending with
  | true => rwa [doWrite_of_sending sending] at broken
  | false =>
      cases queued : peer.protocol.sendQueue with
      | nil => rwa [doWrite_of_empty queued] at broken
      | cons msg queue =>
          rw [doWrite_cons sending queued] at broken
          exact absurd broken.2 (by simp [write])

theorem Broken.of_send {peer : Sender} {msg : Message} (broken : (peer.send msg).Broken) :
    peer.Broken := by
  by_cases big : maxPktSize < msg.size
  · rwa [send_of_gt big] at broken
  · rw [send_of_le (Nat.le_of_not_lt big)] at broken
    have before := broken.of_doWrite
    exact before

/-- The handler of a successful write leaves a write outstanding or nothing to write. -/
theorem not_broken_written (peer : Sender) : ¬ peer.written.Broken := by
  rw [written_eq_doWrite]
  intro broken
  cases broken.of_doWrite.1

/-- The write that breaks a sender is one that has failed. -/
theorem Broken.of_react {peer next : Sender} {event : SendEvent} (broken : next.Broken)
    (step : react peer event = some next) : peer.Broken ∨ ∃ write, event = .failed write := by
  cases event with
  | send msg =>
      cases step
      exact .inl broken.of_send
  | written write =>
      rcases Option.ite_none_right_eq_some.mp step with ⟨_, same⟩
      cases same
      exact absurd broken (not_broken_written _)
  | failed write => exact .inr ⟨write, rfl⟩

end Sender

/-! ## Peers -/

/-- A closure that was dispatched to the strand of a peer. -/
inductive Closure
  | doRead
  | send (msg : Message)
  deriving DecidableEq, Repr

/-- A peer, with what keeps it alive. -/
structure Session where
  /-- The reading side, once `do_read` has been called. -/
  reading : Option Connection
  sender : Sender
  /-- The closures that the strand has yet to run. -/
  posted : List Closure
  /-- `start` has been called. -/
  started : Bool
  /-- The shared pointers that the owners of the peer hold. -/
  holders : Nat
  /-- The calls of `on_session_end_`. -/
  ended : Nat
  deriving DecidableEq, Repr

/-- What happens to a peer.  The strand runs a closure that is dispatched to it at once or
later. -/
inductive SessionEvent
  | start (inline : Bool)
  | send (msg : Message) (inline : Bool)
  /-- The strand runs the first of its closures. -/
  | run
  | read (event : ReadEvent)
  | written (write : Nat)
  | failed (write : Nat)
  /-- A shared pointer is copied, or made by `weak_ptr::lock`. -/
  | acquired
  | released
  deriving DecidableEq, Repr

/-- The message that an effect has the peer send. -/
def Effect.response : Effect → Option Message
  | .sent response => some response
  | .handled _ _ => none
  | .unhandled _ => none
  | .refused _ => none
  | .broadcast _ => none

namespace Session

/-- `std::make_shared`. -/
def made : Session := ⟨none, Sender.fresh, [], false, 1, 0⟩

/-- The handler of an outstanding read, or the one that runs. -/
def readers (session : Session) : Nat :=
  match session.reading with
  | none => 0
  | some conn => if conn.task = .done then 0 else 1

/-- The shared pointers to the peer. -/
def references (session : Session) : Nat :=
  session.holders + session.posted.length + session.readers +
    session.sender.outstanding.length

/-- The destructor, if the last shared pointer is gone. -/
def settle (session : Session) : Session :=
  if session.references = 0 then { session with ended := session.ended + 1 } else session

/-- What a closure does on its strand. -/
def perform (session : Session) : Closure → Session
  | .doRead => { session with reading := some Connection.fresh }
  | .send msg => { session with sender := session.sender.send msg }

/-- `strand::dispatch`: the closure is run at once, or it is posted. -/
def dispatch (session : Session) (closure : Closure) (inline : Bool) : Session :=
  if inline then session.perform closure
  else { session with posted := session.posted ++ [closure] }

/-- Owners call a peer through a shared pointer, and call `start` once. -/
def react (memory : List Effect → List UInt8) (process : Processing) :
    Reaction Session SessionEvent
  | session, .start inline =>
      if 0 < session.holders ∧ session.started = false then
        some ({ session with started := true }.dispatch .doRead inline)
      else
        none
  | session, .send msg inline =>
      if 0 < session.holders then some (session.dispatch (.send msg) inline) else none
  | session, .run =>
      match session.posted with
      | [] => none
      | closure :: posted => some ({ session with posted := posted }.perform closure).settle
  | session, .read event =>
      match session.reading with
      | none => none
      | some conn =>
          match Connection.react memory process conn event with
          | none => none
          | some next =>
              -- a pong is sent on the strand, where it is dispatched at once
              let responses := (next.log.drop conn.log.length).filterMap Effect.response
              some { session with
                reading := some next
                sender := responses.foldl Sender.send session.sender }.settle
  | session, .written write =>
      match session.sender.react (.written write) with
      | none => none
      | some sender => some { session with sender := sender }.settle
  | session, .failed write =>
      match session.sender.react (.failed write) with
      | none => none
      | some sender => some { session with sender := sender }.settle
  | session, .acquired =>
      if 0 < session.references then
        some { session with holders := session.holders + 1 }
      else
        none
  | session, .released =>
      if 0 < session.holders then
        some { session with holders := session.holders - 1 }.settle
      else
        none

/-! ## What each event does -/

variable {memory : List Effect → List UInt8} {process : Processing}

theorem settle_sender (session : Session) : session.settle.sender = session.sender := by
  rw [settle]
  split <;> rfl

theorem settle_reading (session : Session) : session.settle.reading = session.reading := by
  rw [settle]
  split <;> rfl

theorem settle_posted (session : Session) : session.settle.posted = session.posted := by
  rw [settle]
  split <;> rfl

theorem settle_started (session : Session) : session.settle.started = session.started := by
  rw [settle]
  split <;> rfl

theorem settle_references (session : Session) :
    session.settle.references = session.references := by
  rw [settle]
  split <;> rfl

/-- The destructor is called if no shared pointer is left. -/
theorem settle_ended {session : Session} (alive : session.ended = 0) :
    session.settle.ended = if session.settle.references = 0 then 1 else 0 := by
  rw [settle_references, settle]
  split
  · rw [alive]
  · exact alive

theorem react_run {session next : Session}
    (step : react memory process session .run = some next) :
    ∃ closure posted, session.posted = closure :: posted ∧
      next = ({ session with posted := posted }.perform closure).settle := by
  rw [react] at step
  split at step
  · cases step
  · rename_i closure posted postedEq
    exact ⟨closure, posted, postedEq, (Option.some.inj step).symm⟩

/-- A read moves the connection on, and what the connection asks for is sent. -/
theorem react_read {session next : Session} {event : ReadEvent}
    (step : react memory process session (.read event) = some next) :
    ∃ conn further, session.reading = some conn ∧
      Connection.react memory process conn event = some further ∧
      next = { session with
        reading := some further
        sender := ((further.log.drop conn.log.length).filterMap Effect.response).foldl
          Sender.send session.sender }.settle := by
  rw [react] at step
  split at step
  · cases step
  · rename_i conn reading
    split at step
    · cases step
    · rename_i further reacted
      exact ⟨conn, further, reading, reacted, (Option.some.inj step).symm⟩

theorem react_written {session next : Session} {write : Nat}
    (step : react memory process session (.written write) = some next) :
    ∃ sender, session.sender.react (.written write) = some sender ∧
      next = { session with sender := sender }.settle := by
  rw [react] at step
  split at step
  · cases step
  · rename_i sender sent
    exact ⟨sender, sent, (Option.some.inj step).symm⟩

theorem react_failed {session next : Session} {write : Nat}
    (step : react memory process session (.failed write) = some next) :
    ∃ sender, session.sender.react (.failed write) = some sender ∧
      next = { session with sender := sender }.settle := by
  rw [react] at step
  split at step
  · cases step
  · rename_i sender sent
    exact ⟨sender, sent, (Option.some.inj step).symm⟩

/-- What happens to a peer needs a shared pointer to it. -/
theorem references_pos {session next : Session} {event : SessionEvent}
    (step : react memory process session event = some next) : 0 < session.references := by
  have held (holders : 0 < session.holders) : 0 < session.references := by
    rw [references]
    omega
  have writes {write : Nat} (member : write ∈ session.sender.outstanding) :
      0 < session.references := by
    have outstanding := List.length_pos_of_mem member
    rw [references]
    omega
  cases event with
  | start inline => exact held (Option.ite_none_right_eq_some.mp step).1.1
  | send msg inline => exact held (Option.ite_none_right_eq_some.mp step).1
  | run =>
      rcases react_run step with ⟨closure, closures, posted, -⟩
      rw [references, posted, List.length_cons]
      omega
  | read event =>
      rcases react_read step with ⟨conn, further, reading, reacted, -⟩
      have reads : conn.task ≠ .done := by
        intro done
        rcases conn with ⟨protocol, log, task⟩
        subst done
        cases event <;> cases reacted
      rw [references, readers, reading]
      simp only [if_neg reads]
      omega
  | written write =>
      rcases react_written step with ⟨sender, sent, -⟩
      exact writes (Option.ite_none_right_eq_some.mp sent).1
  | failed write =>
      rcases react_failed step with ⟨sender, sent, -⟩
      exact writes (Option.ite_none_right_eq_some.mp sent).1
  | acquired => exact (Option.ite_none_right_eq_some.mp step).1
  | released => exact held (Option.ite_none_right_eq_some.mp step).1

theorem perform_ended (session : Session) (closure : Closure) :
    (session.perform closure).ended = session.ended := by
  cases closure <;> rfl

theorem dispatch_ended (session : Session) (closure : Closure) (inline : Bool) :
    (session.dispatch closure inline).ended = session.ended := by
  rw [dispatch]
  split
  · exact session.perform_ended closure
  · rfl

theorem dispatch_holders (session : Session) (closure : Closure) (inline : Bool) :
    (session.dispatch closure inline).holders = session.holders := by
  rw [dispatch]
  split
  · cases closure <;> rfl
  · rfl

/-- The sending side takes part in an event through such events of its own. -/
def Sends (session : Session) (event : SessionEvent) (next : Session) : Prop :=
  ∃ sends : List SendEvent, replay Sender.react session.sender sends = some next.sender ∧
    ∀ write, .failed write ∈ sends → event = .failed write

theorem sends_perform (session : Session) (closure : Closure) (event : SessionEvent) :
    session.Sends event (session.perform closure) := by
  cases closure with
  | doRead => exact ⟨[], rfl, by simp⟩
  | send msg => exact ⟨[.send msg], rfl, by simp⟩

theorem sends_dispatch (session : Session) (closure : Closure) (inline : Bool)
    (event : SessionEvent) : session.Sends event (session.dispatch closure inline) := by
  rw [dispatch]
  split
  · exact session.sends_perform closure event
  · exact ⟨[], rfl, by simp⟩

theorem replay_sends (peer : Sender) (msgs : List Message) :
    replay Sender.react peer (msgs.map .send) = some (msgs.foldl Sender.send peer) := by
  induction msgs generalizing peer with
  | nil => rfl
  | cons msg msgs ih =>
      rw [List.map_cons, replay_cons]
      exact ⟨peer.send msg, rfl, ih _⟩

theorem sends_of_react {session next : Session} {event : SessionEvent}
    (step : react memory process session event = some next) : session.Sends event next := by
  cases event with
  | start inline =>
      rcases Option.ite_none_right_eq_some.mp step with ⟨_, same⟩
      cases same
      exact sends_dispatch { session with started := true } .doRead inline _
  | send msg inline =>
      rcases Option.ite_none_right_eq_some.mp step with ⟨_, same⟩
      cases same
      exact session.sends_dispatch _ _ _
  | run =>
      rcases react_run step with ⟨closure, posted, -, rfl⟩
      rcases sends_perform { session with posted := posted } closure .run with
        ⟨sends, replayed, failures⟩
      exact ⟨sends, by rwa [settle_sender], failures⟩
  | read event =>
      rcases react_read step with ⟨conn, further, -, -, rfl⟩
      refine ⟨((further.log.drop conn.log.length).filterMap Effect.response).map .send, ?_, ?_⟩
      · rw [settle_sender]
        exact replay_sends _ _
      · simp
  | written write =>
      rcases react_written step with ⟨sender, sent, rfl⟩
      refine ⟨[.written write], ?_, by simp⟩
      rw [settle_sender]
      exact replay_cons.mpr ⟨sender, sent, rfl⟩
  | failed write =>
      rcases react_failed step with ⟨sender, sent, rfl⟩
      refine ⟨[.failed write], ?_, by simp⟩
      rw [settle_sender]
      exact replay_cons.mpr ⟨sender, sent, rfl⟩
  | acquired =>
      rcases Option.ite_none_right_eq_some.mp step with ⟨_, same⟩
      cases same
      exact ⟨[], rfl, by simp⟩
  | released =>
      rcases Option.ite_none_right_eq_some.mp step with ⟨_, same⟩
      cases same
      exact ⟨[], by rw [settle_sender]; rfl, by simp⟩

theorem broken_of_replay {peer last : Sender} {sends : List SendEvent}
    (run : replay Sender.react peer sends = some last) (broken : last.Broken) :
    peer.Broken ∨ ∃ write, .failed write ∈ sends := by
  induction sends generalizing peer with
  | nil =>
      cases run
      exact .inl broken
  | cons event sends ih =>
      rcases replay_cons.mp run with ⟨next, step, rest⟩
      rcases ih rest with before | ⟨write, later⟩
      · rcases before.of_react step with before | ⟨write, rfl⟩
        · exact .inl before
        · exact .inr ⟨write, List.mem_cons_self⟩
      · exact .inr ⟨write, List.mem_cons_of_mem event later⟩

/-! ## Runs -/

/-- The destructor is called once, when no shared pointer is left. -/
def EndsOnce (session : Session) : Prop :=
  session.ended = if session.references = 0 then 1 else 0

theorem endsOnce_of_holders {session : Session} (alive : session.ended = 0)
    (holders : 0 < session.holders) : session.EndsOnce := by
  have references : session.references ≠ 0 := by
    rw [Session.references]
    omega
  rw [EndsOnce, if_neg references, alive]

theorem EndsOnce.react {session next : Session} {event : SessionEvent}
    (endsOnce : session.EndsOnce)
    (step : Session.react memory process session event = some next) : next.EndsOnce := by
  have alive : session.ended = 0 := by
    have references := Nat.ne_of_gt (references_pos step)
    rwa [EndsOnce, if_neg references] at endsOnce
  cases event with
  | start inline =>
      rcases Option.ite_none_right_eq_some.mp step with ⟨held, same⟩
      cases same
      apply endsOnce_of_holders
      · rwa [dispatch_ended]
      · rw [dispatch_holders]
        exact held.1
  | send msg inline =>
      rcases Option.ite_none_right_eq_some.mp step with ⟨held, same⟩
      cases same
      apply endsOnce_of_holders
      · rwa [dispatch_ended]
      · rwa [dispatch_holders]
  | run =>
      rcases react_run step with ⟨closure, posted, -, rfl⟩
      exact settle_ended (by rwa [perform_ended])
  | read event =>
      rcases react_read step with ⟨conn, further, -, -, rfl⟩
      exact settle_ended alive
  | written write =>
      rcases react_written step with ⟨sender, -, rfl⟩
      exact settle_ended alive
  | failed write =>
      rcases react_failed step with ⟨sender, -, rfl⟩
      exact settle_ended alive
  | acquired =>
      rcases Option.ite_none_right_eq_some.mp step with ⟨_, same⟩
      cases same
      exact endsOnce_of_holders alive (Nat.succ_pos _)
  | released =>
      rcases Option.ite_none_right_eq_some.mp step with ⟨_, same⟩
      cases same
      exact settle_ended alive

/-- What always holds: the sending side is in order, and only a failure can break it. -/
structure Inv (events : List SessionEvent) (session : Session) : Prop where
  sender : session.sender.Accounts ∧ session.sender.Flight
  broken : session.sender.Broken → ∃ write, .failed write ∈ events
  endsOnce : session.EndsOnce

theorem inv_made : made.Inv [] := by
  refine ⟨Sender.fresh_keeps, ?_, rfl⟩
  intro broken
  cases broken.1

theorem Inv.react {events : List SessionEvent} {session next : Session}
    {event : SessionEvent} (inv : session.Inv events)
    (step : Session.react memory process session event = some next) :
    next.Inv (events ++ [event]) := by
  rcases sends_of_react step with ⟨sends, replayed, failures⟩
  refine ⟨replay_invariant _ Sender.react_keeps inv.sender replayed, ?_,
    inv.endsOnce.react step⟩
  intro broken
  rcases broken_of_replay replayed broken with before | ⟨write, failed⟩
  · rcases inv.broken before with ⟨write, member⟩
    exact ⟨write, List.mem_append_left _ member⟩
  · rw [failures write failed]
    exact ⟨write, List.mem_append_right _ List.mem_cons_self⟩

theorem inv_of_replay {events : List SessionEvent} {session : Session}
    (run : replay (Session.react memory process) made events = some session) :
    session.Inv events :=
  replay_history Inv Inv.react inv_made run

/-- A sender without a write outstanding has handed over all that was accepted, unless a
write has failed. -/
theorem Inv.handed {events : List SessionEvent} {session : Session}
    (inv : session.Inv events) (none : session.sender.outstanding = []) :
    session.sender.handed = session.sender.accepted.map Protocol.wireBytes ∨
      ∃ write, .failed write ∈ events := by
  rcases inv.sender with ⟨⟨sent, waiting, accepted, handed, queue⟩, flight⟩
  cases flight with
  | idle sending _ empty =>
      left
      have noneWaiting : waiting = [] := List.map_eq_nil_iff.mp (queue.symm.trans empty)
      rw [handed, accepted, noneWaiting, List.append_nil]
  | writing sending latest =>
      rw [latest] at none
      cases none
  | failed sending _ => exact .inr (inv.broken ⟨sending, none⟩)

/-- In every interleaving of owners, reads, writes and closures, the destructor of a peer is
called once, when no shared pointer to it is left, and nothing happens to the peer after it.
By then all messages that were accepted have been handed over, unless a write has failed. -/
theorem ends_once {events : List SessionEvent} {session : Session}
    (run : replay (react memory process) made events = some session) :
    (session.ended = if session.references = 0 then 1 else 0) ∧
    (0 < session.ended → (∀ event, react memory process session event = none) ∧
      (session.sender.handed = session.sender.accepted.map Protocol.wireBytes ∨
        ∃ write, .failed write ∈ events)) := by
  have inv := inv_of_replay run
  refine ⟨inv.endsOnce, ?_⟩
  intro destroyed
  have gone : session.references = 0 := by
    by_contra alive
    have never : session.ended = 0 := by rw [inv.endsOnce, if_neg alive]
    exact absurd destroyed (by rw [never]; exact Nat.lt_irrefl 0)
  constructor
  · intro event
    cases step : react memory process session event with
    | none => rfl
    | some next => exact absurd gone (Nat.ne_of_gt (references_pos step))
  · apply inv.handed
    rw [references] at gone
    exact List.length_eq_zero_iff.mp (by omega)

/-- A peer answers a ping, its owner lets go of it, and the other end closes. -/
theorem ends_once_ping :
    ∃ session : Session, session.ended = 1 ∧
      ∀ event, react (fun _ => []) (fun _ _ => none) session event = none := by
  have happened : ∃ session, replay (react (fun _ => []) fun _ _ => none) made
      [.start true, .read (.completed [0, 0, 0, 0, 1, 1]), .read .round, .read .round,
        .released, .written 1, .read .failed] = some session ∧ session.ended = 1 :=
    ⟨_, rfl, rfl⟩
  obtain ⟨session, run, ended⟩ := happened
  exact ⟨session, ended, ((ends_once run).2 (by rw [ended]; decide)).1⟩

end Session

end IotChain.P2P
