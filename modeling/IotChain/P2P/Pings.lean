import IotChain.P2P.Dispatching
import IotChain.P2P.Session

/-!
# Pings are answered

A connection has its peer send a pong for each ping that it passes on, in the middle of a
read and beside whatever the owners of the peer send.  So the pongs among the messages that a
peer sends are one for each ping among the frames that it has received.
-/

namespace IotChain.P2P

open IotChain.Transition

/-- `message response(MSG_TYPE_PONG, 1)`. -/
abbrev pong : Message := Message.create msgTypePong 1 0

/-- The frame announces a ping. -/
def CutFrame.isPing (frame : CutFrame) : Bool := frame.header.type = msgTypePing

/-- The message is a pong. -/
def Message.isPong (msg : Message) : Bool := msg.header.type = msgTypePong

/-- The messages that a log has had the peer send. -/
def responses (log : List Effect) : List Message := log.filterMap Effect.response

/-! ## Responses in the log -/

theorem responses_append (first second : List Effect) :
    responses (first ++ second) = responses first ++ responses second :=
  List.filterMap_append

theorem responses_relay (msg : Message) : responses (relay msg) = [] := by
  rw [relay]
  split <;> rfl

/-- What is added to the log for a message contains a pong if it is a ping. -/
theorem responses_onMessage (process : Processing) (msg : Message) (log : List Effect) :
    ∃ added, (onMessage process msg log).2 = log ++ added ∧
      responses added = if msg.header.type = msgTypePing then [pong] else [] := by
  rw [onMessage]
  by_cases ping : msg.header.type = msgTypePing
  · rw [if_pos ping, if_pos ping]
    refine ⟨_, rfl, ?_⟩
    change pong :: responses (relay msg) = _
    rw [responses_relay]
  · rw [if_neg ping, if_neg ping]
    by_cases isPong : msg.header.type = msgTypePong
    · rw [if_pos isPong]
      exact ⟨_, rfl, responses_relay msg⟩
    · rw [if_neg isPong]
      cases process log msg with
      | none => exact ⟨_, rfl, rfl⟩
      | some answer =>
          cases answer with
          | goOn => exact ⟨_, rfl, responses_relay msg⟩
          | stop => exact ⟨_, rfl, rfl⟩
          | throws => exact ⟨_, rfl, rfl⟩

section Connections

variable {memory : List Effect → List UInt8} {process : Processing}

/-- The handler is given the message of the frame. -/
theorem responses_of_call {frame : CutFrame} {behind : List UInt8} {call : Call}
    (called : frame.call behind = some call) (log : List Effect) :
    responses (onReceive process call log).2 =
      responses log ++ List.replicate (if frame.isPing then 1 else 0) pong := by
  obtain ⟨msg, _, rfl, headerEq⟩ := CutFrame.call_eq_some called
  obtain ⟨added, logEq, responsesEq⟩ := responses_onMessage process msg.hop log
  change responses (onMessage process msg.hop log).2 = _
  rw [logEq, responses_append, responsesEq, headerEq, CutFrame.isPing]
  by_cases ping : frame.header.type = msgTypePing
  · simp [ping]
  · simp [ping]

/-- A pong is sent for each ping that is passed on. -/
theorem responses_of_passes {frames : List CutFrame} {start last : List Effect}
    (passes : Protocol.Passes ⟨memory, onReceive process⟩ frames start last) :
    responses last =
      responses start ++ List.replicate (frames.countP CutFrame.isPing) pong := by
  induction frames generalizing start with
  | nil =>
      obtain rfl : start = last := passes
      exact (List.append_nil _).symm
  | cons frame frames ih =>
      rcases passes with ⟨call, next, called, handled, others⟩
      have nextEq : (onReceive process call start).2 = next := congrArg Prod.snd handled
      rw [ih others, ← nextEq, responses_of_call called, List.append_assoc,
        List.replicate_append_replicate, List.countP_cons, Nat.add_comm]

/-- A frame after which the receiver does not go on is not a ping. -/
theorem isPing_of_stops {frame : CutFrame} {behind : List UInt8} {call : Call}
    {answer : Answer} {log last : List Effect} (called : frame.call behind = some call)
    (handled : onReceive process call log = (answer, last)) (stops : answer ≠ .goOn) :
    frame.isPing = false := by
  obtain ⟨msg, _, rfl, headerEq⟩ := CutFrame.call_eq_some called
  apply decide_eq_false
  intro ping
  have isPing : msg.hop.header.type = msgTypePing := by rw [headerEq, ping]
  change onMessage process msg.hop log = _ at handled
  rw [onMessage, if_pos isPing] at handled
  exact stops (congrArg Prod.fst handled).symm

/-- In every run of a connection the responses are one pong for each ping. -/
theorem responses_of_traced {input : List UInt8} {conn : Connection}
    (traced : conn.Traced memory process input) :
    ∃ (frames : List CutFrame) (rest : List UInt8),
      input = frames.flatMap CutFrame.bytes ++ rest ∧
      responses conn.log = List.replicate (frames.countP CutFrame.isPing) pong ∧
      (conn.task = .waiting → CutFrame.Pending rest) := by
  cases traced with
  | reading reads inputEq track =>
      rcases track with ⟨⟨frames, seenEq, passes⟩, stage⟩
      refine ⟨frames, conn.protocol.receiveBuffer ++ conn.unread, ?_,
        responses_of_passes passes, ?_⟩
      · rw [inputEq, seenEq, List.append_assoc]
      · intro waits
        rw [Connection.unread, waits, List.append_nil]
        exact stage.pending
  | ended done halted =>
      have notWaiting : conn.task ≠ .waiting := by
        rw [done]
        decide
      cases halted with
      | silent inputEq passes =>
          exact ⟨_, _, inputEq, responses_of_passes passes, fun waits => absurd waits notWaiting⟩
      | @refused frames header rest log inputEq passes big told =>
          refine ⟨_, _, inputEq, ?_, fun waits => absurd waits notWaiting⟩
          rw [← told]
          change responses (log ++ [.refused .messageTooBig]) = _
          rw [responses_append, responses_of_passes passes]
          exact List.append_nil _
      | @stopped frames frame rest log call answer inputEq passes called handled stops =>
          refine ⟨_, _, inputEq, ?_, fun waits => absurd waits notWaiting⟩
          have notPing := isPing_of_stops called handled stops
          have lastEq : (onReceive process call log).2 = conn.log := congrArg Prod.snd handled
          rw [← lastEq, responses_of_call called, notPing, responses_of_passes passes]
          exact List.append_nil _

/-- A step adds a pong or none. -/
theorem responses_of_step {conn next : Connection} {event : ReadEvent}
    (step : Connection.react memory process conn event = some next) :
    ∃ added, next.log = conn.log ++ added ∧
      (responses added = [pong] ∨ responses added = []) := by
  have logEq := log_of_step step
  cases arrives : conn.arriving memory with
  | none =>
      rw [arrives] at logEq
      rcases logEq with same | refused
      · exact ⟨[], by rw [same, List.append_nil], .inr rfl⟩
      · exact ⟨_, refused, .inr rfl⟩
  | some frame =>
      rw [arrives] at logEq
      obtain ⟨added, addedEq, responsesEq⟩ := responses_onMessage process frame.hop conn.log
      refine ⟨added, logEq.trans addedEq, ?_⟩
      rw [responsesEq]
      split
      · exact .inl rfl
      · exact .inr rfl

end Connections

/-! ## Accepted messages -/

namespace Sender

/-- The pongs that the peer has been given to send. -/
def pongs (peer : Sender) : List Message := peer.accepted.filter Message.isPong

theorem pongs_send_other {msg : Message} (other : msg.isPong = false) (peer : Sender) :
    (peer.send msg).pongs = peer.pongs := by
  by_cases big : maxPktSize < msg.size
  · rw [send_of_gt big]
  · rw [pongs, accepted_send (Nat.le_of_not_lt big), List.filter_append,
      List.filter_singleton, other]
    exact List.append_nil _

theorem pongs_send_pong (peer : Sender) : (peer.send pong).pongs = peer.pongs ++ [pong] := by
  have small : pong.size ≤ maxPktSize := Nat.zero_le _
  rw [pongs, accepted_send small, List.filter_append]
  rfl

theorem pongs_of_react {peer next : Sender} {event : SendEvent}
    (notSend : ∀ msg, event ≠ .send msg) (step : react peer event = some next) :
    next.pongs = peer.pongs :=
  congrArg (List.filter Message.isPong) (accepted_of_react notSend step)

end Sender

/-! ## Sessions -/

/-- What an event means for the reading side. -/
def SessionEvent.reads : SessionEvent → Option ReadEvent
  | .read event => some event
  | .start _ => none
  | .send _ _ => none
  | .run => none
  | .written _ => none
  | .failed _ => none
  | .acquired => none
  | .released => none

namespace Session

variable {memory : List Effect → List UInt8} {process : Processing}

/-- The peer has been given one pong for each that its connection has asked for. -/
inductive Answers (memory : List Effect → List UInt8) (process : Processing)
    (events : List SessionEvent) (session : Session) : Prop
  | silent (reading : session.reading = none) (nothing : events.filterMap SessionEvent.reads = [])
      (pongs : session.sender.pongs = [])
  | reads {conn : Connection} (reading : session.reading = some conn)
      (run : replay (Connection.react memory process) Connection.fresh
        (events.filterMap SessionEvent.reads) = some conn)
      (pongs : session.sender.pongs = responses conn.log)

/-- No owner has a pong sent, and `do_read` is called for the first time at most once. -/
structure Owned (session : Session) : Prop where
  others : ∀ msg, .send msg ∈ session.posted → msg.isPong = false
  once : session.posted.count .doRead + (if session.reading.isSome then 1 else 0) =
    if session.started then 1 else 0

theorem Answers.unread {events : List SessionEvent} {session next : Session}
    {event : SessionEvent} (answers : session.Answers memory process events)
    (notRead : event.reads = none) (reading : next.reading = session.reading)
    (pongs : next.sender.pongs = session.sender.pongs) :
    next.Answers memory process (events ++ [event]) := by
  have same : (events ++ [event]).filterMap SessionEvent.reads =
      events.filterMap SessionEvent.reads := by
    rw [List.filterMap_append]
    simp [notRead]
  cases answers with
  | silent none nothing empty =>
      exact .silent (reading.trans none) (same.trans nothing) (pongs.trans empty)
  | reads some run equal =>
      exact .reads (reading.trans some) (by rwa [same]) (pongs.trans equal)

theorem Answers.perform {events : List SessionEvent} {session : Session} {event : SessionEvent}
    (answers : session.Answers memory process events) (closure : Closure)
    (other : ∀ msg, closure = .send msg → msg.isPong = false)
    (first : closure = .doRead → session.reading = none) (notRead : event.reads = none) :
    (session.perform closure).Answers memory process (events ++ [event]) := by
  cases closure with
  | send msg => exact answers.unread notRead rfl (Sender.pongs_send_other (other msg rfl) _)
  | doRead =>
      cases answers with
      | silent none nothing empty =>
          have same : (events ++ [event]).filterMap SessionEvent.reads = [] := by
            rw [List.filterMap_append, nothing]
            simp [notRead]
          exact .reads rfl (by rw [same]; rfl) empty
      | reads some run equal =>
          rw [first rfl] at some
          cases some

/-- A closure is run at once, or it waits. -/
theorem Answers.dispatch {events : List SessionEvent} {session : Session} {event : SessionEvent}
    (answers : session.Answers memory process events) (closure : Closure) (inline : Bool)
    (other : ∀ msg, closure = .send msg → msg.isPong = false)
    (first : closure = .doRead → session.reading = none) (notRead : event.reads = none) :
    (session.dispatch closure inline).Answers memory process (events ++ [event]) := by
  rw [Session.dispatch]
  split
  · exact answers.perform closure other first notRead
  · exact answers.unread notRead rfl rfl

/-- Only the connection and the pongs matter. -/
theorem Answers.congr {events : List SessionEvent} {session next : Session}
    (answers : session.Answers memory process events)
    (reading : next.reading = session.reading)
    (pongs : next.sender.pongs = session.sender.pongs) :
    next.Answers memory process events := by
  cases answers with
  | silent none nothing empty => exact .silent (reading.trans none) nothing (pongs.trans empty)
  | reads some run equal => exact .reads (reading.trans some) run (pongs.trans equal)

theorem Answers.settle {events : List SessionEvent} {session : Session}
    (answers : session.Answers memory process events) :
    session.settle.Answers memory process events :=
  answers.congr session.settle_reading (congrArg Sender.pongs session.settle_sender)

/-- A step of the connection is one more read, and the sender is given the pong that the
connection asks for, if it asks for one. -/
theorem Answers.read {events : List SessionEvent} {session : Session} {conn further : Connection}
    {event : ReadEvent} (answers : session.Answers memory process events)
    (reading : session.reading = some conn)
    (reacted : Connection.react memory process conn event = some further) :
    Answers memory process (events ++ [SessionEvent.read event])
      { session with
        reading := some further
        sender := ((further.log.drop conn.log.length).filterMap Effect.response).foldl
          Sender.send session.sender } := by
  cases answers with
  | silent none nothing empty =>
      rw [reading] at none
      cases none
  | @reads other some run equal =>
      obtain rfl : other = conn := Option.some.inj (some.symm.trans reading)
      refine .reads rfl ?_ ?_
      · rw [List.filterMap_append]
        exact replay_concat.mpr ⟨_, run, reacted⟩
      · obtain ⟨added, logEq, responsesEq⟩ := responses_of_step reacted
        have fresh : further.log.drop other.log.length = added := by
          rw [logEq, List.drop_left]
        rw [logEq, responses_append, ← equal, ← logEq, fresh]
        change ((responses added).foldl Sender.send session.sender).pongs = _
        rcases responsesEq with one | none
        · rw [one]
          exact Sender.pongs_send_pong _
        · rw [none]
          exact (List.append_nil _).symm

theorem Owned.settle {session : Session} (owned : session.Owned) : session.settle.Owned where
  others := by
    rw [settle_posted]
    exact owned.others
  once := by
    rw [settle_posted, settle_reading, settle_started]
    exact owned.once

/-- A peer whose first read is still to come has not been read. -/
theorem Owned.reading_eq_none {session : Session} (owned : session.Owned)
    (toCome : session.started = false ∨ Closure.doRead ∈ session.posted) :
    session.reading = none := by
  have once := owned.once
  cases reading : session.reading with
  | none => rfl
  | some conn =>
      rw [reading, Option.isSome_some, if_pos rfl] at once
      rcases toCome with notStarted | posted
      · rw [notStarted] at once
        simp at once
      · have counted := List.count_pos_iff.mpr posted
        split at once <;> omega

/-- The strand runs a closure that was posted. -/
theorem Owned.perform {session : Session} {closure : Closure} {posted : List Closure}
    (owned : session.Owned) (postedEq : session.posted = closure :: posted) :
    ({ session with posted := posted }.perform closure).Owned := by
  have once := owned.once
  have others := owned.others
  rw [postedEq] at once others
  constructor
  · intro msg member
    apply others msg
    cases closure <;> exact List.mem_cons_of_mem _ member
  · cases closure with
    | send msg =>
        rw [List.count_cons_of_ne (by simp)] at once
        exact once
    | doRead =>
        have unread := owned.reading_eq_none (.inr (by rw [postedEq]; exact List.mem_cons_self))
        rw [List.count_cons_self, unread] at once
        exact once

/-- A closure is run at once, or posted behind the others. -/
theorem Owned.dispatch_send {session : Session} {msg : Message} (owned : session.Owned)
    (other : msg.isPong = false) (inline : Bool) :
    (session.dispatch (.send msg) inline).Owned := by
  rw [dispatch]
  split
  · exact ⟨owned.others, owned.once⟩
  · constructor
    · intro posted member
      rcases List.mem_append.mp member with before | last
      · exact owned.others posted before
      · cases List.mem_singleton.mp last
        exact other
    · simpa using owned.once

theorem Owned.dispatch_doRead {session : Session} (owned : session.Owned)
    (notStarted : session.started = false) (inline : Bool) :
    ({ session with started := true }.dispatch .doRead inline).Owned := by
  have unread := owned.reading_eq_none (.inl notStarted)
  have once := owned.once
  rw [unread, notStarted] at once
  rw [dispatch]
  split
  · exact ⟨owned.others, by simpa [Session.perform] using once⟩
  · constructor
    · intro msg member
      rcases List.mem_append.mp member with before | last
      · exact owned.others msg before
      · cases List.mem_singleton.mp last
    · simpa [unread] using once

/-- What an event leaves on the strand was there, or the event has posted it. -/
theorem Owned.react {session next : Session} {event : SessionEvent} (owned : session.Owned)
    (own : ∀ msg inline, event = .send msg inline → msg.isPong = false)
    (step : Session.react memory process session event = some next) : next.Owned := by
  cases event with
  | start inline =>
      rcases Option.ite_none_right_eq_some.mp step with ⟨⟨_, notStarted⟩, same⟩
      cases same
      exact owned.dispatch_doRead notStarted inline
  | send msg inline =>
      rcases Option.ite_none_right_eq_some.mp step with ⟨_, same⟩
      cases same
      exact owned.dispatch_send (own msg inline rfl) inline
  | run =>
      rcases react_run step with ⟨closure, posted, postedEq, rfl⟩
      exact (owned.perform postedEq).settle
  | read event =>
      rcases react_read step with ⟨conn, further, reading, -, rfl⟩
      have once := owned.once
      rw [reading] at once
      exact Owned.settle ⟨owned.others, once⟩
  | written write =>
      rcases react_written step with ⟨sender, -, rfl⟩
      exact Owned.settle ⟨owned.others, owned.once⟩
  | failed write =>
      rcases react_failed step with ⟨sender, -, rfl⟩
      exact Owned.settle ⟨owned.others, owned.once⟩
  | acquired =>
      rcases Option.ite_none_right_eq_some.mp step with ⟨_, same⟩
      cases same
      exact ⟨owned.others, owned.once⟩
  | released =>
      rcases Option.ite_none_right_eq_some.mp step with ⟨_, same⟩
      cases same
      exact Owned.settle ⟨owned.others, owned.once⟩

/-- The strand runs what has been posted, so it is no pong of an owner and no second
`do_read`. -/
theorem Answers.run {events : List SessionEvent} {session : Session} {closure : Closure}
    {posted : List Closure} (owned : session.Owned)
    (answers : session.Answers memory process events)
    (postedEq : session.posted = closure :: posted) :
    ({ session with posted := posted }.perform closure).Answers memory process
      (events ++ [SessionEvent.run]) := by
  have head : closure ∈ session.posted := by
    rw [postedEq]
    exact List.mem_cons_self
  have left : { session with posted := posted }.Answers memory process events :=
    answers.congr rfl rfl
  apply left.perform closure _ _ rfl
  · rintro msg rfl
    exact owned.others msg head
  · rintro rfl
    exact owned.reading_eq_none (.inr head)

/-- Each event keeps the answers, if it does not have a pong sent. -/
theorem Answers.react {events : List SessionEvent} {session next : Session}
    {event : SessionEvent} (owned : session.Owned)
    (answers : session.Answers memory process events)
    (own : ∀ msg inline, event = .send msg inline → msg.isPong = false)
    (step : Session.react memory process session event = some next) :
    next.Answers memory process (events ++ [event]) := by
  cases event with
  | start inline =>
      rcases Option.ite_none_right_eq_some.mp step with ⟨⟨_, notStarted⟩, same⟩
      cases same
      have started : { session with started := true }.Answers memory process events :=
        answers.congr rfl rfl
      exact started.dispatch .doRead inline (by simp)
        (fun _ => owned.reading_eq_none (.inl notStarted)) rfl
  | send msg inline =>
      rcases Option.ite_none_right_eq_some.mp step with ⟨_, same⟩
      cases same
      apply answers.dispatch (.send msg) inline _ (by simp) rfl
      rintro _ ⟨⟩
      exact own msg inline rfl
  | run =>
      rcases react_run step with ⟨closure, posted, postedEq, rfl⟩
      exact (Answers.run owned answers postedEq).settle
  | read event =>
      rcases react_read step with ⟨conn, further, reading, reacted, rfl⟩
      exact (answers.read reading reacted).settle
  | written write =>
      rcases react_written step with ⟨sender, sent, rfl⟩
      have pongs := Sender.pongs_of_react (fun msg => by simp) sent
      exact Answers.settle (answers.unread rfl rfl pongs)
  | failed write =>
      rcases react_failed step with ⟨sender, sent, rfl⟩
      have pongs := Sender.pongs_of_react (fun msg => by simp) sent
      exact Answers.settle (answers.unread rfl rfl pongs)
  | acquired =>
      rcases Option.ite_none_right_eq_some.mp step with ⟨_, same⟩
      cases same
      exact answers.unread rfl rfl rfl
  | released =>
      rcases Option.ite_none_right_eq_some.mp step with ⟨_, same⟩
      cases same
      have left : { session with holders := session.holders - 1 }.Answers memory process
          (events ++ [SessionEvent.released]) := answers.unread rfl rfl rfl
      exact left.settle

/-- If no owner of a peer has a pong sent, then in every interleaving of reads, sends, writes
and closures the peer has accepted one pong for each ping among frames at the front of what it
has received, which are all that are complete if it waits for more; and when nothing is being
written, all of them have been handed over. -/
theorem pings_answered {events : List SessionEvent} {session : Session}
    (own : ∀ msg inline, .send msg inline ∈ events → msg.isPong = false)
    (run : replay (react memory process) made events = some session) :
    ∃ (frames : List CutFrame) (rest : List UInt8),
      (events.filterMap SessionEvent.reads).flatMap ReadEvent.bytes =
        frames.flatMap CutFrame.bytes ++ rest ∧
      session.sender.accepted.filter Message.isPong =
        List.replicate (frames.countP CutFrame.isPing) pong ∧
      (∀ conn, session.reading = some conn → conn.task = .waiting → CutFrame.Pending rest) ∧
      (session.sender.sending = false →
        session.sender.handed = session.sender.accepted.map Protocol.wireBytes) := by
  have kept : session.Owned ∧ session.Answers memory process events := by
    apply replay_history (fun events session =>
      (∀ msg inline, .send msg inline ∈ events → msg.isPong = false) →
        session.Owned ∧ session.Answers memory process events) _ _ run own
    · intro events state next event kept step own
      obtain ⟨owned, answers⟩ :=
        kept fun msg inline member => own msg inline (List.mem_append_left _ member)
      have others : ∀ msg inline, event = SessionEvent.send msg inline → msg.isPong = false := by
        rintro msg inline rfl
        exact own msg inline (List.mem_append_right _ List.mem_cons_self)
      exact ⟨owned.react others step, Answers.react owned answers others step⟩
    · intro _
      exact ⟨⟨by simp [made], rfl⟩, .silent rfl rfl rfl⟩
  have handed : session.sender.sending = false →
      session.sender.handed = session.sender.accepted.map Protocol.wireBytes := by
    rcases (inv_of_replay run).sender with
      ⟨⟨sent, waiting, accepted, handed, queue⟩, flight⟩
    intro idle
    cases flight with
    | idle _ _ empty =>
        have noneWaiting : waiting = [] := List.map_eq_nil_iff.mp (queue.symm.trans empty)
        rw [handed, accepted, noneWaiting, List.append_nil]
    | writing sending _ => exact absurd (idle.symm.trans sending) Bool.false_ne_true
    | failed sending _ => exact absurd (idle.symm.trans sending) Bool.false_ne_true
  cases kept.2 with
  | silent none nothing empty =>
      refine ⟨[], [], ?_, empty, ?_, handed⟩
      · rw [nothing]
        rfl
      · intro conn reading
        rw [none] at reading
        cases reading
  | @reads conn some behind equal =>
      obtain ⟨frames, rest, inputEq, responsesEq, pending⟩ :=
        responses_of_traced (Connection.traced_of_replay behind)
      refine ⟨frames, rest, inputEq, equal.trans responsesEq, ?_, handed⟩
      intro other reading waits
      obtain rfl : conn = other := Option.some.inj (some.symm.trans reading)
      exact pending waits

/-- A ping and a message of an owner, and the bytes of both answers. -/
theorem pings_answered_one :
    ∃ (frames : List CutFrame) (rest : List UInt8),
      [0, 0, 0, 0, 1, 1] = frames.flatMap CutFrame.bytes ++ rest ∧
      [pong] = List.replicate (frames.countP CutFrame.isPing) pong := by
  have happened : ∃ session, replay (react (fun _ => []) fun _ _ => none) made
      [.start false, .run, .send (Message.create 5 1 0) false,
        .read (.completed [0, 0, 0, 0, 1, 1]), .read .round, .run] = some session ∧
      session.sender.accepted.filter Message.isPong = [pong] := ⟨_, rfl, rfl⟩
  obtain ⟨session, run, pongs⟩ := happened
  have own : ∀ msg inline, SessionEvent.send msg inline ∈
      [.start false, .run, .send (Message.create 5 1 0) false,
        .read (.completed [0, 0, 0, 0, 1, 1]), .read .round, .run] → msg.isPong = false := by
    intro msg inline member
    obtain ⟨rfl, _⟩ : msg = Message.create 5 1 0 ∧ inline = false := by simpa using member
    rfl
  obtain ⟨frames, rest, inputEq, answered, _⟩ := pings_answered own run
  exact ⟨frames, rest, inputEq, pongs.symm.trans answered⟩

end Session

end IotChain.P2P
