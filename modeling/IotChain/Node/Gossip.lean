import IotChain.Node.Liveness
import IotChain.P2P.Streams

/-!
# What a node makes of a stream

The handlers of a node start to read where a message ends, so none of them ever returns.  A
connection answers and relays pings and pongs, and comes to its end with the first other
message.
-/

namespace IotChain

open IotChain.P2P IotChain.StreamSerializer IotChain.Transition

theorem deserializeBlock_atEnd (buf : List UInt8) :
    deserializeBlock ⟨buf, buf.length⟩ = .error endOfStream := by
  have first : Reading.uint32 ⟨buf, buf.length⟩ = .error endOfStream := by
    change (Reading.bytes 4 ⟨buf, buf.length⟩ >>= fun run =>
      (pure (UInt32.ofNat (Bytes.decodeLE run.1)) : Reading UInt32) run.2) = _
    rw [bytes_atEnd (by decide)]
    rfl
  change (Reading.uint32 ⟨buf, buf.length⟩ >>= fun run => _) = _
  rw [first]
  rfl

/-- How a handler ends for `receive`.  An abort would not come back to it. -/
def MsgHandler.answerOf : Except Halt Bool → Answer
  | .ok true => .goOn
  | .ok false => .stop
  | .error _ => .throws

/-- `OnNewTransaction` and `OnNewBlock`, with the contexts as they are when they are called. -/
def MsgHandler.behaviour (digests : Digests) (curve : Secp256k1.Curve) (networkId : UInt8)
    (contexts : List Effect → Contexts) : MsgHandler.Behaviour
  | .onNewTransaction, log, msg =>
      answerOf ((handleNewTransaction digests curve networkId msg).run (contexts log)).1
  | .onNewBlock, _, msg =>
      match deserializeBlock msg.toStream with
      | .ok _ => .goOn
      | .error _ => .throws

namespace P2P.Message

/-- A ping or a pong. -/
def Control (msg : Message) : Prop :=
  msg.header.type = msgTypePing ∨ msg.header.type = msgTypePong

/-- What a connection leads to when it receives a ping or a pong. -/
def answers (msg : Message) : List Effect :=
  (if msg.header.type = msgTypePing then [.sent (create msgTypePong 1 0)] else []) ++ relay msg

end P2P.Message

/-- The call for a frame is for a message with the cursor at its end. -/
theorem P2P.CutFrame.call_atEnd {frame : CutFrame} {memory : List UInt8} {call : Call}
    (called : frame.call memory = some call) :
    ∃ msg : Message, call = ⟨.success, some msg⟩ ∧
      msg.toStream = ⟨msg.buf, msg.buf.length⟩ := by
  obtain ⟨made, ofHeader, rfl, _⟩ := CutFrame.call_eq_some called
  have atEnd : made.toStream = ⟨made.buf, made.buf.length⟩ := Message.ofHeader_atEnd ofHeader
  exact ⟨made.hop, rfl, atEnd⟩

/-- What the receiver makes of a frame, with whatever bytes lie behind its buffer. -/
def P2P.CutFrame.Makes (frame : CutFrame) (msg : Message) : Prop :=
  ∃ behind, frame.call behind = some ⟨.success, some msg⟩

/-- The effects with which a connection of a node comes to its end: the handler of its
message throws, its message has no handler, or its header announces too much. -/
inductive LastEffect : Effect → Prop
  | threw {msg : Message}
      (registered : msg.header.type = msgTypeNewTx ∨ msg.header.type = msgTypeNewBlock) :
      LastEffect (.handled msg .throws)
  | unhandled {msg : Message} (unregistered : msg.header.type ≠ msgTypeNewTx ∧
      msg.header.type ≠ msgTypeNewBlock) : LastEffect (.unhandled msg)
  | refused : LastEffect (.refused .messageTooBig)

section Connections

variable {digests : Digests} {curve : Secp256k1.Curve} {networkId : UInt8}
  {contexts : List Effect → Contexts} {memory : List Effect → List UInt8}

/-- Both handlers throw. -/
theorem MsgHandler.behaviour_eq (handler : MsgHandler) (log : List Effect) {msg : Message}
    (atEnd : msg.toStream = ⟨msg.buf, msg.buf.length⟩) :
    behaviour digests curve networkId contexts handler log msg = .throws := by
  cases handler with
  | onNewTransaction =>
      rw [behaviour, handleNewTransaction_eq atEnd]
      rfl
  | onNewBlock => rw [behaviour, atEnd, deserializeBlock_atEnd]

theorem onMessage_control {process : Processing} {msg : Message} (control : msg.Control)
    (log : List Effect) : onMessage process msg log = (.goOn, log ++ msg.answers) := by
  rw [onMessage, Message.answers]
  rcases control with ping | pong
  · rw [if_pos ping, if_pos ping]
    rfl
  · have notPing : msg.header.type ≠ msgTypePing := by
      rw [pong]
      decide
    rw [if_neg notPing, if_pos pong, if_neg notPing, List.nil_append]

/-- Any other message ends the connection. -/
theorem onMessage_other {msg : Message} (atEnd : msg.toStream = ⟨msg.buf, msg.buf.length⟩)
    (other : ¬ msg.Control) (log : List Effect) :
    ∃ answer effect, answer ≠ .goOn ∧ LastEffect effect ∧
      onMessage (MsgHandler.handleMessage
        (MsgHandler.behaviour digests curve networkId contexts)) msg log =
          (answer, log ++ [effect]) := by
  have notPing : msg.header.type ≠ msgTypePing := fun ping => other (.inl ping)
  have notPong : msg.header.type ≠ msgTypePong := fun pong => other (.inr pong)
  rw [onMessage, if_neg notPing, if_neg notPong, MsgHandler.handleMessage]
  by_cases registered : msg.header.type = msgTypeNewTx ∨ msg.header.type = msgTypeNewBlock
  · have found : ∃ handler, MsgHandler.mHandlers.lookup msg.header.type = some handler := by
      rcases registered with tx | block
      · exact ⟨.onNewTransaction, by rw [tx]; rfl⟩
      · exact ⟨.onNewBlock, by rw [block]; rfl⟩
    obtain ⟨handler, found⟩ := found
    simp only [found, MsgHandler.behaviour_eq handler log atEnd]
    exact ⟨.throws, _, by decide, .threw registered, rfl⟩
  · rw [not_or] at registered
    have missing : MsgHandler.mHandlers.lookup msg.header.type = none := by
      have notTx := beq_eq_false_iff_ne.mpr registered.1
      have notBlock := beq_eq_false_iff_ne.mpr registered.2
      simp only [MsgHandler.mHandlers, List.lookup, notTx, notBlock]
    simp only [missing]
    exact ⟨.stop, _, by decide, .unhandled registered, rfl⟩

/-- The frames that a node lets pass are pings and pongs, and it answers each of them. -/
theorem passes_node {frames : List CutFrame} {start last : List Effect}
    (passes : Protocol.Passes ⟨memory, onReceive (MsgHandler.handleMessage
      (MsgHandler.behaviour digests curve networkId contexts))⟩ frames start last) :
    ∃ msgs : List Message, (∀ msg ∈ msgs, msg.Control) ∧
      List.Forall₂ CutFrame.Makes frames msgs ∧
      last = start ++ msgs.flatMap Message.answers := by
  induction frames generalizing start with
  | nil =>
      obtain rfl : start = last := passes
      exact ⟨[], List.forall_mem_nil _, .nil, (List.append_nil _).symm⟩
  | cons frame frames ih =>
      rcases passes with ⟨call, next, called, handled, others⟩
      obtain ⟨msg, rfl, atEnd⟩ := CutFrame.call_atEnd called
      change onMessage _ msg start = _ at handled
      have control : msg.Control := by
        by_contra other
        obtain ⟨answer, effect, stops, _, ended⟩ := onMessage_other atEnd other start
        rw [handled] at ended
        exact stops (congrArg Prod.fst ended).symm
      rw [onMessage_control control] at handled
      obtain rfl := congrArg Prod.snd handled
      obtain ⟨msgs, controls, made, lastEq⟩ := ih others
      refine ⟨msg :: msgs, List.forall_mem_cons.mpr ⟨control, controls⟩,
        .cons ⟨_, called⟩ made, ?_⟩
      rw [lastEq, List.flatMap_cons, List.append_assoc]

/-- What a node has made of what it has received. -/
structure NodeLogged (input : List UInt8) (conn : Connection) (frames : List CutFrame)
    (rest : List UInt8) (msgs : List Message) : Prop where
  inputEq : input = frames.flatMap CutFrame.bytes ++ rest
  controls : ∀ msg ∈ msgs, msg.Control
  made : List.Forall₂ CutFrame.Makes frames msgs
  logEq : conn.log = msgs.flatMap Message.answers ∨
    conn.task = .done ∧ ∃ effect, LastEffect effect ∧
      conn.log = msgs.flatMap Message.answers ++ [effect]
  pending : conn.task = .waiting → CutFrame.Pending rest

theorem logged_of_replay {events : List ReadEvent} {conn : Connection}
    (run : replay (Connection.react memory (MsgHandler.handleMessage
      (MsgHandler.behaviour digests curve networkId contexts))) Connection.fresh events =
        some conn) :
    ∃ frames rest msgs, NodeLogged (events.flatMap ReadEvent.bytes) conn frames rest msgs := by
  cases Connection.traced_of_replay run with
  | @reading reads seen inputEq track =>
      rcases track with ⟨⟨frames, seenEq, passes⟩, stage⟩
      obtain ⟨msgs, controls, made, logEq⟩ := passes_node passes
      refine ⟨frames, conn.protocol.receiveBuffer ++ conn.unread, msgs, ?_, controls, made,
        .inl logEq, ?_⟩
      · rw [inputEq, seenEq, List.append_assoc]
      · intro waits
        rw [Connection.unread, waits, List.append_nil]
        exact stage.pending
  | ended done halted =>
      have notWaiting : conn.task ≠ .waiting := by
        rw [done]
        decide
      have ends {rest : List UInt8} : conn.task = .waiting → CutFrame.Pending rest :=
        fun waits => absurd waits notWaiting
      cases halted with
      | silent inputEq passes =>
          obtain ⟨msgs, controls, made, logEq⟩ := passes_node passes
          exact ⟨_, _, msgs, inputEq, controls, made, .inl logEq, ends⟩
      | @refused frames header rest log inputEq passes big told =>
          obtain ⟨msgs, controls, made, logEq⟩ := passes_node passes
          refine ⟨_, _, msgs, inputEq, controls, made, .inr ⟨done, _, .refused, ?_⟩, ends⟩
          rw [← told, logEq]
          rfl
      | @stopped frames frame rest log call answer inputEq passes called handled stops =>
          obtain ⟨msgs, controls, made, logEq⟩ := passes_node passes
          obtain ⟨msg, rfl, atEnd⟩ := CutFrame.call_atEnd called
          change onMessage _ msg log = _ at handled
          have other : ¬ msg.Control := by
            intro control
            rw [onMessage_control control] at handled
            exact stops (congrArg Prod.fst handled).symm
          obtain ⟨_, effect, _, last, ended⟩ := onMessage_other atEnd other log
          rw [handled] at ended
          have lastEq : conn.log = log ++ [effect] := congrArg Prod.snd ended
          refine ⟨_, _, msgs, inputEq, controls, made, .inr ⟨done, effect, last, ?_⟩, ends⟩
          rw [lastEq, logEq]
          rfl

/-- However the bytes that a node receives are cut, and whatever lies behind them in its
memory: it takes frames off their front, which are pings and pongs, answers each of them once
and in order, and comes to its end with the first message of another kind.  While it waits,
what it has left does not start with a frame. -/
theorem node_log {events : List ReadEvent} {conn : Connection}
    (run : replay (Connection.react memory (MsgHandler.handleMessage
      (MsgHandler.behaviour digests curve networkId contexts))) Connection.fresh events =
        some conn) :
    ∃ (frames : List CutFrame) (rest : List UInt8) (msgs : List Message),
      events.flatMap ReadEvent.bytes = frames.flatMap CutFrame.bytes ++ rest ∧
      (∀ msg ∈ msgs, msg.Control) ∧
      List.Forall₂ CutFrame.Makes frames msgs ∧
      (conn.log = msgs.flatMap Message.answers ∨
        conn.task = .done ∧ ∃ effect, LastEffect effect ∧
          conn.log = msgs.flatMap Message.answers ++ [effect]) ∧
      (conn.task = .waiting → CutFrame.Pending rest) := by
  obtain ⟨frames, rest, msgs, logged⟩ := logged_of_replay run
  exact ⟨frames, rest, msgs, logged.inputEq, logged.controls, logged.made, logged.logEq,
    logged.pending⟩

/-- A ping with two hops to live and a transaction. -/
theorem node_log_two :
    ∃ (frames : List CutFrame) (rest : List UInt8) (msgs : List Message),
      [0, 0, 0, 0, 1, 2, 0, 0, 0, 0, 3, 1] = frames.flatMap CutFrame.bytes ++ rest ∧
      (∀ msg ∈ msgs, msg.Control) ∧
      List.Forall₂ CutFrame.Makes frames msgs ∧
      ∃ effect, LastEffect effect ∧
        [.sent (Message.create msgTypePong 1 0), .broadcast ⟨Stream.empty, ⟨0, 1, 1⟩⟩,
          .handled ⟨Stream.empty, ⟨0, 3, 0⟩⟩ .throws] =
            msgs.flatMap Message.answers ++ [effect] := by
  have run : replay (Connection.react (fun _ => []) (MsgHandler.handleMessage
      (MsgHandler.behaviour SampleTransaction.digests SampleTransaction.curve 4
        fun _ => Contexts.fresh))) Connection.fresh
      [.completed [0, 0, 0, 0, 1, 2, 0, 0, 0, 0, 3, 1], .round, .round] =
        some ⟨⟨[0, 0, 0, 0, 3, 1], 6, []⟩, [.sent (Message.create msgTypePong 1 0),
          .broadcast ⟨Stream.empty, ⟨0, 1, 1⟩⟩, .handled ⟨Stream.empty, ⟨0, 3, 0⟩⟩ .throws],
          .done⟩ := by rfl
  obtain ⟨frames, rest, msgs, bytesEq, controls, made, logEq, _⟩ := node_log run
  refine ⟨frames, rest, msgs, bytesEq, controls, made, ?_⟩
  rcases logEq with answered | ⟨_, ended⟩
  · -- a handled message is not an answer
    have member : Effect.handled ⟨Stream.empty, ⟨0, 3, 0⟩⟩ .throws ∈
        msgs.flatMap Message.answers := by
      rw [← answered]
      simp
    obtain ⟨msg, _, answer⟩ := List.mem_flatMap.mp member
    exact absurd answer (by
      rw [Message.answers, relay]
      split <;> split <;> simp)
  · exact ended

/-- What a connection of a node may lead to. -/
inductive NodeEffect : Effect → Prop
  | pong : NodeEffect (.sent (Message.create msgTypePong 1 0))
  | relayed {msg : Message} (control : msg.Control) : NodeEffect (.broadcast msg)
  | last {effect : Effect} (last : LastEffect effect) : NodeEffect effect

theorem nodeEffect_of_answers {msg : Message} (control : msg.Control) {effect : Effect}
    (member : effect ∈ msg.answers) : NodeEffect effect := by
  rcases List.mem_append.mp member with answer | relayed
  · split at answer
    · rw [List.mem_singleton.mp answer]
      exact .pong
    · cases answer
  · rw [relay] at relayed
    split at relayed
    · rw [List.mem_singleton.mp relayed]
      exact .relayed control
    · cases relayed

theorem nodeEffect_of_mem {events : List ReadEvent} {conn : Connection}
    (run : replay (Connection.react memory (MsgHandler.handleMessage
      (MsgHandler.behaviour digests curve networkId contexts))) Connection.fresh events =
        some conn) {effect : Effect} (member : effect ∈ conn.log) : NodeEffect effect := by
  obtain ⟨_, _, msgs, logged⟩ := logged_of_replay run
  have answered (inside : effect ∈ msgs.flatMap Message.answers) : NodeEffect effect := by
    rcases List.mem_flatMap.mp inside with ⟨msg, among, answer⟩
    exact nodeEffect_of_answers (logged.controls msg among) answer
  rcases logged.logEq with logEq | ⟨_, ending, last, logEq⟩
  · rw [logEq] at member
    exact answered member
  · rw [logEq] at member
    rcases List.mem_append.mp member with inside | atLast
    · exact answered inside
    · rw [List.mem_singleton.mp atLast]
      exact .last last

end Connections

end IotChain
