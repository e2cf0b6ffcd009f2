import IotChain.P2P.Reception
import IotChain.Transition.Events

/-!
# The receiving side of a peer

`do_read` starts a read; its completion handler gives the bytes to `receive`, together with
a handler that answers pings, passes other messages to `process_msg` and relays what has
hops left.  The next read is started only if `receive` has returned true.  The model takes
the rounds of `receive` one by one and keeps a log of what each connection leads to.
-/

namespace IotChain.P2P

open IotChain.Transition

/-- `MSG_TYPE_PING`. -/
abbrev msgTypePing : UInt8 := 1

/-- `MSG_TYPE_PONG`. -/
abbrev msgTypePong : UInt8 := 2

/-- What a connection leads to. -/
inductive Effect
  /-- `send(response)` -/
  | sent (response : Message)
  /-- The call of a message handler, and how it ended. -/
  | handled (msg : Message) (answer : Answer)
  /-- There is no handler for the message. -/
  | unhandled (msg : Message)
  /-- `receive` has reported an error. -/
  | refused (error : Errc)
  /-- `peer_list::broadcast(msg, this)` -/
  | broadcast (msg : Message)
  deriving DecidableEq, Repr

/-- The effects after which a connection must not lead to anything. -/
inductive Effect.Fatal : Effect → Prop
  | rejected (msg : Message) : Fatal (.handled msg .stop)
  | threw (msg : Message) : Fatal (.handled msg .throws)
  | unhandled (msg : Message) : Fatal (.unhandled msg)
  | refused (error : Errc) : Fatal (.refused error)

/-- How `process_msg` ends, given what the connection has led to so far: `none` if it
returns false because there is no handler for the message. -/
abbrev Processing := List Effect → Message → Option Answer

/-- `if (msg->header().ttl_ > 0) peer_list::broadcast(msg, this)`. -/
def relay (msg : Message) : List Effect :=
  if msg.header.ttl > 0 then [.broadcast msg] else []

/-- The handler that `do_read` gives to `receive`, for a message. -/
def onMessage (process : Processing) (msg : Message) (log : List Effect) :
    Answer × List Effect :=
  if msg.header.type = msgTypePing then
    (.goOn, log ++ .sent (Message.create msgTypePong 1 0) :: relay msg)
  else if msg.header.type = msgTypePong then
    (.goOn, log ++ relay msg)
  else
    match process log msg with
    | none => (.stop, log ++ [.unhandled msg])
    | some .goOn => (.goOn, log ++ .handled msg .goOn :: relay msg)
    | some answer => (answer, log ++ [.handled msg answer])

/-- The handler that `do_read` gives to `receive`: `!pec && msg`. -/
def onReceive (process : Processing) (call : Call) (log : List Effect) :
    Answer × List Effect :=
  if call.error = .success then
    match call.message with
    | some msg => onMessage process msg log
    | none => (.stop, log ++ [.refused call.error])
  else
    (.stop, log ++ [.refused call.error])

/-- What the reading side of a peer is doing. -/
inductive Task
  /-- A read is outstanding. -/
  | waiting
  /-- The loop in `receive` has these bytes left. -/
  | receiving (rest : List UInt8)
  /-- No read is outstanding, and none will be started. -/
  | done
  deriving DecidableEq, Repr

/-- The reading side of a peer, and what it has led to. -/
structure Connection where
  protocol : Protocol
  log : List Effect
  task : Task
  deriving DecidableEq, Repr

/-- What happens on the reading side of a peer. -/
inductive ReadEvent
  | completed (chunk : List UInt8)
  | failed
  | round
  deriving DecidableEq, Repr

namespace Connection

/-- A peer that has called `do_read` for the first time. -/
def fresh : Connection := ⟨Protocol.fresh, [], .waiting⟩

/-- What `do_read` does when `receive` has ended.  After an exception it only logs; reading
past the buffer is a fault. -/
def received : Ending (List Effect) → Connection
  | .returned protocol log true => ⟨protocol, log, .waiting⟩
  | .returned protocol log false => ⟨protocol, log, .done⟩
  | .threw protocol log => ⟨protocol, log, .done⟩
  | .overread protocol log => ⟨protocol, log, .done⟩

/-- A completion needs an outstanding read, and a round a running `receive`. -/
def react (memory : List Effect → List UInt8) (process : Processing) :
    Reaction Connection ReadEvent := fun conn event =>
  match conn.task, event with
  | .waiting, .completed chunk =>
      -- `!ec && bytes_transferred > 0`
      if chunk = [] then
        some { conn with task := .done }
      else
        some { conn with task := .receiving chunk }
  | .waiting, .failed => some { conn with task := .done }
  | .receiving rest, .round =>
      match Protocol.receiveRound ⟨memory, onReceive process⟩
          ⟨conn.protocol, conn.log, rest⟩ with
      | .inl next => some ⟨next.protocol, next.context, .receiving next.rest⟩
      | .inr ending => some (received ending)
  | _, _ => none

end Connection

/-! ## Logs -/

/-- The logs of connections that may go on: each message that was relayed is a ping or a
pong, or the call of its handler just before has returned true. -/
inductive Sound (process : Processing) : List Effect → Prop
  | nil : Sound process []
  | ping {log : List Effect} (sound : Sound process log) (response : Message) {msg : Message}
      (type : msg.header.type = msgTypePing) :
      Sound process (log ++ .sent response :: relay msg)
  | pong {log : List Effect} (sound : Sound process log) {msg : Message}
      (type : msg.header.type = msgTypePong) : Sound process (log ++ relay msg)
  | accepted {log : List Effect} (sound : Sound process log) {msg : Message}
      (accepts : process log msg = some .goOn) :
      Sound process (log ++ .handled msg .goOn :: relay msg)

/-- If the handler lets `receive` go on, the log stays sound; if not, the last effect is
fatal. -/
def Continues (process : Processing) (log : List Effect) (ended : Answer × List Effect) :
    Prop :=
  ended.1 = .goOn ∧ Sound process ended.2 ∨
    ended.1 ≠ .goOn ∧ ∃ effect : Effect, effect.Fatal ∧ ended.2 = log ++ [effect]

theorem onMessage_continues {process : Processing} {log : List Effect}
    (sound : Sound process log) (msg : Message) :
    Continues process log (onMessage process msg log) := by
  have stops {answer : Answer} {effect : Effect} (stop : answer ≠ .goOn)
      (fatal : effect.Fatal) : Continues process log (answer, log ++ [effect]) :=
    .inr ⟨stop, effect, fatal, rfl⟩
  rw [onMessage]
  by_cases ping : msg.header.type = msgTypePing
  · rw [if_pos ping]
    exact .inl ⟨rfl, sound.ping _ ping⟩
  · rw [if_neg ping]
    by_cases pong : msg.header.type = msgTypePong
    · rw [if_pos pong]
      exact .inl ⟨rfl, sound.pong pong⟩
    · rw [if_neg pong]
      cases processed : process log msg with
      | none => exact stops (by decide) (.unhandled msg)
      | some answer =>
          cases answer with
          | goOn => exact .inl ⟨rfl, sound.accepted processed⟩
          | stop => exact stops (by decide) (.rejected msg)
          | throws => exact stops (by decide) (.threw msg)

theorem onReceive_continues {process : Processing} {log : List Effect}
    (sound : Sound process log) (call : Call) :
    Continues process log (onReceive process call log) := by
  have refused : Continues process log (.stop, log ++ [.refused call.error]) :=
    .inr ⟨by simp, _, .refused call.error, rfl⟩
  rw [onReceive]
  by_cases success : call.error = .success
  · rw [if_pos success]
    cases call.message with
    | none => exact refused
    | some msg => exact onMessage_continues sound msg
  · rw [if_neg success]
    exact refused

/-- The log is sound, or it was before the effect that has ended the connection. -/
inductive Connection.Inv (process : Processing) (conn : Connection) : Prop
  | sound (sound : Sound process conn.log)
  | ended (done : conn.task = .done) {log : List Effect} (sound : Sound process log)
      {effect : Effect} (fatal : effect.Fatal) (logEq : conn.log = log ++ [effect])

theorem Connection.received_of_stops {ending : Ending (List Effect)} (stops : ending.Stops) :
    received ending = ⟨ending.protocol, ending.context, .done⟩ := by
  cases ending with
  | returned protocol log result =>
      obtain rfl : result = false := stops
      rfl
  | threw protocol log => rfl
  | overread protocol log => rfl

/-- A round keeps the invariant, whether it goes on or ends. -/
theorem Connection.Inv.round {process : Processing} {log : List Effect}
    (sound : Sound process log) (memory : List Effect → List UInt8) (protocol : Protocol)
    (rest : List UInt8) :
    Sum.elim
      (fun next => Connection.Inv process ⟨next.protocol, next.context, .receiving next.rest⟩)
      (fun ending => (Connection.received ending).Inv process)
      (Protocol.receiveRound ⟨memory, onReceive process⟩ ⟨protocol, log, rest⟩) := by
  by_cases nonempty : rest = []
  · subst nonempty
    exact .sound sound
  · have once := Protocol.callsOnce_round ⟨memory, onReceive process⟩ protocol log nonempty
    cases round : Protocol.receiveRound ⟨memory, onReceive process⟩ ⟨protocol, log, rest⟩ with
    | inl next =>
        rw [round] at once
        apply Connection.Inv.sound
        rcases once with same | ⟨call, handled⟩
        · change Sound process next.context
          rw [same]
          exact sound
        · have continues := onReceive_continues sound call
          change onReceive process call log = _ at handled
          rw [handled] at continues
          rcases continues with ⟨_, further⟩ | ⟨stop, _⟩
          · exact further
          · exact absurd rfl stop
    | inr ending =>
        rw [round] at once
        rcases once with ⟨stops, called⟩
        change (Connection.received ending).Inv process
        rw [Connection.received_of_stops stops]
        rcases called with same | ⟨call, answer, handled⟩
        · rw [same]
          exact .sound sound
        · have continues := onReceive_continues sound call
          change onReceive process call log = _ at handled
          rw [handled] at continues
          rcases continues with ⟨_, further⟩ | ⟨_, effect, fatal, logEq⟩
          · exact .sound further
          · exact .ended rfl sound fatal logEq

/-- Every event keeps the invariant. -/
theorem Connection.Inv.react {memory : List Effect → List UInt8} {process : Processing}
    {conn next : Connection} {event : ReadEvent} (inv : conn.Inv process)
    (step : Connection.react memory process conn event = some next) : next.Inv process := by
  rcases conn with ⟨protocol, log, task⟩
  have sound (running : task ≠ .done) : Sound process log := by
    cases inv with
    | sound sound => exact sound
    | ended done _ _ _ => exact absurd done running
  cases task with
  | waiting =>
      have sound := sound (by simp)
      cases event with
      | completed chunk =>
          simp only [Connection.react] at step
          split at step
          · cases step
            exact .sound sound
          · cases step
            exact .sound sound
      | failed =>
          cases step
          exact .sound sound
      | round => cases step
  | receiving rest =>
      cases event with
      | completed chunk => cases step
      | failed => cases step
      | round =>
          have kept := Connection.Inv.round (sound (by simp)) memory protocol rest
          simp only [Connection.react] at step
          cases round : Protocol.receiveRound ⟨memory, onReceive process⟩
              ⟨protocol, log, rest⟩ with
          | inl state =>
              rw [round] at step kept
              cases step
              exact kept
          | inr ending =>
              rw [round] at step kept
              cases step
              exact kept
  | done =>
      cases event with
      | completed chunk => cases step
      | failed => cases step
      | round => cases step

/-! ## What the logs contain -/

/-- What holds of the log of a connection: a message is relayed only if it is a ping or a
pong, or the call of its handler just before has accepted it; and a fatal effect is the
last one. -/
structure Gated (accepts : List Effect → Message → Prop) (log : List Effect) : Prop where
  relayed : ∀ before msg after, log = before ++ .broadcast msg :: after →
    msg.header.type = msgTypePing ∨ msg.header.type = msgTypePong ∨
      ∃ earlier, before = earlier ++ [.handled msg .goOn] ∧ accepts earlier msg
  last : ∀ before effect after, log = before ++ effect :: after → effect.Fatal → after = []

/-- An effect in a log that has grown is found in its first or in its second part. -/
theorem exists_part {log part before after : List Effect} {effect : Effect}
    (logEq : log ++ part = before ++ effect :: after) :
    (∃ more, log = before ++ effect :: more) ∨
      ∃ middle, before = log ++ middle ∧ part = middle ++ effect :: after := by
  rcases List.append_eq_append_iff.mp logEq with
    ⟨middle, beforeEq, partEq⟩ | ⟨more, wholeEq, afterEq⟩
  · exact .inr ⟨middle, beforeEq, partEq⟩
  · cases more with
    | nil => exact .inr ⟨[], by simpa using wholeEq.symm, afterEq.symm⟩
    | cons first more =>
        rw [List.cons_append, List.cons.injEq] at afterEq
        rw [← afterEq.1] at wholeEq
        exact .inl ⟨more, wholeEq⟩

/-- A message that is relayed is relayed once. -/
theorem relay_eq_append {msg other : Message} {middle after : List Effect}
    (relayEq : relay msg = middle ++ .broadcast other :: after) :
    middle = [] ∧ other = msg ∧ after = [] := by
  rw [relay] at relayEq
  split at relayEq
  · rcases List.append_eq_singleton_iff.mp relayEq.symm with
      ⟨none, rest⟩ | ⟨_, rest⟩
    · cases rest
      exact ⟨none, rfl, rfl⟩
    · cases rest
  · cases middle with
    | nil => cases relayEq
    | cons first middle => cases relayEq

theorem not_fatal_of_relay {msg : Message} {effect : Effect} (member : effect ∈ relay msg) :
    ¬ effect.Fatal := by
  rw [relay] at member
  split at member
  · rw [List.mem_singleton.mp member]
    rintro ⟨⟩
  · cases member

theorem Sound.not_fatal {process : Processing} {log : List Effect} (sound : Sound process log)
    {effect : Effect} (member : effect ∈ log) : ¬ effect.Fatal := by
  induction sound with
  | nil => cases member
  | ping sound response type ih =>
      rcases List.mem_append.mp member with member | member
      · exact ih member
      · rcases List.mem_cons.mp member with rfl | member
        · rintro ⟨⟩
        · exact not_fatal_of_relay member
  | pong sound type ih =>
      rcases List.mem_append.mp member with member | member
      · exact ih member
      · exact not_fatal_of_relay member
  | accepted sound accepts ih =>
      rcases List.mem_append.mp member with member | member
      · exact ih member
      · rcases List.mem_cons.mp member with rfl | member
        · rintro ⟨⟩
        · exact not_fatal_of_relay member

/-- The message relayed last, behind the effect that has come before it. -/
theorem cons_relay_eq_append {first : Effect} {msg other : Message} {middle after : List Effect}
    (notRelay : ∀ msg, first ≠ .broadcast msg)
    (partEq : first :: relay msg = middle ++ .broadcast other :: after) :
    middle = [first] ∧ other = msg := by
  cases middle with
  | nil =>
      cases partEq
      exact absurd rfl (notRelay other)
  | cons second middle =>
      rw [List.cons_append, List.cons.injEq] at partEq
      rcases relay_eq_append partEq.2 with ⟨none, same, _⟩
      exact ⟨by rw [none, partEq.1], same⟩

theorem Sound.relayed {process : Processing} {log : List Effect} (sound : Sound process log)
    {before after : List Effect} {msg : Message}
    (logEq : log = before ++ .broadcast msg :: after) :
    msg.header.type = msgTypePing ∨ msg.header.type = msgTypePong ∨
      ∃ earlier, before = earlier ++ [.handled msg .goOn] ∧
        process earlier msg = some .goOn := by
  induction sound generalizing before after with
  | nil => simp at logEq
  | ping sound response type ih =>
      rcases exists_part logEq with ⟨more, logEq⟩ | ⟨middle, _, partEq⟩
      · exact ih logEq
      · rcases cons_relay_eq_append (by simp) partEq with ⟨_, rfl⟩
        exact .inl type
  | pong sound type ih =>
      rcases exists_part logEq with ⟨more, logEq⟩ | ⟨middle, _, partEq⟩
      · exact ih logEq
      · rcases relay_eq_append partEq with ⟨_, rfl, _⟩
        exact .inr (.inl type)
  | @accepted log sound other accepts ih =>
      rcases exists_part logEq with ⟨more, logEq⟩ | ⟨middle, beforeEq, partEq⟩
      · exact ih logEq
      · rcases cons_relay_eq_append (by simp) partEq with ⟨rfl, rfl⟩
        exact .inr (.inr ⟨log, beforeEq, accepts⟩)

theorem Connection.Inv.gated {process : Processing} {conn : Connection}
    (inv : conn.Inv process) :
    Gated (fun earlier msg => process earlier msg = some .goOn) conn.log := by
  cases inv with
  | sound sound =>
      constructor
      · exact fun before msg after logEq => sound.relayed logEq
      · intro before effect after logEq fatal
        have member : effect ∈ conn.log := by simp [logEq]
        exact absurd fatal (sound.not_fatal member)
  | @ended done log sound effect fatal logEq =>
      rw [logEq]
      constructor
      · intro before msg after wholeEq
        rcases exists_part wholeEq with ⟨more, soundEq⟩ | ⟨middle, _, partEq⟩
        · exact sound.relayed soundEq
        · rcases List.append_eq_singleton_iff.mp partEq.symm with ⟨_, same⟩ | ⟨_, same⟩
          · cases same
            cases fatal
          · cases same
      · intro before other after wholeEq otherFatal
        rcases exists_part wholeEq with ⟨more, soundEq⟩ | ⟨middle, _, partEq⟩
        · have member : other ∈ log := by simp [soundEq]
          exact absurd otherFatal (sound.not_fatal member)
        · rcases List.append_eq_singleton_iff.mp partEq.symm with ⟨_, same⟩ | ⟨_, same⟩
          · cases same
            rfl
          · cases same

/-! ## Runs -/

section Runs

variable {memory : List Effect → List UInt8} {process : Processing}

theorem Connection.inv_of_replay {events : List ReadEvent} {conn : Connection}
    (run : replay (Connection.react memory process) Connection.fresh events = some conn) :
    conn.Inv process :=
  replay_invariant (fun conn => conn.Inv process) Connection.Inv.react (.sound .nil) run

/-- Nothing happens any more on the reading side of a peer that is done. -/
theorem Connection.eq_of_done {events : List ReadEvent} {conn last : Connection}
    (done : conn.task = .done)
    (run : replay (Connection.react memory process) conn events = some last) : last = conn := by
  cases events with
  | nil =>
      cases run
      rfl
  | cons event events =>
      rcases replay_cons.mp run with ⟨next, step, _⟩
      rcases conn with ⟨protocol, log, task⟩
      subst done
      cases event with
      | completed chunk => cases step
      | failed => cases step
      | round => cases step

/-- After a fatal effect, the log stays as it is. -/
theorem Connection.log_eq_of_fatal {first later : List ReadEvent} {conn last : Connection}
    (run : replay (Connection.react memory process) Connection.fresh first = some conn)
    (more : replay (Connection.react memory process) conn later = some last)
    {effect : Effect} (member : effect ∈ conn.log) (fatal : effect.Fatal) :
    last.log = conn.log := by
  cases Connection.inv_of_replay run with
  | sound sound => exact absurd fatal (sound.not_fatal member)
  | ended done _ _ _ => rw [Connection.eq_of_done done more]

end Runs

end IotChain.P2P
