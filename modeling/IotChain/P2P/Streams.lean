import IotChain.P2P.Peer
import IotChain.P2P.Reassembly

/-!
# What a connection makes of a stream

The reading side of a peer is given chunks, cuts them into rounds and may fail at any moment.
What it has led to depends on none of this: behind each run there are frames at the front of
the bytes received, and the log is that of the handler called for one frame after the other.
-/

namespace IotChain.P2P

open IotChain.Transition

namespace Protocol

variable {σ : Type} {env : Surroundings σ} {start context last : σ} {queue : List Message}
  {seen rest input : List UInt8}

/-! ## Ends -/

/-- How `receive` comes to its end behind frames that it has passed on: without a call, with
a call for a header that announces too much, or with the call for a frame after which the
handler does not let it go on. -/
inductive Halted (env : Surroundings σ) (start : σ) (input : List UInt8) (last : σ) : Prop
  | silent {frames : List CutFrame} {rest : List UInt8}
      (inputEq : input = frames.flatMap CutFrame.bytes ++ rest)
      (passes : Passes env frames start last)
  | refused {frames : List CutFrame} {header : MessageHeader} {rest : List UInt8} {context : σ}
      (inputEq : input = frames.flatMap CutFrame.bytes ++ (header.bytes ++ rest))
      (passes : Passes env frames start context) (big : maxPktSize < header.size.toNat)
      (told : (env.handle ⟨.messageTooBig, none⟩ context).2 = last)
  | stopped {frames : List CutFrame} {frame : CutFrame} {rest : List UInt8} {context : σ}
      {call : Call} {answer : Answer}
      (inputEq : input = frames.flatMap CutFrame.bytes ++ (frame.bytes ++ rest))
      (passes : Passes env frames start context)
      (called : frame.call (env.memory context) = some call)
      (handled : env.handle call context = (answer, last)) (stops : answer ≠ .goOn)

/-- A receiver that has come to its end does not look at what follows. -/
theorem Halted.append (halted : Halted env start input last) (more : List UInt8) :
    Halted env start (input ++ more) last := by
  cases halted with
  | silent inputEq passes =>
      exact .silent (by rw [inputEq, List.append_assoc]) passes
  | refused inputEq passes big told =>
      exact .refused (by rw [inputEq, List.append_assoc, List.append_assoc]) passes big told
  | stopped inputEq passes called handled stops =>
      exact .stopped (by rw [inputEq, List.append_assoc, List.append_assoc]) passes called
        handled stops

theorem goOn_eq_inr {branched : (Protocol × σ) ⊕ Ending σ} {ending : Ending σ}
    (ends : goOn rest branched = .inr ending) : branched = .inr ending := by
  cases branched with
  | inl next => cases ends
  | inr ending =>
      cases ends
      rfl

theorem deliver_eq_inr {call : Call} {protocol cleared : Protocol} {ending : Ending σ}
    (ends : deliver env call protocol cleared context = .inr ending) :
    ∃ answer, answer ≠ .goOn ∧ env.handle call context = (answer, ending.context) := by
  rw [deliver] at ends
  rcases handled : env.handle call context with ⟨answer, next⟩
  rw [handled] at ends
  cases answer with
  | goOn => cases ends
  | stop =>
      cases ends
      exact ⟨.stop, by decide, rfl⟩
  | throws =>
      cases ends
      exact ⟨.throws, by decide, rfl⟩

/-- A frame that is the last one is not passed on, or is not a message. -/
theorem halted_handOver {frames : List CutFrame} {frame : CutFrame} {protocol : Protocol}
    {ending : Ending σ} (passes : Passes env frames start context)
    (ends : handOver env frame protocol context = .inr ending) (rest : List UInt8) :
    Halted env start (frames.flatMap CutFrame.bytes ++ (frame.bytes ++ rest))
      ending.context := by
  rw [handOver] at ends
  cases called : frame.call (env.memory context) with
  | none =>
      rw [called] at ends
      cases ends
      exact .silent rfl passes
  | some call =>
      rw [called] at ends
      obtain ⟨answer, stops, handled⟩ := deliver_eq_inr ends
      exact .stopped rfl passes called handled stops

theorem context_of_tooBig {header : MessageHeader} (big : maxPktSize < header.size.toNat)
    {total : Nat} {ending : Ending σ}
    (ends : headerBranch env ⟨header.bytes, total, queue⟩ context = .inr ending) :
    (env.handle ⟨.messageTooBig, none⟩ context).2 = ending.context := by
  have notZero : header.size.toNat ≠ 0 := Nat.ne_zero_of_lt big
  simp only [headerBranch, MessageHeader.ofBytes_bytes, notZero, if_false,
    if_pos (show header.size.toNat > maxPktSize from big)] at ends
  rcases handled : env.handle ⟨.messageTooBig, none⟩ context with ⟨answer, next⟩
  rw [handled] at ends
  cases answer with
  | goOn =>
      cases ends
      rfl
  | stop =>
      cases ends
      rfl
  | throws =>
      cases ends
      rfl

/-- The header with which a receiver ends announces nothing or too much. -/
theorem halted_header {frames : List CutFrame} {header : MessageHeader} {ending : Ending σ}
    (passes : Passes env frames start context)
    (ends : branch env ⟨header.bytes, headerSize, queue⟩ context = .inr ending)
    (rest : List UInt8) :
    Halted env start (frames.flatMap CutFrame.bytes ++ (header.bytes ++ rest))
      ending.context := by
  by_cases size : header.size = 0
  · let frame : CutFrame := ⟨header, [], .inl ⟨size, rfl⟩⟩
    have bytesEq : frame.bytes = header.bytes := List.append_nil _
    have whole : branch env ⟨frame.bytes, frame.bytes.length, queue⟩ context = _ :=
      branch_frame frame
    rw [bytesEq, MessageHeader.length_bytes] at whole
    rw [whole] at ends
    have halted := halted_handOver passes ends rest
    rwa [bytesEq] at halted
  · have pos : 0 < header.size.toNat :=
      Nat.pos_of_ne_zero fun zero => size (UInt32.toNat_inj.mp zero)
    rw [branch_header] at ends
    by_cases le : header.size.toNat ≤ maxPktSize
    · rw [headerBranch_announced pos le] at ends
      cases ends
    · have big := Nat.lt_of_not_le le
      exact .refused rfl passes big (context_of_tooBig big ends)

/-- A round that ends while the header is collected completes the header. -/
theorem halted_collecting {frames : List CutFrame} {buffer : List UInt8} {ending : Ending σ}
    (passes : Passes env frames start context) (short : buffer.length < headerSize)
    (nonempty : rest ≠ [])
    (round : receiveRound env ⟨⟨buffer, headerSize, queue⟩, context, rest⟩ = .inr ending) :
    Halted env start (frames.flatMap CutFrame.bytes ++ (buffer ++ rest)) ending.context := by
  have headerSmall : headerSize ≤ vectorMaxSize := by decide
  have missingEq : (Protocol.mk buffer headerSize queue).missing =
      headerSize - buffer.length := sizeSub_of_le (Nat.le_of_lt short)
  by_cases lt : rest.length < headerSize - buffer.length
  · rw [receiveRound_short (fun _ => rfl) nonempty (by rwa [missingEq])
      (by simp only; omega)] at round
    cases round
  · obtain ⟨first, second, rfl, firstLength⟩ := exists_append_of_le (Nat.le_of_not_lt lt)
    have completed : buffer ++ first = (MessageHeader.ofBytes (buffer ++ first)).bytes := by
      rw [MessageHeader.bytes_ofBytes]
      rw [List.length_append]
      omega
    rw [receiveRound_completing (by rw [missingEq, firstLength]) nonempty
      (by simp only; omega)] at round
    have ends := goOn_eq_inr round
    change branch env ⟨buffer ++ first, headerSize, queue⟩ context = .inr ending at ends
    rw [completed] at ends
    have halted := halted_header passes ends second
    rwa [← completed, List.append_assoc] at halted

/-- A receiver that swallows everything ends where its vector is full. -/
theorem halted_swallowing {frames : List CutFrame} {header : MessageHeader} {body : List UInt8}
    {ending : Ending σ} (passes : Passes env frames start context)
    (below : header.size.toNat < headerSize) (nonempty : rest ≠ [])
    (round : receiveRound env ⟨announced header body queue, context, rest⟩ = .inr ending)
    (input : List UInt8) :
    Halted env start (frames.flatMap CutFrame.bytes ++ input) ending.context := by
  by_cases full : vectorMaxSize < (announced header body queue).receiveBuffer.length +
      (announced header body queue).taken rest
  · rw [receiveRound_of_full env context nonempty full] at round
    cases round
    exact .silent rfl passes
  · have atLeast : headerSize ≤ (announced header body queue).receiveBuffer.length := by
      simp [announced]
    have sink : (announced header body queue).Sink := ⟨atLeast, below⟩
    rcases sink.insert_incomplete nonempty with ⟨notHeader, notBody⟩
    rw [receiveRound_of_ne_nil env context nonempty (Nat.le_of_not_lt full), branch,
      if_neg notHeader, if_neg notBody] at round
    cases round

/-- A round that ends while the body is waited for completes the frame. -/
theorem halted_waiting {frames : List CutFrame} {header : MessageHeader} {body : List UInt8}
    {ending : Ending σ} (passes : Passes env frames start context)
    (le : header.size.toNat ≤ maxPktSize)
    (incomplete : headerSize + body.length < header.size.toNat) (nonempty : rest ≠ [])
    (round : receiveRound env ⟨announced header body queue, context, rest⟩ = .inr ending) :
    Halted env start (frames.flatMap CutFrame.bytes ++ ((header.bytes ++ body) ++ rest))
      ending.context := by
  have maxSmall : maxPktSize ≤ vectorMaxSize := by decide
  have lengthEq : (announced header body queue).receiveBuffer.length =
      headerSize + body.length := by
    simp [announced]
  have missingEq : (announced header body queue).missing =
      header.size.toNat - (headerSize + body.length) := by
    rw [Protocol.missing, lengthEq]
    exact sizeSub_of_le (Nat.le_of_lt incomplete)
  have beyond : headerSize < header.size.toNat := by omega
  by_cases lt : rest.length < header.size.toNat - (headerSize + body.length)
  · rw [receiveRound_short (fun short => by omega) nonempty (by rwa [missingEq])
      (by omega)] at round
    cases round
  · obtain ⟨first, second, rfl, firstLength⟩ := exists_append_of_le (Nat.le_of_not_lt lt)
    have cut : headerSize + (body ++ first).length = header.size.toNat := by
      rw [List.length_append]
      omega
    let frame : CutFrame := ⟨header, body ++ first, .inr ⟨beyond, le, cut⟩⟩
    rw [receiveRound_completing (by rw [missingEq, firstLength]) nonempty (by omega),
      announced_insert, branch_announced frame beyond] at round
    have halted := halted_handOver passes (goOn_eq_inr round) second
    simpa [frame, CutFrame.bytes] using halted

/-- The round with which a receiver that is on track comes to its end. -/
theorem Track.halted {protocol : Protocol} (track : Track env start seen protocol context)
    (nonempty : rest ≠ []) {ending : Ending σ}
    (round : receiveRound env ⟨protocol, context, rest⟩ = .inr ending) :
    Halted env start (seen ++ rest) ending.context := by
  rcases track with ⟨⟨frames, seenEq, passes⟩, stage⟩
  rw [seenEq, List.append_assoc]
  cases stage with
  | collecting short => exact halted_collecting passes short nonempty round
  | swallowing pos below => exact halted_swallowing passes below nonempty round _
  | stuck size =>
      rw [receiveRound_stuck size nonempty] at round
      cases round
  | waiting le incomplete => exact halted_waiting passes le incomplete nonempty round

end Protocol

/-! ## Streams of frames -/

theorem Message.ofHeader_header {header : MessageHeader} {readable : Option (List UInt8)}
    {msg : Message} (made : ofHeader header readable = some msg) : msg.header = header := by
  cases readable with
  | none =>
      cases made
      rfl
  | some bytes =>
      rw [ofHeader] at made
      split at made
      · split at made
        · cases made
        · cases made
          rfl
      · cases made
        rfl

/-- The call for a frame is for the message that is made of it, which has made its hop. -/
theorem CutFrame.call_eq_some {frame : CutFrame} {memory : List UInt8} {call : Call}
    (called : frame.call memory = some call) :
    ∃ msg : Message, Message.ofHeader frame.header (some (frame.body ++ memory)) = some msg ∧
      call = ⟨.success, some msg.hop⟩ ∧
      msg.hop.header = { frame.header with ttl := frame.header.ttl - 1 } := by
  rcases Option.map_eq_some_iff.mp called with ⟨msg, made, rfl⟩
  refine ⟨msg, made, rfl, ?_⟩
  rw [Message.hop, Message.ofHeader_header made]

theorem CutFrame.headerSize_le (frame : CutFrame) : headerSize ≤ frame.bytes.length := by
  rw [bytes, List.length_append, MessageHeader.length_bytes]
  exact Nat.le_add_right _ _

theorem CutFrame.size_le (frame : CutFrame) : frame.header.size.toNat ≤ maxPktSize := by
  rcases frame.size_cases with ⟨zero, _⟩ | ⟨_, le, _⟩
  · rw [zero]
    exact Nat.zero_le _
  · exact le

/-- The bytes do not start with a frame yet. -/
def CutFrame.Pending (rest : List UInt8) : Prop := ∀ frame : CutFrame, ¬ frame.bytes <+: rest

/-- Frames cannot be cut in another way. -/
theorem CutFrame.prefix_of_bytes {frames expected : List CutFrame} {rest more : List UInt8}
    (same : frames.flatMap bytes ++ rest = expected.flatMap bytes ++ more)
    (within : more.length < headerSize) : frames <+: expected := by
  induction frames generalizing expected with
  | nil => exact List.nil_prefix
  | cons frame frames ih =>
      rw [List.flatMap_cons, List.append_assoc] at same
      cases expected with
      | nil =>
          have lengthEq := congrArg List.length same
          have atLeast := frame.headerSize_le
          simp only [List.flatMap_nil, List.nil_append, List.length_append] at lengthEq
          omega
      | cons first expected =>
          rw [List.flatMap_cons, List.append_assoc] at same
          obtain rfl := eq_of_bytes_append same
          exact (List.prefix_cons_inj frame).mpr (ih (List.append_cancel_left same))

namespace Protocol

variable {σ : Type} {env : Surroundings σ} {start context last : σ}
  {seen rest input : List UInt8} {expected : List CutFrame}

/-- What a receiver holds in its buffer is not a frame yet. -/
theorem Stage.buffer_ne {protocol : Protocol} (stage : protocol.Stage) (frame : CutFrame)
    (more : List UInt8) : protocol.receiveBuffer ≠ frame.bytes ++ more := by
  intro whole
  have atLeast := frame.headerSize_le
  have lengthEq := congrArg List.length whole
  rw [List.length_append] at lengthEq
  -- a buffered header is the one of the frame, which is complete
  have sizeEq {header : MessageHeader} {body : List UInt8}
      (buffered : header.bytes ++ body = frame.bytes ++ more) :
      header.size.toNat = frame.header.size.toNat := by
    rw [CutFrame.bytes, List.append_assoc] at buffered
    rw [(MessageHeader.bytes_append_inj buffered).1]
  have complete := frame.size_cases
  have bytesLength : frame.bytes.length = headerSize + frame.body.length := by
    rw [CutFrame.bytes, List.length_append, MessageHeader.length_bytes]
  cases stage with
  | collecting short =>
      simp only at lengthEq
      omega
  | swallowing pos below =>
      have same := sizeEq whole
      omega
  | stuck size =>
      have same := sizeEq whole
      have pos : 0 < headerSize := by decide
      omega
  | waiting le incomplete =>
      have same := sizeEq whole
      simp only [announced, List.length_append, MessageHeader.length_bytes] at lengthEq
      omega

theorem Stage.pending {protocol : Protocol} (stage : protocol.Stage) :
    CutFrame.Pending protocol.receiveBuffer := by
  rintro frame ⟨more, whole⟩
  exact stage.buffer_ne frame more whole.symm

theorem Stage.eq_nil_of_frames {protocol : Protocol} (stage : protocol.Stage)
    {frames : List CutFrame} {more : List UInt8}
    (whole : protocol.receiveBuffer = frames.flatMap CutFrame.bytes ++ more) : frames = [] := by
  cases frames with
  | nil => rfl
  | cons frame frames =>
      rw [List.flatMap_cons, List.append_assoc] at whole
      exact absurd whole (stage.buffer_ne frame _)

/-- Behind a part of a stream of frames, some of them have been passed on, or all up to one
after which the handler does not let the receiver go on. -/
inductive Consumed (env : Surroundings σ) (start : σ) (frames : List CutFrame) (last : σ) : Prop
  | passed (passes : Passes env frames start last)
  | stopped {before : List CutFrame} {frame : CutFrame} {context : σ} {call : Call}
      {answer : Answer} (framesEq : frames = before ++ [frame])
      (passes : Passes env before start context)
      (called : frame.call (env.memory context) = some call)
      (handled : env.handle call context = (answer, last)) (stops : answer ≠ .goOn)

theorem Halted.consumed (halted : Halted env start input last)
    (arrived : input <+: expected.flatMap CutFrame.bytes) :
    ∃ frames, frames <+: expected ∧ Consumed env start frames last := by
  rcases arrived with ⟨more, streamEq⟩
  have cut {frames : List CutFrame} {rest : List UInt8}
      (inputEq : input = frames.flatMap CutFrame.bytes ++ rest) : frames <+: expected := by
    have same : frames.flatMap CutFrame.bytes ++ (rest ++ more) =
        expected.flatMap CutFrame.bytes ++ [] := by
      rw [List.append_nil, ← streamEq, inputEq, List.append_assoc]
    exact CutFrame.prefix_of_bytes same (by decide)
  cases halted with
  | silent inputEq passes => exact ⟨_, cut inputEq, .passed passes⟩
  | @refused frames header rest context inputEq passes big told =>
      rcases cut inputEq with ⟨others, rfl⟩
      rw [inputEq, List.flatMap_append, List.append_assoc] at streamEq
      have behind := List.append_cancel_left streamEq
      cases others with
      | nil =>
          have lengthEq := congrArg List.length behind
          simp only [List.flatMap_nil, List.length_append, MessageHeader.length_bytes,
            List.length_nil, headerSize] at lengthEq
          omega
      | cons frame others =>
          rw [List.flatMap_cons, CutFrame.bytes, List.append_assoc, List.append_assoc] at behind
          have small := frame.size_le
          rw [← (MessageHeader.bytes_append_inj behind).1] at small
          exact absurd big (Nat.not_lt_of_le small)
  | @stopped frames frame rest context call answer inputEq passes called handled stops =>
      have whole : input = (frames ++ [frame]).flatMap CutFrame.bytes ++ rest := by
        rw [inputEq, List.flatMap_append, List.flatMap_singleton, List.append_assoc]
      exact ⟨_, cut whole, .stopped rfl passes called handled stops⟩

end Protocol

/-! ## Connections -/

/-- The bytes that an event brings in. -/
def ReadEvent.bytes : ReadEvent → List UInt8
  | .completed chunk => chunk
  | .failed => []
  | .round => []

namespace Connection

open Protocol

/-- The bytes that the loop in `receive` has left. -/
def unread (conn : Connection) : List UInt8 :=
  match conn.task with
  | .waiting => []
  | .receiving rest => rest
  | .done => []

/-- A connection that reads on has followed its input up to the bytes that are left, and one
that is done has come to its end somewhere in it. -/
inductive Traced (memory : List Effect → List UInt8) (process : Processing)
    (input : List UInt8) (conn : Connection) : Prop
  | reading (reads : conn.task ≠ .done) {seen : List UInt8} (inputEq : input = seen ++ conn.unread)
      (track : Track ⟨memory, onReceive process⟩ [] seen conn.protocol conn.log)
  | ended (done : conn.task = .done)
      (halted : Halted ⟨memory, onReceive process⟩ [] input conn.log)

variable {memory : List Effect → List UInt8} {process : Processing} {input : List UInt8}

theorem traced_received {ending : Ending (List Effect)} (stops : ending.Stops)
    (halted : Halted ⟨memory, onReceive process⟩ [] input ending.context) :
    Traced memory process input (received ending) := by
  rw [received_of_stops stops]
  exact .ended rfl halted

/-- A round of a connection that follows its input. -/
theorem traced_round {protocol : Protocol} {log : List Effect} {seen rest : List UInt8}
    (track : Track ⟨memory, onReceive process⟩ [] seen protocol log) :
    Sum.elim
      (fun next => Traced memory process (seen ++ rest)
        ⟨next.protocol, next.context, .receiving next.rest⟩)
      (fun ending => Traced memory process (seen ++ rest) (received ending))
      (receiveRound ⟨memory, onReceive process⟩ ⟨protocol, log, rest⟩) := by
  by_cases nonempty : rest = []
  · subst nonempty
    have waits : Task.waiting ≠ .done := by simp
    exact .reading waits rfl track
  · cases round : receiveRound ⟨memory, onReceive process⟩ ⟨protocol, log, rest⟩ with
    | inl next =>
        by_cases full : protocol.receiveBuffer.length = protocol.recvTotalSize
        · rw [track.stage.receiveRound_stuck full nonempty] at round
          cases round
          exact .reading (by simp) rfl track
        · have moved := track.round full nonempty
          rw [round] at moved
          rcases moved with ⟨bytes, _, rfl, further⟩
          exact .reading (by simp) (List.append_assoc _ _ _).symm further
    | inr ending =>
        have once := callsOnce_round ⟨memory, onReceive process⟩ protocol log nonempty
        rw [round] at once
        exact traced_received once.1 (track.halted nonempty round)

/-- Each event takes a connection further along its input. -/
theorem Traced.react {conn next : Connection} {event : ReadEvent}
    (traced : Traced memory process input conn)
    (step : Connection.react memory process conn event = some next) :
    Traced memory process (input ++ event.bytes) next := by
  rcases conn with ⟨protocol, log, task⟩
  cases traced with
  | ended done halted =>
      cases done
      cases event with
      | completed chunk => cases step
      | failed => cases step
      | round => cases step
  | @reading reads seen inputEq track =>
      subst inputEq
      have given : Halted ⟨memory, onReceive process⟩ [] seen log := by
        rcases track.cut with ⟨frames, seenEq, passes⟩
        exact .silent seenEq passes
      cases task with
      | waiting =>
          cases event with
          | completed chunk =>
              simp only [Connection.react] at step
              split at step
              · cases step
                exact .ended rfl ((given.append _).append _)
              · cases step
                exact .reading (by simp) (by simp [unread, ReadEvent.bytes]) track
          | failed =>
              cases step
              exact .ended rfl ((given.append _).append _)
          | round => cases step
      | receiving rest =>
          cases event with
          | completed chunk => cases step
          | failed => cases step
          | round =>
              have kept : Sum.elim _ _
                  (receiveRound ⟨memory, onReceive process⟩ ⟨protocol, log, rest⟩) :=
                traced_round track
              rw [ReadEvent.bytes, List.append_nil]
              simp only [Connection.react] at step
              cases round : receiveRound ⟨memory, onReceive process⟩ ⟨protocol, log, rest⟩ with
              | inl state =>
                  rw [round] at step kept
                  cases step
                  exact kept
              | inr ending =>
                  rw [round] at step kept
                  cases step
                  exact kept
      | done => exact absurd rfl reads

/-- In every run a connection follows the bytes that have come in. -/
theorem traced_of_replay {events : List ReadEvent} {conn : Connection}
    (run : replay (Connection.react memory process) fresh events = some conn) :
    Traced memory process (events.flatMap ReadEvent.bytes) conn := by
  apply replay_history
    (fun events conn => Traced memory process (events.flatMap ReadEvent.bytes) conn) _ _ run
  · intro events state next event traced step
    rw [List.flatMap_append, List.flatMap_singleton]
    exact traced.react step
  · exact .reading (by simp [fresh]) rfl (track_idle _ _ _)

/-- Of a stream of frames a connection has passed on some, or all if it has read them. -/
theorem Traced.consumed {conn : Connection} {expected : List CutFrame}
    (traced : Traced memory process input conn)
    (arrived : input <+: expected.flatMap CutFrame.bytes) :
    ∃ frames, frames <+: expected ∧
      Consumed ⟨memory, onReceive process⟩ [] frames conn.log ∧
      (conn.task = .waiting → input = expected.flatMap CutFrame.bytes → frames = expected) := by
  cases traced with
  | @reading reads seen inputEq track =>
      rcases track with ⟨⟨frames, seenEq, passes⟩, stage⟩
      rcases arrived with ⟨more, streamEq⟩
      have same : frames.flatMap CutFrame.bytes ++
          (conn.protocol.receiveBuffer ++ (conn.unread ++ more)) =
            expected.flatMap CutFrame.bytes ++ [] := by
        rw [List.append_nil, ← streamEq, inputEq, seenEq, List.append_assoc, List.append_assoc]
      have taken : frames <+: expected := CutFrame.prefix_of_bytes same (by decide)
      refine ⟨frames, taken, .passed passes, ?_⟩
      intro waits whole
      rcases taken with ⟨others, rfl⟩
      have nothing : conn.unread = [] := by rw [unread, waits]
      rw [inputEq, seenEq, nothing, List.append_nil, List.flatMap_append] at whole
      have buffered := (List.append_cancel_left whole).trans (List.append_nil _).symm
      rw [stage.eq_nil_of_frames buffered, List.append_nil]
  | ended done halted =>
      rcases halted.consumed arrived with ⟨frames, taken, consumed⟩
      refine ⟨frames, taken, consumed, fun waits => ?_⟩
      rw [done] at waits
      cases waits

end Connection

end IotChain.P2P
