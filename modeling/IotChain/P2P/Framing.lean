import IotChain.P2P.Chunking

/-!
# Frames on the wire

The sender announces the length of the body.  The receiver takes the announced
number for the length of the whole frame when it decides how much to buffer, and
for the length of the body when it copies it out.  The two agree with each other
and with the sender on empty bodies only; this file computes what the receiver
does with every announced size, and decides when frames survive the round trip.
-/

namespace IotChain.P2P

open IotChain.Transition

namespace Protocol

/-! ## What the sender puts on the wire -/

/-- The header that `get_packet` writes for a message. -/
def wireHeader (msg : Message) : MessageHeader :=
  { msg.header with size := UInt32.ofNat msg.size }

/-- The bytes that `get_packet` produces for a message. -/
def wireBytes (msg : Message) : List UInt8 :=
  (wireHeader msg).bytes ++ msg.buf

theorem wireBytes_copy (msg : Message) : wireBytes msg.copy = wireBytes msg := by
  simp [wireBytes, wireHeader, Stream.size]

theorem getPacket_cons (protocol : Protocol) (msg : Message) (queue : List Message)
    (queueEq : protocol.sendQueue = msg :: queue) :
    protocol.getPacket = some (wireBytes msg, { protocol with sendQueue := queue }) := by
  have inside : Stream.empty.n ≤ Stream.empty.size := Nat.le_refl _
  rw [getPacket, queueEq]
  simp only
  rw [Stream.write_write inside, Stream.empty_write]
  rfl

theorem drain_eq_map (protocol : Protocol) :
    protocol.drain = protocol.sendQueue.map wireBytes := by
  rcases protocol with ⟨buffer, total, queue⟩
  rw [drain]
  induction queue with
  | nil => rfl
  | cons msg queue ih =>
      rw [List.length_cons, getPackets, getPacket_cons _ msg queue rfl]
      simpa using ih

/-- Accepted messages wait in the queue in the order of their acceptance, and none
of them is longer than the limit. -/
theorem send_all_queue {messages : List Message} {protocol sender : Protocol}
    (accepted : messages.foldlM send protocol = .ok sender) :
    sender.sendQueue = protocol.sendQueue ++ messages.map Message.copy ∧
      ∀ msg ∈ messages, msg.size ≤ maxPktSize := by
  induction messages generalizing protocol with
  | nil =>
      cases accepted
      simp
  | cons msg messages ih =>
      rw [List.foldlM_cons, send] at accepted
      split at accepted
      · cases accepted
      · rename_i notBig
        obtain ⟨queue, sizes⟩ := ih accepted
        refine ⟨by simpa using queue, ?_⟩
        rintro other (_ | ⟨_, member⟩)
        · exact Nat.le_of_not_gt notBig
        · exact sizes other member

/-- The bytes that a sender puts on the wire for messages it has accepted. -/
theorem drain_of_accepted {messages : List Message} {sender : Protocol}
    (accepted : messages.foldlM send fresh = .ok sender) :
    sender.drain.flatten = messages.flatMap wireBytes := by
  rw [drain_eq_map, (send_all_queue accepted).1, List.flatMap_def]
  simp only [fresh, List.nil_append, List.map_map]
  congr 2
  funext msg
  exact wireBytes_copy msg

/-! ## What the receiver does with an announced size -/

/-- The receiving side of an idle protocol with a given send queue. -/
def idle (queue : List Message) : Protocol := ⟨[], headerSize, queue⟩

/-- A protocol that has buffered a header and some bytes after it, and waits for
the announced size. -/
def announced (header : MessageHeader) (body : List UInt8) (queue : List Message) :
    Protocol :=
  ⟨header.bytes ++ body, header.size.toNat, queue⟩

theorem announced_insert (header : MessageHeader) (body bytes : List UInt8)
    (queue : List Message) :
    (announced header body queue).insert bytes = announced header (body ++ bytes) queue := by
  simp [insert, announced]

/-- The call made for a frame that announces an empty body. -/
def emptyCall (header : MessageHeader) : Call :=
  ⟨.success, some (Message.hop { Stream.empty with header := header })⟩

variable {handler : Handler} {queue : List Message} {calls : List Call}

/-- A header at the front of the rest is buffered in one round. -/
theorem receiveBody_idle (handler : Handler) (queue : List Message) (calls : List Call)
    (header : MessageHeader) (rest : List UInt8) :
    receiveBody handler ⟨idle queue, calls, header.bytes ++ rest⟩ =
      match onHeader handler ⟨header.bytes, headerSize, queue⟩ calls with
      | .inl (next, called) => .inl ⟨next, called, rest⟩
      | .inr outcome => .inr outcome := by
  have nonempty : header.bytes ++ rest ≠ [] := by
    intro isEmpty
    have lengthZero := congrArg List.length isEmpty
    simp [headerSize] at lengthZero
  have takenEq : (idle queue).taken (header.bytes ++ rest) = header.bytes.length := by
    rw [taken_of_missing_le (by simp [idle, missing, sizeSub, headerSize])]
    simp [idle, missing, sizeSub, headerSize]
  rw [receiveBody_of_ne_nil handler _ calls nonempty, takenEq, List.take_left,
    List.drop_left, dispatch, if_pos (by simp [idle, insert])]
  rfl

theorem onHeader_zero {header : MessageHeader} (size : header.size = 0) :
    onHeader handler ⟨header.bytes, headerSize, queue⟩ calls =
      if handler (calls ++ [emptyCall header]) then
        .inl (idle queue, calls ++ [emptyCall header])
      else
        .inr (.returned (idle queue) (calls ++ [emptyCall header]) false) := by
  simp only [onHeader, MessageHeader.ofBytes_bytes, size, UInt32.toNat_zero, if_true,
    Message.ofHeader]
  rfl

theorem onHeader_tooBig {header : MessageHeader} (big : maxPktSize < header.size.toNat) :
    onHeader handler ⟨header.bytes, headerSize, queue⟩ calls =
      .inr (.returned ⟨header.bytes, headerSize, queue⟩
        (calls ++ [⟨.messageTooBig, none⟩]) false) := by
  have notZero : header.size.toNat ≠ 0 := by omega
  simp [onHeader, big, notZero]

theorem onHeader_announced {header : MessageHeader} (pos : 0 < header.size.toNat)
    (le : header.size.toNat ≤ maxPktSize) :
    onHeader handler ⟨header.bytes, headerSize, queue⟩ calls =
      .inl (announced header [] queue, calls) := by
  have notZero : header.size.toNat ≠ 0 := by omega
  have notBig : ¬ maxPktSize < header.size.toNat := by omega
  simp [onHeader, notZero, notBig, announced]

/-- The handler answers true to each of a run of empty frames. -/
def Approves (handler : Handler) : List Call → List MessageHeader → Prop
  | _, [] => True
  | calls, header :: headers =>
      handler (calls ++ [emptyCall header]) = true ∧
        Approves handler (calls ++ [emptyCall header]) headers

/-- A frame that announces an empty body is delivered in one round. -/
theorem exits_empty_frame {header : MessageHeader} (size : header.size = 0)
    (approved : handler (calls ++ [emptyCall header]) = true) (rest : List UInt8)
    (outcome : Outcome) :
    Exits (receiveBody handler) ⟨idle queue, calls, header.bytes ++ rest⟩ outcome ↔
      Exits (receiveBody handler) ⟨idle queue, calls ++ [emptyCall header], rest⟩
        outcome := by
  have round := receiveBody_idle handler queue calls header rest
  rw [onHeader_zero size, if_pos approved] at round
  exact exits_iff_of_inl round outcome

theorem exits_empty_frames {headers : List MessageHeader}
    (sizes : ∀ header ∈ headers, header.size = 0)
    (approved : Approves handler calls headers) (rest : List UInt8) (outcome : Outcome) :
    Exits (receiveBody handler)
        ⟨idle queue, calls, headers.flatMap MessageHeader.bytes ++ rest⟩ outcome ↔
      Exits (receiveBody handler)
        ⟨idle queue, calls ++ headers.map emptyCall, rest⟩ outcome := by
  induction headers generalizing calls with
  | nil => simp
  | cons header headers ih =>
      have size : header.size = 0 := sizes header List.mem_cons_self
      rw [List.flatMap_cons, List.append_assoc, exits_empty_frame size approved.1,
        ih (fun other member => sizes other (List.mem_cons_of_mem header member)) approved.2]
      simp

/-- A header that announces a size within the limit leaves the receiver waiting
for it. -/
theorem exits_header_announced {header : MessageHeader} (pos : 0 < header.size.toNat)
    (le : header.size.toNat ≤ maxPktSize) (rest : List UInt8) (outcome : Outcome) :
    Exits (receiveBody handler) ⟨idle queue, calls, header.bytes ++ rest⟩ outcome ↔
      Exits (receiveBody handler) ⟨announced header [] queue, calls, rest⟩ outcome := by
  have round := receiveBody_idle handler queue calls header rest
  rw [onHeader_announced pos le] at round
  exact exits_iff_of_inl round outcome

/-- An announced size beyond the header is completed by so many bytes that the
whole frame has that size; the body is then copied past the end of the buffer. -/
theorem receiveBody_announced_body {header : MessageHeader} {body : List UInt8}
    (incomplete : headerSize + body.length < header.size.toNat) {rest : List UInt8}
    (enough : header.size.toNat ≤ headerSize + body.length + rest.length) :
    receiveBody handler ⟨announced header body queue, calls, rest⟩ =
      .inr (.overread
        (announced header
          (body ++ rest.take (header.size.toNat - (headerSize + body.length))) queue)
        calls) := by
  have missingEq : (announced header body queue).missing =
      header.size.toNat - (headerSize + body.length) := by
    simp only [missing, announced, List.length_append, MessageHeader.length_bytes]
    exact sizeSub_of_le (Nat.le_of_lt incomplete)
  have nonempty : rest ≠ [] := by
    rintro rfl
    simp only [List.length_nil] at enough
    omega
  have completed : (announced header body queue).insert
      (rest.take (header.size.toNat - (headerSize + body.length))) =
        announced header
          (body ++ rest.take (header.size.toNat - (headerSize + body.length))) queue := by
    simp [insert, announced]
  rw [receiveBody_of_ne_nil handler _ calls nonempty,
    taken_of_missing_le (by rw [missingEq]; omega), missingEq, completed]
  generalize received : body ++ rest.take (header.size.toNat - (headerSize + body.length)) =
    bytes
  have bytesLength : headerSize + bytes.length = header.size.toNat := by
    rw [← received, List.length_append, List.length_take]
    omega
  have headerPos : 0 < headerSize := by decide
  have positive : header.size > 0 := by
    apply UInt32.lt_iff_toNat_lt.mpr
    simp only [UInt32.toNat_zero]
    omega
  have copied : Message.ofHeader header (some bytes) = none := by
    rw [Message.ofHeader, if_pos positive, if_pos (by omega)]
  have lengthEq : (announced header bytes queue).receiveBuffer.length =
      header.size.toNat := by
    simp only [announced, List.length_append, MessageHeader.length_bytes]
    exact bytesLength
  have dropEq : (announced header bytes queue).receiveBuffer.drop headerSize = bytes := by
    simp [announced, List.drop_left' header.length_bytes]
  rw [dispatch, if_neg (by rw [lengthEq]; omega), if_pos (by rw [lengthEq]; rfl), onBody, dropEq]
  simp only [announced, MessageHeader.ofBytes_bytes_append, copied]

/-- An announced size equal to the header's is complete at once, and the branch
for headers is taken over and over. -/
theorem receiveBody_announced_header {header : MessageHeader}
    (size : header.size.toNat = headerSize) {rest : List UInt8} (nonempty : rest ≠ []) :
    receiveBody handler ⟨announced header [] queue, calls, rest⟩ =
      .inl ⟨announced header [] queue, calls, rest⟩ := by
  have missingEq : (announced header [] queue).missing = 0 := by
    simp [missing, announced, size, sizeSub, headerSize]
  have pos : 0 < header.size.toNat := by rw [size]; decide
  have le : header.size.toNat ≤ maxPktSize := by rw [size]; decide
  have again : dispatch handler (announced header [] queue) calls =
      .inl (announced header [] queue, calls) := by
    have stateEq : announced header [] queue = ⟨header.bytes, headerSize, queue⟩ := by
      simp [announced, size]
    rw [dispatch, if_pos (by simp [announced])]
    nth_rewrite 1 [stateEq]
    exact onHeader_announced pos le
  have insertEq : (announced header [] queue).insert [] = announced header [] queue := by
    simp [insert]
  rw [receiveBody_of_ne_nil handler _ calls nonempty,
    taken_of_missing_le (by rw [missingEq]; exact Nat.zero_le _), missingEq,
    List.take_zero, insertEq, again]
  rfl

/-- A protocol that waits for a size below the header's, with the header already
in the buffer. -/
structure Sink (protocol : Protocol) : Prop where
  buffered : headerSize ≤ protocol.receiveBuffer.length
  below : protocol.recvTotalSize < headerSize

theorem Sink.insert {protocol : Protocol} (sink : protocol.Sink) (bytes : List UInt8) :
    (protocol.insert bytes).Sink where
  buffered := by
    have buffered := sink.buffered
    rw [insert_length]
    omega
  below := sink.below

/-- What such a protocol takes completes neither a header nor a body. -/
theorem Sink.insert_incomplete {protocol : Protocol} (sink : protocol.Sink)
    {rest : List UInt8} (nonempty : rest ≠ []) :
    (protocol.insert (rest.take (protocol.taken rest))).receiveBuffer.length ≠ headerSize ∧
      (protocol.insert (rest.take (protocol.taken rest))).receiveBuffer.length ≠
        (protocol.insert (rest.take (protocol.taken rest))).recvTotalSize := by
  have buffered := sink.buffered
  have below := sink.below
  have restPos : 0 < rest.length := List.length_pos_iff.mpr nonempty
  rw [insert_length, insert_total, List.length_take]
  constructor
  · intro full
    simp only [taken, missing, sizeSub, headerSize] at full buffered below
    split at full <;> split at full <;> omega
  · intro full
    omega

/-- Such a protocol swallows all it is given without a call. -/
theorem Sink.receiveBody {protocol : Protocol} (sink : protocol.Sink) {rest : List UInt8}
    (nonempty : rest ≠ []) :
    receiveBody handler ⟨protocol, calls, rest⟩ =
      .inl ⟨protocol.insert (rest.take (protocol.taken rest)), calls,
        rest.drop (protocol.taken rest)⟩ := by
  rcases sink.insert_incomplete nonempty with ⟨notHeader, notBody⟩
  rw [receiveBody_of_ne_nil handler protocol calls nonempty, dispatch, if_neg notHeader,
    if_neg notBody]

/-- A swallowing protocol is still swallowing when a chunk ends. -/
theorem Sink.exits_returned {protocol next : Protocol} (sink : protocol.Sink)
    {rest : List UInt8} {called : List Call} {result : Bool}
    (run : Exits (Protocol.receiveBody handler) ⟨protocol, calls, rest⟩
      (.returned next called result)) : next.Sink := by
  refine run.of_invariant (fun state => state.protocol.Sink)
    (fun outcome => ∀ next called result,
      outcome = .returned next called result → next.Sink) ?_ sink _ _ _ rfl
  rintro ⟨protocol, calls, rest⟩ sink
  by_cases nonempty : rest = []
  · subst nonempty
    rintro next called result ⟨⟩
    exact sink
  · rw [sink.receiveBody nonempty]
    exact sink.insert _

/-- No announced body brings the receiver back to its initial state: it loops, it
swallows what follows, or it reads past its buffer. -/
theorem exits_announced_not_idle {header : MessageHeader} (pos : 0 < header.size.toNat)
    {rest : List UInt8} (enough : header.size.toNat ≤ rest.length) {next : Protocol}
    {called : List Call} {result : Bool}
    (run : Exits (receiveBody handler) ⟨announced header [] queue, calls, rest⟩
      (.returned next called result)) : next.receiveBuffer ≠ [] := by
  rcases Nat.lt_trichotomy header.size.toNat headerSize with below | equal | beyond
  · have sink : (announced header [] queue).Sink :=
      ⟨by simp [announced], below⟩
    have buffered := (sink.exits_returned run).buffered
    intro isEmpty
    rw [isEmpty] at buffered
    exact absurd buffered (by decide)
  · have nonempty : rest ≠ [] := by
      rintro rfl
      simp only [List.length_nil] at enough
      omega
    exact absurd run (diverges_of_fixed (receiveBody_announced_header equal nonempty) _)
  · have incomplete : headerSize + ([] : List UInt8).length < header.size.toNat := beyond
    cases run.unique (exits_of_inr (receiveBody_announced_body incomplete (by omega)))

end Protocol

/-! ## The round trip -/

/-- A call hands over a message that was sent: its type, its body, one hop less. -/
def Arrives (msg : Message) (call : Call) : Prop :=
  call.error = .success ∧ ∃ received, call.message = some received ∧
    received.header.type = msg.header.type ∧ received.buf = msg.buf ∧
      received.header.ttl.toNat = msg.header.ttl.toNat - 1

/-- Fed in these chunks, a fresh receiver whose handler always answers true hands
over exactly the messages sent, in order, and ends in its initial state. -/
def RoundTrips (messages : List Message) (chunks : List (List UInt8)) : Prop :=
  ∃ protocol calls,
    Protocol.Feeds (fun _ => true) Protocol.fresh [] chunks
        (.returned protocol calls true) ∧
      List.Forall₂ Arrives messages calls ∧
      protocol.receiveBuffer = [] ∧ protocol.recvTotalSize = headerSize

namespace Protocol

theorem approves_always (calls : List Call) (headers : List MessageHeader) :
    Approves (fun _ => true) calls headers := by
  induction headers generalizing calls with
  | nil => trivial
  | cons header headers ih => exact ⟨rfl, ih _⟩

theorem wireHeader_size_of_empty {msg : Message} (body : msg.buf = []) :
    (wireHeader msg).size = 0 := by
  simp [wireHeader, Stream.size, body]

theorem wireBytes_of_empty {msg : Message} (body : msg.buf = []) :
    wireBytes msg = (wireHeader msg).bytes := by
  simp [wireBytes, body]

/-- The announced size of a message within the limit is the length of its body. -/
theorem wireHeader_size {msg : Message} (le : msg.size ≤ maxPktSize) :
    (wireHeader msg).size.toNat = msg.size := by
  have small : msg.size < 2 ^ 32 := Nat.lt_of_le_of_lt le (by decide)
  simp only [wireHeader, UInt32.toNat_ofNat']
  exact Nat.mod_eq_of_lt small

theorem arrives_emptyCall {msg : Message} (body : msg.buf = [])
    (ttl : msg.header.ttl ≠ 0) : Arrives msg (emptyCall (wireHeader msg)) := by
  refine ⟨rfl, _, rfl, rfl, body.symm, ?_⟩
  have ttlPos : 1 ≤ msg.header.ttl := by
    apply UInt8.le_iff_toNat_le.mpr
    have nonzero : msg.header.ttl.toNat ≠ 0 := fun zero => ttl (UInt8.toNat_inj.mp zero)
    simp only [UInt8.toNat_one]
    omega
  exact UInt8.toNat_sub_of_le _ _ ttlPos

/-- One message with a body among those sent, and the receiver does not come back
to its initial state. -/
theorem exits_messages_not_idle {messages : List Message}
    (sizes : ∀ msg ∈ messages, msg.size ≤ maxPktSize)
    (some_body : ∃ msg ∈ messages, msg.buf ≠ []) {queue : List Message}
    {calls called : List Call} {next : Protocol} {result : Bool}
    (run : Exits (receiveBody (fun _ => true))
      ⟨idle queue, calls, messages.flatMap wireBytes⟩ (.returned next called result)) :
    next.receiveBuffer ≠ [] := by
  induction messages generalizing calls with
  | nil => simp at some_body
  | cons msg messages ih =>
      rw [List.flatMap_cons] at run
      by_cases body : msg.buf = []
      · rw [wireBytes_of_empty body,
          exits_empty_frame (wireHeader_size_of_empty body) rfl] at run
        refine ih (fun other member => sizes other (List.mem_cons_of_mem msg member)) ?_ run
        rcases some_body with ⟨other, member, otherBody⟩
        rcases List.mem_cons.mp member with rfl | member
        · exact absurd body otherBody
        · exact ⟨other, member, otherBody⟩
      · have le := sizes msg List.mem_cons_self
        have sizeEq := wireHeader_size le
        have pos : 0 < (wireHeader msg).size.toNat := by
          rw [sizeEq]
          exact List.length_pos_iff.mpr body
        rw [wireBytes, List.append_assoc,
          exits_header_announced pos (by rw [sizeEq]; exact le)] at run
        refine exits_announced_not_idle pos ?_ run
        rw [sizeEq, List.length_append]
        exact Nat.le_add_right _ _

end Protocol

/-- Messages that a sender has accepted survive the wire, however the bytes are
cut, exactly when none of them has a body. -/
theorem framing_round_trip_iff (messages : List Message) (sender : Protocol)
    (accepted : messages.foldlM Protocol.send Protocol.fresh = .ok sender)
    (ttl : ∀ msg ∈ messages, msg.header.ttl ≠ 0) (chunks : List (List UInt8))
    (cut : chunks.flatten = sender.drain.flatten) :
    RoundTrips messages chunks ↔ ∀ msg ∈ messages, msg.buf = [] := by
  have sizes := (Protocol.send_all_queue accepted).2
  have wire : chunks.flatten = messages.flatMap Protocol.wireBytes :=
    cut.trans (Protocol.drain_of_accepted accepted)
  constructor
  · rintro ⟨protocol, calls, fed, _, buffer, _⟩
    rw [Protocol.feeds_iff_exits_flatten Protocol.waiting_fresh, wire] at fed
    by_contra notEmpty
    push Not at notEmpty
    exact Protocol.exits_messages_not_idle sizes notEmpty fed buffer
  · intro bodies
    have bytesEq : messages.flatMap Protocol.wireBytes =
        (messages.map Protocol.wireHeader).flatMap MessageHeader.bytes ++ [] := by
      rw [List.append_nil, List.flatMap_map]
      exact List.flatMap_congr fun msg member =>
        Protocol.wireBytes_of_empty (bodies msg member)
    refine ⟨Protocol.fresh,
      (messages.map Protocol.wireHeader).map Protocol.emptyCall, ?_, ?_, rfl, rfl⟩
    · rw [Protocol.feeds_iff_exits_flatten Protocol.waiting_fresh, wire, bytesEq]
      apply (Protocol.exits_empty_frames ?_ (Protocol.approves_always _ _) _ _).mpr
      · exact exits_of_inr (Protocol.receiveBody_nil _ _ _)
      · intro header member
        obtain ⟨msg, sent, rfl⟩ := List.mem_map.mp member
        exact Protocol.wireHeader_size_of_empty (bodies msg sent)
    · rw [List.map_map, List.forall₂_map_right_iff, List.forall₂_same]
      exact fun msg member =>
        Protocol.arrives_emptyCall (bodies msg member) (ttl msg member)

/-- A ping and a pong without bodies, cut inside both headers. -/
theorem framing_round_trip_ping_pong :
    RoundTrips [⟨Stream.empty, ⟨77, 1, 45⟩⟩, ⟨Stream.empty, ⟨0, 2, 1⟩⟩]
      [[0, 0, 0], [0, 1, 45, 0, 0], [0, 0, 2, 1]] :=
  (framing_round_trip_iff [⟨Stream.empty, ⟨77, 1, 45⟩⟩, ⟨Stream.empty, ⟨0, 2, 1⟩⟩]
    ⟨[], 6, [⟨Stream.empty, ⟨77, 1, 45⟩⟩, ⟨Stream.empty, ⟨0, 2, 1⟩⟩]⟩ rfl (by decide)
    [[0, 0, 0], [0, 1, 45, 0, 0], [0, 0, 2, 1]] rfl).mpr (by decide)

/-- A message with a body of seven bytes, received in one chunk, does not survive:
the receiver has the frame complete one byte after the header and reads on. -/
theorem framing_round_trip_fails :
    ∃ sender, [⟨⟨[1, 2, 3, 4, 5, 6, 7], 7⟩, ⟨0, 5, 1⟩⟩].foldlM Protocol.send
        Protocol.fresh = .ok sender ∧
      sender.drain.flatten = [7, 0, 0, 0, 5, 1, 1, 2, 3, 4, 5, 6, 7] ∧
      ¬ RoundTrips [⟨⟨[1, 2, 3, 4, 5, 6, 7], 7⟩, ⟨0, 5, 1⟩⟩]
        [[7, 0, 0, 0, 5, 1, 1, 2, 3, 4, 5, 6, 7]] := by
  refine ⟨⟨[], 6, [⟨⟨[1, 2, 3, 4, 5, 6, 7], 7⟩, ⟨0, 5, 1⟩⟩]⟩, rfl, rfl, ?_⟩
  rintro ⟨protocol, calls, ⟨rounds, fed⟩, _⟩
  have faults : Protocol.feed (fun _ => true) 2 Protocol.fresh []
      [[7, 0, 0, 0, 5, 1, 1, 2, 3, 4, 5, 6, 7]] =
        .inr (.overread ⟨[7, 0, 0, 0, 5, 1, 1], 7, []⟩ []) := rfl
  have faultsLater := Protocol.feed_mono faults (Nat.le_add_left 2 rounds)
  rw [Protocol.feed_mono fed (Nat.le_add_right rounds 2)] at faultsLater
  cases faultsLater

end IotChain.P2P
