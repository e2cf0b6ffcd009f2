import IotChain.P2P.Message
import IotChain.Transition.Loop

/-!
# The framing protocol

`protocol::receive` is a loop over the bytes of one chunk.  Its phase is not
stored anywhere: it follows from the length of `receive_buffer_` and the target
`recv_total_size_`.  The model keeps the loop as a loop, since for some headers
it never ends, and records the handler's calls, since what a looping or faulting
run has already delivered matters too.
-/

namespace IotChain.P2P

open IotChain.Transition

/-- `protocol::max_pkt_size_`. -/
def maxPktSize : Nat := 1024 * 10

/-- The error codes of `detail::errc`. -/
inductive Errc
  | success
  | unknownOperation
  | messageTooBig
  | invalidHeader
  deriving DecidableEq, Repr

/-- One call of the handler given to `receive`. -/
structure Call where
  error : Errc
  message : Option Message
  deriving DecidableEq, Repr

/-- A handler answers from the calls made so far, the present one last. -/
abbrev Handler := List Call → Bool

/-- The state of a `protocol` object. -/
structure Protocol where
  receiveBuffer : List UInt8
  recvTotalSize : Nat
  sendQueue : List Message
  deriving DecidableEq, Repr

/-- How `receive` ends: it returns a boolean, or it reads `receive_buffer_` past
its end while it builds a message. -/
inductive Outcome
  | returned (protocol : Protocol) (calls : List Call) (result : Bool)
  | overread (protocol : Protocol) (calls : List Call)
  deriving DecidableEq, Repr

/-- An outcome after which no further chunk is passed to `receive`. -/
def Outcome.Stops : Outcome → Prop
  | .returned _ _ result => result = false
  | .overread _ _ => True

/-- The state of the loop in `receive`: the bytes from `ptr` to `end` are `rest`. -/
structure Receiving where
  protocol : Protocol
  calls : List Call
  rest : List UInt8
  deriving DecidableEq, Repr

namespace Protocol

/-- The constructor of `protocol`. -/
def fresh : Protocol := ⟨[], headerSize, []⟩

/-- `recv_total_size_ - receive_buffer_.size()`, in `size_t` arithmetic. -/
def missing (protocol : Protocol) : Nat :=
  sizeSub protocol.recvTotalSize protocol.receiveBuffer.length

/-- `receive_buffer_.insert(receive_buffer_.end(), ...)`. -/
def insert (protocol : Protocol) (bytes : List UInt8) : Protocol :=
  { protocol with receiveBuffer := protocol.receiveBuffer ++ bytes }

/-- The branch of `receive` taken when the buffer holds just a header. -/
def onHeader (handler : Handler) (protocol : Protocol) (calls : List Call) :
    (Protocol × List Call) ⊕ Outcome :=
  let header := MessageHeader.ofBytes protocol.receiveBuffer
  let newSize := header.size.toNat
  if newSize = 0 then
    match Message.ofHeader header none with
    | none => .inr (.overread protocol calls)
    | some msg =>
        let called := calls ++ [⟨.success, some msg.hop⟩]
        let cleared := { protocol with receiveBuffer := [] }
        if handler called then
          .inl (cleared, called)
        else
          .inr (.returned cleared called false)
  else if newSize > maxPktSize then
    -- the handler is told, its answer is not looked at
    .inr (.returned protocol (calls ++ [⟨.messageTooBig, none⟩]) false)
  else
    .inl ({ protocol with recvTotalSize := newSize }, calls)

/-- The branch of `receive` taken when the buffer has reached the target. -/
def onBody (handler : Handler) (protocol : Protocol) (calls : List Call) :
    (Protocol × List Call) ⊕ Outcome :=
  let header := MessageHeader.ofBytes protocol.receiveBuffer
  match Message.ofHeader header (some (protocol.receiveBuffer.drop headerSize)) with
  | none => .inr (.overread protocol calls)
  | some msg =>
      let called := calls ++ [⟨.success, some msg.hop⟩]
      let cleared := { protocol with receiveBuffer := [], recvTotalSize := headerSize }
      if handler called then
        .inl (cleared, called)
      else
        .inr (.returned cleared called false)

/-- What `receive` does after it has inserted bytes. -/
def dispatch (handler : Handler) (protocol : Protocol) (calls : List Call) :
    (Protocol × List Call) ⊕ Outcome :=
  if protocol.receiveBuffer.length = headerSize then
    onHeader handler protocol calls
  else if protocol.receiveBuffer.length = protocol.recvTotalSize then
    onBody handler protocol calls
  else
    .inl (protocol, calls)

/-- One round of the loop in `receive`. -/
def receiveBody (handler : Handler) : Body Receiving Outcome := fun state =>
  if state.rest = [] then
    .inr (.returned state.protocol state.calls true)
  else
    let availableBytes := state.rest.length
    let remainingBytes :=
      if state.protocol.missing > availableBytes then availableBytes
      else state.protocol.missing
    let inserted := state.protocol.insert (state.rest.take remainingBytes)
    match dispatch handler inserted state.calls with
    | .inl (next, calls) => .inl ⟨next, calls, state.rest.drop remainingBytes⟩
    | .inr outcome => .inr outcome

/-- `protocol::receive` on one chunk, within a number of rounds. -/
def receive (handler : Handler) (rounds : Nat) (protocol : Protocol)
    (calls : List Call) (chunk : List UInt8) : Receiving ⊕ Outcome :=
  iterate (receiveBody handler) rounds ⟨protocol, calls, chunk⟩

/-- Chunks passed in order to `receive` until it returns false. -/
def feed (handler : Handler) (rounds : Nat) (protocol : Protocol) (calls : List Call) :
    List (List UInt8) → Receiving ⊕ Outcome
  | [] => .inr (.returned protocol calls true)
  | chunk :: chunks =>
      match receive handler rounds protocol calls chunk with
      | .inr (.returned next called true) => feed handler rounds next called chunks
      | stopped => stopped

/-- Feeding the chunks ends with an outcome. -/
def Feeds (handler : Handler) (protocol : Protocol) (calls : List Call)
    (chunks : List (List UInt8)) (outcome : Outcome) : Prop :=
  ∃ rounds, feed handler rounds protocol calls chunks = .inr outcome

/-- `protocol::send`. -/
def send (protocol : Protocol) (msg : Message) : Except StdException Protocol :=
  if msg.size > maxPktSize then
    throw (.runtimeError "msg is too big to send")
  else
    pure { protocol with sendQueue := protocol.sendQueue ++ [msg.copy] }

theorem send_of_le {protocol : Protocol} {msg : Message} (fits : msg.size ≤ maxPktSize) :
    protocol.send msg =
      .ok { protocol with sendQueue := protocol.sendQueue ++ [msg.copy] } :=
  if_neg (Nat.not_lt_of_le fits)

theorem send_of_gt {protocol : Protocol} {msg : Message} (big : maxPktSize < msg.size) :
    protocol.send msg = .error (.runtimeError "msg is too big to send") :=
  if_pos big

/-- `protocol::get_packet`; `none` is the undefined `front()` of an empty queue. -/
def getPacket (protocol : Protocol) : Option (List UInt8 × Protocol) :=
  match protocol.sendQueue with
  | [] => none
  | msg :: queue =>
      let msgHeader := { msg.header with size := UInt32.ofNat msg.size }
      let w := (Stream.empty.write msgHeader.bytes).write msg.buf
      some (w.buf, { protocol with sendQueue := queue })

/-- The packets of a number of `get_packet` calls. -/
def getPackets : Nat → Protocol → List (List UInt8)
  | 0, _ => []
  | count + 1, protocol =>
      match protocol.getPacket with
      | none => []
      | some (packet, next) => packet :: getPackets count next

/-- All packets of a sender, taken until its queue is empty. -/
def drain (protocol : Protocol) : List (List UInt8) :=
  getPackets protocol.sendQueue.length protocol

end Protocol

end IotChain.P2P
