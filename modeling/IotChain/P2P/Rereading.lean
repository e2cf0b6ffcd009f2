import IotChain.Chain.Serialization
import IotChain.P2P.Framing
import IotChain.Stream.Accepting

/-!
# Reading a received message

Writing and reading share the cursor of a `buffer_stream`.  The constructor that the
receiver uses fills the message by writing, so it leaves the cursor behind the body,
where nothing is left to read.
-/

namespace IotChain.P2P

open IotChain.StreamSerializer

/-! ## Messages -/

namespace Message

/-- A sequence of `write` or `operator<<`, each with the bytes of its object. -/
def writeAll (msg : Message) (items : List (List UInt8)) : Message :=
  { msg with toStream := items.foldl Stream.write msg.toStream }

/-- The message that a receiver builds from the packet of an accepted message; `none` if
the message is too big to send. -/
def transmitted (msg : Message) : Option Message := do
  let sender ← (Protocol.fresh.send msg).toOption
  let (packet, _) ← sender.getPacket
  ofHeader (MessageHeader.ofBytes packet) (some (packet.drop headerSize))

end Message

/-- `MSG_TYPE_NEW_TX`. -/
abbrev msgTypeNewTx : UInt8 := 3

/-- The message that `blockchain::send_tx` builds, with the default `ttl`. -/
def txMessage (tx : TX) (size : UInt32) : Message :=
  let msg := Message.create msgTypeNewTx 45 size
  { msg with toStream := serializeTx tx msg.toStream }

/-- The body of that message is the transaction. -/
theorem txMessage_buf (tx : TX) (size : UInt32) : (txMessage tx size).buf = txBytes tx :=
  serializeTx_empty tx

/-- The default transaction is not too big to send. -/
theorem txMessage_default_le : (txMessage default 0).size ≤ maxPktSize := by
  simp only [Stream.size, txMessage_buf, txBytes, lengthBytes, List.length_append,
    Bytes.length_encodeLE, List.Vector.toList_length]
  decide

/-- A sequence of `read` or `operator>>` that asks for these numbers of bytes. -/
def readAll (counts : List Nat) : Reading (List (List UInt8)) :=
  counts.mapM Reading.bytes

/-- Reading the sizes of the items that were written returns the items. -/
def ReadsBack (received : Message) (items : List (List UInt8)) : Prop :=
  ∃ next, readAll (items.map List.length) received.toStream = .ok (items, next)

/-- `deserialize_tx` starts at the first byte and does not meet the end of the stream. -/
def ReadsTx (received : Message) : Prop :=
  received.n = 0 ∧ deserializeTx received.toStream ≠ .error endOfStream

/-! ## What arrives -/

theorem Message.ofHeader_of_length {header : MessageHeader} {body : List UInt8}
    (length : header.size.toNat = body.length) :
    ofHeader header (some body) = some { Stream.empty.write body with header := header } := by
  rw [ofHeader]
  by_cases pos : header.size > 0
  · rw [if_pos pos, if_neg (by omega), length, List.take_length]
  · have zero : header.size.toNat = 0 := Nat.eq_zero_of_not_pos pos
    have bodyEmpty : body = [] := List.eq_nil_of_length_eq_zero (by omega)
    rw [if_neg pos, bodyEmpty, Stream.write_nil]

/-- A message that is not too big arrives with its body, and with the cursor behind it. -/
theorem Message.transmitted_of_le {msg : Message} (le : msg.size ≤ maxPktSize) :
    msg.transmitted =
      some { Stream.mk msg.buf msg.buf.length with header := Protocol.wireHeader msg } := by
  have accepted : Protocol.fresh.send msg = .ok ⟨[], headerSize, [msg.copy]⟩ :=
    Protocol.send_of_le le
  have packet : (Protocol.mk [] headerSize [msg.copy]).getPacket =
      some (Protocol.wireBytes msg, Protocol.fresh) := by
    rw [Protocol.getPacket_cons _ msg.copy [] rfl, Protocol.wireBytes_copy]
    rfl
  have size := Protocol.wireHeader_size le
  rw [transmitted, accepted]
  simp only [Except.toOption, Option.bind_eq_bind, Option.bind_some, packet]
  rw [Protocol.wireBytes, MessageHeader.ofBytes_bytes_append,
    List.drop_left' (MessageHeader.length_bytes _), ofHeader_of_length size,
    Stream.empty_write]

theorem Message.transmitted_eq_some {msg received : Message}
    (arrives : msg.transmitted = some received) :
    received.toStream = ⟨msg.buf, msg.buf.length⟩ := by
  by_cases le : msg.size ≤ maxPktSize
  · rw [transmitted_of_le le] at arrives
    cases arrives
    rfl
  · rw [transmitted, Protocol.send_of_gt (Nat.lt_of_not_le le)] at arrives
    cases arrives

/-- Behind the body there is nothing to read. -/
theorem bytes_atEnd {buf : List UInt8} {count : Nat} (pos : 0 < count) :
    Reading.bytes count ⟨buf, buf.length⟩ = .error endOfStream := by
  have nothing : sizeSub buf.length buf.length < count := by
    rwa [sizeSub_of_le (Nat.le_refl _), Nat.sub_self]
  have atEnd : (Stream.mk buf buf.length).read count =
      .error (.runtimeError "end of stream") := if_pos nothing
  rw [Reading.bytes, atEnd]
  rfl

theorem bytes_zero (stream : Stream) : Reading.bytes 0 stream = .ok ([], stream) := by
  rw [Reading.bytes, Stream.read, if_neg (Nat.not_lt_zero _), List.take_zero]
  rfl

theorem readAll_cons (count : Nat) (counts : List Nat) (stream : Stream) :
    readAll (count :: counts) stream =
      Reading.bytes count stream >>= fun run =>
        readAll counts run.2 >>= fun others => .ok (run.1 :: others.1, others.2) := by
  rw [readAll, List.mapM_cons]
  rfl

/-- Started behind the body, a sequence of reads returns only empty items. -/
theorem readAll_atEnd_iff {buf : List UInt8} {items : List (List UInt8)} :
    (∃ next, readAll (items.map List.length) ⟨buf, buf.length⟩ = .ok (items, next)) ↔
      ∀ item ∈ items, item = [] := by
  induction items with
  | nil => exact ⟨fun _ => List.forall_mem_nil _, fun _ => ⟨_, rfl⟩⟩
  | cons item items ih =>
      rw [List.forall_mem_cons, List.map_cons, readAll_cons]
      by_cases empty : item = []
      · rw [empty, List.length_nil, bytes_zero, ← ih]
        change (∃ next, (readAll (items.map List.length) ⟨buf, buf.length⟩ >>= fun others =>
          Except.ok ([] :: others.1, others.2)) = .ok ([] :: items, next)) ↔ _
        cases run : readAll (items.map List.length) ⟨buf, buf.length⟩ with
        | error failure => simp [bind, Except.bind]
        | ok others => simp [bind, Except.bind, Prod.ext_iff]
      · rw [bytes_atEnd (List.length_pos_iff.mpr empty)]
        simp [empty, bind, Except.bind]

theorem deserializeTx_atEnd (buf : List UInt8) :
    deserializeTx ⟨buf, buf.length⟩ = .error endOfStream := by
  have first : Reading.uint64 ⟨buf, buf.length⟩ = .error endOfStream := by
    change (Reading.bytes 8 ⟨buf, buf.length⟩ >>= fun run =>
      (pure (UInt64.ofNat (Bytes.decodeLE run.1)) : Reading UInt64) run.2) = _
    rw [bytes_atEnd (by decide)]
    rfl
  change (Reading.uint64 ⟨buf, buf.length⟩ >>= fun run => _) = _
  rw [first]
  rfl

theorem not_readsTx {msg received : Message} (arrives : msg.transmitted = some received) :
    ¬ ReadsTx received.hop := by
  rintro ⟨_, noEnd⟩
  change deserializeTx received.toStream ≠ _ at noEnd
  rw [Message.transmitted_eq_some arrives] at noEnd
  exact noEnd (deserializeTx_atEnd msg.buf)

/-- A received message is read back exactly if nothing was written to it, and the
transaction in the message that a handler is given never is. -/
theorem readsBack_iff {type ttl : UInt8} {size : UInt32} {items : List (List UInt8)}
    {received : Message}
    (arrives : ((Message.create type ttl size).writeAll items).transmitted = some received)
    {tx : TX} {txSize : UInt32} {receivedTx : Message}
    (arrivesTx : (txMessage tx txSize).transmitted = some receivedTx) :
    (ReadsBack received items ↔ ∀ item ∈ items, item = []) ∧ ¬ ReadsTx receivedTx.hop := by
  constructor
  · rw [ReadsBack, Message.transmitted_eq_some arrives]
    exact readAll_atEnd_iff
  · exact not_readsTx arrivesTx

/-- Seven bytes in two items, and the default transaction. -/
theorem readsBack_iff_seven :
    ∃ received receivedTx : Message,
      (ReadsBack received [[1, 2, 3], [4, 5, 6, 7]] ↔
        ∀ item ∈ [[1, 2, 3], [4, 5, 6, 7]], item = ([] : List UInt8)) ∧
      ¬ ReadsTx receivedTx.hop := by
  have arrives : ((Message.create 5 45 0).writeAll [[1, 2, 3], [4, 5, 6, 7]]).transmitted =
      some ⟨⟨[1, 2, 3, 4, 5, 6, 7], 7⟩, ⟨7, 5, 45⟩⟩ := by rfl
  have arrivesTx := Message.transmitted_of_le txMessage_default_le
  exact ⟨_, _, readsBack_iff arrives arrivesTx⟩

/-- One byte is written, arrives, and is not read back. -/
theorem readsBack_fails :
    ¬ ∀ (items : List (List UInt8)) (received : Message),
      ((Message.create 5 45 0).writeAll items).transmitted = some received →
        ReadsBack received items := by
  intro readsBack
  have arrives : ((Message.create 5 45 0).writeAll [[9]]).transmitted =
      some ⟨⟨[9], 1⟩, ⟨1, 5, 45⟩⟩ := by rfl
  have nothing := readAll_atEnd_iff.mp (readsBack [[9]] _ arrives)
  exact absurd (nothing [9] List.mem_cons_self) (by decide)

end IotChain.P2P
