import IotChain.Stream.Core

/-!
# Messages of the peer-to-peer network

A message is a `buffer_stream` holding the body, together with a packed six-byte
header.  The constructor used by the receiver copies `header.size_` bytes from a
pointer; the bytes that may be read there are an argument of its model, and a
copy past their end is `none`.
-/

namespace IotChain.P2P

open IotChain.Bytes

/-- The packed `message_header`. -/
structure MessageHeader where
  size : UInt32
  type : UInt8
  ttl : UInt8
  deriving DecidableEq, Repr

/-- `sizeof(message_header)`. -/
def headerSize : Nat := 6

namespace MessageHeader

/-- The object bytes of a header on a little-endian host. -/
def bytes (header : MessageHeader) : List UInt8 :=
  encodeLE 4 header.size.toNat ++ [header.type, header.ttl]

/-- The header that the first six bytes of a buffer represent. -/
def ofBytes (buffer : List UInt8) : MessageHeader where
  size := UInt32.ofNat (decodeLE (buffer.take 4))
  type := buffer.getD 4 0
  ttl := buffer.getD 5 0

@[simp]
theorem length_bytes (header : MessageHeader) : header.bytes.length = headerSize := by
  simp [bytes, headerSize]

@[simp]
theorem ofBytes_bytes_append (header : MessageHeader) (rest : List UInt8) :
    ofBytes (header.bytes ++ rest) = header := by
  simp [ofBytes, decodeLE_encodeLE, bytes, List.getElem?_append_right]

@[simp]
theorem ofBytes_bytes (header : MessageHeader) : ofBytes header.bytes = header := by
  simpa using ofBytes_bytes_append header []

/-- The header at the front of some bytes is determined by them. -/
theorem bytes_append_inj {first second : MessageHeader} {more others : List UInt8}
    (same : first.bytes ++ more = second.bytes ++ others) : first = second ∧ more = others := by
  have headerEq : first = second := by
    rw [← ofBytes_bytes_append first more, same, ofBytes_bytes_append]
  subst headerEq
  exact ⟨rfl, List.append_cancel_left same⟩

/-- Six bytes are the object bytes of the header they represent. -/
theorem bytes_ofBytes {buffer : List UInt8} (length : buffer.length = headerSize) :
    (ofBytes buffer).bytes = buffer := by
  obtain ⟨sizeBytes, type, ttl, sizeLength, rfl⟩ :
      ∃ sizeBytes type ttl, sizeBytes.length = 4 ∧ buffer = sizeBytes ++ [type, ttl] := by
    match buffer, length with
    | [a, b, c, d, type, ttl], _ => exact ⟨[a, b, c, d], type, ttl, rfl, rfl⟩
  have sizeMod : decodeLE sizeBytes % 4294967296 = decodeLE sizeBytes := by
    have bound := decodeLE_lt sizeBytes
    rw [sizeLength] at bound
    exact Nat.mod_eq_of_lt bound
  have sizeEq : encodeLE 4 (decodeLE sizeBytes) = sizeBytes := by
    have written := encodeLE_decodeLE sizeBytes
    rwa [sizeLength] at written
  simp [bytes, ofBytes, List.take_left' sizeLength, sizeLength, sizeMod, sizeEq]

end MessageHeader

/-- A `message`: the body stream and the header. -/
structure Message extends Stream where
  header : MessageHeader
  deriving DecidableEq, Repr

namespace Message

/-- `message(uint8_t msg_type, uint8_t ttl)`.  It does not set `size_`, which is the last
argument here. -/
def create (type ttl : UInt8) (size : UInt32) : Message :=
  { Stream.empty with header := ⟨size, type, ttl⟩ }

/-- `message(const message_header&, const char* buf)`.  `none` stands for the
null pointer, `some readable` for a pointer at whose target exactly those bytes
may be read. -/
def ofHeader (header : MessageHeader) : Option (List UInt8) → Option Message
  | none => some { Stream.empty with header := header }
  | some readable =>
      if header.size > 0 then
        if readable.length < header.size.toNat then
          none
        else
          some { Stream.empty.write (readable.take header.size.toNat) with
            header := header }
      else
        some { Stream.empty with header := header }

/-- The copy constructor of `message`. -/
def copy (other : Message) : Message :=
  if other.size > 0 then
    { Stream.empty.write other.buf with header := other.header }
  else
    { Stream.empty with header := other.header }

/-- `message::hop`: one hop less to live, in unsigned eight-bit arithmetic. -/
def hop (msg : Message) : Message :=
  { msg with header := { msg.header with ttl := msg.header.ttl - 1 } }

@[simp]
theorem copy_buf (other : Message) : other.copy.buf = other.buf := by
  rw [copy]
  split
  · simp
  · rename_i emptySize
    have bufEmpty : other.buf = [] := by simpa [Stream.size] using emptySize
    simp [Stream.empty, bufEmpty]

@[simp]
theorem copy_header (other : Message) : other.copy.header = other.header := by
  rw [copy]
  split <;> rfl

end Message

end IotChain.P2P
