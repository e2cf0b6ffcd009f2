import IotChain.P2P.Framing

/-!
# What a delivered message is made of

For an arbitrary byte stream, the receiver has handed over empty frames only, and
what it has not yet handed over is in its buffer.  This invariant accounts for
every byte of the stream at every moment of every run.  It shows that the single
way to a message with foreign bytes is a frame whose announced size is completed.
-/

namespace IotChain.P2P

open IotChain.Transition

/-- A frame as a peer sends it: a header followed by as many bytes as it announces. -/
structure Frame where
  header : MessageHeader
  body : List UInt8
  sized : body.length = header.size.toNat

/-- The bytes of a frame. -/
def Frame.bytes (frame : Frame) : List UInt8 := frame.header.bytes ++ frame.body

/-- A call hands over just the body of a frame, under its header after one hop. -/
def Frame.HandedOver (frame : Frame) (call : Call) : Prop :=
  ∃ msg, call.message = some msg ∧ msg.buf = frame.body ∧
    msg.header = { frame.header with ttl := frame.header.ttl - 1 }

/-- The successful calls hand over the frames that the stream starts with. -/
def OwnBytes (stream : List UInt8) (calls : List Call) : Prop :=
  ∃ frames : List Frame, frames.flatMap Frame.bytes <+: stream ∧
    List.Forall₂ Frame.HandedOver frames (calls.filter fun call => call.error = .success)

/-- At every moment of the feeding, the messages handed over consist of the peer's
own bytes, and the buffer is never read past its end. -/
def NoForeignBytes (handler : Handler) (chunks : List (List UInt8)) : Prop :=
  ∀ rounds,
    match Protocol.feed handler rounds Protocol.fresh [] chunks with
    | .inl state => OwnBytes chunks.flatten state.calls
    | .inr (.returned _ calls _) => OwnBytes chunks.flatten calls
    | .inr (.overread _ _) => False

/-- After empty frames that the handler all approves, the stream has a header that
announces more than a header's size within the limit, and as many bytes after it as
bring the whole frame, header included, to the announced size. -/
def CompletesBody (handler : Handler) (stream : List UInt8) : Prop :=
  ∃ (headers : List MessageHeader) (header : MessageHeader) (rest : List UInt8),
    stream = headers.flatMap MessageHeader.bytes ++ (header.bytes ++ rest) ∧
      (∀ previous ∈ headers, previous.size = 0) ∧
      Protocol.Approves handler [] headers ∧
      headerSize < header.size.toNat ∧ header.size.toNat ≤ maxPktSize ∧
      header.size.toNat ≤ headerSize + rest.length

namespace Protocol

/-- The phases of the receiver, read off its buffer and its target. -/
inductive Phase : Protocol → Prop
  | collecting {buffer : List UInt8} {queue : List Message}
      (short : buffer.length < headerSize) : Phase ⟨buffer, headerSize, queue⟩
  | swallowing {header : MessageHeader} {body : List UInt8} {queue : List Message}
      (below : header.size.toNat < headerSize) : Phase (announced header body queue)
  | stuck {header : MessageHeader} {queue : List Message}
      (size : header.size.toNat = headerSize) : Phase (announced header [] queue)
  | waiting {header : MessageHeader} {body : List UInt8} {queue : List Message}
      (le : header.size.toNat ≤ maxPktSize)
      (incomplete : headerSize + body.length < header.size.toNat) :
      Phase (announced header body queue)

/-- The bytes seen so far are the empty frames handed over, all approved, and the
buffer. -/
structure Progress (handler : Handler) (seen : List UInt8) (protocol : Protocol)
    (calls : List Call) (headers : List MessageHeader) : Prop where
  sizes : ∀ header ∈ headers, header.size = 0
  approved : Approves handler [] headers
  calls_eq : calls = headers.map emptyCall
  seen_eq : seen = headers.flatMap MessageHeader.bytes ++ protocol.receiveBuffer
  phase : protocol.Phase

theorem progress_fresh (handler : Handler) : Progress handler [] fresh [] [] where
  sizes := by simp
  approved := trivial
  calls_eq := rfl
  seen_eq := rfl
  phase := .collecting (by decide)

theorem approves_append {handler : Handler} {calls : List Call}
    {headers : List MessageHeader} (approved : Approves handler calls headers)
    {header : MessageHeader}
    (last : handler (calls ++ headers.map emptyCall ++ [emptyCall header]) = true) :
    Approves handler calls (headers ++ [header]) := by
  induction headers generalizing calls with
  | nil => simpa [Approves] using last
  | cons first headers ih =>
      refine ⟨approved.1, ih approved.2 ?_⟩
      simpa using last

/-- Empty frames hand over their own bytes. -/
theorem exists_frames {headers : List MessageHeader}
    (sizes : ∀ header ∈ headers, header.size = 0) :
    ∃ frames : List Frame,
      frames.flatMap Frame.bytes = headers.flatMap MessageHeader.bytes ∧
        List.Forall₂ Frame.HandedOver frames (headers.map emptyCall) := by
  induction headers with
  | nil => exact ⟨[], rfl, .nil⟩
  | cons header headers ih =>
      obtain ⟨frames, bytesEq, handed⟩ :=
        ih fun other member => sizes other (List.mem_cons_of_mem header member)
      have size : header.size = 0 := sizes header List.mem_cons_self
      refine ⟨⟨header, [], by simp [size]⟩ :: frames, ?_, .cons ?_ handed⟩
      · simp [Frame.bytes, bytesEq]
      · exact ⟨_, rfl, rfl, rfl⟩

/-- Calls for empty frames, and perhaps a final refusal, hand over own bytes. -/
theorem ownBytes_of_headers {headers : List MessageHeader}
    (sizes : ∀ header ∈ headers, header.size = 0) {refusals : List Call}
    (refused : ∀ call ∈ refusals, call.error ≠ .success) {stream : List UInt8}
    (starts : headers.flatMap MessageHeader.bytes <+: stream) :
    OwnBytes stream (headers.map emptyCall ++ refusals) := by
  obtain ⟨frames, bytesEq, handed⟩ := exists_frames sizes
  refine ⟨frames, bytesEq ▸ starts, ?_⟩
  have deliveries : (headers.map emptyCall).filter (fun call => call.error = .success) =
      headers.map emptyCall :=
    List.filter_eq_self.mpr (by simp [emptyCall])
  have noRefusal : refusals.filter (fun call => call.error = .success) = [] :=
    List.filter_eq_nil_iff.mpr (by simpa using refused)
  rw [List.filter_append, deliveries, noRefusal, List.append_nil]
  exact handed

theorem Progress.ownBytes {handler : Handler} {seen : List UInt8} {protocol : Protocol}
    {calls : List Call} {headers : List MessageHeader}
    (progress : Progress handler seen protocol calls headers) {stream : List UInt8}
    (starts : seen <+: stream) : OwnBytes stream calls := by
  have framesStart : headers.flatMap MessageHeader.bytes <+: stream :=
    List.IsPrefix.trans ⟨_, progress.seen_eq.symm⟩ starts
  rw [progress.calls_eq, ← List.append_nil (List.map _ _)]
  exact ownBytes_of_headers progress.sizes (by simp) framesStart

/-! ## One round -/

/-- What an outcome shows of the stream received. -/
def Accounted (handler : Handler) (stream : List UInt8) : Outcome → Prop
  | .returned _ calls _ => OwnBytes stream calls
  | .overread _ _ => CompletesBody handler stream

/-- A loop state from which the whole stream is accounted for. -/
def OnTrack (handler : Handler) (stream : List UInt8) (state : Receiving) : Prop :=
  ∃ seen headers, seen ++ state.rest = stream ∧
    Progress handler seen state.protocol state.calls headers

variable {handler : Handler} {seen rest : List UInt8} {queue : List Message}
  {calls : List Call} {headers : List MessageHeader}

/-- Moving bytes from the rest to the buffer changes nothing else. -/
theorem Progress.moved {protocol : Protocol}
    (progress : Progress handler seen protocol calls headers) {count : Nat}
    (phase : (protocol.insert (rest.take count)).Phase) :
    OnTrack handler (seen ++ rest)
      ⟨protocol.insert (rest.take count), calls, rest.drop count⟩ := by
  refine ⟨seen ++ rest.take count, headers, by simp, ?_⟩
  exact {
    sizes := progress.sizes
    approved := progress.approved
    calls_eq := progress.calls_eq
    seen_eq := by simp [progress.seen_eq, insert]
    phase := phase }

/-- A loop state on track, or an accounted end of the loop. -/
def Kept (handler : Handler) (stream : List UInt8) : Receiving ⊕ Outcome → Prop :=
  Sum.elim (OnTrack handler stream)
    fun outcome => Accounted handler stream outcome ∧ outcome.Stops

section Header

variable {buffer first : List UInt8} {header : MessageHeader}

/-- With the header completed, the stream consists of headers and what follows them. -/
theorem Progress.stream_eq
    (progress : Progress handler seen ⟨buffer, headerSize, queue⟩ calls headers)
    (second : List UInt8) (completed : buffer ++ first = header.bytes) :
    seen ++ (first ++ second) =
      headers.flatMap MessageHeader.bytes ++ (header.bytes ++ second) := by
  rw [progress.seen_eq, ← completed]
  simp

/-- A header that announces no body is handed over; the handler decides what follows. -/
theorem Progress.empty_round
    (progress : Progress handler seen ⟨buffer, headerSize, queue⟩ calls headers)
    (second : List UInt8) (completed : buffer ++ first = header.bytes)
    (size : header.size = 0) :
    Kept handler (seen ++ (first ++ second))
      (if handler (calls ++ [emptyCall header]) = true then
        .inl ⟨idle queue, calls ++ [emptyCall header], second⟩
      else
        .inr (.returned (idle queue) (calls ++ [emptyCall header]) false)) := by
  have sizes : ∀ previous ∈ headers ++ [header], previous.size = 0 := by
    intro previous member
    rcases List.mem_append.mp member with member | member
    · exact progress.sizes previous member
    · rwa [List.mem_singleton.mp member]
  have bytesEq : (headers ++ [header]).flatMap MessageHeader.bytes ++ second =
      seen ++ (first ++ second) := by
    rw [progress.stream_eq second completed]
    simp
  have callsEq : calls ++ [emptyCall header] = (headers ++ [header]).map emptyCall := by
    simp [progress.calls_eq]
  by_cases answer : handler (calls ++ [emptyCall header]) = true
  · rw [if_pos answer]
    refine ⟨(headers ++ [header]).flatMap MessageHeader.bytes, headers ++ [header],
      bytesEq, ?_⟩
    exact {
      sizes := sizes
      approved := approves_append progress.approved (by simpa [← progress.calls_eq])
      calls_eq := callsEq
      seen_eq := by simp [idle]
      phase := .collecting (by decide) }
  · rw [if_neg answer]
    refine ⟨?_, rfl⟩
    rw [Accounted, callsEq, ← List.append_nil (List.map _ _)]
    exact ownBytes_of_headers sizes (by simp) ⟨second, bytesEq⟩

/-- An announced size within the limit decides the next phase. -/
theorem Progress.announced_round
    (progress : Progress handler seen ⟨buffer, headerSize, queue⟩ calls headers)
    (second : List UInt8) (completed : buffer ++ first = header.bytes)
    (le : header.size.toNat ≤ maxPktSize) :
    OnTrack handler (seen ++ (first ++ second))
      ⟨announced header [] queue, calls, second⟩ := by
  refine ⟨seen ++ first, headers, by simp, ?_⟩
  exact {
    sizes := progress.sizes
    approved := progress.approved
    calls_eq := progress.calls_eq
    seen_eq := by
      rw [progress.seen_eq, List.append_assoc, completed]
      simp [announced]
    phase := by
      rcases Nat.lt_trichotomy header.size.toNat headerSize with below | equal | beyond
      · exact .swallowing below
      · exact .stuck equal
      · exact .waiting le beyond }

/-- The round in which a header is completed. -/
theorem Progress.header_round
    (progress : Progress handler seen ⟨buffer, headerSize, queue⟩ calls headers)
    (second : List UInt8) (completed : buffer ++ first = header.bytes) :
    Kept handler (seen ++ (first ++ second))
      (match onHeader handler ⟨header.bytes, headerSize, queue⟩ calls with
        | .inl (next, called) => .inl ⟨next, called, second⟩
        | .inr outcome => .inr outcome) := by
  by_cases size : header.size = 0
  · have handed := progress.empty_round second completed size
    rw [onHeader_zero size]
    by_cases answer : handler (calls ++ [emptyCall header]) = true
    · rw [if_pos answer] at handed ⊢
      exact handed
    · rw [if_neg answer] at handed ⊢
      exact handed
  · have pos : 0 < header.size.toNat :=
      Nat.pos_of_ne_zero fun zero => size (UInt32.toNat_inj.mp zero)
    by_cases le : header.size.toNat ≤ maxPktSize
    · rw [onHeader_announced pos le]
      exact progress.announced_round second completed le
    · rw [onHeader_tooBig (Nat.lt_of_not_le le)]
      refine ⟨?_, rfl⟩
      rw [Accounted, progress.calls_eq]
      exact ownBytes_of_headers progress.sizes (by simp)
        ⟨header.bytes ++ second, (progress.stream_eq second completed).symm⟩

end Header

/-- A round of the phase that collects a header. -/
theorem Progress.collecting_round {buffer : List UInt8}
    (progress : Progress handler seen ⟨buffer, headerSize, queue⟩ calls headers)
    (short : buffer.length < headerSize) (nonempty : rest ≠ []) :
    Kept handler (seen ++ rest)
      (receiveBody handler ⟨⟨buffer, headerSize, queue⟩, calls, rest⟩) := by
  have missingEq : (Protocol.mk buffer headerSize queue).missing =
      headerSize - buffer.length := sizeSub_of_le (Nat.le_of_lt short)
  by_cases lt : rest.length < headerSize - buffer.length
  · have phase : ((Protocol.mk buffer headerSize queue).insert
        (rest.take rest.length)).Phase := by
      apply Phase.collecting
      simp only [List.take_length, List.length_append]
      omega
    have track := progress.moved phase
    rw [List.take_length, List.drop_length] at track
    rw [receiveBody_of_lt_missing handler calls (fun _ => rfl) nonempty
      (by rw [missingEq]; exact lt)]
    exact track
  · have lengthEq : (buffer ++ rest.take (headerSize - buffer.length)).length =
        headerSize := by
      rw [List.length_append, List.length_take]
      omega
    have completed := (MessageHeader.bytes_ofBytes lengthEq).symm
    have kept := progress.header_round (rest.drop (headerSize - buffer.length)) completed
    rw [List.take_append_drop, ← completed] at kept
    rw [receiveBody_of_ne_nil handler _ calls nonempty,
      taken_of_missing_le (by rw [missingEq]; omega), missingEq, dispatch,
      if_pos (by rw [insert]; exact lengthEq)]
    exact kept

section Body

variable {header : MessageHeader} {body : List UInt8}

/-- A round of the phase that swallows what follows a header. -/
theorem Progress.swallowing_round
    (progress : Progress handler seen (announced header body queue) calls headers)
    (below : header.size.toNat < headerSize) (nonempty : rest ≠ []) :
    Kept handler (seen ++ rest)
      (receiveBody handler ⟨announced header body queue, calls, rest⟩) := by
  have sink : (announced header body queue).Sink := ⟨by simp [announced], below⟩
  rw [sink.receiveBody nonempty]
  apply progress.moved
  rw [announced_insert]
  exact .swallowing below

/-- A round of the phase that waits for a body: it is the last one when the whole frame,
header included, reaches the announced size. -/
theorem Progress.waiting_round
    (progress : Progress handler seen (announced header body queue) calls headers)
    (le : header.size.toNat ≤ maxPktSize)
    (incomplete : headerSize + body.length < header.size.toNat) (nonempty : rest ≠ []) :
    Kept handler (seen ++ rest)
      (receiveBody handler ⟨announced header body queue, calls, rest⟩) := by
  by_cases enough : header.size.toNat ≤ headerSize + body.length + rest.length
  · rw [receiveBody_announced_body incomplete enough]
    refine ⟨⟨headers, header, body ++ rest, ?_, progress.sizes, progress.approved, ?_, le,
      ?_⟩, trivial⟩
    · simp [progress.seen_eq, announced]
    · omega
    · rw [List.length_append]
      omega
  · have missingEq : (announced header body queue).missing =
        header.size.toNat - (headerSize + body.length) := by
      simp only [missing, announced, List.length_append, MessageHeader.length_bytes]
      exact sizeSub_of_le (Nat.le_of_lt incomplete)
    have phase : ((announced header body queue).insert (rest.take rest.length)).Phase := by
      rw [announced_insert, List.take_length]
      apply Phase.waiting le
      rw [List.length_append]
      omega
    have track := progress.moved phase
    rw [List.take_length, List.drop_length] at track
    have waiting : (announced header body queue).Waiting := by
      intro short
      simp only [announced, List.length_append, MessageHeader.length_bytes] at short
      omega
    rw [receiveBody_of_lt_missing handler calls waiting nonempty
      (by rw [missingEq]; omega)]
    exact track

end Body

/-- One round on a nonempty rest keeps the stream accounted for. -/
theorem Progress.round {protocol : Protocol}
    (progress : Progress handler seen protocol calls headers) (nonempty : rest ≠ []) :
    Kept handler (seen ++ rest) (receiveBody handler ⟨protocol, calls, rest⟩) := by
  cases progress.phase with
  | collecting short => exact progress.collecting_round short nonempty
  | swallowing below => exact progress.swallowing_round below nonempty
  | stuck size =>
      rw [receiveBody_announced_header size nonempty]
      exact ⟨seen, headers, rfl, progress⟩
  | waiting le incomplete => exact progress.waiting_round le incomplete nonempty

/-! ## Whole runs -/

/-- A chunk is received on track at every moment, and to its end when it is. -/
theorem receive_onTrack {stream chunk : List UInt8} {protocol : Protocol}
    (track : OnTrack handler stream ⟨protocol, calls, chunk⟩) (rounds : Nat) :
    Sum.elim (OnTrack handler stream)
      (fun outcome => Accounted handler stream outcome ∧
        ∀ next called, outcome = .returned next called true →
          ∃ headers, Progress handler stream next called headers)
      (receive handler rounds protocol calls chunk) := by
  apply iterate_invariant _ _ _ rounds track
  rintro ⟨protocol, calls, rest⟩ ⟨seen, headers, rfl, progress⟩
  by_cases nonempty : rest = []
  · subst nonempty
    rw [receiveBody_nil, List.append_nil]
    refine ⟨progress.ownBytes (List.prefix_refl seen), ?_⟩
    rintro next called ⟨⟩
    exact ⟨headers, progress⟩
  · have kept := progress.round nonempty
    cases round : receiveBody handler ⟨protocol, calls, rest⟩ with
    | inl next =>
        rw [round] at kept
        exact kept
    | inr outcome =>
        rw [round] at kept
        refine ⟨kept.1, ?_⟩
        rintro next called rfl
        exact absurd kept.2 (by simp [Outcome.Stops])

theorem Accounted.append {stream : List UInt8} {outcome : Outcome}
    (accounted : Accounted handler stream outcome) (more : List UInt8) :
    Accounted handler (stream ++ more) outcome := by
  cases outcome with
  | returned next called result =>
      rcases accounted with ⟨frames, starts, handed⟩
      exact ⟨frames, starts.trans (List.prefix_append stream more), handed⟩
  | overread next called =>
      rcases accounted with ⟨headers, header, body, rfl, sizes, approved, beyond, le, enough⟩
      refine ⟨headers, header, body ++ more, by simp, sizes, approved, beyond, le, ?_⟩
      rw [List.length_append]
      omega

/-- Whatever the stream, its chunks and the handler: a run hands over the peer's own
bytes, unless the stream completes a body. -/
theorem feed_accounted {protocol : Protocol}
    (progress : Progress handler seen protocol calls headers) (rounds : Nat)
    (chunks : List (List UInt8)) :
    Sum.elim (fun state => OwnBytes (seen ++ chunks.flatten) state.calls)
      (Accounted handler (seen ++ chunks.flatten))
      (feed handler rounds protocol calls chunks) := by
  induction chunks generalizing seen protocol calls headers with
  | nil => exact progress.ownBytes (List.prefix_append seen _)
  | cons chunk chunks ih =>
      have track : OnTrack handler (seen ++ chunk) ⟨protocol, calls, chunk⟩ :=
        ⟨seen, headers, rfl, progress⟩
      have received := receive_onTrack track rounds
      rw [List.flatten_cons, ← List.append_assoc, feed]
      cases run : receive handler rounds protocol calls chunk with
      | inl state =>
          rw [run] at received
          rcases received with ⟨reached, headers, streamEq, progress⟩
          apply progress.ownBytes
          use state.rest ++ chunks.flatten
          rw [← List.append_assoc, streamEq]
      | inr outcome =>
          rw [run] at received
          rcases received with ⟨accounted, goesOn⟩
          cases outcome with
          | returned next called result =>
              cases result with
              | true =>
                  obtain ⟨headers, progress⟩ := goesOn next called rfl
                  exact ih progress
              | false => exact accounted.append chunks.flatten
          | overread next called => exact accounted.append chunks.flatten

/-- A stream that completes a body makes the receiver read past its buffer. -/
theorem feeds_overread {chunks : List (List UInt8)}
    (completes : CompletesBody handler chunks.flatten) :
    ∃ protocol calls, Feeds handler fresh [] chunks (.overread protocol calls) := by
  rcases completes with ⟨headers, header, rest, streamEq, sizes, approved, beyond, le, enough⟩
  have pos : 0 < header.size.toNat := Nat.zero_lt_of_lt beyond
  have incomplete : headerSize + ([] : List UInt8).length < header.size.toNat := beyond
  have overread : Exits (receiveBody handler)
      ⟨announced header [] [], [] ++ headers.map emptyCall, rest⟩ _ :=
    exits_of_inr (receiveBody_announced_body incomplete enough)
  have whole := (exits_empty_frames sizes approved _ _).mpr
    ((exits_header_announced pos le rest _).mpr overread)
  rw [← streamEq] at whole
  exact ⟨_, _, (feeds_iff_exits_flatten waiting_fresh _).mpr whole⟩

end Protocol

/-- Exactly the streams that do not complete a body are delivered without foreign
bytes, however they are cut. -/
theorem noForeignBytes_iff (handler : Handler) (chunks : List (List UInt8)) :
    NoForeignBytes handler chunks ↔ ¬ CompletesBody handler chunks.flatten := by
  constructor
  · intro clean completes
    obtain ⟨protocol, calls, rounds, fed⟩ := Protocol.feeds_overread completes
    have atEnd := clean rounds
    rw [fed] at atEnd
    exact atEnd
  · intro incomplete rounds
    have accounted :=
      Protocol.feed_accounted (Protocol.progress_fresh handler) rounds chunks
    cases run : Protocol.feed handler rounds Protocol.fresh [] chunks with
    | inl state =>
        rw [run] at accounted
        exact accounted
    | inr outcome =>
        rw [run] at accounted
        cases outcome with
        | returned protocol calls result => exact accounted
        | overread protocol calls => exact incomplete accounted

/-- Seven bytes of a stream are enough: the header announces seven bytes, one
follows it, and six more are read from beyond the buffer. -/
theorem foreign_bytes_of_seven :
    ¬ NoForeignBytes (fun _ => true) [[7, 0, 0, 0, 5, 1, 9]] :=
  fun clean => clean 2

end IotChain.P2P
