import IotChain.P2P.Reception

/-!
# How the receiver cuts the stream

The receiver counts the header into the announced size when it decides where a frame
ends.  So it takes a header that announces nothing for a whole frame, and a header that
announces more than its own size for a frame of that size.  A size in between is announced
and never completed.  This file follows the receiver through a stream of such frames, in
whatever chunks it arrives.
-/

namespace IotChain.P2P

open IotChain.Transition

/-- What the receiver takes for a frame. -/
structure CutFrame where
  header : MessageHeader
  body : List UInt8
  cut : header.size = 0 ∧ body = [] ∨
    headerSize < header.size.toNat ∧ header.size.toNat ≤ maxPktSize ∧
      headerSize + body.length = header.size.toNat

namespace CutFrame

/-- The bytes of a frame in the stream. -/
def bytes (frame : CutFrame) : List UInt8 := frame.header.bytes ++ frame.body

/-- The call for a frame: the body is completed from the memory behind the buffer. -/
def call (frame : CutFrame) (memory : List UInt8) : Option Call :=
  (Message.ofHeader frame.header (some (frame.body ++ memory))).map fun msg =>
    ⟨.success, some msg.hop⟩

theorem size_cases (frame : CutFrame) :
    frame.header.size.toNat = 0 ∧ frame.body = [] ∨
      headerSize < frame.header.size.toNat ∧ frame.header.size.toNat ≤ maxPktSize ∧
        headerSize + frame.body.length = frame.header.size.toNat := by
  rcases frame.cut with ⟨zero, body⟩ | beyond
  · exact .inl ⟨congrArg UInt32.toNat zero, body⟩
  · exact .inr beyond

/-- A frame is determined by the bytes that start with it. -/
theorem eq_of_bytes_append {first second : CutFrame} {more others : List UInt8}
    (same : first.bytes ++ more = second.bytes ++ others) : first = second := by
  rw [bytes, bytes, List.append_assoc, List.append_assoc] at same
  rcases MessageHeader.bytes_append_inj same with ⟨headerEq, bodies⟩
  have lengthEq : first.body.length = second.body.length := by
    have firstCases := first.size_cases
    have secondCases := second.size_cases
    rw [headerEq] at firstCases
    rcases firstCases with ⟨zero, body⟩ | ⟨beyond, _, complete⟩
    · rcases secondCases with ⟨_, body'⟩ | ⟨beyond', _, _⟩
      · rw [body, body']
      · omega
    · rcases secondCases with ⟨zero', _⟩ | ⟨_, _, complete'⟩
      · omega
      · omega
  have bodyEq := (List.append_inj bodies lengthEq).1
  cases first
  cases second
  simp_all

end CutFrame

namespace Protocol

variable {σ : Type} {env : Surroundings σ} {queue : List Message} {context last : σ}

/-- Some frames are handed over, and the handler lets the receiver go on after each. -/
def Passes (env : Surroundings σ) : List CutFrame → σ → σ → Prop
  | [], context, last => context = last
  | frame :: frames, context, last =>
      ∃ call next, frame.call (env.memory context) = some call ∧
        env.handle call context = (.goOn, next) ∧ Passes env frames next last

theorem passes_append {first second : List CutFrame} :
    Passes env (first ++ second) context last ↔
      ∃ middle, Passes env first context middle ∧ Passes env second middle last := by
  induction first generalizing context with
  | nil => simp [Passes]
  | cons frame first ih =>
      simp only [List.cons_append, Passes, ih]
      constructor
      · rintro ⟨call, next, called, handled, middle, passed, others⟩
        exact ⟨middle, ⟨call, next, called, handled, passed⟩, others⟩
      · rintro ⟨middle, ⟨call, next, called, handled, passed⟩, others⟩
        exact ⟨call, next, called, handled, middle, passed, others⟩

/-! ## Rounds -/

/-- A rest that does not complete anything only moves into the buffer. -/
theorem receiveRound_short {protocol : Protocol} (waiting : protocol.Waiting)
    {rest : List UInt8} (nonempty : rest ≠ []) (lt : rest.length < protocol.missing)
    (room : protocol.receiveBuffer.length + rest.length ≤ vectorMaxSize) :
    receiveRound env ⟨protocol, context, rest⟩ =
      .inl ⟨protocol.insert rest, context, []⟩ := by
  rcases insert_incomplete waiting nonempty lt with ⟨notHeader, notBody⟩
  have takenEq := taken_of_lt_missing lt
  rw [receiveRound_of_ne_nil env context nonempty (by rwa [takenEq]), takenEq,
    List.take_length, List.drop_length, branch, if_neg notHeader, if_neg notBody, goOn]

/-- A rest that brings the buffer to its target is inserted up to there. -/
theorem receiveRound_completing {protocol : Protocol} {first second : List UInt8}
    (missing : protocol.missing = first.length) (nonempty : first ++ second ≠ [])
    (room : protocol.receiveBuffer.length + first.length ≤ vectorMaxSize) :
    receiveRound env ⟨protocol, context, first ++ second⟩ =
      goOn second (branch env (protocol.insert first) context) := by
  have takenEq : protocol.taken (first ++ second) = first.length := by
    rw [taken_of_missing_le, missing]
    rw [missing, List.length_append]
    exact Nat.le_add_right _ _
  rw [receiveRound_of_ne_nil env context nonempty (by rwa [takenEq]), takenEq,
    List.take_left, List.drop_left]

/-- With nothing missing, a round inserts nothing. -/
theorem receiveRound_full {protocol : Protocol} {rest : List UInt8}
    (full : protocol.receiveBuffer.length = protocol.recvTotalSize) (nonempty : rest ≠ [])
    (room : protocol.receiveBuffer.length ≤ vectorMaxSize) :
    receiveRound env ⟨protocol, context, rest⟩ = goOn rest (branch env protocol context) := by
  have missing : protocol.missing = ([] : List UInt8).length := by
    simp [Protocol.missing, sizeSub, full]
  have insertEq : protocol.insert [] = protocol := by simp [insert]
  have round : receiveRound env ⟨protocol, context, [] ++ rest⟩ =
      goOn rest (branch env (protocol.insert []) context) :=
    receiveRound_completing missing nonempty room
  rwa [insertEq] at round

theorem branch_header (header : MessageHeader) (total : Nat) :
    branch env ⟨header.bytes, total, queue⟩ context =
      headerBranch env ⟨header.bytes, total, queue⟩ context :=
  if_pos header.length_bytes

/-- A header that announces nothing is handed over as a frame. -/
theorem headerBranch_zero {header : MessageHeader} (size : header.size = 0) :
    headerBranch env ⟨header.bytes, headerSize, queue⟩ context =
      deliver env (emptyCall header) ⟨header.bytes, headerSize, queue⟩ (idle queue)
        context := by
  simp only [headerBranch, MessageHeader.ofBytes_bytes, size, UInt32.toNat_zero, if_true,
    Message.ofHeader]
  rfl

theorem headerBranch_announced {header : MessageHeader} (pos : 0 < header.size.toNat)
    (le : header.size.toNat ≤ maxPktSize) (total : Nat) :
    headerBranch env ⟨header.bytes, total, queue⟩ context =
      .inl (announced header [] queue, context) := by
  have notZero : header.size.toNat ≠ 0 := by omega
  have notBig : ¬ maxPktSize < header.size.toNat := by omega
  simp [headerBranch, notZero, notBig, announced]

/-- A header that announces too much makes the receiver stop. -/
theorem headerBranch_tooBig {header : MessageHeader} (big : maxPktSize < header.size.toNat)
    (total : Nat) :
    ∃ next,
      headerBranch env ⟨header.bytes, total, queue⟩ context =
          .inr (.returned ⟨header.bytes, total, queue⟩ next false) ∨
        headerBranch env ⟨header.bytes, total, queue⟩ context =
          .inr (.threw ⟨header.bytes, total, queue⟩ next) := by
  have notZero : header.size.toNat ≠ 0 := by omega
  simp only [headerBranch, MessageHeader.ofBytes_bytes, notZero, if_false,
    if_pos (show header.size.toNat > maxPktSize from big)]
  rcases env.handle ⟨.messageTooBig, none⟩ context with ⟨answer, next⟩
  refine ⟨next, ?_⟩
  cases answer with
  | goOn => exact .inl rfl
  | stop => exact .inl rfl
  | throws => exact .inr rfl

/-- What `receive` does with a frame that it has in its buffer. -/
def handOver (env : Surroundings σ) (frame : CutFrame) (protocol : Protocol) (context : σ) :
    (Protocol × σ) ⊕ Ending σ :=
  match frame.call (env.memory context) with
  | none => .inr (.overread protocol context)
  | some call => deliver env call protocol (idle protocol.sendQueue) context

/-- A body that is complete by the count of the receiver is handed over as a frame. -/
theorem branch_announced (frame : CutFrame) (beyond : headerSize < frame.header.size.toNat) :
    branch env (announced frame.header frame.body queue) context =
      handOver env frame (announced frame.header frame.body queue) context := by
  have complete : headerSize + frame.body.length = frame.header.size.toNat := by
    rcases frame.cut with ⟨zero, _⟩ | ⟨_, _, complete⟩
    · rw [zero] at beyond
      exact absurd beyond (Nat.not_lt_zero _)
    · exact complete
  have lengthEq : (announced frame.header frame.body queue).receiveBuffer.length =
      frame.header.size.toNat := by
    rw [← complete]
    simp [announced]
  have bodyEq : (announced frame.header frame.body queue).receiveBuffer.drop headerSize =
      frame.body := List.drop_left' frame.header.length_bytes
  rw [branch, if_neg (by omega), if_pos (by rw [lengthEq]; rfl), bodyBranch, bodyEq]
  simp only [announced, MessageHeader.ofBytes_bytes_append, handOver, CutFrame.call]
  cases Message.ofHeader frame.header (some (frame.body ++ env.memory context)) with
  | none => rfl
  | some msg => rfl

/-! ## Chunks -/

/-- A receiver whose buffer holds a whole frame hands it over when `receive` is called. -/
theorem branch_frame (frame : CutFrame) :
    branch env ⟨frame.bytes, frame.bytes.length, queue⟩ context =
      handOver env frame ⟨frame.bytes, frame.bytes.length, queue⟩ context := by
  rcases frame.cut with ⟨zero, body⟩ | ⟨beyond, _, complete⟩
  · have bytesEq : frame.bytes = frame.header.bytes := by
      rw [CutFrame.bytes, body, List.append_nil]
    have called : frame.call (env.memory context) = some (emptyCall frame.header) := by
      simp [CutFrame.call, Message.ofHeader, zero, emptyCall]
    rw [bytesEq, MessageHeader.length_bytes, branch_header, headerBranch_zero zero, handOver,
      called]
  · have lengthEq : frame.bytes.length = frame.header.size.toNat := by
      rw [CutFrame.bytes, List.length_append, MessageHeader.length_bytes, complete]
    rw [lengthEq]
    exact branch_announced frame beyond

theorem feedRound_of_inl {state next : Reception σ} (round : receiveRound env state = .inl next)
    (chunks : List (List UInt8)) : feedRound env (state, chunks) = .inl (next, chunks) := by
  rw [feedRound, round]

/-- A chunk that has been used up makes room for the next one. -/
theorem feedRound_cons (protocol : Protocol) (context : σ) (chunk : List UInt8)
    (chunks : List (List UInt8)) :
    feedRound env (⟨protocol, context, []⟩, chunk :: chunks) =
      .inl (⟨protocol, context, chunk⟩, chunks) :=
  rfl

theorem Waiting.insert {protocol : Protocol} (waiting : protocol.Waiting)
    (bytes : List UInt8) : (protocol.insert bytes).Waiting := by
  intro short
  rw [insert_length] at short
  exact waiting (by omega)

/-- A rest that completes a branch takes the receiver past it in one round. -/
theorem reaches_of_completing {protocol next : Protocol} {first : List UInt8}
    (missing : protocol.missing = first.length) (nonempty : first ≠ [])
    (room : protocol.receiveBuffer.length + first.length ≤ vectorMaxSize)
    (goes : branch env (protocol.insert first) context = .inl (next, last))
    (second : List UInt8) (chunks : List (List UInt8)) :
    Reaches (feedRound env) (⟨protocol, context, first ++ second⟩, chunks)
      (⟨next, last, second⟩, chunks) := by
  apply Reaches.single
  apply feedRound_of_inl
  rw [receiveRound_completing missing (by simp [nonempty]) room, goes, goOn]

/-- A rest that completes nothing takes the receiver to the next chunk. -/
theorem reaches_of_short {protocol : Protocol} {rest : List UInt8}
    (waiting : protocol.Waiting) (lt : rest.length < protocol.missing)
    (room : protocol.receiveBuffer.length + rest.length ≤ vectorMaxSize)
    (chunk : List UInt8) (chunks : List (List UInt8)) :
    Reaches (feedRound env) (⟨protocol, context, rest⟩, chunk :: chunks)
      (⟨protocol.insert rest, context, chunk⟩, chunks) := by
  have moved : Reaches (feedRound env) (⟨protocol, context, rest⟩, chunk :: chunks)
      (⟨protocol.insert rest, context, []⟩, chunk :: chunks) := by
    by_cases empty : rest = []
    · have insertEq : protocol.insert rest = protocol := by simp [empty, insert]
      rw [insertEq, empty]
      exact .refl _ _
    · exact .single (feedRound_of_inl (receiveRound_short waiting empty lt room) _)
  exact moved.trans (.single (feedRound_cons _ context chunk chunks))

/-- However the next bytes are cut, the receiver comes to the branch that they complete,
and past it if it goes on. -/
theorem reaches_branch {protocol next : Protocol} {first second rest : List UInt8}
    {chunks : List (List UInt8)} (waiting : protocol.Waiting)
    (missing : protocol.missing = first.length) (nonempty : first ≠ [])
    (room : protocol.receiveBuffer.length + first.length ≤ vectorMaxSize)
    (goes : branch env (protocol.insert first) context = .inl (next, last))
    (incoming : rest ++ chunks.flatten = first ++ second) :
    ∃ rest' chunks', rest' ++ chunks'.flatten = second ∧
      Reaches (feedRound env) (⟨protocol, context, rest⟩, chunks)
        (⟨next, last, rest'⟩, chunks') := by
  induction chunks generalizing protocol first rest with
  | nil =>
      rw [List.flatten_nil, List.append_nil] at incoming
      rw [incoming]
      exact ⟨second, [], List.append_nil second,
        reaches_of_completing missing nonempty room goes second []⟩
  | cons chunk chunks ih =>
      rcases List.append_eq_append_iff.mp incoming with
        ⟨others, rfl, flattenEq⟩ | ⟨others, rfl, rfl⟩
      · by_cases complete : others = []
        · subst complete
          rw [List.append_nil] at missing nonempty room goes
          have reached := reaches_of_completing missing nonempty room goes [] (chunk :: chunks)
          rw [List.append_nil] at reached
          exact ⟨[], chunk :: chunks, flattenEq, reached⟩
        · have othersPos : 0 < others.length := List.length_pos_iff.mpr complete
          rw [List.length_append] at missing room
          have moved : Reaches (feedRound env) (⟨protocol, context, rest⟩, chunk :: chunks)
              (⟨protocol.insert rest, context, chunk⟩, chunks) :=
            reaches_of_short waiting (by omega) (by omega) chunk chunks
          rcases ih (waiting.insert rest) (by rw [missing_insert] <;> omega) complete
            (by rw [insert_length]; omega) (by rwa [insert_insert]) flattenEq with
            ⟨rest', chunks', secondEq, reached⟩
          exact ⟨rest', chunks', secondEq, moved.trans reached⟩
      · exact ⟨others, chunk :: chunks, rfl,
          reaches_of_completing missing nonempty room goes others _⟩

/-! ## Streams of frames -/

section Streams

variable {second rest : List UInt8} {chunks : List (List UInt8)}

/-- An idle receiver comes past a header in one branch. -/
theorem reaches_header {header : MessageHeader} {next : Protocol}
    (goes : headerBranch env ⟨header.bytes, headerSize, queue⟩ context = .inl (next, last))
    (incoming : rest ++ chunks.flatten = header.bytes ++ second) :
    ∃ rest' chunks', rest' ++ chunks'.flatten = second ∧
      Reaches (feedRound env) (⟨idle queue, context, rest⟩, chunks)
        (⟨next, last, rest'⟩, chunks') := by
  have lengthEq := header.length_bytes
  apply reaches_branch (fun _ => rfl) _ _ _ _ incoming
  · rw [lengthEq]
    rfl
  · exact List.length_pos_iff.mp (by rw [lengthEq]; decide)
  · rw [lengthEq]
    change 0 + headerSize ≤ vectorMaxSize
    decide
  · exact (branch_header header headerSize).trans goes

theorem reaches_frame {frame : CutFrame} {call : Call}
    (called : frame.call (env.memory context) = some call)
    (handled : env.handle call context = (.goOn, last))
    (incoming : rest ++ chunks.flatten = frame.bytes ++ second) :
    ∃ rest' chunks', rest' ++ chunks'.flatten = second ∧
      Reaches (feedRound env) (⟨idle queue, context, rest⟩, chunks)
        (⟨idle queue, last, rest'⟩, chunks') := by
  rw [CutFrame.bytes, List.append_assoc] at incoming
  rcases frame.cut with ⟨zero, body⟩ | ⟨beyond, le, complete⟩
  · rw [body, List.nil_append] at incoming
    have callEq : emptyCall frame.header = call := by
      simpa [CutFrame.call, Message.ofHeader, zero, emptyCall] using called
    apply reaches_header _ incoming
    rw [headerBranch_zero zero, deliver, callEq, handled]
  · have pos : 0 < frame.header.size.toNat := Nat.zero_lt_of_lt beyond
    obtain ⟨rest', chunks', incoming', reached⟩ :=
      reaches_header (headerBranch_announced pos le headerSize) incoming
    have missing : (announced frame.header [] queue).missing = frame.body.length := by
      simp only [Protocol.missing, announced, List.append_nil, MessageHeader.length_bytes]
      rw [sizeSub_of_le (Nat.le_of_lt beyond)]
      omega
    have bodyPos : 0 < frame.body.length := by omega
    have maxSmall : maxPktSize ≤ vectorMaxSize := by decide
    have goes : branch env ((announced frame.header [] queue).insert frame.body) context =
        .inl (idle queue, last) := by
      have inserted : (announced frame.header [] queue).insert frame.body =
          announced frame.header frame.body queue := by
        simp [insert, announced]
      rw [inserted, branch_announced frame beyond, handOver, called]
      simp only [deliver, handled]
      rfl
    obtain ⟨rest'', chunks'', incoming'', passed⟩ :=
      reaches_branch (fun short => absurd short (by simp [announced])) missing
        (List.length_pos_iff.mp bodyPos) (by simp [announced]; omega) goes incoming'
    exact ⟨rest'', chunks'', incoming'', reached.trans passed⟩

/-- Frames that are all passed on take an idle receiver to an idle receiver. -/
theorem reaches_frames {frames : List CutFrame} (passes : Passes env frames context last)
    (incoming : rest ++ chunks.flatten = frames.flatMap CutFrame.bytes ++ second) :
    ∃ rest' chunks', rest' ++ chunks'.flatten = second ∧
      Reaches (feedRound env) (⟨idle queue, context, rest⟩, chunks)
        (⟨idle queue, last, rest'⟩, chunks') := by
  induction frames generalizing context rest chunks with
  | nil =>
      cases passes
      exact ⟨rest, chunks, incoming, .refl _ _⟩
  | cons frame frames ih =>
      rcases passes with ⟨call, next, called, handled, others⟩
      rw [List.flatMap_cons, List.append_assoc] at incoming
      obtain ⟨rest', chunks', incoming', first⟩ := reaches_frame called handled incoming
      obtain ⟨rest'', chunks'', incoming'', second⟩ := ih others incoming'
      exact ⟨rest'', chunks'', incoming'', first.trans second⟩

/-- Empty chunks do not keep the receiver from the next byte. -/
theorem reaches_nonempty (protocol : Protocol) (context : σ)
    (more : rest ++ chunks.flatten ≠ []) :
    ∃ rest' chunks', rest' ≠ [] ∧
      Reaches (feedRound env) (⟨protocol, context, rest⟩, chunks)
        (⟨protocol, context, rest'⟩, chunks') := by
  induction chunks generalizing rest with
  | nil =>
      rw [List.flatten_nil, List.append_nil] at more
      exact ⟨rest, [], more, .refl _ _⟩
  | cons chunk chunks ih =>
      by_cases empty : rest = []
      · subst empty
        obtain ⟨rest', chunks', nonempty, reached⟩ := ih more
        exact ⟨rest', chunks', nonempty,
          (Reaches.single (feedRound_cons protocol context chunk chunks)).trans reached⟩
      · exact ⟨rest, chunk :: chunks, empty, .refl _ _⟩

end Streams

/-- After frames that are all passed on, the stream has a header that announces such a size,
and goes on after it. -/
def Announces (env : Surroundings σ) (context : σ) (stream : List UInt8)
    (sizes : Nat → Prop) : Prop :=
  ∃ (frames : List CutFrame) (header : MessageHeader) (rest : List UInt8) (last : σ),
    stream = frames.flatMap CutFrame.bytes ++ (header.bytes ++ rest) ∧
      Passes env frames context last ∧ sizes header.size.toNat ∧ rest ≠ []

/-- The receiver comes to the byte after that header. -/
theorem Announces.reaches {stream rest : List UInt8} {chunks : List (List UInt8)}
    {sizes : Nat → Prop} (announces : Announces env context stream sizes)
    (small : ∀ size, sizes size → 0 < size ∧ size ≤ maxPktSize)
    (incoming : rest ++ chunks.flatten = stream) :
    ∃ header last rest' chunks', sizes header.size.toNat ∧ rest' ≠ [] ∧
      Reaches (feedRound env) (⟨idle queue, context, rest⟩, chunks)
        (⟨announced header [] queue, last, rest'⟩, chunks') := by
  rcases announces with ⟨frames, header, tail, last, streamEq, passes, size, nonempty⟩
  rcases small _ size with ⟨pos, le⟩
  obtain ⟨rest₁, chunks₁, incoming₁, framesPassed⟩ :=
    reaches_frames passes (incoming.trans streamEq)
  obtain ⟨rest₂, chunks₂, incoming₂, headerPassed⟩ :=
    reaches_header (headerBranch_announced pos le headerSize) incoming₁
  obtain ⟨rest₃, chunks₃, nonempty₃, moved⟩ :=
    reaches_nonempty (announced header [] queue) last (incoming₂ ▸ nonempty)
  exact ⟨header, last, rest₃, chunks₃, size, nonempty₃,
    (framesPassed.trans headerPassed).trans moved⟩

end Protocol

end IotChain.P2P
