import IotChain.P2P.Cutting

/-!
# Bounded reassembly

As long as no header announces less than its own size, `receive_buffer_` never holds more
than the largest frame, and the bytes still missing from the target are not a negative
number.  One such header, and one more byte, is enough to break both.
-/

namespace IotChain.P2P

open IotChain.Transition

namespace Protocol

variable {σ : Type} {env : Surroundings σ} {start context : σ} {queue : List Message}
  {seen rest : List UInt8}

/-! ## The stages of the receiver -/

/-- The states between two rounds, read off the buffer and the target. -/
inductive Stage : Protocol → Prop
  | collecting {buffer : List UInt8} {queue : List Message}
      (short : buffer.length < headerSize) : Stage ⟨buffer, headerSize, queue⟩
  | swallowing {header : MessageHeader} {body : List UInt8} {queue : List Message}
      (pos : 0 < header.size.toNat) (below : header.size.toNat < headerSize) :
      Stage (announced header body queue)
  | stuck {header : MessageHeader} {queue : List Message}
      (size : header.size.toNat = headerSize) : Stage (announced header [] queue)
  | waiting {header : MessageHeader} {body : List UInt8} {queue : List Message}
      (le : header.size.toNat ≤ maxPktSize)
      (incomplete : headerSize + body.length < header.size.toNat) :
      Stage (announced header body queue)

/-- The states that `receive` can leave behind: a stage, a header that was refused, or a
frame in whose handling an exception was thrown. -/
inductive Rests : Protocol → Prop
  | stage {protocol : Protocol} (stage : protocol.Stage) : Rests protocol
  | refused {header : MessageHeader} {queue : List Message}
      (big : maxPktSize < header.size.toNat) : Rests ⟨header.bytes, headerSize, queue⟩
  | held (frame : CutFrame) (queue : List Message) :
      Rests ⟨frame.bytes, frame.bytes.length, queue⟩

/-- `receive` has not returned true, and if it has not read past its buffer, it has left
such a state behind. -/
def Stopped : Ending σ → Prop
  | .returned protocol _ result => result = false ∧ protocol.Rests
  | .threw protocol _ => protocol.Rests
  | .overread _ _ => True

/-- The bytes seen so far are frames that were passed on, and the buffer. -/
structure Track (env : Surroundings σ) (start : σ) (seen : List UInt8)
    (protocol : Protocol) (context : σ) : Prop where
  cut : ∃ frames, seen = frames.flatMap CutFrame.bytes ++ protocol.receiveBuffer ∧
    Passes env frames start context
  stage : protocol.Stage

theorem track_idle (env : Surroundings σ) (start : σ) (queue : List Message) :
    Track env start [] (idle queue) start where
  cut := ⟨[], rfl, rfl⟩
  stage := .collecting (by decide)

/-- A round has moved some bytes and stayed on track, or has stopped the receiver. -/
def Moved (env : Surroundings σ) (start : σ) (seen rest : List UInt8) :
    Reception σ ⊕ Ending σ → Prop :=
  Sum.elim
    (fun next => ∃ moved, moved ≠ [] ∧ rest = moved ++ next.rest ∧
      Track env start (seen ++ moved) next.protocol next.context)
    Stopped

/-! ## One round -/

/-- A frame that is handed over leaves an idle receiver, if any. -/
theorem moved_deliver {frames : List CutFrame} {frame : CutFrame} {call : Call}
    {protocol : Protocol} {moved rest : List UInt8}
    (whole : protocol = ⟨frame.bytes, frame.bytes.length, queue⟩)
    (passes : Passes env frames start context)
    (called : frame.call (env.memory context) = some call) (nonempty : moved ≠ [])
    (seenEq : seen ++ moved = frames.flatMap CutFrame.bytes ++ frame.bytes) :
    Moved env start seen (moved ++ rest)
      (goOn rest (deliver env call protocol (idle queue) context)) := by
  rw [deliver]
  rcases handled : env.handle call context with ⟨answer, next⟩
  cases answer with
  | goOn =>
      refine ⟨moved, nonempty, rfl, ⟨frames ++ [frame], ?_, ?_⟩, .collecting (by decide)⟩
      · rw [seenEq, List.flatMap_append]
        simp [idle]
      · exact passes_append.mpr ⟨context, passes, call, next, called, handled, rfl⟩
  | stop => exact ⟨rfl, .stage (.collecting (by decide))⟩
  | throws =>
      rw [whole]
      exact .held frame queue

/-- The round in which a header is completed. -/
theorem Track.header_round {buffer moved : List UInt8} {header : MessageHeader}
    (track : Track env start seen ⟨buffer, headerSize, queue⟩ context) (nonempty : moved ≠ [])
    (completed : buffer ++ moved = header.bytes) :
    Moved env start seen (moved ++ rest)
      (goOn rest (headerBranch env ⟨header.bytes, headerSize, queue⟩ context)) := by
  rcases track.cut with ⟨frames, seenEq, passes⟩
  have movedEq : seen ++ moved = frames.flatMap CutFrame.bytes ++ header.bytes := by
    rw [seenEq, List.append_assoc, completed]
  by_cases size : header.size = 0
  · let frame : CutFrame := ⟨header, [], .inl ⟨size, rfl⟩⟩
    have called : frame.call (env.memory context) = some (emptyCall header) := by
      simp [CutFrame.call, frame, Message.ofHeader, size, emptyCall]
    have whole : Protocol.mk header.bytes headerSize queue =
        ⟨frame.bytes, frame.bytes.length, queue⟩ := by
      simp [CutFrame.bytes, frame]
    rw [headerBranch_zero size]
    apply moved_deliver whole passes called nonempty
    simpa [CutFrame.bytes, frame] using movedEq
  · have pos : 0 < header.size.toNat :=
      Nat.pos_of_ne_zero fun zero => size (UInt32.toNat_inj.mp zero)
    by_cases le : header.size.toNat ≤ maxPktSize
    · rw [headerBranch_announced pos le]
      refine ⟨moved, nonempty, rfl, ⟨frames, ?_, passes⟩, ?_⟩
      · simpa [announced] using movedEq
      · rcases Nat.lt_trichotomy header.size.toNat headerSize with below | equal | beyond
        · exact .swallowing pos below
        · exact .stuck equal
        · exact .waiting le beyond
    · have big := Nat.lt_of_not_le le
      rcases headerBranch_tooBig big headerSize with ⟨next, stops | stops⟩
      · rw [stops]
        exact ⟨rfl, .refused big⟩
      · rw [stops]
        exact .refused big

/-- Bytes that only move into the buffer keep the receiver on track. -/
theorem Track.insert {protocol : Protocol} (track : Track env start seen protocol context)
    {bytes : List UInt8} (stage : (protocol.insert bytes).Stage) :
    Track env start (seen ++ bytes) (protocol.insert bytes) context := by
  rcases track.cut with ⟨frames, seenEq, passes⟩
  refine ⟨⟨frames, ?_, passes⟩, stage⟩
  simp [seenEq, Protocol.insert]

theorem moved_short {protocol : Protocol} (track : Track env start seen protocol context)
    (waiting : protocol.Waiting) (nonempty : rest ≠ []) (lt : rest.length < protocol.missing)
    (room : protocol.receiveBuffer.length + rest.length ≤ vectorMaxSize)
    (stage : (protocol.insert rest).Stage) :
    Moved env start seen rest (receiveRound env ⟨protocol, context, rest⟩) := by
  rw [receiveRound_short waiting nonempty lt room]
  exact ⟨rest, nonempty, (List.append_nil rest).symm, track.insert stage⟩

/-- A rest that is long enough splits where a round does. -/
theorem exists_append_of_le {count : Nat} (le : count ≤ rest.length) :
    ∃ first second, rest = first ++ second ∧ first.length = count :=
  ⟨rest.take count, rest.drop count, (List.take_append_drop count rest).symm,
    List.length_take_of_le le⟩

/-- A round of the stage that collects a header. -/
theorem Track.collecting_round {buffer : List UInt8}
    (track : Track env start seen ⟨buffer, headerSize, queue⟩ context)
    (short : buffer.length < headerSize) (nonempty : rest ≠ []) :
    Moved env start seen rest
      (receiveRound env ⟨⟨buffer, headerSize, queue⟩, context, rest⟩) := by
  have missingEq : (Protocol.mk buffer headerSize queue).missing =
      headerSize - buffer.length := sizeSub_of_le (Nat.le_of_lt short)
  have headerSmall : headerSize ≤ vectorMaxSize := by decide
  by_cases lt : rest.length < headerSize - buffer.length
  · apply moved_short track (fun _ => rfl) nonempty (by rwa [missingEq])
    · simp only
      omega
    · apply Stage.collecting
      simp only [List.length_append]
      omega
  · obtain ⟨first, second, rfl, firstLength⟩ := exists_append_of_le (Nat.le_of_not_lt lt)
    have firstNonempty : first ≠ [] := List.length_pos_iff.mp (by omega)
    have completed : buffer ++ first = (MessageHeader.ofBytes (buffer ++ first)).bytes := by
      rw [MessageHeader.bytes_ofBytes]
      rw [List.length_append]
      omega
    have kept : Moved env start seen (first ++ second) _ :=
      track.header_round firstNonempty completed
    rw [← branch_header, ← completed] at kept
    rw [receiveRound_completing (by rw [missingEq, firstLength]) nonempty
      (by simp only; omega)]
    exact kept

/-- A round of the stage that swallows what follows a header: the bytes missing are a
negative number, which wraps around to a large one. -/
theorem Track.swallowing_round {header : MessageHeader} {body : List UInt8}
    (track : Track env start seen (announced header body queue) context)
    (pos : 0 < header.size.toNat) (below : header.size.toNat < headerSize)
    (nonempty : rest ≠ []) :
    Moved env start seen rest
      (receiveRound env ⟨announced header body queue, context, rest⟩) := by
  have restPos : 0 < rest.length := List.length_pos_iff.mpr nonempty
  have lengthEq : (announced header body queue).receiveBuffer.length =
      headerSize + body.length := by
    simp [announced]
  have totalEq : (announced header body queue).recvTotalSize = header.size.toNat := rfl
  by_cases full : vectorMaxSize < (announced header body queue).receiveBuffer.length +
      (announced header body queue).taken rest
  · rw [receiveRound_of_full env context nonempty full]
    exact .stage track.stage
  · have takenLe := (announced header body queue).taken_le rest
    have missingEq : (announced header body queue).missing =
        header.size.toNat + 2 ^ 64 - (headerSize + body.length) := by
      rw [Protocol.missing, lengthEq]
      exact if_neg (by omega)
    have takenPos : 0 < (announced header body queue).taken rest := by
      have small : headerSize + body.length ≤ vectorMaxSize := by omega
      rw [vectorMaxSize] at small
      rw [taken, missingEq]
      split <;> omega
    have sink : (announced header body queue).Sink := ⟨by omega, below⟩
    rcases sink.insert_incomplete nonempty with ⟨notHeader, notBody⟩
    rw [receiveRound_of_ne_nil env context nonempty (Nat.le_of_not_lt full), branch,
      if_neg notHeader, if_neg notBody, goOn]
    refine ⟨rest.take ((announced header body queue).taken rest), ?_,
      (List.take_append_drop _ rest).symm, track.insert ?_⟩
    · apply List.length_pos_iff.mp
      rw [List.length_take]
      omega
    · rw [announced_insert]
      exact .swallowing pos below

/-- A round of the stage that waits for a body. -/
theorem Track.waiting_round {header : MessageHeader} {body : List UInt8}
    (track : Track env start seen (announced header body queue) context)
    (le : header.size.toNat ≤ maxPktSize)
    (incomplete : headerSize + body.length < header.size.toNat) (nonempty : rest ≠ []) :
    Moved env start seen rest
      (receiveRound env ⟨announced header body queue, context, rest⟩) := by
  have maxSmall : maxPktSize ≤ vectorMaxSize := by decide
  have lengthEq : (announced header body queue).receiveBuffer.length =
      headerSize + body.length := by
    simp [announced]
  have missingEq : (announced header body queue).missing =
      header.size.toNat - (headerSize + body.length) := by
    rw [Protocol.missing, lengthEq]
    exact sizeSub_of_le (Nat.le_of_lt incomplete)
  have beyond : headerSize < header.size.toNat := by omega
  have waiting : (announced header body queue).Waiting := fun short => by omega
  by_cases lt : rest.length < header.size.toNat - (headerSize + body.length)
  · apply moved_short track waiting nonempty (by rwa [missingEq]) (by omega)
    rw [announced_insert]
    apply Stage.waiting le
    rw [List.length_append]
    omega
  · obtain ⟨first, second, rfl, firstLength⟩ := exists_append_of_le (Nat.le_of_not_lt lt)
    have firstNonempty : first ≠ [] := List.length_pos_iff.mp (by omega)
    have cut : headerSize + (body ++ first).length = header.size.toNat := by
      rw [List.length_append]
      omega
    rcases track.cut with ⟨frames, seenEq, passes⟩
    let frame : CutFrame := ⟨header, body ++ first, .inr ⟨beyond, le, cut⟩⟩
    have movedEq : seen ++ first = frames.flatMap CutFrame.bytes ++ frame.bytes := by
      simp [seenEq, announced, frame, CutFrame.bytes]
    have whole : announced header (body ++ first) queue =
        ⟨frame.bytes, frame.bytes.length, queue⟩ := by
      simp [announced, frame, CutFrame.bytes, ← cut]
    rw [receiveRound_completing (by rw [missingEq, firstLength]) nonempty (by omega),
      announced_insert, branch_announced frame beyond, handOver]
    cases called : frame.call (env.memory context) with
    | none => trivial
    | some call => exact moved_deliver whole passes called firstNonempty movedEq

/-- With a header in the buffer that announces its own size, a round does nothing. -/
theorem receiveRound_stuck {header : MessageHeader} (size : header.size.toNat = headerSize)
    (nonempty : rest ≠ []) :
    receiveRound env ⟨announced header [] queue, context, rest⟩ =
      .inl ⟨announced header [] queue, context, rest⟩ := by
  have pos : 0 < header.size.toNat := by
    rw [size]
    decide
  have le : header.size.toNat ≤ maxPktSize := by
    rw [size]
    decide
  have lengthEq : (announced header [] queue).receiveBuffer.length = headerSize := by
    simp [announced]
  have bufferEq : announced header [] queue = ⟨header.bytes, header.size.toNat, queue⟩ := by
    simp [announced]
  have again : branch env (announced header [] queue) context =
      .inl (announced header [] queue, context) := by
    nth_rewrite 1 [bufferEq]
    rw [branch_header]
    exact headerBranch_announced pos le _
  rw [receiveRound_full (lengthEq.trans size.symm) nonempty (by rw [lengthEq]; decide), again,
    goOn]

/-- A round of a receiver that is not stuck moves bytes. -/
theorem Track.round {protocol : Protocol} (track : Track env start seen protocol context)
    (moving : protocol.receiveBuffer.length ≠ protocol.recvTotalSize) (nonempty : rest ≠ []) :
    Moved env start seen rest (receiveRound env ⟨protocol, context, rest⟩) := by
  cases track.stage with
  | collecting short => exact track.collecting_round short nonempty
  | swallowing pos below => exact track.swallowing_round pos below nonempty
  | stuck size => exact absurd (by simp [announced, size]) moving
  | waiting le incomplete => exact track.waiting_round le incomplete nonempty

/-- A receiver that is stuck has just buffered a header that announces its own size. -/
theorem Stage.eq_announced {protocol : Protocol} (stage : protocol.Stage)
    (full : protocol.receiveBuffer.length = protocol.recvTotalSize) :
    ∃ header, header.size.toNat = headerSize ∧
      protocol = announced header [] protocol.sendQueue := by
  cases stage with
  | collecting short => exact absurd full (Nat.ne_of_lt short)
  | swallowing pos below =>
      simp only [announced, List.length_append, MessageHeader.length_bytes] at full
      omega
  | stuck size => exact ⟨_, size, rfl⟩
  | waiting le incomplete =>
      simp only [announced, List.length_append, MessageHeader.length_bytes] at full
      omega

theorem Stage.receiveRound_stuck {protocol : Protocol} (stage : protocol.Stage)
    (full : protocol.receiveBuffer.length = protocol.recvTotalSize) (nonempty : rest ≠ []) :
    receiveRound env ⟨protocol, context, rest⟩ = .inl ⟨protocol, context, rest⟩ := by
  obtain ⟨header, size, protocolEq⟩ := stage.eq_announced full
  rw [protocolEq]
  exact Protocol.receiveRound_stuck size nonempty

theorem feedRound_of_stopped {state : Reception σ} {ending : Ending σ}
    (round : receiveRound env state = .inr ending) (stopped : Stopped ending)
    (chunks : List (List UInt8)) : feedRound env (state, chunks) = .inr ending := by
  rw [feedRound, round]
  cases ending with
  | returned protocol context result =>
      obtain rfl : result = false := stopped.1
      rfl
  | threw protocol context => rfl
  | overread protocol context => rfl

/-! ## Bounds -/

/-- `sizeof(message_header) + max_pkt_size_`. -/
def bufferLimit : Nat := headerSize + maxPktSize

/-- At the head of a round: `receive_buffer_` is within the limit, before and after the
insertion, and `recv_total_size_ - receive_buffer_.size()` does not wrap. -/
structure WithinBounds (state : Reception σ) : Prop where
  buffer : state.protocol.receiveBuffer.length ≤ bufferLimit
  noWrap : state.rest ≠ [] →
    state.protocol.receiveBuffer.length ≤ state.protocol.recvTotalSize
  inserted : state.rest ≠ [] →
    state.protocol.receiveBuffer.length + state.protocol.taken state.rest ≤ bufferLimit

/-- Fed these chunks, a fresh receiver is within bounds at the head of every round, and in
the state that it is left in. -/
def Reassembles (env : Surroundings σ) (context : σ) (chunks : List (List UInt8)) : Prop :=
  ∀ rounds, Sum.elim (fun feeding => WithinBounds feeding.1)
    (fun ending => ending.protocol.receiveBuffer.length ≤ bufferLimit)
    (iterate (feedRound env) rounds (⟨fresh, context, []⟩, chunks))

/-- The sizes that a header announces when it makes the receiver swallow the stream. -/
def TooSmall (size : Nat) : Prop := 0 < size ∧ size < headerSize

/-- Without a wrap, a round fills the buffer up to the target at most. -/
theorem inserted_le {protocol : Protocol} (rest : List UInt8)
    (noWrap : protocol.receiveBuffer.length ≤ protocol.recvTotalSize) :
    protocol.receiveBuffer.length + protocol.taken rest ≤ protocol.recvTotalSize := by
  have missingEq : protocol.missing =
      protocol.recvTotalSize - protocol.receiveBuffer.length := sizeSub_of_le noWrap
  rw [taken, missingEq]
  split <;> omega

theorem withinBounds_of_total {protocol : Protocol} (context : σ) (rest : List UInt8)
    (total : protocol.recvTotalSize ≤ bufferLimit)
    (noWrap : protocol.receiveBuffer.length ≤ protocol.recvTotalSize) :
    WithinBounds ⟨protocol, context, rest⟩ where
  buffer := noWrap.trans total
  noWrap := fun _ => noWrap
  inserted := fun _ => (inserted_le rest noWrap).trans total

/-- On track, the receiver is within bounds unless it swallows what follows a header. -/
theorem Track.withinBounds {protocol : Protocol} {later : List UInt8}
    (track : Track env start seen protocol context)
    (good : ¬ Announces env start (seen ++ (rest ++ later)) TooSmall) :
    WithinBounds ⟨protocol, context, rest⟩ := by
  have headerLe : headerSize ≤ bufferLimit := Nat.le_add_right _ _
  rcases track with ⟨⟨frames, seenEq, passes⟩, stage⟩
  cases stage with
  | collecting short => exact withinBounds_of_total _ _ headerLe (Nat.le_of_lt short)
  | @swallowing header body queue pos below =>
      have nothing : body ++ (rest ++ later) = [] := by
        by_contra more
        apply good
        refine ⟨frames, header, _, context, ?_, passes, ⟨pos, below⟩, more⟩
        simp [seenEq, announced]
      have bodyEmpty := (List.append_eq_nil_iff.mp nothing).1
      have restEmpty := (List.append_eq_nil_iff.mp (List.append_eq_nil_iff.mp nothing).2).1
      subst bodyEmpty restEmpty
      exact {
        buffer := by simpa [announced] using headerLe
        noWrap := fun nonempty => absurd rfl nonempty
        inserted := fun nonempty => absurd rfl nonempty }
  | stuck size =>
      apply withinBounds_of_total
      · simpa [announced, size] using headerLe
      · simp [announced, size]
  | waiting le incomplete =>
      apply withinBounds_of_total
      · exact Nat.le_add_left_of_le le
      · simpa [announced] using Nat.le_of_lt incomplete

theorem deliver_ending {call : Call} {protocol cleared : Protocol} {ending : Ending σ}
    (ends : deliver env call protocol cleared context = .inr ending) :
    ending.protocol = protocol ∨ ending.protocol = cleared := by
  rw [deliver] at ends
  split at ends
  · cases ends
  · cases ends
    exact .inr rfl
  · cases ends
    exact .inl rfl

/-- A branch that ends the loop leaves the buffer as it is, or empty. -/
theorem branch_ending_le {protocol : Protocol} {ending : Ending σ}
    (ends : branch env protocol context = .inr ending) :
    ending.protocol.receiveBuffer.length ≤ protocol.receiveBuffer.length := by
  have delivered {call : Call} {cleared : Protocol} (empty : cleared.receiveBuffer = [])
      (ends : deliver env call protocol cleared context = .inr ending) :
      ending.protocol.receiveBuffer.length ≤ protocol.receiveBuffer.length := by
    rcases deliver_ending ends with same | same
    · rw [same]
    · rw [same, empty]
      exact Nat.zero_le _
  rw [branch] at ends
  split at ends
  · simp only [headerBranch] at ends
    split at ends
    · simp only [Message.ofHeader] at ends
      exact delivered rfl ends
    · split at ends
      · split at ends
        · cases ends
          exact Nat.le_refl _
        · cases ends
          exact Nat.le_refl _
      · cases ends
  · split at ends
    · simp only [bodyBranch] at ends
      split at ends
      · cases ends
        exact Nat.le_refl _
      · exact delivered rfl ends
    · cases ends

/-- A round that ends leaves no more in the buffer than it has inserted. -/
theorem receiveRound_ending_le {state : Reception σ} {ending : Ending σ}
    (round : receiveRound env state = .inr ending) :
    ending.protocol.receiveBuffer.length ≤
      state.protocol.receiveBuffer.length + state.protocol.taken state.rest := by
  rcases state with ⟨protocol, context, rest⟩
  by_cases nonempty : rest = []
  · subst nonempty
    rw [receiveRound_nil] at round
    cases round
    exact Nat.le_add_right _ _
  · by_cases full : vectorMaxSize < protocol.receiveBuffer.length + protocol.taken rest
    · rw [receiveRound_of_full env context nonempty full] at round
      cases round
      exact Nat.le_add_right _ _
    · rw [receiveRound_of_ne_nil env context nonempty (Nat.le_of_not_lt full)] at round
      cases branched : branch env (protocol.insert (rest.take (protocol.taken rest))) context with
      | inl next =>
          rw [branched] at round
          cases round
      | inr left =>
          rw [branched] at round
          cases round
          have le := branch_ending_le branched
          rw [insert_length, List.length_take] at le
          simp only
          omega

/-! ## Whole runs -/

/-- A round of the feeding keeps the receiver on track, or ends within bounds. -/
theorem feedRound_keeps {stream : List UInt8}
    (good : ¬ Announces env start stream TooSmall)
    (feeding : Reception σ × List (List UInt8))
    (track : ∃ seen, seen ++ (feeding.1.rest ++ feeding.2.flatten) = stream ∧
      Track env start seen feeding.1.protocol feeding.1.context) :
    Sum.elim
      (fun next => ∃ seen, seen ++ (next.1.rest ++ next.2.flatten) = stream ∧
        Track env start seen next.1.protocol next.1.context)
      (fun ending : Ending σ => ending.protocol.receiveBuffer.length ≤ bufferLimit)
      (feedRound env feeding) := by
  rcases feeding with ⟨⟨protocol, context, rest⟩, chunks⟩
  rcases track with ⟨seen, streamEq, track⟩
  subst streamEq
  have bounds := track.withinBounds good
  by_cases nonempty : rest = []
  · subst nonempty
    cases chunks with
    | nil => exact bounds.buffer
    | cons chunk chunks => exact ⟨seen, rfl, track⟩
  · by_cases stuck : protocol.receiveBuffer.length = protocol.recvTotalSize
    · rw [feedRound_of_inl (track.stage.receiveRound_stuck stuck nonempty)]
      exact ⟨seen, rfl, track⟩
    · have kept := track.round stuck nonempty
      cases round : receiveRound env ⟨protocol, context, rest⟩ with
      | inl next =>
          rw [round] at kept
          rcases kept with ⟨moved, _, rfl, further⟩
          rw [feedRound_of_inl round]
          exact ⟨seen ++ moved, by simp, further⟩
      | inr ending =>
          rw [round] at kept
          rw [feedRound_of_stopped round kept]
          exact (receiveRound_ending_le round).trans (bounds.inserted nonempty)

/-- Reassembly is bounded exactly if the stream does not go on after a header that
announces less than its own size, behind frames that are all passed on. -/
theorem reassembles_iff (env : Surroundings σ) (context : σ) (chunks : List (List UInt8)) :
    Reassembles env context chunks ↔ ¬ Announces env context chunks.flatten TooSmall := by
  constructor
  · intro bounded announces
    have small (size : Nat) (tooSmall : TooSmall size) : 0 < size ∧ size ≤ maxPktSize :=
      ⟨tooSmall.1, Nat.le_of_lt (Nat.lt_trans tooSmall.2 (by decide))⟩
    obtain ⟨header, last, rest, chunks', tooSmall, nonempty, rounds, reached⟩ :
        ∃ header last rest chunks', TooSmall header.size.toNat ∧ rest ≠ [] ∧
          Reaches (feedRound env) (⟨fresh, context, []⟩, chunks)
            (⟨announced header [] [], last, rest⟩, chunks') :=
      announces.reaches small (List.nil_append _)
    have bounds := bounded rounds
    rw [reached] at bounds
    have noWrap := bounds.noWrap nonempty
    simp only [announced, List.append_nil, MessageHeader.length_bytes] at noWrap
    exact absurd tooSmall.2 (Nat.not_lt_of_le noWrap)
  · intro good rounds
    have onTrack : ∃ seen, seen ++ ([] ++ chunks.flatten) = chunks.flatten ∧
        Track env context seen fresh context := ⟨[], rfl, track_idle env context []⟩
    have kept : Sum.elim _ _ (iterate (feedRound env) rounds (⟨fresh, context, []⟩, chunks)) :=
      iterate_invariant _ _ (feedRound_keeps good) rounds onTrack
    cases run : iterate (feedRound env) rounds (⟨fresh, context, []⟩, chunks) with
    | inl feeding =>
        rw [run] at kept
        rcases kept with ⟨seen, streamEq, track⟩
        rw [← streamEq] at good
        exact track.withinBounds good
    | inr ending =>
        rw [run] at kept
        exact kept

/-- A header that announces one byte, and one more byte. -/
theorem reassembles_fails :
    ¬ ∀ (env : Surroundings Unit) (chunks : List (List UInt8)), Reassembles env () chunks := by
  intro bounded
  let env : Surroundings Unit := ⟨fun _ => [], fun _ _ => (.goOn, ())⟩
  have bounds : @WithinBounds Unit ⟨⟨[1, 0, 0, 0, 5, 1], 1, []⟩, (), [9]⟩ :=
    bounded env [[1, 0, 0, 0, 5, 1, 9]] 2
  exact absurd (bounds.noWrap (by decide)) (by decide)

end Protocol

end IotChain.P2P
