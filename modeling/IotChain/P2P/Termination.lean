import IotChain.P2P.Reassembly

/-!
# Termination of the receiver

Every round with bytes left moves some of them or ends the loop, with one exception: a
header that announces its own size is complete before a byte of its body is there, and the
branch for headers is taken again and again.
-/

namespace IotChain.P2P

open IotChain.Transition

namespace Protocol

variable {σ : Type} {env : Surroundings σ} {start context : σ} {queue : List Message}
  {seen rest : List UInt8}

/-- The states of a protocol object after any number of calls of `receive` that returned or
threw, whatever the surroundings were each time, and whatever was queued for sending in
between. -/
inductive Fed : Protocol → Prop
  | fresh : Fed fresh
  | queued {protocol : Protocol} (fed : Fed protocol) (queue : List Message) :
      Fed { protocol with sendQueue := queue }
  | returned {protocol next : Protocol} {σ : Type} (fed : Fed protocol)
      (env : Surroundings σ) {context last : σ} {chunk : List UInt8} {result : Bool}
      (run : Exits (receiveRound env) ⟨protocol, context, chunk⟩
        (.returned next last result)) : Fed next
  | threw {protocol next : Protocol} {σ : Type} (fed : Fed protocol)
      (env : Surroundings σ) {context last : σ} {chunk : List UInt8}
      (run : Exits (receiveRound env) ⟨protocol, context, chunk⟩ (.threw next last)) :
      Fed next

theorem Rests.queued {protocol : Protocol} (rests : protocol.Rests) (queue : List Message) :
    ({ protocol with sendQueue := queue } : Protocol).Rests := by
  cases rests with
  | stage stage =>
      apply Rests.stage
      cases stage with
      | collecting short => exact .collecting short
      | swallowing pos below => exact .swallowing pos below
      | stuck size => exact .stuck size
      | waiting le incomplete => exact .waiting le incomplete
  | refused big => exact .refused big
  | held frame _ => exact .held frame queue

/-- A header that is refused is refused again when more bytes come. -/
theorem receiveRound_refused {header : MessageHeader} (big : maxPktSize < header.size.toNat)
    (nonempty : rest ≠ []) :
    ∃ ending, receiveRound env ⟨⟨header.bytes, headerSize, queue⟩, context, rest⟩ =
      .inr ending ∧ Stopped ending := by
  have room : header.bytes.length ≤ vectorMaxSize := by
    rw [MessageHeader.length_bytes]
    decide
  have round : receiveRound env ⟨⟨header.bytes, headerSize, queue⟩, context, rest⟩ =
      goOn rest (headerBranch env ⟨header.bytes, headerSize, queue⟩ context) := by
    rw [receiveRound_full header.length_bytes nonempty room, branch_header]
  rcases headerBranch_tooBig big headerSize with ⟨next, stops | stops⟩
  · rw [stops] at round
    exact ⟨_, round, rfl, .refused big⟩
  · rw [stops] at round
    exact ⟨_, round, .refused big⟩

/-- A whole frame that was left in the buffer is handed over again when more bytes come. -/
theorem receiveRound_held (frame : CutFrame) (queue : List Message) (nonempty : rest ≠ []) :
    receiveRound env ⟨⟨frame.bytes, frame.bytes.length, queue⟩, context, rest⟩ =
      goOn rest (handOver env frame ⟨frame.bytes, frame.bytes.length, queue⟩ context) := by
  have maxSmall : headerSize + maxPktSize ≤ vectorMaxSize := by decide
  have room : frame.bytes.length ≤ vectorMaxSize := by
    rw [CutFrame.bytes, List.length_append, MessageHeader.length_bytes]
    rcases frame.cut with ⟨_, body⟩ | ⟨_, le, complete⟩
    · rw [body, List.length_nil]
      omega
    · omega
  rw [receiveRound_full rfl nonempty room, branch_frame]

theorem Stage.track {protocol : Protocol} (stage : protocol.Stage) (env : Surroundings σ)
    (context : σ) : Track env context protocol.receiveBuffer protocol context :=
  ⟨⟨[], rfl, rfl⟩, stage⟩

/-- If `receive` has not read past its buffer, it has left a state in which it can rest. -/
def RestsAfter : Ending σ → Prop
  | .returned protocol _ _ => protocol.Rests
  | .threw protocol _ => protocol.Rests
  | .overread _ _ => True

theorem Stopped.restsAfter {ending : Ending σ} (stopped : Stopped ending) :
    RestsAfter ending := by
  cases ending with
  | returned protocol context result => exact stopped.2
  | threw protocol context => exact stopped
  | overread protocol context => trivial

/-- A round from a state in which `receive` can rest goes on to such a state or ends in
one. -/
theorem Rests.round {protocol : Protocol} (rests : protocol.Rests) (env : Surroundings σ)
    (context : σ) (rest : List UInt8) :
    Sum.elim (fun next => next.protocol.Rests) RestsAfter
      (receiveRound env ⟨protocol, context, rest⟩) := by
  by_cases nonempty : rest = []
  · subst nonempty
    exact rests
  · cases rests with
    | stage stage =>
        by_cases stuck : protocol.receiveBuffer.length = protocol.recvTotalSize
        · rw [stage.receiveRound_stuck stuck nonempty]
          exact .stage stage
        · have kept := (stage.track env context).round stuck nonempty
          cases round : receiveRound env ⟨protocol, context, rest⟩ with
          | inl next =>
              rw [round] at kept
              rcases kept with ⟨_, _, _, track⟩
              exact .stage track.stage
          | inr ending =>
              rw [round] at kept
              exact Stopped.restsAfter kept
    | refused big =>
        obtain ⟨ending, round, stops⟩ := receiveRound_refused big nonempty
        rw [round]
        exact stops.restsAfter
    | held frame queue =>
        rw [receiveRound_held frame queue nonempty, handOver]
        cases called : frame.call (env.memory context) with
        | none => trivial
        | some call =>
            simp only [deliver]
            rcases env.handle call context with ⟨answer, next⟩
            cases answer with
            | goOn => exact .stage (.collecting (by decide))
            | stop => exact .stage (.collecting (by decide))
            | throws => exact .held frame queue

theorem Fed.rests {protocol : Protocol} (fed : Fed protocol) : protocol.Rests := by
  induction fed with
  | fresh => exact .stage (.collecting (by decide))
  | queued fed queue ih => exact ih.queued queue
  | returned fed env run ih =>
      apply run.of_invariant (fun state => state.protocol.Rests) RestsAfter _ ih
      exact fun state rests => Rests.round rests env state.context state.rest
  | threw fed env run ih =>
      apply run.of_invariant (fun state => state.protocol.Rests) RestsAfter _ ih
      exact fun state rests => Rests.round rests env state.context state.rest

/-! ## Termination -/

/-- `receive` ends, and each of its rounds with bytes left ends it or moves some. -/
def Terminates (env : Surroundings σ) (protocol : Protocol) (context : σ)
    (chunk : List UInt8) : Prop :=
  (∃ ending, Exits (receiveRound env) ⟨protocol, context, chunk⟩ ending) ∧
    ∀ state next, Reaches (receiveRound env) ⟨protocol, context, chunk⟩ state →
      receiveRound env state = .inl next → next.rest.length < state.rest.length

/-- The size that a header announces when the receiver cannot leave it behind. -/
def OwnSize (size : Nat) : Prop := size = headerSize

/-- On track and not behind such a header, a round that goes on moves bytes. -/
theorem Track.lowers {stream : List UInt8} {protocol : Protocol}
    (track : Track env start seen protocol context) (streamEq : seen ++ rest = stream)
    (good : ¬ Announces env start stream OwnSize) {next : Reception σ}
    (round : receiveRound env ⟨protocol, context, rest⟩ = .inl next) :
    (∃ seen, seen ++ next.rest = stream ∧
        Track env start seen next.protocol next.context) ∧
      next.rest.length < rest.length := by
  have nonempty : rest ≠ [] := by
    rintro rfl
    rw [receiveRound_nil] at round
    cases round
  have moving : protocol.receiveBuffer.length ≠ protocol.recvTotalSize := by
    intro stuck
    obtain ⟨header, size, protocolEq⟩ := track.stage.eq_announced stuck
    rcases track.cut with ⟨frames, seenEq, passes⟩
    apply good
    refine ⟨frames, header, rest, context, ?_, passes, size, nonempty⟩
    rw [← streamEq, seenEq, protocolEq]
    simp [announced]
  have kept := track.round moving nonempty
  rw [round] at kept
  rcases kept with ⟨moved, movedNonempty, restEq, further⟩
  have movedPos : 0 < moved.length := List.length_pos_iff.mpr movedNonempty
  constructor
  · exact ⟨seen ++ moved, by rw [List.append_assoc, ← restEq, streamEq], further⟩
  · rw [restEq, List.length_append]
    omega

theorem Stage.terminates {protocol : Protocol} (stage : protocol.Stage) {chunk : List UInt8}
    (good : ¬ Announces env context (protocol.receiveBuffer ++ chunk) OwnSize) :
    Terminates env protocol context chunk := by
  let OnTrack (state : Reception σ) : Prop :=
    ∃ seen, seen ++ state.rest = protocol.receiveBuffer ++ chunk ∧
      Track env context seen state.protocol state.context
  have start : OnTrack ⟨protocol, context, chunk⟩ := ⟨_, rfl, stage.track env context⟩
  have lowers (state next : Reception σ) (onTrack : OnTrack state)
      (round : receiveRound env state = .inl next) :
      OnTrack next ∧ next.rest.length < state.rest.length := by
    rcases onTrack with ⟨seen, streamEq, track⟩
    exact track.lowers streamEq good round
  constructor
  · exact exits_of_measure OnTrack (fun state => state.rest.length) lowers start
  · intro state next reached round
    have onTrack := reached.of_invariant OnTrack
      (fun state next held round => (lowers state next held round).1) start
    exact (lowers state next onTrack round).2

theorem terminates_of_ending {protocol : Protocol} {chunk : List UInt8} {ending : Ending σ}
    (round : receiveRound env ⟨protocol, context, chunk⟩ = .inr ending) :
    Terminates env protocol context chunk := by
  refine ⟨⟨ending, exits_of_inr round⟩, ?_⟩
  rintro state next ⟨rounds, reached⟩ goes
  cases rounds with
  | zero =>
      cases reached
      rw [round] at goes
      cases goes
  | succ rounds =>
      rw [iterate_succ_of_inr round] at reached
      cases reached

/-- The buffer holds a whole frame, left there when an exception was thrown, and this time
the handler lets the receiver go on after it. -/
def Repeats (env : Surroundings σ) (protocol : Protocol) (context : σ)
    (chunk : List UInt8) : Prop :=
  chunk ≠ [] ∧ ∃ (frame : CutFrame) (call : Call) (next : σ),
    protocol.receiveBuffer = frame.bytes ∧ frame.call (env.memory context) = some call ∧
      env.handle call context = (.goOn, next)

theorem Rests.terminates {protocol : Protocol} (rests : protocol.Rests) {chunk : List UInt8}
    (good : ¬ Announces env context (protocol.receiveBuffer ++ chunk) OwnSize)
    (once : ¬ Repeats env protocol context chunk) :
    Terminates env protocol context chunk := by
  by_cases nonempty : chunk = []
  · subst nonempty
    exact terminates_of_ending (receiveRound_nil env protocol context)
  · cases rests with
    | stage stage => exact stage.terminates good
    | refused big =>
        obtain ⟨ending, round, _⟩ := receiveRound_refused big nonempty
        exact terminates_of_ending round
    | held frame queue =>
        have round : receiveRound env ⟨_, context, chunk⟩ = goOn chunk _ :=
          receiveRound_held frame queue nonempty
        rw [handOver] at round
        cases called : frame.call (env.memory context) with
        | none =>
            rw [called] at round
            exact terminates_of_ending round
        | some call =>
            rw [called] at round
            simp only [deliver] at round
            rcases handled : env.handle call context with ⟨answer, next⟩
            rw [handled] at round
            cases answer with
            | goOn => exact absurd ⟨nonempty, frame, call, next, rfl, called, handled⟩ once
            | stop => exact terminates_of_ending round
            | throws => exact terminates_of_ending round

/-! ## Runs that do not end -/

/-- The stream starts with a frame that is passed on, or with the header in question. -/
theorem Announces.starts {stream : List UInt8}
    (announces : Announces env context stream OwnSize) :
    (∃ (header : MessageHeader) (rest : List UInt8), stream = header.bytes ++ rest ∧
        header.size.toNat = headerSize) ∨
      ∃ (frame : CutFrame) (rest : List UInt8) (call : Call) (next : σ),
        stream = frame.bytes ++ rest ∧ rest ≠ [] ∧
          frame.call (env.memory context) = some call ∧
            env.handle call context = (.goOn, next) := by
  rcases announces with ⟨frames, header, rest, last, streamEq, passes, size, nonempty⟩
  cases frames with
  | nil => exact .inl ⟨header, rest, streamEq, size⟩
  | cons frame frames =>
      rcases passes with ⟨call, next, called, handled, _⟩
      rw [List.flatMap_cons, List.append_assoc] at streamEq
      exact .inr ⟨frame, _, call, next, streamEq, by simp [nonempty], called, handled⟩

/-- So its first header announces nothing, its own size, or more within the limit. -/
theorem Announces.first_header {header : MessageHeader} {more : List UInt8}
    (announces : Announces env context (header.bytes ++ more) OwnSize) :
    header.size.toNat = 0 ∨ headerSize ≤ header.size.toNat ∧ header.size.toNat ≤ maxPktSize := by
  have headerSmall : headerSize ≤ maxPktSize := by decide
  rcases announces.starts with ⟨other, rest, streamEq, size⟩ | ⟨frame, rest, _, _, streamEq, _⟩
  · rw [(MessageHeader.bytes_append_inj streamEq).1]
    omega
  · rw [CutFrame.bytes, List.append_assoc] at streamEq
    rw [(MessageHeader.bytes_append_inj streamEq).1]
    rcases frame.size_cases with ⟨zero, _⟩ | ⟨beyond, le, _⟩
    · exact .inl zero
    · exact .inr ⟨Nat.le_of_lt beyond, le⟩

/-- In none of the stages the buffer holds a whole frame. -/
theorem Stage.not_whole {protocol : Protocol} (stage : protocol.Stage) (frame : CutFrame) :
    protocol.receiveBuffer ≠ frame.bytes := by
  intro whole
  have announcedEq {header : MessageHeader} {body : List UInt8} {queue : List Message}
      (whole : (announced header body queue).receiveBuffer = frame.bytes) :
      header = frame.header ∧ body = frame.body := MessageHeader.bytes_append_inj whole
  have cases := frame.size_cases
  cases stage with
  | collecting short =>
      simp only at whole
      rw [whole, CutFrame.bytes, List.length_append, MessageHeader.length_bytes] at short
      omega
  | swallowing pos below =>
      rw [(announcedEq whole).1] at pos below
      omega
  | stuck size =>
      rw [(announcedEq whole).1] at size
      have headerPos : 0 < headerSize := by decide
      omega
  | waiting le incomplete =>
      rw [(announcedEq whole).1, (announcedEq whole).2] at incomplete
      omega

/-- An idle receiver comes over a header that announces a body within the limit. -/
theorem reaches_announced {header : MessageHeader} (pos : 0 < header.size.toNat)
    (le : header.size.toNat ≤ maxPktSize) (queue : List Message) (rest : List UInt8)
    (chunks : List (List UInt8)) :
    Reaches (feedRound env) (⟨idle queue, context, header.bytes ++ rest⟩, chunks)
      (⟨announced header [] queue, context, rest⟩, chunks) := by
  have headerSmall : headerSize ≤ vectorMaxSize := by decide
  have lengthEq := header.length_bytes
  apply reaches_of_completing
  · rw [lengthEq]
    rfl
  · exact List.length_pos_iff.mp (by rw [lengthEq]; decide)
  · rw [lengthEq]
    simpa [idle] using headerSmall
  · exact (branch_header header headerSize).trans (headerBranch_announced pos le headerSize)

/-- An idle receiver comes from the bytes in a buffer to the state that waits with them in
its buffer, and on to the next chunk. -/
theorem Stage.reaches {protocol : Protocol} (stage : protocol.Stage) (chunk : List UInt8)
    (noWrap : protocol.receiveBuffer.length ≤ protocol.recvTotalSize) :
    Reaches (feedRound env)
      (⟨idle protocol.sendQueue, context, protocol.receiveBuffer⟩, [chunk])
      (⟨protocol, context, chunk⟩, []) := by
  have headerSmall : headerSize ≤ vectorMaxSize := by decide
  cases stage with
  | @collecting buffer queue short =>
      apply reaches_of_short (fun _ => rfl)
      · exact short
      · simp only [idle, List.length_nil]
        omega
  | swallowing pos below =>
      simp only [announced, List.length_append, MessageHeader.length_bytes] at noWrap
      omega
  | @stuck header queue size =>
      have buffered : Reaches (feedRound env) _ (⟨announced header [] queue, context, []⟩, _) :=
        reaches_announced (by rw [size]; decide) (by rw [size]; decide) queue [] [chunk]
      exact buffered.trans (.single (feedRound_cons _ context chunk []))
  | @waiting header body queue le incomplete =>
      have buffered : Reaches (feedRound env) (⟨idle queue, context, header.bytes ++ body⟩, _) _ :=
        reaches_announced (Nat.zero_lt_of_lt incomplete) le queue body [chunk]
      have missingEq : (announced header [] queue).missing = header.size.toNat - headerSize := by
        simp only [missing, announced, List.append_nil, MessageHeader.length_bytes]
        exact sizeSub_of_le (by omega)
      have maxSmall : maxPktSize ≤ vectorMaxSize := by decide
      have moved : Reaches (feedRound env) (⟨announced header [] queue, context, body⟩, [chunk])
          (⟨(announced header [] queue).insert body, context, chunk⟩, []) := by
        apply reaches_of_short
        · exact fun short => absurd short (by simp [announced])
        · omega
        · simp only [announced, List.append_nil, MessageHeader.length_bytes]
          omega
      rw [announced_insert, List.nil_append] at moved
      exact buffered.trans moved

theorem reaches_receiveRound {state reached : Reception σ} {chunks : List (List UInt8)}
    (run : Reaches (feedRound env) (state, []) (reached, chunks)) :
    Reaches (receiveRound env) state reached := by
  rcases run with ⟨rounds, run⟩
  induction rounds generalizing state with
  | zero =>
      cases run
      exact .refl _ _
  | succ rounds ih =>
      cases round : receiveRound env state with
      | inl next =>
          rw [iterate_succ_of_inl (feedRound_of_inl round [])] at run
          exact (Reaches.single round).trans (ih run)
      | inr ending =>
          have stops : feedRound env (state, []) = .inr ending := by
            rw [feedRound, round]
            cases ending with
            | returned protocol context result =>
                cases result with
                | true => rfl
                | false => rfl
            | threw protocol context => rfl
            | overread protocol context => rfl
          rw [iterate_succ_of_inr stops] at run
          cases run

/-- Where the receiver does not swallow its input, it comes to the byte after a header that
announces its own size. -/
theorem Stage.reaches_ownSize {protocol : Protocol} (stage : protocol.Stage)
    (noWrap : protocol.receiveBuffer.length ≤ protocol.recvTotalSize) {chunk : List UInt8}
    (announces : Announces env context (protocol.receiveBuffer ++ chunk) OwnSize) :
    ∃ (header : MessageHeader) (queue : List Message) (last : σ) (rest : List UInt8),
      header.size.toNat = headerSize ∧ rest ≠ [] ∧
        Reaches (receiveRound env) ⟨protocol, context, chunk⟩
          ⟨announced header [] queue, last, rest⟩ := by
  have small (size : Nat) (own : OwnSize size) : 0 < size ∧ size ≤ maxPktSize := by
    rw [show size = headerSize from own]
    decide
  have buffered : Reaches (feedRound env) _ (⟨protocol, context, chunk⟩, []) :=
    stage.reaches chunk noWrap
  obtain ⟨header, last, rest, chunks, size, nonempty, reached⟩ :
      ∃ header last rest chunks, OwnSize header.size.toNat ∧ rest ≠ [] ∧
        Reaches (feedRound env)
          (⟨idle protocol.sendQueue, context, protocol.receiveBuffer⟩, [chunk])
          (⟨announced header [] protocol.sendQueue, last, rest⟩, chunks) :=
    announces.reaches small (by rw [List.flatten_singleton])
  refine ⟨header, protocol.sendQueue, last, rest, size, nonempty, ?_⟩
  rcases buffered.linear reached with later | earlier
  · exact reaches_receiveRound later
  · have same := earlier.eq_of_fixed
      (feedRound_of_inl (Protocol.receiveRound_stuck size nonempty) chunks)
    rw [(Prod.mk.inj same).1]
    exact .refl _ _

/-- A receiver whose bytes missing wrap swallows what follows a header. -/
theorem Stage.swallows {protocol : Protocol} (stage : protocol.Stage)
    (wraps : protocol.recvTotalSize < protocol.receiveBuffer.length) :
    ∃ (header : MessageHeader) (body : List UInt8), 0 < header.size.toNat ∧
      header.size.toNat < headerSize ∧ protocol.receiveBuffer = header.bytes ++ body := by
  cases stage with
  | collecting short =>
      simp only at wraps
      omega
  | swallowing pos below => exact ⟨_, _, pos, below, rfl⟩
  | stuck size => simp [announced, size] at wraps
  | waiting le incomplete =>
      simp only [announced, List.length_append, MessageHeader.length_bytes] at wraps
      omega

/-- A frame that is handed over again moves no bytes. -/
theorem Rests.not_repeats {protocol : Protocol} (rests : protocol.Rests) {chunk : List UInt8}
    (terminates : Terminates env protocol context chunk) :
    ¬ Repeats env protocol context chunk := by
  rintro ⟨nonempty, frame, call, next, whole, called, handled⟩
  cases rests with
  | stage stage => exact stage.not_whole frame whole
  | @refused header _ big =>
      have bytesEq : header.bytes ++ [] = frame.header.bytes ++ frame.body := by
        rw [List.append_nil]
        exact whole
      have headerEq := (MessageHeader.bytes_append_inj bytesEq).1
      have cases := frame.size_cases
      rw [headerEq] at big
      omega
  | held other queue =>
      have same : other = frame := by
        have bytesEq : other.bytes ++ [] = frame.bytes ++ [] := congrArg (· ++ []) whole
        exact CutFrame.eq_of_bytes_append bytesEq
      subst same
      have round : receiveRound env ⟨_, context, chunk⟩ = goOn chunk _ :=
        receiveRound_held other queue nonempty
      rw [handOver, called] at round
      simp only [deliver, handled, goOn] at round
      have shorter := terminates.2 _ _ (.refl _ _) round
      exact Nat.lt_irrefl _ shorter

/-- From every state that calls of `receive` lead to, the next one terminates exactly if the
buffer and the chunk do not contain a header that announces its own size, and a byte after
it, behind frames that are all passed on, and if an exception has not left a whole frame
in the buffer that is passed on this time. -/
theorem terminates_iff {protocol : Protocol} (fed : Fed protocol) (env : Surroundings σ)
    (context : σ) (chunk : List UInt8) :
    Terminates env protocol context chunk ↔
      ¬ Announces env context (protocol.receiveBuffer ++ chunk) OwnSize ∧
        ¬ Repeats env protocol context chunk := by
  constructor
  · intro terminates
    have once := fed.rests.not_repeats terminates
    refine ⟨fun announces => ?_, once⟩
    cases fed.rests with
    | refused big =>
        rcases announces.first_header with zero | ⟨_, le⟩
        · omega
        · omega
    | held frame queue =>
        apply once
        rcases announces.starts with
          ⟨header, rest, streamEq, size⟩ | ⟨other, rest, call, next, streamEq, more, passed⟩
        · rw [CutFrame.bytes, List.append_assoc] at streamEq
          have headerPos : 0 < headerSize := by decide
          have cases := frame.size_cases
          rw [← (MessageHeader.bytes_append_inj streamEq).1] at size
          omega
        · have same := CutFrame.eq_of_bytes_append streamEq
          subst same
          rw [← List.append_cancel_left streamEq] at more
          exact ⟨more, frame, call, next, rfl, passed⟩
    | stage stage =>
        by_cases noWrap : protocol.receiveBuffer.length ≤ protocol.recvTotalSize
        · obtain ⟨header, queue, last, rest, size, nonempty, reached⟩ :=
            stage.reaches_ownSize noWrap announces
          have shorter := terminates.2 _ _ reached (Protocol.receiveRound_stuck size nonempty)
          exact Nat.lt_irrefl _ shorter
        · obtain ⟨header, body, pos, below, bufferEq⟩ := stage.swallows (Nat.lt_of_not_le noWrap)
          rw [bufferEq, List.append_assoc] at announces
          rcases announces.first_header with zero | ⟨above, _⟩
          · omega
          · omega
  · rintro ⟨good, once⟩
    exact fed.rests.terminates good once

/-- A ping that is split in two: the first part waits in the buffer. -/
theorem terminates_iff_ping :
    Terminates (answering fun _ => true) ⟨[0, 0, 0, 0], 6, []⟩ [] [1, 1] ↔
      ¬ Announces (answering fun _ => true) [] [0, 0, 0, 0, 1, 1] OwnSize ∧
        ¬ Repeats (answering fun _ => true) ⟨[0, 0, 0, 0], 6, []⟩ [] [1, 1] := by
  have run : Exits (receiveRound (answering fun _ => true)) ⟨fresh, [], [0, 0, 0, 0]⟩
      (.returned ⟨[0, 0, 0, 0], 6, []⟩ [] true) := ⟨2, rfl⟩
  exact terminates_iff (Fed.fresh.returned _ run) _ [] [1, 1]

/-- A header that announces its own size, and one more byte. -/
theorem terminates_fails :
    ¬ ∀ (protocol : Protocol) (chunk : List UInt8), Fed protocol →
      Terminates (answering fun _ => true) protocol [] chunk := by
  intro terminates
  have shorter := (terminates fresh [6, 0, 0, 0, 5, 1, 9] .fresh).2
    ⟨⟨[6, 0, 0, 0, 5, 1], 6, []⟩, [], [9]⟩ _ ⟨1, rfl⟩ rfl
  exact Nat.lt_irrefl _ shorter

end Protocol

end IotChain.P2P
