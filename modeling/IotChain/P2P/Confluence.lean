import IotChain.P2P.Streams

/-!
# Chunks, rounds and failures do not matter

Two connections that have received the same bytes, or one of them more of the same, have led
to the same effects in the same order, as far as both have come.  When the bytes come, in which
chunks, and when a read fails decides only how far that is.
-/

namespace IotChain.P2P

open IotChain.Transition

namespace Protocol

variable {σ : Type} {env : Surroundings σ} {start context last first second : σ}
  {input rest : List UInt8}

/-! ## Ends at one place -/

/-- How a receiver ends in front of these bytes. -/
inductive Ends (env : Surroundings σ) (context : σ) (rest : List UInt8) (last : σ) : Prop
  | silent (same : context = last)
  | refused {header : MessageHeader} {more : List UInt8} (restEq : rest = header.bytes ++ more)
      (big : maxPktSize < header.size.toNat)
      (told : (env.handle ⟨.messageTooBig, none⟩ context).2 = last)
  | stopped {frame : CutFrame} {more : List UInt8} {call : Call} {answer : Answer}
      (restEq : rest = frame.bytes ++ more)
      (called : frame.call (env.memory context) = some call)
      (handled : env.handle call context = (answer, last)) (stops : answer ≠ .goOn)

theorem Halted.exists_ends (halted : Halted env start input last) :
    ∃ (frames : List CutFrame) (rest : List UInt8) (context : σ),
      input = frames.flatMap CutFrame.bytes ++ rest ∧ Passes env frames start context ∧
        Ends env context rest last := by
  cases halted with
  | silent inputEq passes => exact ⟨_, _, _, inputEq, passes, .silent rfl⟩
  | refused inputEq passes big told => exact ⟨_, _, _, inputEq, passes, .refused rfl big told⟩
  | stopped inputEq passes called handled stops =>
      exact ⟨_, _, _, inputEq, passes, .stopped rfl called handled stops⟩

/-- Frames are passed on in one way. -/
theorem Passes.unique {frames : List CutFrame} (one : Passes env frames start first)
    (other : Passes env frames start second) : first = second := by
  induction frames generalizing start with
  | nil => exact (show start = first from one).symm.trans other
  | cons frame frames ih =>
      rcases one with ⟨call, next, called, handled, passes⟩
      rcases other with ⟨call', next', called', handled', passes'⟩
      obtain rfl := Option.some.inj (called.symm.trans called')
      obtain rfl := congrArg Prod.snd (handled.symm.trans handled')
      exact ih passes passes'

/-- A header that is refused is not that of a frame. -/
theorem bytes_ne_of_big {header : MessageHeader} {frame : CutFrame} {more others : List UInt8}
    (big : maxPktSize < header.size.toNat) :
    header.bytes ++ more ≠ frame.bytes ++ others := by
  intro same
  rw [CutFrame.bytes, List.append_assoc] at same
  rw [(MessageHeader.bytes_append_inj same).1] at big
  exact absurd frame.size_le (Nat.not_le_of_lt big)

/-- In front of a frame that is passed on, a receiver can only be silent. -/
theorem Ends.eq_of_passed {frame : CutFrame} {more : List UInt8} {call : Call} {next : σ}
    (ends : Ends env context (frame.bytes ++ more) last)
    (called : frame.call (env.memory context) = some call)
    (handled : env.handle call context = (.goOn, next)) : context = last := by
  cases ends with
  | silent same => exact same
  | refused restEq big told => exact absurd restEq.symm (bytes_ne_of_big big)
  | stopped restEq called' handled' stops =>
      obtain rfl := CutFrame.eq_of_bytes_append restEq
      obtain rfl := Option.some.inj (called.symm.trans called')
      have answerEq := congrArg Prod.fst (handled.symm.trans handled')
      exact absurd answerEq.symm stops

section Further

variable {further : σ → σ → Prop}

/-- What a receiver has led to only grows. -/
structure Grows (env : Surroundings σ) (further : σ → σ → Prop) : Prop where
  refl : ∀ context, further context context
  trans : ∀ {first second third}, further first second → further second third →
    further first third
  handle : ∀ call context, further context (env.handle call context).2

theorem Grows.passes (grows : Grows env further) {frames : List CutFrame}
    (passes : Passes env frames start last) : further start last := by
  induction frames generalizing start with
  | nil =>
      obtain rfl : start = last := passes
      exact grows.refl start
  | cons frame frames ih =>
      rcases passes with ⟨call, next, _, handled, others⟩
      have step := grows.handle call start
      rw [handled] at step
      exact grows.trans step (ih others)

theorem Grows.ends (grows : Grows env further) (ends : Ends env context rest last) :
    further context last := by
  cases ends with
  | silent same =>
      rw [same]
      exact grows.refl last
  | refused restEq big told =>
      rw [← told]
      exact grows.handle _ context
  | @stopped frame more call answer restEq called handled stops =>
      have step := grows.handle call context
      rwa [handled] at step

/-- Two ends at one place. -/
theorem Grows.comparable_ends (grows : Grows env further) (one : Ends env context rest first)
    (other : Ends env context rest second) : further first second ∨ further second first := by
  cases one with
  | silent same =>
      subst same
      exact .inl (grows.ends other)
  | refused restEq big told =>
      cases other with
      | silent same =>
          subst same
          exact .inr (grows.ends (.refused restEq big told))
      | refused restEq' big' told' =>
          rw [← told, told']
          exact .inl (grows.refl second)
      | stopped restEq' called handled stops =>
          exact absurd (restEq.symm.trans restEq') (bytes_ne_of_big big)
  | stopped restEq called handled stops =>
      cases other with
      | silent same =>
          subst same
          exact .inr (grows.ends (.stopped restEq called handled stops))
      | refused restEq' big told =>
          exact absurd (restEq'.symm.trans restEq) (bytes_ne_of_big big)
      | stopped restEq' called' handled' stops' =>
          obtain rfl := CutFrame.eq_of_bytes_append (restEq.symm.trans restEq')
          obtain rfl := Option.some.inj (called.symm.trans called')
          obtain rfl := congrArg Prod.snd (handled.symm.trans handled')
          exact .inl (grows.refl _)

/-- An end behind some frames, and one behind these and others. -/
theorem Grows.comparable_append (grows : Grows env further) {frames others : List CutFrame}
    {middle : σ} {more : List UInt8} (passes : Passes env frames start context)
    (one : Ends env context (others.flatMap CutFrame.bytes ++ more) first)
    (further' : Passes env (frames ++ others) start middle)
    (other : Ends env middle more second) : further first second ∨ further second first := by
  obtain ⟨context', passes', behind⟩ := passes_append.mp further'
  obtain rfl := passes.unique passes'
  cases others with
  | nil =>
      obtain rfl : context = middle := behind
      exact grows.comparable_ends one other
  | cons frame others =>
      rcases behind with ⟨call, next, called, handled, onwards⟩
      have whole : Passes env (frame :: others) context middle :=
        ⟨call, next, called, handled, onwards⟩
      rw [List.flatMap_cons, List.append_assoc] at one
      rw [← one.eq_of_passed called handled]
      exact .inl (grows.trans (grows.passes whole) (grows.ends other))

/-- Of two ways to cut the same bytes one goes on where the other ends. -/
theorem exists_append_of_bytes {frames others : List CutFrame} {rest more : List UInt8}
    (same : frames.flatMap CutFrame.bytes ++ rest = others.flatMap CutFrame.bytes ++ more) :
    (∃ behind, others = frames ++ behind ∧ rest = behind.flatMap CutFrame.bytes ++ more) ∨
      ∃ behind, frames = others ++ behind ∧ more = behind.flatMap CutFrame.bytes ++ rest := by
  induction frames generalizing others with
  | nil => exact .inl ⟨others, rfl, same⟩
  | cons frame frames ih =>
      cases others with
      | nil => exact .inr ⟨frame :: frames, rfl, same.symm⟩
      | cons first others =>
          rw [List.flatMap_cons, List.flatMap_cons, List.append_assoc, List.append_assoc] at same
          obtain rfl := CutFrame.eq_of_bytes_append same
          rcases ih (List.append_cancel_left same) with
            ⟨behind, rfl, restEq⟩ | ⟨behind, rfl, moreEq⟩
          · exact .inl ⟨behind, rfl, restEq⟩
          · exact .inr ⟨behind, rfl, moreEq⟩

theorem Grows.comparable (grows : Grows env further) (one : Halted env start input first)
    (other : Halted env start input second) : further first second ∨ further second first := by
  obtain ⟨frames, rest, context, inputEq, passes, ends⟩ := one.exists_ends
  obtain ⟨frames', rest', context', inputEq', passes', ends'⟩ := other.exists_ends
  rcases exists_append_of_bytes (inputEq.symm.trans inputEq') with
    ⟨behind, rfl, restEq⟩ | ⟨behind, rfl, restEq⟩
  · rw [restEq] at ends
    exact grows.comparable_append passes ends passes' ends'
  · rw [restEq] at ends'
    exact (grows.comparable_append passes' ends' passes ends).symm

end Further

/-! ## Receivers that have read everything -/

/-- The buffer of a receiver decides what it waits for. -/
theorem Stage.total_eq {protocol : Protocol} (stage : protocol.Stage) :
    protocol.recvTotalSize =
      if protocol.receiveBuffer.length < headerSize then headerSize
      else (MessageHeader.ofBytes protocol.receiveBuffer).size.toNat := by
  have announces (header : MessageHeader) (body : List UInt8) (queue : List Message) :
      (announced header body queue).recvTotalSize =
        if (announced header body queue).receiveBuffer.length < headerSize then headerSize
        else (MessageHeader.ofBytes (announced header body queue).receiveBuffer).size.toNat := by
    have whole : ¬ (announced header body queue).receiveBuffer.length < headerSize := by
      simp [announced]
    rw [if_neg whole]
    simp [announced]
  cases stage with
  | collecting short => exact (if_pos short).symm
  | swallowing pos below => exact announces _ _ _
  | stuck size => exact announces _ _ _
  | waiting le incomplete => exact announces _ _ _

/-- Two receivers that have followed the same bytes are in the same state. -/
theorem Track.unique {one other : Protocol} {seen : List UInt8}
    (track : Track env start seen one first) (track' : Track env start seen other second) :
    first = second ∧ one.receiveBuffer = other.receiveBuffer ∧
      one.recvTotalSize = other.recvTotalSize := by
  rcases track with ⟨⟨frames, seenEq, passes⟩, stage⟩
  rcases track' with ⟨⟨frames', seenEq', passes'⟩, stage'⟩
  have same : frames = frames' ∧ one.receiveBuffer = other.receiveBuffer := by
    rcases exists_append_of_bytes (seenEq.symm.trans seenEq') with
      ⟨behind, rfl, bufferEq⟩ | ⟨behind, rfl, bufferEq⟩
    · obtain rfl := stage.eq_nil_of_frames bufferEq
      exact ⟨(List.append_nil _).symm, bufferEq⟩
    · obtain rfl := stage'.eq_nil_of_frames bufferEq
      exact ⟨List.append_nil _, bufferEq.symm⟩
  obtain ⟨rfl, bufferEq⟩ := same
  exact ⟨passes.unique passes', bufferEq, by rw [stage.total_eq, stage'.total_eq, bufferEq]⟩

end Protocol

/-! ## Connections -/

namespace Connection

open Protocol

variable {memory : List Effect → List UInt8} {process : Processing}

/-- The handler adds to the log. -/
theorem prefix_onReceive (call : Call) (log : List Effect) :
    log <+: (onReceive process call log).2 := by
  rw [onReceive]
  split
  · split
    · rename_i msg _
      rw [onMessage]
      split
      · exact List.prefix_append _ _
      · split
        · exact List.prefix_append _ _
        · split <;> exact List.prefix_append _ _
    · exact List.prefix_append _ _
  · exact List.prefix_append _ _

theorem grows_log :
    Grows ⟨memory, onReceive process⟩ fun first second : List Effect => first <+: second where
  refl := List.prefix_refl
  trans := List.IsPrefix.trans
  handle := prefix_onReceive

theorem Traced.halted {input : List UInt8} {conn : Connection}
    (traced : conn.Traced memory process input) :
    Halted ⟨memory, onReceive process⟩ [] input conn.log := by
  cases traced with
  | reading reads inputEq track =>
      rcases track.cut with ⟨frames, seenEq, passes⟩
      have cut : input = frames.flatMap CutFrame.bytes ++
          (conn.protocol.receiveBuffer ++ conn.unread) := by
        rw [inputEq, seenEq, List.append_assoc]
      exact .silent cut passes
  | ended done halted => exact halted

/-- Of two connections, over the same memory and handler, one of which has received what the
other has and maybe more, the log of one is the beginning of the log of the other; and if both
have received the same and wait for more, they are in the same state. -/
theorem confluent {events others : List ReadEvent} {one other : Connection}
    (run : replay (react memory process) fresh events = some one)
    (run' : replay (react memory process) fresh others = some other)
    (more : events.flatMap ReadEvent.bytes <+: others.flatMap ReadEvent.bytes) :
    (one.log <+: other.log ∨ other.log <+: one.log) ∧
    (events.flatMap ReadEvent.bytes = others.flatMap ReadEvent.bytes →
      one.task = .waiting → other.task = .waiting →
        one.log = other.log ∧ one.protocol.receiveBuffer = other.protocol.receiveBuffer ∧
          one.protocol.recvTotalSize = other.protocol.recvTotalSize) := by
  have traced := traced_of_replay run
  have traced' := traced_of_replay run'
  constructor
  · obtain ⟨bytes, moreEq⟩ := more
    have halted := traced.halted.append bytes
    rw [moreEq] at halted
    exact grows_log.comparable halted traced'.halted
  · intro same waits waits'
    have followed {input : List UInt8} {conn : Connection}
        (traced : conn.Traced memory process input) (waits : conn.task = .waiting) :
        Track ⟨memory, onReceive process⟩ [] input conn.protocol conn.log := by
      cases traced with
      | reading reads inputEq track =>
          have nothing : conn.unread = [] := by rw [unread, waits]
          rw [nothing, List.append_nil] at inputEq
          rwa [inputEq]
      | ended done halted =>
          rw [done] at waits
          cases waits
    rw [same] at traced
    exact (followed traced waits).unique (followed traced' waits')

/-- A ping in one chunk, and a ping and more in two. -/
theorem confluent_ping :
    [Effect.sent (Message.create msgTypePong 1 0)] <+:
        [Effect.sent (Message.create msgTypePong 1 0)] ∨
      [Effect.sent (Message.create msgTypePong 1 0)] <+:
        [Effect.sent (Message.create msgTypePong 1 0)] := by
  have run : replay (react (fun _ => []) fun _ _ => none) fresh
      [.completed [0, 0, 0, 0, 1, 1], .round] =
        some ⟨Protocol.fresh, [.sent (Message.create msgTypePong 1 0)], .receiving []⟩ := by rfl
  have run' : replay (react (fun _ => []) fun _ _ => none) fresh
      [.completed [0, 0, 0], .round, .round, .completed [0, 1, 1, 8], .round, .round, .round,
        .failed] = some ⟨⟨[8], 6, []⟩, [.sent (Message.create msgTypePong 1 0)], .done⟩ := by rfl
  exact (confluent run run' (by decide)).1

end Connection

end IotChain.P2P
