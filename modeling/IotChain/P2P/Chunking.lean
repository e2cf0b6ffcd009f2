import IotChain.P2P.Protocol

/-!
# Chunk independence of the receiver

However a byte string is cut into chunks, feeding the chunks one after another
ends as feeding the whole string does.  The only fact about reachable states
that this needs is that a buffer shorter than a header waits for a header.  It
makes every byte before the last one of a round pass without a branch, so a cut
inside a round is invisible.
-/

namespace IotChain.P2P.Protocol

open IotChain.Transition

/-! ## The receiver invariant -/

/-- A buffer that does not yet hold a header waits for one. -/
def Waiting (protocol : Protocol) : Prop :=
  protocol.receiveBuffer.length < headerSize → protocol.recvTotalSize = headerSize

theorem waiting_fresh : fresh.Waiting := fun _ => rfl

/-- The number of bytes that one round moves out of `rest`. -/
def taken (protocol : Protocol) (rest : List UInt8) : Nat :=
  if protocol.missing > rest.length then rest.length else protocol.missing

theorem insert_length (protocol : Protocol) (bytes : List UInt8) :
    (protocol.insert bytes).receiveBuffer.length =
      protocol.receiveBuffer.length + bytes.length := by
  simp [insert]

@[simp]
theorem insert_total (protocol : Protocol) (bytes : List UInt8) :
    (protocol.insert bytes).recvTotalSize = protocol.recvTotalSize :=
  rfl

theorem insert_insert (protocol : Protocol) (first second : List UInt8) :
    (protocol.insert first).insert second = protocol.insert (first ++ second) := by
  simp [insert]

/-- A state of the loop after its insertion: the last inserted byte may have
completed a header, and then only a header was awaited. -/
def Inserted (protocol : Protocol) : Prop :=
  protocol.receiveBuffer.length ≤ headerSize → protocol.recvTotalSize = headerSize

/-- A round that inserts up to `missing` bytes of a nonempty rest keeps the buffer
either below the header with a header awaited, or at the header with a header
awaited, or beyond it. -/
theorem Waiting.inserted {protocol : Protocol} (waiting : protocol.Waiting)
    {rest : List UInt8} (nonempty : rest ≠ []) :
    (protocol.insert (rest.take (protocol.taken rest))).Inserted := by
  intro short
  rw [insert_length, List.length_take] at short
  rw [insert_total]
  by_cases below : protocol.receiveBuffer.length < headerSize
  · exact waiting below
  · have restPos : 0 < rest.length := List.length_pos_iff.mpr nonempty
    have noneMissing : protocol.missing = 0 := by
      simp only [taken] at short
      split at short <;> omega
    have lengthEq : protocol.receiveBuffer.length = headerSize := by omega
    simp only [missing, sizeSub, lengthEq, headerSize] at noneMissing ⊢
    split at noneMissing <;> omega

/-- The branches after an insertion reestablish the invariant, whether the loop
goes on or ends. -/
theorem dispatch_waiting (handler : Handler) {protocol : Protocol} (calls : List Call)
    (inserted : protocol.Inserted) :
    Sum.elim (fun next => next.1.Waiting)
      (fun outcome => outcome.Stops ∧
        ∀ next called result, outcome = .returned next called result → next.Waiting)
      (dispatch handler protocol calls) := by
  unfold dispatch
  split
  · rename_i full
    have total : protocol.recvTotalSize = headerSize := inserted (Nat.le_of_eq full)
    simp only [onHeader, Message.ofHeader]
    split
    · split
      · exact fun _ => total
      · constructor
        · rfl
        · rintro next called result ⟨⟩
          exact fun _ => total
    · split
      · constructor
        · rfl
        · rintro next called result ⟨⟩
          exact fun _ => total
      · exact fun short => absurd full (Nat.ne_of_lt short)
  · split
    · simp only [onBody]
      cases Message.ofHeader (MessageHeader.ofBytes protocol.receiveBuffer)
          (some (protocol.receiveBuffer.drop headerSize)) with
      | none => exact ⟨trivial, fun next called result equal => by cases equal⟩
      | some msg =>
          simp only
          split
          · exact fun _ => rfl
          · constructor
            · rfl
            · rintro next called result ⟨⟩
              exact fun _ => rfl
    · exact fun short => inserted (Nat.le_of_lt short)

theorem receiveBody_nil (handler : Handler) (protocol : Protocol) (calls : List Call) :
    receiveBody handler ⟨protocol, calls, []⟩ = .inr (.returned protocol calls true) :=
  rfl

/-- One round on a nonempty rest: insert, branch, step over the inserted bytes. -/
theorem receiveBody_of_ne_nil (handler : Handler) (protocol : Protocol)
    (calls : List Call) {rest : List UInt8} (nonempty : rest ≠ []) :
    receiveBody handler ⟨protocol, calls, rest⟩ =
      match dispatch handler (protocol.insert (rest.take (protocol.taken rest))) calls with
      | .inl (next, called) => .inl ⟨next, called, rest.drop (protocol.taken rest)⟩
      | .inr outcome => .inr outcome := by
  rw [receiveBody, if_neg nonempty]
  rfl

/-! ## A cut inside a round -/

theorem missing_insert {protocol : Protocol} {bytes : List UInt8}
    (le : bytes.length ≤ protocol.missing) :
    (protocol.insert bytes).missing = protocol.missing - bytes.length := by
  simp only [missing, insert_total, insert_length, sizeSub] at le ⊢
  split at le <;> split <;> omega

/-- Inserting fewer bytes than are missing completes neither a header nor a body. -/
theorem insert_incomplete {protocol : Protocol} (waiting : protocol.Waiting)
    {bytes : List UInt8} (nonempty : bytes ≠ []) (lt : bytes.length < protocol.missing) :
    (protocol.insert bytes).receiveBuffer.length ≠ headerSize ∧
      (protocol.insert bytes).receiveBuffer.length ≠ (protocol.insert bytes).recvTotalSize := by
  have bytesPos : 0 < bytes.length := List.length_pos_iff.mpr nonempty
  rw [insert_length, insert_total]
  constructor
  · intro full
    have total := waiting (by omega)
    simp only [missing, sizeSub, total] at lt
    split at lt <;> omega
  · intro full
    simp only [missing, sizeSub, ← full] at lt
    split at lt <;> omega

/-- Inserting fewer bytes than are missing triggers no branch. -/
theorem dispatch_insert_of_lt_missing (handler : Handler) {protocol : Protocol}
    (calls : List Call) (waiting : protocol.Waiting) {bytes : List UInt8}
    (nonempty : bytes ≠ []) (lt : bytes.length < protocol.missing) :
    dispatch handler (protocol.insert bytes) calls = .inl (protocol.insert bytes, calls) := by
  rcases insert_incomplete waiting nonempty lt with ⟨notHeader, notBody⟩
  rw [dispatch, if_neg notHeader, if_neg notBody]

theorem taken_of_lt_missing {protocol : Protocol} {bytes : List UInt8}
    (lt : bytes.length < protocol.missing) : protocol.taken bytes = bytes.length :=
  if_pos lt

theorem taken_of_missing_le {protocol : Protocol} {bytes : List UInt8}
    (le : protocol.missing ≤ bytes.length) : protocol.taken bytes = protocol.missing :=
  if_neg (by omega)

/-- A chunk that ends before the round is complete only moves its bytes into the
buffer. -/
theorem receiveBody_of_lt_missing (handler : Handler) {protocol : Protocol}
    (calls : List Call) (waiting : protocol.Waiting) {chunk : List UInt8}
    (nonempty : chunk ≠ []) (lt : chunk.length < protocol.missing) :
    receiveBody handler ⟨protocol, calls, chunk⟩ =
      .inl ⟨protocol.insert chunk, calls, []⟩ := by
  rw [receiveBody_of_ne_nil handler protocol calls nonempty, taken_of_lt_missing lt,
    List.take_length, List.drop_length,
    dispatch_insert_of_lt_missing handler calls waiting nonempty lt]

/-- The round on the joined bytes is the round on the second part alone, from the
state in which the first part has been buffered. -/
theorem receiveBody_append_of_lt_missing (handler : Handler) {protocol : Protocol}
    (calls : List Call) {first second : List UInt8} (nonempty : second ≠ [])
    (lt : first.length < protocol.missing) :
    receiveBody handler ⟨protocol, calls, first ++ second⟩ =
      receiveBody handler ⟨protocol.insert first, calls, second⟩ := by
  have takenEq : protocol.taken (first ++ second) =
      first.length + (protocol.insert first).taken second := by
    simp only [taken, missing_insert (Nat.le_of_lt lt), List.length_append]
    split <;> split <;> omega
  rw [receiveBody_of_ne_nil handler protocol calls (by simp [nonempty]),
    receiveBody_of_ne_nil handler (protocol.insert first) calls nonempty, takenEq,
    List.take_length_add_append, List.drop_length_add_append, insert_insert]

/-- A round that is complete within the first part does not look at the second. -/
theorem receiveBody_append_of_missing_le (handler : Handler) {protocol : Protocol}
    (calls : List Call) {first : List UInt8} (second : List UInt8) (nonempty : first ≠ [])
    (le : protocol.missing ≤ first.length) :
    receiveBody handler ⟨protocol, calls, first ++ second⟩ =
      Sum.map (fun next => { next with rest := next.rest ++ second }) id
        (receiveBody handler ⟨protocol, calls, first⟩) := by
  have joinedLe : protocol.missing ≤ (first ++ second).length := by
    rw [List.length_append]
    omega
  rw [receiveBody_of_ne_nil handler protocol calls (by simp [nonempty]),
    receiveBody_of_ne_nil handler protocol calls nonempty, taken_of_missing_le joinedLe,
    taken_of_missing_le le, List.take_append_of_le_length le,
    List.drop_append_of_le_length le]
  cases dispatch handler (protocol.insert (first.take protocol.missing)) calls <;> rfl

/-! ## A cut anywhere -/

/-- A round keeps the invariant.  It leaves by running out of bytes or with an
outcome that stops the feeding, and keeps the invariant then too. -/
theorem receiveBody_waiting (handler : Handler) (state : Receiving)
    (waiting : state.protocol.Waiting) :
    Sum.elim (fun next => next.protocol.Waiting)
      (fun outcome => (state.rest ≠ [] → outcome.Stops) ∧
        ∀ next called result, outcome = .returned next called result → next.Waiting)
      (receiveBody handler state) := by
  rcases state with ⟨protocol, calls, rest⟩
  by_cases nonempty : rest = []
  · subst nonempty
    refine ⟨fun absurdRest => absurd rfl absurdRest, ?_⟩
    rintro next called result ⟨⟩
    exact waiting
  · have branch := dispatch_waiting handler calls (waiting.inserted nonempty)
    rw [receiveBody_of_ne_nil handler protocol calls nonempty]
    cases result : dispatch handler (protocol.insert (rest.take (protocol.taken rest)))
        calls with
    | inl next =>
        rw [result] at branch
        exact branch
    | inr outcome =>
        rw [result] at branch
        exact ⟨fun _ => branch.1, branch.2⟩

/-- The outcome of a chunk keeps the invariant. -/
theorem exits_waiting {handler : Handler} {protocol next : Protocol}
    {calls called : List Call} {chunk : List UInt8} {result : Bool}
    (waiting : protocol.Waiting)
    (run : Exits (receiveBody handler) ⟨protocol, calls, chunk⟩
      (.returned next called result)) : next.Waiting := by
  refine run.of_invariant (fun state => state.protocol.Waiting)
    (fun outcome => ∀ next called result,
      outcome = .returned next called result → next.Waiting) ?_ waiting _ _ _ rfl
  intro state stateWaiting
  have kept := receiveBody_waiting handler state stateWaiting
  cases round : receiveBody handler state with
  | inl _ => rwa [round] at kept
  | inr _ =>
      rw [round] at kept
      exact kept.2

/-- After a first part that is received to its end, the joined bytes go on as the
second part does. -/
theorem exits_append_of_returned {handler : Handler} {second : List UInt8} {n : Nat}
    {protocol next : Protocol} {calls called : List Call} {first : List UInt8}
    (waiting : protocol.Waiting)
    (run : iterate (receiveBody handler) n ⟨protocol, calls, first⟩ =
      .inr (.returned next called true)) (outcome : Outcome) :
    Exits (receiveBody handler) ⟨protocol, calls, first ++ second⟩ outcome ↔
      Exits (receiveBody handler) ⟨next, called, second⟩ outcome := by
  induction n generalizing protocol calls first with
  | zero => simp at run
  | succ n ih =>
      by_cases firstEmpty : first = []
      · subst firstEmpty
        rw [iterate_succ_of_inr (receiveBody_nil handler protocol calls)] at run
        cases run
        rfl
      by_cases lt : first.length < protocol.missing
      · have round := receiveBody_of_lt_missing handler calls waiting firstEmpty lt
        have ended := (exits_iff_of_inl round _).mp ⟨n + 1, run⟩
        rw [exits_iff_of_inr (receiveBody_nil handler _ _)] at ended
        cases ended
        by_cases secondEmpty : second = []
        · subst secondEmpty
          rw [List.append_nil, exits_iff_of_inl round]
        · exact exits_congr
            (receiveBody_append_of_lt_missing handler _ secondEmpty lt) outcome
      · have joined := receiveBody_append_of_missing_le handler calls second firstEmpty
          (Nat.le_of_not_lt lt)
        have kept := receiveBody_waiting handler ⟨protocol, calls, first⟩ waiting
        cases round : receiveBody handler ⟨protocol, calls, first⟩ with
        | inl state =>
            rw [round] at joined kept
            rw [iterate_succ_of_inl round] at run
            rw [exits_iff_of_inl joined]
            exact ih kept run
        | inr left =>
            rw [round] at kept
            rw [iterate_succ_of_inr round] at run
            cases run
            exact absurd (kept.1 firstEmpty) (by simp [Outcome.Stops])

/-- A first part that stops the receiver stops it on the joined bytes. -/
theorem exits_append_of_stops {handler : Handler} {second : List UInt8} {n : Nat}
    {protocol : Protocol} {calls : List Call} {first : List UInt8} {outcome : Outcome}
    (waiting : protocol.Waiting)
    (run : iterate (receiveBody handler) n ⟨protocol, calls, first⟩ = .inr outcome)
    (stops : outcome.Stops) :
    Exits (receiveBody handler) ⟨protocol, calls, first ++ second⟩ outcome := by
  induction n generalizing protocol calls first with
  | zero => simp at run
  | succ n ih =>
      by_cases firstEmpty : first = []
      · subst firstEmpty
        rw [iterate_succ_of_inr (receiveBody_nil handler protocol calls)] at run
        cases run
        exact absurd stops (by simp [Outcome.Stops])
      by_cases lt : first.length < protocol.missing
      · have round := receiveBody_of_lt_missing handler calls waiting firstEmpty lt
        have ended := (exits_iff_of_inl round _).mp ⟨n + 1, run⟩
        rw [exits_iff_of_inr (receiveBody_nil handler _ _)] at ended
        cases ended
        exact absurd stops (by simp [Outcome.Stops])
      · have joined := receiveBody_append_of_missing_le handler calls second firstEmpty
          (Nat.le_of_not_lt lt)
        have kept := receiveBody_waiting handler ⟨protocol, calls, first⟩ waiting
        cases round : receiveBody handler ⟨protocol, calls, first⟩ with
        | inl state =>
            rw [round] at joined kept
            rw [iterate_succ_of_inl round] at run
            exact (exits_iff_of_inl joined outcome).mpr (ih kept run)
        | inr left =>
            rw [round] at joined
            rw [iterate_succ_of_inr round] at run
            cases run
            exact exits_of_inr joined

/-- If the joined bytes are received to an end, so is their first part. -/
theorem exits_of_exits_append {handler : Handler} {second : List UInt8} {n : Nat}
    {protocol : Protocol} {calls : List Call} {first : List UInt8} {outcome : Outcome}
    (waiting : protocol.Waiting)
    (run : iterate (receiveBody handler) n ⟨protocol, calls, first ++ second⟩ =
      .inr outcome) :
    ∃ left, Exits (receiveBody handler) ⟨protocol, calls, first⟩ left := by
  induction n generalizing protocol calls first with
  | zero => simp at run
  | succ n ih =>
      by_cases firstEmpty : first = []
      · subst firstEmpty
        exact ⟨_, exits_of_inr (receiveBody_nil handler protocol calls)⟩
      by_cases lt : first.length < protocol.missing
      · have round := receiveBody_of_lt_missing handler calls waiting firstEmpty lt
        exact ⟨_, (exits_iff_of_inl round _).mpr
          (exits_of_inr (receiveBody_nil handler _ _))⟩
      · have joined := receiveBody_append_of_missing_le handler calls second firstEmpty
          (Nat.le_of_not_lt lt)
        have kept := receiveBody_waiting handler ⟨protocol, calls, first⟩ waiting
        cases round : receiveBody handler ⟨protocol, calls, first⟩ with
        | inl state =>
            rw [round] at joined kept
            rw [iterate_succ_of_inl joined] at run
            obtain ⟨left, ended⟩ := ih kept run
            exact ⟨left, (exits_iff_of_inl round left).mpr ended⟩
        | inr left => exact ⟨left, exits_of_inr round⟩

/-! ## Feeding a list of chunks -/

/-- More rounds for every chunk do not change how the feeding ends. -/
theorem feed_mono {handler : Handler} {n m : Nat} {protocol : Protocol}
    {calls : List Call} {chunks : List (List UInt8)} {outcome : Outcome}
    (run : feed handler n protocol calls chunks = .inr outcome) (le : n ≤ m) :
    feed handler m protocol calls chunks = .inr outcome := by
  induction chunks generalizing protocol calls with
  | nil => exact run
  | cons chunk chunks ih =>
      simp only [feed] at run ⊢
      cases received : receive handler n protocol calls chunk with
      | inl state => simp [received] at run
      | inr left =>
          rw [received] at run
          rw [receive, iterate_mono received le]
          cases left with
          | returned next called result =>
              cases result with
              | true => exact ih run
              | false => exact run
          | overread next called => exact run

/-- The first chunk is received to its end and the others are fed, or the first
chunk stops the receiver. -/
theorem feeds_cons_iff {handler : Handler} {protocol : Protocol} {calls : List Call}
    {chunk : List UInt8} {chunks : List (List UInt8)} {outcome : Outcome} :
    Feeds handler protocol calls (chunk :: chunks) outcome ↔
      (∃ next called,
        Exits (receiveBody handler) ⟨protocol, calls, chunk⟩ (.returned next called true) ∧
          Feeds handler next called chunks outcome) ∨
      (Exits (receiveBody handler) ⟨protocol, calls, chunk⟩ outcome ∧ outcome.Stops) := by
  constructor
  · rintro ⟨rounds, run⟩
    simp only [feed] at run
    cases received : receive handler rounds protocol calls chunk with
    | inl state => simp [received] at run
    | inr left =>
        rw [received] at run
        cases left with
        | returned next called result =>
            cases result with
            | true => exact .inl ⟨next, called, ⟨rounds, received⟩, ⟨rounds, run⟩⟩
            | false =>
                cases run
                exact .inr ⟨⟨rounds, received⟩, rfl⟩
        | overread next called =>
            cases run
            exact .inr ⟨⟨rounds, received⟩, trivial⟩
  · rintro (⟨next, called, ⟨n, first⟩, ⟨m, others⟩⟩ | ⟨⟨n, first⟩, stops⟩)
    · refine ⟨max n m, ?_⟩
      rw [feed, receive, iterate_mono first (Nat.le_max_left n m)]
      exact feed_mono others (Nat.le_max_right n m)
    · refine ⟨n, ?_⟩
      rw [feed, receive, first]
      cases outcome with
      | returned next called result =>
          cases result with
          | true => simp [Outcome.Stops] at stops
          | false => rfl
      | overread next called => rfl

/-- Feeding chunks ends as receiving their concatenation does. -/
theorem feeds_iff_exits_flatten {handler : Handler} {protocol : Protocol}
    {calls : List Call} {chunks : List (List UInt8)} (waiting : protocol.Waiting)
    (outcome : Outcome) :
    Feeds handler protocol calls chunks outcome ↔
      Exits (receiveBody handler) ⟨protocol, calls, chunks.flatten⟩ outcome := by
  induction chunks generalizing protocol calls with
  | nil =>
      rw [List.flatten_nil, exits_iff_of_inr (receiveBody_nil handler protocol calls)]
      constructor
      · rintro ⟨rounds, run⟩
        exact Sum.inr.inj run
      · rintro rfl
        exact ⟨0, rfl⟩
  | cons chunk chunks ih =>
      rw [feeds_cons_iff, List.flatten_cons]
      constructor
      · rintro (⟨next, called, ⟨n, first⟩, others⟩ | ⟨⟨n, first⟩, stops⟩)
        · have nextWaiting := exits_waiting waiting ⟨n, first⟩
          exact (exits_append_of_returned waiting first outcome).mpr
            ((ih nextWaiting).mp others)
        · exact exits_append_of_stops waiting first stops
      · rintro ⟨m, joined⟩
        obtain ⟨left, n, first⟩ := exits_of_exits_append waiting joined
        by_cases goesOn : ∃ next called, left = .returned next called true
        · rcases goesOn with ⟨next, called, rfl⟩
          have nextWaiting := exits_waiting waiting ⟨n, first⟩
          have others := (exits_append_of_returned waiting first outcome).mp ⟨m, joined⟩
          exact .inl ⟨next, called, ⟨n, first⟩, (ih nextWaiting).mpr others⟩
        · have stops : left.Stops := by
            cases left with
            | returned next called result =>
                cases result with
                | true => exact absurd ⟨next, called, rfl⟩ goesOn
                | false => rfl
            | overread next called => trivial
          have same := (exits_append_of_stops waiting first stops).unique ⟨m, joined⟩
          subst same
          exact .inr ⟨⟨n, first⟩, stops⟩

/-! ## Reachable states -/

/-- The states a `protocol` object can have after its construction: it receives
chunks with any handlers, whatever they answer, and sends. -/
inductive Reachable : Protocol → Prop
  | fresh : Reachable fresh
  | receive {handler : Handler} {protocol next : Protocol} {calls called : List Call}
      {chunk : List UInt8} {rounds : Nat} {result : Bool} :
      Reachable protocol →
      protocol.receive handler rounds calls chunk = .inr (.returned next called result) →
      Reachable next
  | send {protocol next : Protocol} {msg : Message} :
      Reachable protocol → protocol.send msg = .ok next → Reachable next
  | getPacket {protocol next : Protocol} {packet : List UInt8} :
      Reachable protocol → protocol.getPacket = some (packet, next) → Reachable next

theorem Reachable.waiting {protocol : Protocol} (reachable : protocol.Reachable) :
    protocol.Waiting := by
  induction reachable with
  | fresh => exact waiting_fresh
  | receive _ run waiting => exact exits_waiting waiting ⟨_, run⟩
  | send _ sent waiting =>
      rw [Protocol.send] at sent
      split at sent
      · cases sent
      · cases sent
        exact waiting
  | @getPacket protocol next packet _ taken waiting =>
      cases queue : protocol.sendQueue with
      | nil => simp [Protocol.getPacket, queue] at taken
      | cons msg rest =>
          simp only [Protocol.getPacket, queue, Option.some.injEq, Prod.mk.injEq] at taken
          rcases taken with ⟨_, rfl⟩
          exact waiting

/-- Segmentation does not change how a byte string is received: two ways of cutting
it have the same outcomes, and therefore one of them goes on forever exactly when
the other does. -/
theorem feed_chunk_independent (handler : Handler) (protocol : Protocol)
    (reachable : protocol.Reachable) (calls : List Call) (first second : List (List UInt8))
    (same : first.flatten = second.flatten) (outcome : Outcome) :
    Feeds handler protocol calls first outcome ↔
      Feeds handler protocol calls second outcome := by
  rw [feeds_iff_exits_flatten reachable.waiting, feeds_iff_exits_flatten reachable.waiting,
    same]

/-- A frame that announces seven bytes faults in one piece and in three. -/
theorem feed_chunk_independent_at :
    Feeds (fun _ => true) fresh [] [[7, 0], [0, 0, 5], [1, 9]]
      (.overread ⟨[7, 0, 0, 0, 5, 1, 9], 7, []⟩ []) :=
  (feed_chunk_independent (fun _ => true) fresh .fresh [] [[7, 0, 0, 0, 5, 1, 9]]
    [[7, 0], [0, 0, 5], [1, 9]] rfl _).mp ⟨2, rfl⟩

end IotChain.P2P.Protocol
