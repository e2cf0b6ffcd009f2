import IotChain.P2P.Peer
import IotChain.Transition.Runs

/-!
# Hops

A frame announces how many hops it may still make.  The receiver takes one off before it
looks at the rest, in unsigned eight-bit arithmetic, and relays what has hops left then.  So
what is relayed has fewer hops left than it arrived with, unless it arrived with none.
-/

namespace IotChain.P2P

open IotChain.Transition

/-! ## Arriving -/

/-- The frame in a buffer, if one of the two branches of `receive` delivers it. -/
def Protocol.delivered (behind : List UInt8) (protocol : Protocol) : Option Message :=
  let header := MessageHeader.ofBytes protocol.receiveBuffer
  if protocol.receiveBuffer.length = headerSize then
    if header.size.toNat = 0 then Message.ofHeader header none else none
  else if protocol.receiveBuffer.length = protocol.recvTotalSize then
    Message.ofHeader header (some (protocol.receiveBuffer.drop headerSize ++ behind))
  else
    none

/-- The frame that the next round of `receive` delivers, as it arrives. -/
def Connection.arriving (memory : List Effect → List UInt8) (conn : Connection) :
    Option Message :=
  match conn.task with
  | .receiving rest =>
      if rest = [] ∨
          conn.protocol.receiveBuffer.length + conn.protocol.taken rest > vectorMaxSize then
        none
      else
        (conn.protocol.insert (rest.take (conn.protocol.taken rest))).delivered
          (memory conn.log)
  | _ => none

section Branches

variable {σ : Type} {env : Surroundings σ} {protocol : Protocol} {context : σ}

theorem context_deliver (call : Call) (cleared : Protocol) :
    (Protocol.deliver env call protocol cleared context).elim Prod.snd Ending.context =
      (env.handle call context).2 := by
  rw [Protocol.deliver]
  rcases env.handle call context with ⟨answer, next⟩
  cases answer <;> rfl

/-- Both branches give the handler a frame with one hop less. -/
theorem context_of_delivered {frame : Message}
    (delivered : protocol.delivered (env.memory context) = some frame) :
    (Protocol.branch env protocol context).elim Prod.snd Ending.context =
      (env.handle ⟨.success, some frame.hop⟩ context).2 := by
  rw [Protocol.delivered] at delivered
  rw [Protocol.branch]
  by_cases header : protocol.receiveBuffer.length = headerSize
  · rw [if_pos header] at delivered ⊢
    by_cases empty : (MessageHeader.ofBytes protocol.receiveBuffer).size.toNat = 0
    · rw [if_pos empty] at delivered
      simp only [Protocol.headerBranch, if_pos empty, delivered]
      exact context_deliver _ _
    · rw [if_neg empty] at delivered
      cases delivered
  · rw [if_neg header] at delivered ⊢
    by_cases body : protocol.receiveBuffer.length = protocol.recvTotalSize
    · rw [if_pos body] at delivered ⊢
      simp only [Protocol.bodyBranch, delivered]
      exact context_deliver _ _
    · rw [if_neg body] at delivered
      cases delivered

/-- If no frame is delivered, the handler is told of one that is too big at most. -/
theorem context_of_not_delivered
    (nothing : protocol.delivered (env.memory context) = none) :
    (Protocol.branch env protocol context).elim Prod.snd Ending.context = context ∨
      (Protocol.branch env protocol context).elim Prod.snd Ending.context =
        (env.handle ⟨.messageTooBig, none⟩ context).2 := by
  rw [Protocol.delivered] at nothing
  rw [Protocol.branch]
  by_cases header : protocol.receiveBuffer.length = headerSize
  · rw [if_pos header] at nothing ⊢
    by_cases empty : (MessageHeader.ofBytes protocol.receiveBuffer).size.toNat = 0
    · rw [if_pos empty] at nothing
      cases nothing
    · simp only [Protocol.headerBranch, if_neg empty]
      split
      · right
        rcases env.handle ⟨.messageTooBig, none⟩ context with ⟨answer, next⟩
        cases answer <;> rfl
      · exact .inl rfl
  · rw [if_neg header] at nothing ⊢
    left
    by_cases body : protocol.receiveBuffer.length = protocol.recvTotalSize
    · rw [if_pos body] at nothing ⊢
      simp only [Protocol.bodyBranch, nothing]
      rfl
    · rw [if_neg body]
      rfl

end Branches

/-! ## Relaying -/

/-- The handlers of a connection let a message through to the relay. -/
def Relayable (process : Processing) (log : List Effect) (msg : Message) : Prop :=
  msg.header.type = msgTypePing ∨ msg.header.type = msgTypePong ∨
    process log msg = some .goOn

theorem mem_relay {msg other : Message} :
    Effect.broadcast other ∈ relay msg ↔ msg.header.ttl > 0 ∧ other = msg := by
  rw [relay]
  split
  · rename_i left
    rw [List.mem_singleton, Effect.broadcast.injEq]
    exact (and_iff_right left).symm
  · rename_i none
    exact iff_of_false List.not_mem_nil fun both => none both.1

/-- What is added to the log for a message: the message is relayed if it was let through
and has hops left. -/
theorem exists_added (process : Processing) (msg : Message) (log : List Effect) :
    ∃ added, (onMessage process msg log).2 = log ++ added ∧
      ∀ other, .broadcast other ∈ added ↔
        Relayable process log msg ∧ msg.header.ttl > 0 ∧ other = msg := by
  have through (relayable : Relayable process log msg) (other : Message) :
      .broadcast other ∈ relay msg ↔
        Relayable process log msg ∧ msg.header.ttl > 0 ∧ other = msg := by
    rw [mem_relay, and_iff_right relayable]
  have behind {first : Effect} (notRelay : ∀ other, first ≠ .broadcast other)
      (relayable : Relayable process log msg) (other : Message) :
      .broadcast other ∈ first :: relay msg ↔
        Relayable process log msg ∧ msg.header.ttl > 0 ∧ other = msg := by
    rw [List.mem_cons, or_iff_right fun same => notRelay other same.symm]
    exact through relayable other
  have stopped {last : Effect} (notRelay : ∀ other, last ≠ .broadcast other)
      (blocked : ¬ Relayable process log msg) (other : Message) :
      .broadcast other ∈ [last] ↔
        Relayable process log msg ∧ msg.header.ttl > 0 ∧ other = msg := by
    rw [List.mem_singleton]
    exact iff_of_false (fun same => notRelay other same.symm) fun both => blocked both.1
  rw [onMessage]
  by_cases ping : msg.header.type = msgTypePing
  · rw [if_pos ping]
    exact ⟨_, rfl, behind (by simp) (.inl ping)⟩
  · rw [if_neg ping]
    by_cases pong : msg.header.type = msgTypePong
    · rw [if_pos pong]
      exact ⟨_, rfl, through (.inr (.inl pong))⟩
    · rw [if_neg pong]
      have blocked (refused : process log msg ≠ some .goOn) : ¬ Relayable process log msg := by
        rintro (type | type | accepted)
        · exact ping type
        · exact pong type
        · exact refused accepted
      cases processed : process log msg with
      | none => exact ⟨_, rfl, stopped (by simp) (blocked (by simp [processed]))⟩
      | some answer =>
          cases answer with
          | goOn => exact ⟨_, rfl, behind (by simp) (.inr (.inr processed))⟩
          | stop => exact ⟨_, rfl, stopped (by simp) (blocked (by simp [processed]))⟩
          | throws => exact ⟨_, rfl, stopped (by simp) (blocked (by simp [processed]))⟩

/-! ## Steps of a connection -/

section Connections

variable {memory : List Effect → List UInt8} {process : Processing}

theorem log_received (ending : Ending (List Effect)) :
    (Connection.received ending).log = ending.context := by
  cases ending with
  | returned protocol log result => cases result <;> rfl
  | threw protocol log => rfl
  | overread protocol log => rfl

/-- The log behind a round is the context behind it. -/
theorem log_of_round {protocol : Protocol} {log : List Effect} {rest : List UInt8}
    {next : Connection}
    (step : Connection.react memory process ⟨protocol, log, .receiving rest⟩ .round = some next) :
    next.log = (Protocol.receiveRound ⟨memory, onReceive process⟩
      ⟨protocol, log, rest⟩).elim Reception.context Ending.context := by
  simp only [Connection.react] at step
  cases round : Protocol.receiveRound ⟨memory, onReceive process⟩ ⟨protocol, log, rest⟩ with
  | inl state =>
      rw [round] at step
      obtain rfl := Option.some.inj step
      rfl
  | inr ending =>
      rw [round] at step
      obtain rfl := Option.some.inj step
      exact log_received ending

theorem context_goOn {σ : Type} (rest : List UInt8) (branched : (Protocol × σ) ⊕ Ending σ) :
    (Protocol.goOn rest branched).elim Reception.context Ending.context =
      branched.elim Prod.snd Ending.context := by
  cases branched with
  | inl next => rfl
  | inr ending => rfl

/-- What a step adds to the log, by the frame that arrives. -/
theorem log_of_step {conn next : Connection} {event : ReadEvent}
    (step : Connection.react memory process conn event = some next) :
    match conn.arriving memory with
    | some frame => next.log = (onMessage process frame.hop conn.log).2
    | none => next.log = conn.log ∨ next.log = conn.log ++ [.refused .messageTooBig] := by
  rcases conn with ⟨protocol, log, task⟩
  cases task with
  | waiting =>
      left
      cases event with
      | completed chunk =>
          simp only [Connection.react] at step
          split at step <;> rw [← Option.some.inj step]
      | failed => rw [← Option.some.inj step]
      | round => cases step
  | done => cases event <;> cases step
  | receiving rest =>
      cases event with
      | completed chunk => cases step
      | failed => cases step
      | round =>
          have logEq := log_of_round step
          rw [Connection.arriving]
          by_cases empty : rest = []
          · simp only [if_pos (Or.inl empty)]
            subst empty
            exact .inl logEq
          · by_cases full :
                protocol.receiveBuffer.length + protocol.taken rest > vectorMaxSize
            · simp only [if_pos (Or.inr full)]
              rw [Protocol.receiveRound_of_full _ _ empty full] at logEq
              exact .inl logEq
            · simp only [if_neg (not_or.mpr ⟨empty, full⟩)]
              rw [Protocol.receiveRound_of_ne_nil _ _ empty (Nat.le_of_not_lt full),
                context_goOn] at logEq
              cases delivered : (protocol.insert
                  (rest.take (protocol.taken rest))).delivered (memory log) with
              | some frame => exact logEq.trans (context_of_delivered delivered)
              | none =>
                  have contexts := @context_of_not_delivered _ ⟨memory, onReceive process⟩
                    _ log delivered
                  rcases contexts with same | told
                  · exact .inl (logEq.trans same)
                  · exact .inr (logEq.trans told)

/-- A step of a connection relays a message. -/
def Relayed (t : Taken Connection ReadEvent) (msg : Message) : Prop :=
  ∃ added, t.after.log = t.before.log ++ added ∧ .broadcast msg ∈ added

/-- What is relayed is the frame that arrives, with one hop less. -/
theorem relayed_iff {t : Taken Connection ReadEvent}
    (step : (Connection.react memory process).Steps t.before t.event t.after) (msg : Message) :
    Relayed t msg ↔ ∃ frame, t.before.arriving memory = some frame ∧
      Relayable process t.before.log frame.hop ∧ frame.hop.header.ttl > 0 ∧
      msg = frame.hop := by
  have logEq := log_of_step step
  cases arrives : t.before.arriving memory with
  | some frame =>
      rw [arrives] at logEq
      rcases exists_added process frame.hop t.before.log with ⟨added, more, relays⟩
      constructor
      · rintro ⟨others, same, member⟩
        obtain rfl : added = others :=
          List.append_cancel_left ((more.symm.trans logEq.symm).trans same)
        exact ⟨frame, rfl, (relays msg).mp member⟩
      · rintro ⟨other, same, relayed⟩
        obtain rfl := Option.some.inj same
        exact ⟨added, logEq.trans more, (relays msg).mpr relayed⟩
  | none =>
      rw [arrives] at logEq
      apply iff_of_false
      · rintro ⟨added, same, member⟩
        rcases logEq with unchanged | refused
        · obtain rfl : added = [] := by
            apply @List.append_cancel_left _ t.before.log
            rw [← same, unchanged, List.append_nil]
          cases member
        · obtain rfl : added = [.refused .messageTooBig] :=
            List.append_cancel_left (same.symm.trans refused)
          cases List.mem_singleton.mp member
      · rintro ⟨frame, same, _⟩
        cases same

/-- What a step relays has fewer hops left than it arrived with, and a frame with one hop or
none is not relayed. -/
def ShrinksTtl (memory : List Effect → List UInt8) (t : Taken Connection ReadEvent) : Prop :=
  ∀ msg, Relayed t msg → ∃ frame, t.before.arriving memory = some frame ∧
    msg.header.ttl < frame.header.ttl ∧ 1 < frame.header.ttl

/-- A frame that the handlers let through has arrived with hops left. -/
def ArrivesWithHops (memory : List Effect → List UInt8) (process : Processing)
    (t : Taken Connection ReadEvent) : Prop :=
  ∀ frame, t.before.arriving memory = some frame →
    Relayable process t.before.log frame.hop → frame.header.ttl ≠ 0

theorem hop_toNat {ttl : UInt8} (left : ttl ≠ 0) : (ttl - 1).toNat + 1 = ttl.toNat := by
  have positive : ttl.toNat ≠ 0 := fun zero => left (UInt8.toNat_inj.mp zero)
  have one : (1 : UInt8) ≤ ttl := UInt8.le_iff_toNat_le.mpr (Nat.one_le_iff_ne_zero.mpr positive)
  rw [UInt8.toNat_sub_of_le _ _ one]
  exact Nat.sub_add_cancel (Nat.one_le_iff_ne_zero.mpr positive)

/-- Taking a hop off wraps at zero alone. -/
theorem hop_shrinks_iff (ttl : UInt8) :
    (ttl - 1 > 0 → ttl - 1 < ttl ∧ 1 < ttl) ↔ ttl ≠ 0 := by
  constructor
  · rintro shrinks rfl
    exact absurd (shrinks (by decide)).1 (by decide)
  · intro left more
    have toNat := hop_toNat left
    rw [gt_iff_lt, UInt8.lt_iff_toNat_lt, UInt8.toNat_zero] at more
    rw [UInt8.lt_iff_toNat_lt, UInt8.lt_iff_toNat_lt, UInt8.toNat_one]
    omega

theorem shrinksTtl_iff {t : Taken Connection ReadEvent}
    (step : (Connection.react memory process).Steps t.before t.event t.after) :
    ShrinksTtl memory t ↔ ArrivesWithHops memory process t := by
  constructor
  · intro shrinks frame arrives relayable
    rw [← hop_shrinks_iff]
    intro left
    rcases shrinks frame.hop ((relayed_iff step _).mpr ⟨frame, arrives, relayable, left, rfl⟩)
      with ⟨other, same, less⟩
    obtain rfl := Option.some.inj (arrives.symm.trans same)
    exact less
  · intro hops msg relayed
    rcases (relayed_iff step msg).mp relayed with ⟨frame, arrives, relayable, left, rfl⟩
    exact ⟨frame, arrives, (hop_shrinks_iff _).mpr (hops frame arrives relayable) left⟩

end Connections

/-! ## Journeys -/

/-- The number of hops that a frame can make when it is injected: a connection relays it, and
what is relayed arrives somewhere again. -/
inductive Journey : UInt8 → Nat → Prop
  | ended (ttl : UInt8) : Journey ttl 0
  | hop {memory : List Effect → List UInt8} {process : Processing}
      {t : Taken Connection ReadEvent} {frame msg : Message} {hops : Nat}
      (step : (Connection.react memory process).Steps t.before t.event t.after)
      (arrives : t.before.arriving memory = some frame) (relayed : Relayed t msg)
      (onward : Journey msg.header.ttl hops) : Journey frame.header.ttl (hops + 1)

/-- With hops left, a frame makes no more than it announces. -/
theorem Journey.le {ttl : UInt8} {hops : Nat} (journey : Journey ttl hops) (left : ttl ≠ 0) :
    hops ≤ ttl.toNat := by
  induction journey with
  | ended ttl => exact Nat.zero_le _
  | @hop memory process t frame msg hops step arrives relayed onward ih =>
      rcases (relayed_iff step msg).mp relayed with ⟨other, same, -, more, rfl⟩
      obtain rfl := Option.some.inj (arrives.symm.trans same)
      have toNat := hop_toNat left
      have bound : hops ≤ (frame.header.ttl - 1).toNat := ih (UInt8.pos_iff_ne_zero.mp more)
      omega

/-! ## A ping -/

namespace SamplePing

/-- The bytes of a ping without a body. -/
def frame (ttl : UInt8) : List UInt8 := [0, 0, 0, 0, msgTypePing, ttl]

/-- The connection whose buffer holds the ping and nothing else. -/
def arrived (ttl : UInt8) : Connection := ⟨Protocol.fresh, [], .receiving (frame ttl)⟩

/-- The ping with this ttl, as a message. -/
def ping (ttl : UInt8) : Message := { Stream.empty with header := ⟨0, msgTypePing, ttl⟩ }

/-- The connection that has relayed a ping with this ttl. -/
def relayed (ttl : UInt8) : Connection :=
  ⟨Protocol.fresh, [.sent (Message.create msgTypePong 1 0), .broadcast (ping ttl)],
    .receiving []⟩

/-- Nothing is behind the buffer, and there are no handlers of messages. -/
abbrev react : Reaction Connection ReadEvent :=
  Connection.react (fun _ => []) (fun _ _ => none)

/-- The ping arrives, and the loop of `receive` makes its round. -/
def steps (ttl next : UInt8) : List (Taken Connection ReadEvent) :=
  [⟨.fresh, .completed (frame ttl), arrived ttl⟩, ⟨arrived ttl, .round, relayed next⟩]

theorem round_zero : react.Steps (arrived 0) .round (relayed 255) := by
  rw [Reaction.Steps]
  decide

theorem round_two : react.Steps (arrived 2) .round (relayed 1) := by
  rw [Reaction.Steps]
  decide

theorem runs {ttl next : UInt8} (round : react.Steps (arrived ttl) .round (relayed next)) :
    Runs react.Steps .fresh (steps ttl next) (relayed next) :=
  .cons (by rfl) (.cons round (.refl _))

/-- The round that relays a ping without hops left. -/
def wrapped : Taken Connection ReadEvent := ⟨arrived 0, .round, relayed 255⟩

theorem arriving_zero : wrapped.before.arriving (fun _ => []) = some (ping 0) := by decide

theorem journey_zero : Journey 0 1 := by
  have relays : Relayed wrapped (ping 255) := ⟨_, rfl, by decide⟩
  exact .hop round_zero arriving_zero relays (.ended 255)

end SamplePing

/-! ## Every run -/

/-- Along a run of a connection, what is relayed has fewer hops left than it arrived with
exactly if every frame that the handlers let through arrived with hops left.  A frame makes
no more hops than it announces exactly if it announces some. -/
theorem ttl_shrinks_iff {memory : List Effect → List UInt8} {process : Processing}
    {steps : List (Taken Connection ReadEvent)} {last : Connection}
    (run : Runs (Connection.react memory process).Steps Connection.fresh steps last) :
    ((∀ t ∈ steps, ShrinksTtl memory t) ↔ ∀ t ∈ steps, ArrivesWithHops memory process t) ∧
      ∀ ttl, (∀ hops, Journey ttl hops → hops ≤ ttl.toNat) ↔ ttl ≠ 0 := by
  constructor
  · apply run.forall_iff fun _ => True
    · intro state event next step _
      exact shrinksTtl_iff step
    · exact fun _ _ _ => trivial
    · trivial
  · intro ttl
    constructor
    · rintro bounded rfl
      exact absurd (bounded 1 SamplePing.journey_zero) (by decide)
    · intro left hops journey
      exact journey.le left

theorem ttl_shrinks_iff_ping :
    ((∀ t ∈ SamplePing.steps 2 1, ShrinksTtl (fun _ => []) t) ↔
        ∀ t ∈ SamplePing.steps 2 1, ArrivesWithHops (fun _ => []) (fun _ _ => none) t) ∧
      ∀ ttl, (∀ hops, Journey ttl hops → hops ≤ ttl.toNat) ↔ ttl ≠ 0 :=
  ttl_shrinks_iff (SamplePing.runs SamplePing.round_two)

/-- A ping that arrives with ttl zero is relayed with ttl 255. -/
theorem ttl_shrinks_fails :
    ¬ ∀ (memory : List Effect → List UInt8) (process : Processing)
        (steps : List (Taken Connection ReadEvent)) (last : Connection),
      Runs (Connection.react memory process).Steps Connection.fresh steps last →
        ∀ t ∈ steps, ShrinksTtl memory t := by
  intro shrink
  have shrinks := shrink _ _ _ _ (SamplePing.runs SamplePing.round_zero) SamplePing.wrapped
    (List.mem_cons_of_mem _ List.mem_cons_self)
  have hops : ArrivesWithHops (fun _ => []) (fun _ _ => none) SamplePing.wrapped :=
    (shrinksTtl_iff SamplePing.round_zero).mp shrinks
  exact hops (SamplePing.ping 0) SamplePing.arriving_zero (.inl rfl) rfl

end IotChain.P2P
