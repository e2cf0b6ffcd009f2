import IotChain.P2P.Framing

/-!
# Reception among surroundings

What `receive` does depends on more than its bytes.  A handler may answer or throw, and
what is read behind `receive_buffer_` is whatever the memory holds there.  Both may change
from call to call; they are functions of a context that the handler updates.  Where the
memory ends, reading on is a fault.  With handlers that only answer, and with nothing
behind the buffer, this is the loop of the framing protocol again.
-/

namespace IotChain.P2P

open IotChain.Transition

/-- How a call of a handler ends. -/
inductive Answer
  | goOn
  | stop
  | throws
  deriving DecidableEq, Repr

/-- What `receive` depends on besides its own state. -/
structure Surroundings (σ : Type) where
  /-- The bytes behind those in `receive_buffer_`. -/
  memory : σ → List UInt8
  handle : Call → σ → Answer × σ

/-- The state of the loop in `receive`: the bytes from `ptr` to `end` are `rest`. -/
structure Reception (σ : Type) where
  protocol : Protocol
  context : σ
  rest : List UInt8

/-- How `receive` ends. -/
inductive Ending (σ : Type)
  | returned (protocol : Protocol) (context : σ) (result : Bool)
  | threw (protocol : Protocol) (context : σ)
  | overread (protocol : Protocol) (context : σ)

/-- The protocol object that `receive` leaves behind. -/
def Ending.protocol {σ : Type} : Ending σ → Protocol
  | .returned protocol _ _ => protocol
  | .threw protocol _ => protocol
  | .overread protocol _ => protocol

/-- The context that `receive` leaves behind. -/
def Ending.context {σ : Type} : Ending σ → σ
  | .returned _ context _ => context
  | .threw _ context => context
  | .overread _ context => context

/-- After this ending, no further chunk is passed to `receive`. -/
def Ending.Stops {σ : Type} : Ending σ → Prop
  | .returned _ _ result => result = false
  | .threw _ _ => True
  | .overread _ _ => True

/-- `std::vector<char>::max_size()`. -/
def vectorMaxSize : Nat := 2 ^ 63 - 1

namespace Protocol

variable {σ : Type}

/-- The call of the handler, and what `receive` does with its answer.  When the handler
throws, the buffer is not cleared. -/
def deliver (env : Surroundings σ) (call : Call) (protocol cleared : Protocol)
    (context : σ) : (Protocol × σ) ⊕ Ending σ :=
  match env.handle call context with
  | (.goOn, next) => .inl (cleared, next)
  | (.stop, next) => .inr (.returned cleared next false)
  | (.throws, next) => .inr (.threw protocol next)

/-- The branch of `receive` taken when the buffer holds just a header. -/
def headerBranch (env : Surroundings σ) (protocol : Protocol) (context : σ) :
    (Protocol × σ) ⊕ Ending σ :=
  let header := MessageHeader.ofBytes protocol.receiveBuffer
  let newSize := header.size.toNat
  if newSize = 0 then
    match Message.ofHeader header none with
    | none => .inr (.overread protocol context)
    | some msg =>
        deliver env ⟨.success, some msg.hop⟩ protocol { protocol with receiveBuffer := [] }
          context
  else if newSize > maxPktSize then
    match env.handle ⟨.messageTooBig, none⟩ context with
    | (.throws, next) => .inr (.threw protocol next)
    | (_, next) => .inr (.returned protocol next false)
  else
    .inl ({ protocol with recvTotalSize := newSize }, context)

/-- The branch of `receive` taken when the buffer has reached the target. -/
def bodyBranch (env : Surroundings σ) (protocol : Protocol) (context : σ) :
    (Protocol × σ) ⊕ Ending σ :=
  let header := MessageHeader.ofBytes protocol.receiveBuffer
  let readable := protocol.receiveBuffer.drop headerSize ++ env.memory context
  match Message.ofHeader header (some readable) with
  | none => .inr (.overread protocol context)
  | some msg =>
      deliver env ⟨.success, some msg.hop⟩ protocol
        { protocol with receiveBuffer := [], recvTotalSize := headerSize } context

/-- What `receive` does after it has inserted bytes. -/
def branch (env : Surroundings σ) (protocol : Protocol) (context : σ) :
    (Protocol × σ) ⊕ Ending σ :=
  if protocol.receiveBuffer.length = headerSize then
    headerBranch env protocol context
  else if protocol.receiveBuffer.length = protocol.recvTotalSize then
    bodyBranch env protocol context
  else
    .inl (protocol, context)

/-- The loop goes on with some rest, or ends. -/
def goOn (rest : List UInt8) : (Protocol × σ) ⊕ Ending σ → Reception σ ⊕ Ending σ
  | .inl (protocol, context) => .inl ⟨protocol, context, rest⟩
  | .inr ending => .inr ending

/-- One round of the loop in `receive`.  A buffer that would outgrow `max_size()` makes
`insert` throw. -/
def receiveRound (env : Surroundings σ) : Body (Reception σ) (Ending σ) := fun state =>
  if state.rest = [] then
    .inr (.returned state.protocol state.context true)
  else
    let remainingBytes := state.protocol.taken state.rest
    if state.protocol.receiveBuffer.length + remainingBytes > vectorMaxSize then
      .inr (.threw state.protocol state.context)
    else
      let inserted := state.protocol.insert (state.rest.take remainingBytes)
      goOn (state.rest.drop remainingBytes) (branch env inserted state.context)

/-- The rounds of `receive` over chunks that are passed to it in order, as long as it
returns true. -/
def feedRound (env : Surroundings σ) : Body (Reception σ × List (List UInt8)) (Ending σ) :=
  fun feeding =>
    match receiveRound env feeding.1 with
    | .inl next => .inl (next, feeding.2)
    | .inr (.returned protocol context true) =>
        match feeding.2 with
        | [] => .inr (.returned protocol context true)
        | chunk :: chunks => .inl (⟨protocol, context, chunk⟩, chunks)
    | .inr ending => .inr ending

theorem receiveRound_nil (env : Surroundings σ) (protocol : Protocol) (context : σ) :
    receiveRound env ⟨protocol, context, []⟩ = .inr (.returned protocol context true) :=
  rfl

/-- One round on a nonempty rest: insert, branch, step over the inserted bytes. -/
theorem receiveRound_of_ne_nil (env : Surroundings σ) {protocol : Protocol} (context : σ)
    {rest : List UInt8} (nonempty : rest ≠ [])
    (room : protocol.receiveBuffer.length + protocol.taken rest ≤ vectorMaxSize) :
    receiveRound env ⟨protocol, context, rest⟩ =
      goOn (rest.drop (protocol.taken rest))
        (branch env (protocol.insert (rest.take (protocol.taken rest))) context) := by
  rw [receiveRound, if_neg nonempty]
  exact if_neg (Nat.not_lt_of_le room)

theorem receiveRound_of_full (env : Surroundings σ) {protocol : Protocol} (context : σ)
    {rest : List UInt8} (nonempty : rest ≠ [])
    (full : vectorMaxSize < protocol.receiveBuffer.length + protocol.taken rest) :
    receiveRound env ⟨protocol, context, rest⟩ = .inr (.threw protocol context) := by
  rw [receiveRound, if_neg nonempty]
  exact if_pos full

theorem taken_le (protocol : Protocol) (rest : List UInt8) :
    protocol.taken rest ≤ rest.length := by
  rw [taken]
  split <;> omega

/-! ## Calls of the handler -/

/-- What is left of a round that has called the handler once at most: the loop goes on only
if the handler has let it, and the round has not ended with true. -/
def CallsOnce (env : Surroundings σ) (context : σ) {ρ : Type} (contextOf : ρ → σ) :
    ρ ⊕ Ending σ → Prop :=
  Sum.elim
    (fun next => contextOf next = context ∨
      ∃ call, env.handle call context = (.goOn, contextOf next))
    (fun ending => ending.Stops ∧ (ending.context = context ∨
      ∃ call answer, env.handle call context = (answer, ending.context)))

theorem callsOnce_deliver (env : Surroundings σ) (call : Call) (protocol cleared : Protocol)
    (context : σ) :
    CallsOnce env context Prod.snd (deliver env call protocol cleared context) := by
  rw [deliver]
  rcases handled : env.handle call context with ⟨answer, next⟩
  cases answer with
  | goOn => exact .inr ⟨call, handled⟩
  | stop => exact ⟨rfl, .inr ⟨call, .stop, handled⟩⟩
  | throws => exact ⟨trivial, .inr ⟨call, .throws, handled⟩⟩

theorem callsOnce_branch (env : Surroundings σ) (protocol : Protocol) (context : σ) :
    CallsOnce env context Prod.snd (branch env protocol context) := by
  rw [branch]
  split
  · simp only [headerBranch]
    split
    · exact callsOnce_deliver env _ _ _ context
    · split
      · rcases handled : env.handle ⟨.messageTooBig, none⟩ context with ⟨answer, next⟩
        cases answer with
        | goOn => exact ⟨rfl, .inr ⟨_, _, handled⟩⟩
        | stop => exact ⟨rfl, .inr ⟨_, _, handled⟩⟩
        | throws => exact ⟨trivial, .inr ⟨_, _, handled⟩⟩
      · exact .inl rfl
  · split
    · simp only [bodyBranch]
      split
      · exact ⟨trivial, .inl rfl⟩
      · exact callsOnce_deliver env _ _ _ context
    · exact .inl rfl

theorem callsOnce_round (env : Surroundings σ) (protocol : Protocol) (context : σ)
    {rest : List UInt8} (nonempty : rest ≠ []) :
    CallsOnce env context Reception.context
      (receiveRound env ⟨protocol, context, rest⟩) := by
  by_cases full : vectorMaxSize < protocol.receiveBuffer.length + protocol.taken rest
  · rw [receiveRound_of_full env context nonempty full]
    exact ⟨trivial, .inl rfl⟩
  · rw [receiveRound_of_ne_nil env context nonempty (Nat.le_of_not_lt full)]
    have once := callsOnce_branch env (protocol.insert (rest.take (protocol.taken rest))) context
    cases branched : branch env (protocol.insert (rest.take (protocol.taken rest))) context with
    | inl next =>
        rw [branched] at once
        exact once
    | inr ending =>
        rw [branched] at once
        exact once

/-! ## The loop of the framing protocol -/

/-- A handler that only answers, and nothing behind the buffer. -/
def answering (handler : Handler) : Surroundings (List Call) where
  memory _ := []
  handle call calls :=
    (if handler (calls ++ [call]) then .goOn else .stop, calls ++ [call])

/-- The state of the framing protocol's loop, as a state of reception. -/
def reception (state : Receiving) : Reception (List Call) :=
  ⟨state.protocol, state.calls, state.rest⟩

/-- The outcomes of the framing protocol, as endings. -/
def ending : Outcome → Ending (List Call)
  | .returned protocol calls result => .returned protocol calls result
  | .overread protocol calls => .overread protocol calls

theorem deliver_answering (handler : Handler) (call : Call) (protocol cleared : Protocol)
    (calls : List Call) :
    deliver (answering handler) call protocol cleared calls =
      Sum.map id ending
        (if handler (calls ++ [call]) then .inl (cleared, calls ++ [call])
          else .inr (.returned cleared (calls ++ [call]) false)) := by
  cases answer : handler (calls ++ [call]) with
  | true => simp [deliver, answering, answer]
  | false => simp [deliver, answering, answer, ending]

theorem headerBranch_answering (handler : Handler) (protocol : Protocol)
    (calls : List Call) :
    headerBranch (answering handler) protocol calls =
      Sum.map id ending (onHeader handler protocol calls) := by
  rw [headerBranch, onHeader]
  simp only
  by_cases zero : (MessageHeader.ofBytes protocol.receiveBuffer).size.toNat = 0
  · rw [if_pos zero, if_pos zero]
    exact deliver_answering handler _ _ _ calls
  · rw [if_neg zero, if_neg zero]
    by_cases big : (MessageHeader.ofBytes protocol.receiveBuffer).size.toNat > maxPktSize
    · rw [if_pos big, if_pos big]
      cases answer : handler (calls ++ [⟨.messageTooBig, none⟩]) with
      | true => simp [answering, answer, ending]
      | false => simp [answering, answer, ending]
    · rw [if_neg big, if_neg big]
      rfl

theorem bodyBranch_answering (handler : Handler) (protocol : Protocol) (calls : List Call) :
    bodyBranch (answering handler) protocol calls =
      Sum.map id ending (onBody handler protocol calls) := by
  have readable : protocol.receiveBuffer.drop headerSize ++ (answering handler).memory calls =
      protocol.receiveBuffer.drop headerSize := List.append_nil _
  rw [bodyBranch, onBody, readable]
  cases Message.ofHeader (MessageHeader.ofBytes protocol.receiveBuffer)
      (some (protocol.receiveBuffer.drop headerSize)) with
  | none => rfl
  | some msg => exact deliver_answering handler _ _ _ calls

theorem branch_answering (handler : Handler) (protocol : Protocol) (calls : List Call) :
    branch (answering handler) protocol calls =
      Sum.map id ending (dispatch handler protocol calls) := by
  rw [branch, dispatch]
  split
  · exact headerBranch_answering handler protocol calls
  · split
    · exact bodyBranch_answering handler protocol calls
    · rfl

/-- A round of reception is a round of the framing protocol, as long as the vector is not
full. -/
theorem receiveRound_answering (handler : Handler) {state : Receiving}
    (fits : state.protocol.receiveBuffer.length + state.rest.length ≤ vectorMaxSize) :
    receiveRound (answering handler) (reception state) =
      Sum.map reception ending (receiveBody handler state) := by
  rcases state with ⟨protocol, calls, rest⟩
  by_cases nonempty : rest = []
  · subst nonempty
    rfl
  · have takenLe := protocol.taken_le rest
    have room : protocol.receiveBuffer.length + protocol.taken rest ≤ vectorMaxSize := by
      simp only at fits
      omega
    change receiveRound (answering handler) ⟨protocol, calls, rest⟩ = _
    rw [receiveBody_of_ne_nil handler protocol calls nonempty,
      receiveRound_of_ne_nil _ calls nonempty room, branch_answering]
    cases dispatch handler (protocol.insert (rest.take (protocol.taken rest))) calls with
    | inl next => rfl
    | inr outcome => rfl

end Protocol

end IotChain.P2P
