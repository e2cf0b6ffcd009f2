import IotChain.Node.Gossip
import IotChain.P2P.PeerList
import IotChain.VM.Fetching

/-!
# Contracts that are executed elsewhere

The command `newtx` of `___sunum` sends the bytes of a file, and each peer that receives them
runs its virtual machine on them.  The receiver counts the header into the announced size: it
takes the last six bytes of the file for a header of their own, and completes the file from
the memory behind its buffer.  A contract whose last six bytes are a header that does no harm,
and that never fetches from there, is executed as its sender would.
-/

namespace IotChain

open IotChain.P2P IotChain.Transition IotChain.VM

/-- The type of the messages that `___sunum` runs its virtual machine on. -/
abbrev msgTypeContract : UInt8 := 5

/-- A file that is too long to be taken for a header and too short to be refused: the code,
and the six bytes behind it. -/
structure Contract where
  code : List UInt8
  tail : List UInt8
  nonempty : code ≠ []
  six : tail.length = headerSize
  fits : code.length + headerSize ≤ maxPktSize

namespace Contract

/-- The bytes of the file. -/
def payload (contract : Contract) : List UInt8 := contract.code ++ contract.tail

/-- `message m(5, 1); m.write(result.data(), size)`. -/
def message (contract : Contract) (size : UInt32) : Message :=
  let m := Message.create msgTypeContract 1 size
  { m with toStream := m.toStream.write contract.payload }

theorem message_buf (contract : Contract) (size : UInt32) :
    (contract.message size).buf = contract.payload := by
  simp [message, Message.create]

theorem length_payload (contract : Contract) :
    contract.payload.length = contract.code.length + headerSize := by
  rw [payload, List.length_append, contract.six]

/-- The header on the wire. -/
def header (contract : Contract) : MessageHeader :=
  ⟨UInt32.ofNat contract.payload.length, msgTypeContract, 1⟩

theorem header_size (contract : Contract) :
    contract.header.size.toNat = contract.code.length + headerSize := by
  have fits := contract.fits
  have small : maxPktSize < 2 ^ 32 := by decide
  rw [header, UInt32.toNat_ofNat', length_payload]
  exact Nat.mod_eq_of_lt (by omega)

/-- What the receiver takes for a frame. -/
def frame (contract : Contract) : CutFrame where
  header := contract.header
  body := contract.code
  cut := by
    have fits := contract.fits
    have pos : 0 < contract.code.length := List.length_pos_iff.mpr contract.nonempty
    rw [header_size]
    exact .inr (by omega)

/-- What is sent of a contract, cut as the receiver cuts it. -/
def wire (contract : Contract) : List UInt8 := contract.frame.bytes ++ contract.tail

theorem wireBytes_message (contract : Contract) (size : UInt32) :
    Protocol.wireBytes (contract.message size) = contract.wire := by
  have headerEq : Protocol.wireHeader (contract.message size) = contract.header := by
    rw [Protocol.wireHeader, Stream.size, message_buf]
    rfl
  rw [Protocol.wireBytes, headerEq, message_buf, wire, CutFrame.bytes, List.append_assoc]
  rfl

/-- A contract as it is executed by a machine. -/
def bytecode (contract : Contract) : Bytecode where
  bytes := contract.payload
  size_lt := by
    have fits := contract.fits
    have small : maxPktSize < 2 ^ 63 := by decide
    rw [length_payload]
    omega

/-- No run of the contract on this stack fetches from its last six bytes. -/
def StaysInCode (contract : Contract) (stack : Memory) : Prop :=
  ∀ i ∈ Copy.sunum.fetched contract.bytecode stack, i < contract.code.length

/-- The body of the message, with foreign bytes behind the code. -/
def received (contract : Contract) (foreign : List UInt8) : List UInt8 :=
  contract.code ++ foreign.take headerSize

theorem header_size_pos (contract : Contract) : contract.header.size > 0 := by
  have six : 0 < headerSize := by decide
  change 0 < contract.header.size.toNat
  rw [header_size]
  omega

/-- A message is made of a contract only if the bytes behind the buffer can be read. -/
theorem room_of_call (contract : Contract) {memory : List UInt8} {call : P2P.Call}
    (called : contract.frame.call memory = some call) : headerSize ≤ memory.length := by
  by_contra short
  have few : (contract.code ++ memory).length < contract.header.size.toNat := by
    rw [header_size, List.length_append]
    omega
  change (Message.ofHeader contract.header (some (contract.code ++ memory))).map _ = _ at called
  rw [Message.ofHeader, if_pos contract.header_size_pos, if_pos few] at called
  cases called

theorem call_frame (contract : Contract) {memory : List UInt8}
    (room : headerSize ≤ memory.length) :
    contract.frame.call memory =
      some ⟨.success, some ⟨⟨contract.received memory, contract.payload.length⟩,
        { contract.header with ttl := 0 }⟩⟩ := by
  have pos := contract.header_size_pos
  have enough : ¬ (contract.code ++ memory).length < contract.header.size.toNat := by
    rw [header_size, List.length_append]
    omega
  have taken : (contract.code ++ memory).take contract.header.size.toNat =
      contract.received memory := by
    rw [header_size, List.take_length_add_append, received]
  have lengthEq : (contract.received memory).length = contract.payload.length := by
    rw [received, List.length_append, List.length_take_of_le room, length_payload]
  change (Message.ofHeader contract.header (some (contract.code ++ memory))).map _ = _
  rw [Message.ofHeader, if_pos pos, if_neg enough, taken, Stream.empty_write, lengthEq]
  simp [Message.hop, header]

end Contract

/-- `sunum_peer::process_msg`, as far as it returns: it has run the virtual machine. -/
def sunumProcess : Processing := fun _ _ => some .goOn

/-- What the handling of a received contract has to be: from a stack from which the contract
stays in its code, a run of the machine on the body of the message goes through the same states
as one on the file, and ends in the same way. -/
structure Executes (contract : Contract) (effect : Effect) : Prop where
  handled : ∃ (body : Bytecode) (cursor : Nat) (header : MessageHeader),
    effect = .handled ⟨⟨body.bytes, cursor⟩, header⟩ .goOn ∧
    header.type = msgTypeContract ∧
    ∀ stack, contract.StaysInCode stack → ∀ n,
      iterate Sunum.execute n (Machine.construct body stack) =
        Sum.map (Machine.reload · body) (Ending.reload body)
          (iterate Sunum.execute n (Machine.construct contract.bytecode stack))

namespace Contract

/-- The first bytes of what is received are the code. -/
theorem sameAt_received {contract : Contract} {foreign : List UInt8} {body : Bytecode}
    (bodyEq : body.bytes = contract.received foreign) {i : Nat}
    (inside : i < contract.code.length) : contract.bytecode.SameAt body i := by
  have codeEq : contract.bytecode.bytes = contract.code ++ contract.tail := rfl
  rw [Bytecode.SameAt, bodyEq, codeEq, received, List.getElem?_append_left inside,
    List.getElem?_append_left inside]

theorem executes (contract : Contract) {memory : List UInt8}
    (room : headerSize ≤ memory.length) :
    Executes contract (.handled ⟨⟨contract.received memory, contract.payload.length⟩,
      { contract.header with ttl := 0 }⟩ .goOn) := by
  have lengthEq : (contract.received memory).length = contract.payload.length := by
    rw [received, List.length_append, List.length_take_of_le room, length_payload]
  have small : (contract.received memory).length < 2 ^ 63 := by
    rw [lengthEq]
    exact contract.bytecode.size_lt
  refine ⟨⟨contract.received memory, small⟩, _, _, rfl, rfl, ?_⟩
  intro stack stays n
  have same : ∀ i ∈ Copy.sunum.fetched contract.bytecode stack,
      contract.bytecode.SameAt ⟨contract.received memory, small⟩ i :=
    fun i member => sameAt_received rfl (stays i member)
  exact eq_map_reload (Copy.sunum.iterate_alike same n)

end Contract

/-! ## Streams of contracts -/

/-- A header that does no harm: a pong with its last hop to make. -/
def padding : MessageHeader := ⟨0, msgTypePong, 1⟩

/-- The frames that the receiver cuts out of contracts that end in such a header. -/
def contractFrames (contracts : List Contract) : List CutFrame :=
  contracts.flatMap fun contract => [contract.frame, ⟨padding, [], .inl ⟨rfl, rfl⟩⟩]

theorem bytes_contractFrames {contracts : List Contract}
    (padded : ∀ contract ∈ contracts, contract.tail = padding.bytes) :
    (contractFrames contracts).flatMap CutFrame.bytes = contracts.flatMap Contract.wire := by
  induction contracts with
  | nil => rfl
  | cons contract contracts ih =>
      rcases List.forall_mem_cons.mp padded with ⟨first, others⟩
      have padFrame : CutFrame.bytes ⟨padding, [], .inl ⟨rfl, rfl⟩⟩ = padding.bytes :=
        List.append_nil _
      rw [contractFrames, List.flatMap_cons, List.flatMap_append, List.flatMap_cons,
        List.flatMap_singleton, padFrame, ← first, List.flatMap_cons, Contract.wire, ← ih others]
      rfl

section Streams

variable {memory : List Effect → List UInt8}

/-- A contract is handled, and nothing else comes of it. -/
theorem onReceive_contract (contract : Contract) (body : Stream) (log : List Effect) :
    onReceive sunumProcess
        ⟨.success, some ⟨body, { contract.header with ttl := 0 }⟩⟩ log =
      (.goOn, log ++ [.handled ⟨body, { contract.header with ttl := 0 }⟩ .goOn]) :=
  rfl

theorem onReceive_padding (log : List Effect) :
    onReceive sunumProcess (Protocol.emptyCall padding) log = (.goOn, log) := by
  have answered : onReceive sunumProcess (Protocol.emptyCall padding) log = (.goOn, log ++ []) :=
    rfl
  rw [answered, List.append_nil]

/-- The frames that have been passed on are contracts that were executed, in order. -/
theorem executes_of_passes {contracts : List Contract} {frames : List CutFrame}
    (taken : frames <+: contractFrames contracts) {start last : List Effect}
    (passes : Protocol.Passes ⟨memory, onReceive sunumProcess⟩ frames start last) :
    ∃ first later effects, contracts = first ++ later ∧ last = start ++ effects ∧
      List.Forall₂ Executes first effects ∧
      (frames = contractFrames contracts → first = contracts) := by
  induction contracts generalizing frames start with
  | nil =>
      obtain rfl : frames = [] := List.prefix_nil.mp taken
      obtain rfl : start = last := passes
      exact ⟨[], [], [], rfl, (List.append_nil _).symm, .nil, fun _ => rfl⟩
  | cons contract contracts ih =>
      cases frames with
      | nil =>
          obtain rfl : start = last := passes
          refine ⟨[], _, [], rfl, (List.append_nil _).symm, .nil, fun same => ?_⟩
          cases same
      | cons frame frames =>
          have framesEq : contractFrames (contract :: contracts) = contract.frame ::
            ⟨padding, [], .inl ⟨rfl, rfl⟩⟩ :: contractFrames contracts := rfl
          rw [framesEq] at taken
          obtain ⟨rfl, others⟩ := List.cons_prefix_cons.mp taken
          rcases passes with ⟨call, next, called, handled, passes⟩
          have room := contract.room_of_call called
          rw [contract.call_frame room] at called
          cases called
          have nextEq := (onReceive_contract contract
            ⟨contract.received (memory start), contract.payload.length⟩ start).symm.trans handled
          obtain rfl : start ++ _ = next := congrArg Prod.snd nextEq
          have executed := contract.executes room
          cases frames with
          | nil =>
              obtain rfl : _ = last := passes
              refine ⟨[contract], contracts, [_], rfl, rfl, .cons executed .nil, fun same => ?_⟩
              cases same
          | cons pad frames =>
              obtain ⟨rfl, further⟩ := List.cons_prefix_cons.mp others
              rcases passes with ⟨call, next, called, handled, passes⟩
              have padCall : some (Protocol.emptyCall padding) = some call := called
              cases padCall
              have nextEq := (onReceive_padding _).symm.trans handled
              obtain rfl : _ = next := congrArg Prod.snd nextEq
              obtain ⟨first, later, effects, rfl, lastEq, executes, complete⟩ := ih further passes
              refine ⟨contract :: first, later, _ :: effects, rfl, ?_, .cons executed executes, ?_⟩
              · rw [lastEq, List.append_assoc]
                rfl
              · intro same
                rw [framesEq, List.cons.injEq, List.cons.injEq] at same
                exact congrArg (contract :: ·) (complete same.2.2)

/-- The handler of `___sunum` lets the receiver go on after every frame. -/
theorem goOn_of_frame {frame : CutFrame} {behind : List UInt8} {call : P2P.Call}
    (called : frame.call behind = some call) (log : List Effect) :
    (onReceive sunumProcess call log).1 = .goOn := by
  obtain ⟨msg, _, rfl, _⟩ := CutFrame.call_eq_some called
  change (onMessage sunumProcess msg.hop log).1 = .goOn
  rw [onMessage]
  split
  · rfl
  · split <;> rfl

/-- A part of the bytes of contracts that end in a harmless header arrives, in whatever chunks.
Each contract that has been handled was executed like the file, each once and in order; and if
all has arrived and been read, all contracts were. -/
theorem executes_of_replay {contracts : List Contract}
    (padded : ∀ contract ∈ contracts, contract.tail = padding.bytes)
    {events : List ReadEvent} {conn : Connection}
    (run : replay (Connection.react memory sunumProcess) Connection.fresh events = some conn)
    (arrived : events.flatMap ReadEvent.bytes <+: contracts.flatMap Contract.wire) :
    ∃ first later, contracts = first ++ later ∧ List.Forall₂ Executes first conn.log ∧
      (conn.task = .waiting →
        events.flatMap ReadEvent.bytes = contracts.flatMap Contract.wire → later = []) := by
  rw [← bytes_contractFrames padded] at arrived ⊢
  obtain ⟨frames, taken, consumed, complete⟩ :=
    (Connection.traced_of_replay run).consumed arrived
  cases consumed with
  | passed passes =>
      obtain ⟨first, later, effects, contractsEq, logEq, executes, all⟩ :=
        executes_of_passes taken passes
      refine ⟨first, later, contractsEq, ?_, ?_⟩
      · rw [logEq]
        exact executes
      · intro waits whole
        rw [all (complete waits whole)] at contractsEq
        exact List.self_eq_append_right.mp contractsEq
  | @stopped before frame log call answer framesEq passes called handled stops =>
      have answerEq : (onReceive sunumProcess call log).1 = answer := congrArg Prod.fst handled
      exact absurd (answerEq.symm.trans (goOn_of_frame called log)) stops

/-- Executing a contract has a connection send nothing. -/
theorem handled_of_executes {contracts : List Contract} {log : List Effect}
    (executes : List.Forall₂ Executes contracts log) {effect : Effect} (member : effect ∈ log) :
    ∃ msg answer, effect = .handled msg answer := by
  induction executes with
  | nil => cases member
  | cons executed _ ih =>
      rcases List.mem_cons.mp member with rfl | later
      · obtain ⟨_, _, _, rfl, _, _⟩ := executed.handled
        exact ⟨_, _, rfl⟩
      · exact ih later

end Streams

end IotChain
