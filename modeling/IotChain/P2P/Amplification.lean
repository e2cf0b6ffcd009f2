import IotChain.P2P.Confluence
import IotChain.P2P.Pings
import Mathlib.Data.List.Flatten

/-!
# How much a connection can make its peer send

A ping makes the peer send a pong back, and each message with hops left makes it send a copy
to every other peer.  A copy has a new header in front of its body, and the body is as long as
the whole frame that was received, so that it is longer than the frame, but not twice as long.
-/

namespace IotChain.P2P

open IotChain.Transition

/-- The message that goes to the other peers. -/
def Effect.relayed : Effect → Option Message
  | .broadcast msg => some msg
  | _ => none

/-- The messages that a log has had every other peer be sent. -/
def relays (log : List Effect) : List Message := log.filterMap Effect.relayed

/-- The bytes that messages take on the wire. -/
def wireLength (msgs : List Message) : Nat := (msgs.flatMap Protocol.wireBytes).length

/-- What can be made of so many bytes: pongs that take no more, relayed messages that take at
most 13 bytes for 7, and none that `protocol::send` refuses. -/
structure Affordable (added : List Effect) (received : Nat) : Prop where
  fits : ∀ msg ∈ responses added ++ relays added, msg.size ≤ maxPktSize
  responses : wireLength (responses added) ≤ received
  relays : 7 * wireLength (relays added) ≤ 13 * received

/-! ## Messages -/

theorem wireLength_append (first second : List Message) :
    wireLength (first ++ second) = wireLength first + wireLength second := by
  rw [wireLength, List.flatMap_append, List.length_append]
  rfl

theorem wireLength_singleton (msg : Message) : wireLength [msg] = headerSize + msg.size := by
  rw [wireLength, List.flatMap_singleton, Protocol.wireBytes, List.length_append,
    MessageHeader.length_bytes]
  rfl

/-- A message that is made from a frame is as long as its header announces. -/
theorem Message.size_of_ofHeader {header : MessageHeader} {readable : List UInt8} {msg : Message}
    (made : ofHeader header (some readable) = some msg) : msg.size = header.size.toNat := by
  rw [ofHeader] at made
  split at made
  · split at made
    · cases made
    · rename_i _ enough
      cases made
      rw [Stream.empty_write]
      exact List.length_take_of_le (Nat.le_of_not_lt enough)
  · rename_i notPos
    cases made
    have zero : header.size = 0 := by
      by_contra ne
      exact notPos (UInt32.pos_iff_ne_zero.mpr ne)
    rw [zero]
    rfl

/-- A frame of 7 bytes has a body of one byte, and the message that is made of it one of 7. -/
theorem CutFrame.wire_le (frame : CutFrame) :
    7 * (headerSize + frame.header.size.toNat) ≤ 13 * frame.bytes.length := by
  have six : headerSize = 6 := rfl
  rw [bytes, List.length_append, MessageHeader.length_bytes]
  rcases frame.size_cases with ⟨zero, _⟩ | ⟨beyond, _, complete⟩
  · omega
  · omega

/-! ## Effects -/

theorem Affordable.nil (received : Nat) : Affordable [] received where
  fits _ member := nomatch member
  responses := Nat.zero_le _
  relays := Nat.zero_le _

theorem Affordable.append {first second : List Effect} {received more : Nat}
    (one : Affordable first received) (other : Affordable second more) :
    Affordable (first ++ second) (received + more) where
  fits msg member := by
    rw [responses_append, P2P.relays, List.filterMap_append, List.mem_append, List.mem_append,
      List.mem_append] at member
    rcases member with (early | late) | early | late
    · exact one.fits msg (List.mem_append_left _ early)
    · exact other.fits msg (List.mem_append_left _ late)
    · exact one.fits msg (List.mem_append_right _ early)
    · exact other.fits msg (List.mem_append_right _ late)
  responses := by
    rw [responses_append, wireLength_append]
    exact Nat.add_le_add one.responses other.responses
  relays := by
    rw [P2P.relays, List.filterMap_append, wireLength_append, Nat.mul_add, Nat.mul_add]
    exact Nat.add_le_add one.relays other.relays

theorem Affordable.mono {added : List Effect} {received more : Nat}
    (affordable : Affordable added received) (le : received ≤ more) : Affordable added more where
  fits := affordable.fits
  responses := affordable.responses.trans le
  relays := affordable.relays.trans (Nat.mul_le_mul_left 13 le)

/-- What is added to the log for a message: at most a pong, and at most the message. -/
theorem sublist_onMessage (process : Processing) (msg : Message) (log : List Effect) :
    ∃ added, (onMessage process msg log).2 = log ++ added ∧
      (responses added).Sublist [pong] ∧ (relays added).Sublist [msg] := by
  have relayed : (relays (relay msg)).Sublist [msg] := by
    rw [relay]
    split
    · exact List.Sublist.refl _
    · exact List.nil_sublist _
  have silent (answer : Answer) :
      (responses (Effect.handled msg answer :: relay msg)).Sublist [pong] := by
    change (responses (relay msg)).Sublist [pong]
    rw [responses_relay]
    exact List.nil_sublist _
  rw [onMessage]
  split
  · refine ⟨_, rfl, ?_, relayed⟩
    change (pong :: responses (relay msg)).Sublist [pong]
    rw [responses_relay]
  · split
    · refine ⟨_, rfl, ?_, relayed⟩
      rw [responses_relay]
      exact List.nil_sublist _
    · split
      · exact ⟨_, rfl, List.nil_sublist _, List.nil_sublist _⟩
      · exact ⟨_, rfl, silent _, relayed⟩
      · exact ⟨_, rfl, List.nil_sublist _, List.nil_sublist _⟩

section Connections

variable {memory : List Effect → List UInt8} {process : Processing}

theorem affordable_of_call {frame : CutFrame} {behind : List UInt8} {call : Call}
    (called : frame.call behind = some call) (log : List Effect) :
    ∃ added, (onReceive process call log).2 = log ++ added ∧
      Affordable added frame.bytes.length := by
  obtain ⟨msg, made, rfl, _⟩ := CutFrame.call_eq_some called
  obtain ⟨added, logEq, pongs, copies⟩ := sublist_onMessage process msg.hop log
  have size : msg.size = frame.header.size.toNat := Message.size_of_ofHeader made
  have hopSize : msg.hop.size = msg.size := rfl
  have pongFits : ∀ other ∈ responses added, other.size ≤ maxPktSize := by
    intro other member
    rw [List.mem_singleton.mp (pongs.subset member)]
    exact Nat.zero_le _
  have copyFits : ∀ other ∈ relays added, other.size ≤ maxPktSize := by
    intro other member
    rw [List.mem_singleton.mp (copies.subset member), hopSize, size]
    exact frame.size_le
  have wire_le {first second : List Message} (part : first.Sublist second) :
      wireLength first ≤ wireLength second := (part.flatMap _).length_le
  refine ⟨added, logEq, ?_⟩
  constructor
  · intro other member
    exact (List.mem_append.mp member).elim (pongFits other) (copyFits other)
  · calc
      wireLength (responses added) ≤ wireLength [pong] := wire_le pongs
      _ = headerSize := rfl
      _ ≤ frame.bytes.length := frame.headerSize_le
  · calc
      7 * wireLength (relays added) ≤ 7 * wireLength [msg.hop] :=
        Nat.mul_le_mul_left 7 (wire_le copies)
      _ = 7 * (headerSize + frame.header.size.toNat) := by rw [wireLength_singleton, hopSize, size]
      _ ≤ 13 * frame.bytes.length := frame.wire_le

theorem affordable_of_passes {frames : List CutFrame} {start last : List Effect}
    (passes : Protocol.Passes ⟨memory, onReceive process⟩ frames start last) :
    ∃ added, last = start ++ added ∧ Affordable added (frames.flatMap CutFrame.bytes).length := by
  induction frames generalizing start with
  | nil =>
      obtain rfl : start = last := passes
      exact ⟨[], (List.append_nil _).symm, .nil _⟩
  | cons frame frames ih =>
      rcases passes with ⟨call, next, called, handled, others⟩
      have made : ∃ added, (onReceive process call start).2 = start ++ added ∧ _ :=
        affordable_of_call called start
      obtain ⟨first, nextEq, affordable⟩ := made
      obtain rfl : next = start ++ first := (congrArg Prod.snd handled).symm.trans nextEq
      obtain ⟨second, rfl, more⟩ := ih others
      rw [List.flatMap_cons, List.length_append]
      exact ⟨first ++ second, List.append_assoc _ _ _, affordable.append more⟩

/-- A report of an error sends nothing. -/
theorem affordable_refused (process : Processing) (log : List Effect) (received : Nat) :
    ∃ added, (onReceive process ⟨.messageTooBig, none⟩ log).2 = log ++ added ∧
      Affordable added received :=
  ⟨[.refused .messageTooBig], rfl, ⟨nofun, Nat.zero_le _, Nat.zero_le _⟩⟩

theorem affordable_of_halted {input : List UInt8} {log : List Effect}
    (halted : Protocol.Halted ⟨memory, onReceive process⟩ [] input log) :
    Affordable log input.length := by
  cases halted with
  | silent inputEq passes =>
      obtain ⟨added, rfl, affordable⟩ := affordable_of_passes passes
      rw [inputEq, List.length_append]
      exact affordable.mono (Nat.le_add_right _ _)
  | @refused frames header rest context inputEq passes big told =>
      obtain ⟨_, rfl, affordable⟩ := affordable_of_passes passes
      obtain ⟨report, logEq, silent⟩ := affordable_refused process context 0
      obtain rfl : log = context ++ report := told.symm.trans logEq
      rw [inputEq, List.length_append]
      exact (affordable.append silent).mono (Nat.le_add_right _ _)
  | @stopped frames frame rest context call answer inputEq passes called handled stops =>
      obtain ⟨_, rfl, affordable⟩ := affordable_of_passes passes
      have made : ∃ added, (onReceive process call context).2 = context ++ added ∧ _ :=
        affordable_of_call called context
      obtain ⟨added, logEq, more⟩ := made
      obtain rfl : log = context ++ added := (congrArg Prod.snd handled).symm.trans logEq
      rw [inputEq, List.length_append, List.length_append, ← Nat.add_assoc]
      exact (affordable.append more).mono (Nat.le_add_right _ _)

/-- Whatever a connection receives, in whatever pieces, and whatever its handlers answer: the
pongs that it has the peer send back take no more bytes than it has received, what it has each
other peer be sent takes at most 13 bytes for 7, and no message is refused by
`protocol::send`. -/
theorem output_bounded {events : List ReadEvent} {conn : Connection}
    (run : replay (Connection.react memory process) Connection.fresh events = some conn) :
    Affordable conn.log (events.flatMap ReadEvent.bytes).length :=
  affordable_of_halted (Connection.traced_of_replay run).halted

/-- A frame of 7 bytes is relayed in 13. -/
theorem output_bounded_seven :
    let log : List Effect := [.broadcast ⟨⟨[9, 0, 0, 0, 0, 0, 0], 7⟩, ⟨7, 2, 1⟩⟩]
    7 * wireLength (relays log) = 13 * 7 ∧ Affordable log 7 := by
  have run : replay (Connection.react (fun _ => [0, 0, 0, 0, 0, 0]) fun _ _ => none)
      Connection.fresh [.completed [7, 0, 0, 0, 2, 2, 9], .round, .round] =
        some ⟨Protocol.fresh, [.broadcast ⟨⟨[9, 0, 0, 0, 0, 0, 0], 7⟩, ⟨7, 2, 1⟩⟩],
          .receiving []⟩ := by rfl
  exact ⟨by rfl, output_bounded run⟩

end Connections

end IotChain.P2P
