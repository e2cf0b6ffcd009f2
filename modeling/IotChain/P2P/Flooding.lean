import IotChain.P2P.Delivery
import IotChain.P2P.Peer
import IotChain.P2P.PeerList
import IotChain.P2P.Rereading
import IotChain.Transition.Branching

/-!
# Flooding

A message that a peer receives is relayed to all other peers of its node, and nothing keeps
a node from relaying the same message again.  Flooding ends because the sender's `ttl_` is
one lower after each hop.  The frames on their way are delivered in any order; which peers
are connected may change between deliveries.
-/

namespace IotChain.P2P

open IotChain.Transition

/-- The frame that `get_packet` makes of a message. -/
def Frame.ofMessage (msg : Message) (le : msg.size ≤ maxPktSize) : Frame :=
  ⟨Protocol.wireHeader msg, msg.buf, (Protocol.wireHeader_size le).symm⟩

/-- A frame on its way.  How often its message has been transmitted on this way, and whether
it is the answer to a ping, is known to the model only. -/
structure Transmission where
  dest : Peer
  frame : Frame
  transmissions : Nat
  reply : Bool

/-- The time to live that a frame carries. -/
def Transmission.ttl (t : Transmission) : Nat := t.frame.header.ttl.toNat

/-- The connections at some moment: to which node a peer object belongs, which is the peer
object at the other end of its connection, and the peers that each node has registered. -/
structure Network (ν : Type) (degree : Nat) where
  node : Peer → ν
  far : Peer → Peer
  list : ν → PeerList
  bounded : ∀ n, (list n).live.length ≤ degree

namespace Network

variable {ν : Type} {degree : Nat}

/-- `peer::send`: nothing is transmitted if the message is too big. -/
def send (net : Network ν degree) (transmissions : Nat) (reply : Bool) (p : Peer)
    (msg : Message) : Option Transmission :=
  if le : msg.size ≤ maxPktSize then
    some ⟨net.far p, Frame.ofMessage msg le, transmissions, reply⟩
  else
    none

/-- The peers registered at the node of a peer. -/
def peers (net : Network ν degree) (p : Peer) : PeerList := net.list (net.node p)

/-- The transmissions that an effect of receiving a frame leads to. -/
def spread (net : Network ν degree) (t : Transmission) : Effect → List Transmission
  | .sent response => (net.send 1 true t.dest response).toList
  | .broadcast msg => ((net.peers t.dest).broadcast msg (some t.dest)).filterMap fun call =>
      net.send (t.transmissions + 1) t.reply call.1 call.2
  | .handled _ _ => []
  | .unhandled _ => []
  | .refused _ => []

end Network

/-- The frames on their way and those that have arrived, and the peers that do not read any
more. -/
structure Flood where
  inFlight : List Transmission
  delivered : List Transmission
  stopped : List Peer

/-- The delivery of one of the frames on their way. -/
structure Arrival (ν : Type) (degree : Nat) where
  network : Network ν degree
  index : Nat
  /-- How `process_msg` ends, if it is called. -/
  answer : Option Answer

namespace Flood

variable {ν : Type} {degree : Nat}

/-- A message sent to some of the peers of a node. -/
def start (net : Network ν degree) (targets : List Peer) (msg : Message) : Flood where
  inFlight := targets.filterMap fun p => net.send 1 false p msg
  delivered := []
  stopped := []

/-- What a peer does with a frame: the call that `receive` makes for it, and its effects. -/
def receive (answer : Option Answer) (frame : Frame) : Answer × List Effect :=
  match Message.ofHeader frame.header (some frame.body) with
  | none => (.stop, [])
  | some msg => onReceive (fun _ _ => answer) ⟨.success, some msg.hop⟩ []

/-- One delivery.  A frame is lost if its peer is gone or does not read any more. -/
def deliver : Reaction Flood (Arrival ν degree) := fun flood arrival =>
  match flood.inFlight[arrival.index]? with
  | none => none
  | some t =>
      let others := flood.inFlight.eraseIdx arrival.index
      if t.dest ∈ (arrival.network.peers t.dest).live ∧ t.dest ∉ flood.stopped then
        let (answer, effects) := receive arrival.answer t.frame
        some {
          inFlight := others ++ effects.flatMap (arrival.network.spread t)
          delivered := flood.delivered ++ [t]
          stopped := if answer = .goOn then flood.stopped else t.dest :: flood.stopped }
      else
        some { flood with inFlight := others, delivered := flood.delivered ++ [t] }

/-- The transmissions of the message that was sent first. -/
def originals (pool : List Transmission) : List Transmission := pool.filter fun t => !t.reply

/-- The transmissions of answers to pings. -/
def replies (pool : List Transmission) : List Transmission := pool.filter fun t => t.reply

/-- The transmissions so far of the message that was sent first. -/
def copies (flood : Flood) : List Transmission := originals (flood.delivered ++ flood.inFlight)

theorem mem_originals {pool : List Transmission} {t : Transmission} :
    t ∈ originals pool ↔ t ∈ pool ∧ t.reply = false := by
  simp [originals]

theorem originals_append (first second : List Transmission) :
    originals (first ++ second) = originals first ++ originals second :=
  List.filter_append first second

theorem replies_append (first second : List Transmission) :
    replies (first ++ second) = replies first ++ replies second :=
  List.filter_append first second

theorem originals_cons_copy {t : Transmission} (own : t.reply = false)
    (pool : List Transmission) : originals (t :: pool) = t :: originals pool :=
  List.filter_cons_of_pos (by simp [own])

theorem originals_cons_reply {t : Transmission} (reply : t.reply = true)
    (pool : List Transmission) : originals (t :: pool) = originals pool :=
  List.filter_cons_of_neg (by simp [reply])

theorem replies_cons_copy {t : Transmission} (own : t.reply = false)
    (pool : List Transmission) : replies (t :: pool) = replies pool :=
  List.filter_cons_of_neg (by simp [own])

theorem replies_cons_reply {t : Transmission} (reply : t.reply = true)
    (pool : List Transmission) : replies (t :: pool) = t :: replies pool :=
  List.filter_cons_of_pos reply

theorem replies_eq_nil {pool : List Transmission} (noReply : ∀ t ∈ pool, t.reply = false) :
    replies pool = [] := by
  apply List.filter_eq_nil_iff.mpr
  intro t member
  rw [noReply t member]
  exact Bool.false_ne_true

/-! ## One delivery -/

/-- What the delivery of a frame may put on its way: copies that are transmitted once more
and live one hop less, and one answer to a ping. -/
structure Spreads (degree : Nat) (t : Transmission) (fresh : List Transmission) : Prop where
  relayed : ∀ u ∈ fresh, u.reply = false →
    u.ttl + 1 = t.ttl ∧ u.transmissions = t.transmissions + 1 ∧ 0 < u.ttl
  few : (originals fresh).length ≤ degree - 1
  pongs : ∀ u ∈ fresh, u.reply = true → u.frame.header.type = msgTypePong ∧ u.ttl = 1
  once : (replies fresh).length ≤ 1

theorem spreads_nil (degree : Nat) (t : Transmission) : Spreads degree t [] where
  relayed := by simp
  few := Nat.zero_le _
  pongs := by simp
  once := Nat.zero_le _

theorem mem_spread_broadcast {net : Network ν degree} {t u : Transmission} {msg : Message}
    (member : u ∈ net.spread t (.broadcast msg)) :
    u.ttl = msg.header.ttl.toNat ∧ u.transmissions = t.transmissions + 1 ∧
      u.reply = t.reply := by
  rcases List.mem_filterMap.mp member with ⟨call, called, sent⟩
  rw [PeerList.broadcast, PeerList.broadcastIf_eq_map] at called
  rcases List.mem_map.mp called with ⟨spt, _, rfl⟩
  rw [Network.send] at sent
  split at sent
  · cases sent
    exact ⟨rfl, rfl, rfl⟩
  · cases sent

/-- A registered peer relays to fewer peers than its node has. -/
theorem length_spread_broadcast (net : Network ν degree) {t : Transmission}
    (registered : t.dest ∈ (net.peers t.dest).live) (msg : Message) :
    (net.spread t (.broadcast msg)).length ≤ degree - 1 := by
  have fewer := PeerList.length_broadcast_lt registered msg
  have bounded : (net.peers t.dest).live.length ≤ degree := net.bounded _
  have filtered : (net.spread t (.broadcast msg)).length ≤
      ((net.peers t.dest).broadcast msg (some t.dest)).length := List.length_filterMap_le _ _
  omega

/-- Relaying a message that has made its hop spreads copies and no answers. -/
theorem spreads_relay (net : Network ν degree) {t : Transmission} (own : t.reply = false)
    (registered : t.dest ∈ (net.peers t.dest).live) {msg : Message}
    (hopped : msg.header.ttl.toNat + 1 = t.ttl) :
    Spreads degree t ((relay msg).flatMap (net.spread t)) ∧
      ∀ u ∈ (relay msg).flatMap (net.spread t), u.reply = false := by
  rw [relay]
  by_cases lives : msg.header.ttl > 0
  · rw [if_pos lives, List.flatMap_singleton]
    have noReply (u : Transmission) (member : u ∈ net.spread t (.broadcast msg)) :
        u.reply = false := (mem_spread_broadcast member).2.2.trans own
    constructor
    · constructor
      · intro u member _
        rcases mem_spread_broadcast member with ⟨ttlEq, transmissionsEq, _⟩
        have pos : 0 < msg.header.ttl.toNat := lives
        omega
      · exact (List.length_filter_le _ _).trans (length_spread_broadcast net registered msg)
      · intro u member reply
        exact absurd ((noReply u member).symm.trans reply) Bool.false_ne_true
      · rw [replies_eq_nil noReply]
        exact Nat.zero_le _
    · exact noReply
  · rw [if_neg lives]
    exact ⟨spreads_nil degree t, List.forall_mem_nil _⟩

theorem spread_sent (net : Network ν degree) (t : Transmission) :
    ∃ u, net.spread t (.sent (Message.create msgTypePong 1 0)) = [u] ∧ u.reply = true ∧
      u.frame.header.type = msgTypePong ∧ u.ttl = 1 := by
  have le : (Message.create msgTypePong 1 0).size ≤ maxPktSize := Nat.zero_le _
  refine ⟨⟨net.far t.dest, Frame.ofMessage _ le, 1, true⟩, ?_, rfl, rfl, rfl⟩
  rw [Network.spread, Network.send, dif_pos le]
  rfl

/-- The answer to a ping comes before what is relayed. -/
theorem Spreads.answer {t : Transmission} {fresh : List Transmission}
    (spreads : Spreads degree t fresh) (noReply : ∀ u ∈ fresh, u.reply = false)
    (net : Network ν degree) :
    Spreads degree t
      (net.spread t (.sent (Message.create msgTypePong 1 0)) ++ fresh) := by
  rcases spread_sent net t with ⟨pong, pongEq, reply, type, ttl⟩
  rw [pongEq, List.singleton_append]
  constructor
  · intro u member own
    rcases List.mem_cons.mp member with rfl | member
    · exact absurd (own.symm.trans reply) Bool.false_ne_true
    · exact spreads.relayed u member own
  · rw [originals_cons_reply reply]
    exact spreads.few
  · intro u member isReply
    rcases List.mem_cons.mp member with rfl | member
    · exact ⟨type, ttl⟩
    · exact spreads.pongs u member isReply
  · rw [replies_cons_reply reply, replies_eq_nil noReply]
    exact Nat.le_refl _

/-- The message that is made of a frame has made a hop when the handler is called. -/
theorem receive_eq (answer : Option Answer) (frame : Frame) :
    ∃ msg : Message, msg.header = { frame.header with ttl := frame.header.ttl - 1 } ∧
      receive answer frame = onMessage (fun _ _ => answer) msg [] := by
  rw [receive, Message.ofHeader_of_length frame.sized.symm]
  exact ⟨_, rfl, if_pos rfl⟩

theorem toNat_hop {ttl : UInt8} (lives : 0 < ttl.toNat) : (ttl - 1).toNat + 1 = ttl.toNat := by
  have one : (1 : UInt8) ≤ ttl := lives
  rw [UInt8.toNat_sub_of_le _ _ one, UInt8.toNat_one]
  omega

theorem spreads_receive (net : Network ν degree) {t : Transmission} (own : t.reply = false)
    (lives : 0 < t.ttl) (registered : t.dest ∈ (net.peers t.dest).live)
    (answer : Option Answer) :
    Spreads degree t ((receive answer t.frame).2.flatMap (net.spread t)) := by
  rcases receive_eq answer t.frame with ⟨msg, headerEq, received⟩
  have hopped : msg.header.ttl.toNat + 1 = t.ttl := by
    rw [headerEq]
    exact toNat_hop lives
  rcases spreads_relay net own registered hopped with ⟨relayed, noReply⟩
  rw [received, onMessage]
  by_cases ping : msg.header.type = msgTypePing
  · rw [if_pos ping]
    exact relayed.answer noReply net
  · rw [if_neg ping]
    by_cases pong : msg.header.type = msgTypePong
    · rw [if_pos pong]
      exact relayed
    · rw [if_neg pong]
      cases answer with
      | none => exact spreads_nil degree t
      | some answer =>
          cases answer with
          | goOn => exact relayed
          | stop => exact spreads_nil degree t
          | throws => exact spreads_nil degree t

/-- An answer that has made its hop leads to nothing. -/
theorem receive_pong {frame : Frame} (type : frame.header.type = msgTypePong)
    (ttl : frame.header.ttl.toNat = 1) (answer : Option Answer) :
    (receive answer frame).2 = [] := by
  rcases receive_eq answer frame with ⟨msg, headerEq, received⟩
  have typeEq : msg.header.type = msgTypePong := by rw [headerEq, type]
  have notPing : msg.header.type ≠ msgTypePing := by
    rw [typeEq]
    decide
  have noHop : ¬ msg.header.ttl > 0 := by
    have hopped : (frame.header.ttl - 1).toNat + 1 = frame.header.ttl.toNat :=
      toNat_hop (by omega)
    intro lives
    have pos : 0 < msg.header.ttl.toNat := lives
    rw [headerEq] at pos
    simp only at pos
    omega
  rw [received, onMessage, if_neg notPing, if_pos typeEq, relay, if_neg noHop]
  rfl

theorem deliver_cases {flood next : Flood} {arrival : Arrival ν degree}
    (step : deliver flood arrival = some next) :
    ∃ t others fresh, flood.inFlight.Perm (t :: others) ∧ next.inFlight = others ++ fresh ∧
      next.delivered = flood.delivered ++ [t] ∧
      (t.reply = false → 0 < t.ttl → Spreads degree t fresh) ∧
      (t.reply = true → t.frame.header.type = msgTypePong → t.ttl = 1 → fresh = []) := by
  rw [deliver] at step
  split at step
  · cases step
  · rename_i t found
    obtain ⟨lt, tEq⟩ := List.getElem?_eq_some_iff.mp found
    have perm : flood.inFlight.Perm (t :: flood.inFlight.eraseIdx arrival.index) := by
      rw [← tEq]
      exact (List.getElem_cons_eraseIdx_perm lt).symm
    split at step
    · rename_i reads
      cases step
      refine ⟨t, _, _, perm, rfl, rfl, ?_, ?_⟩
      · exact fun own lives => spreads_receive arrival.network own lives reads.1 arrival.answer
      · intro _ type ttl
        change (receive arrival.answer t.frame).2.flatMap _ = []
        rw [receive_pong type ttl]
        rfl
    · cases step
      exact ⟨t, _, [], perm, (List.append_nil _).symm, rfl, fun _ _ => spreads_nil degree t,
        fun _ _ _ => rfl⟩

/-! ## Runs -/

/-- What always holds while a message floods that was sent with so many hops to live. -/
structure Inv (degree levels : Nat) (flood : Flood) : Prop where
  ranked : ∀ t ∈ flood.copies,
    t.ttl + t.transmissions = levels + 1 ∧ 0 < t.ttl ∧ 0 < t.transmissions
  pongs : ∀ t ∈ flood.inFlight, t.reply = true →
    t.frame.header.type = msgTypePong ∧ t.ttl = 1
  /-- What has arrived, and what can still descend from what is on its way. -/
  budget : (originals flood.delivered).length +
    poolSize (degree - 1) Transmission.ttl (originals flood.inFlight) ≤
      degree * treeSize (degree - 1) levels
  /-- An answer is sent for the arrival of a ping only. -/
  answers : (replies flood.delivered).length + (replies flood.inFlight).length ≤
    (originals flood.delivered).length

theorem inv_start {net : Network ν degree} {n : ν} {targets : List Peer}
    (live : targets.Sublist (net.list n).live) {msg : Message}
    (lives : 0 < msg.header.ttl.toNat) :
    Inv degree msg.header.ttl.toNat (start net targets msg) := by
  have sent {t : Transmission} (member : t ∈ (start net targets msg).inFlight) :
      t.reply = false ∧ t.ttl = msg.header.ttl.toNat ∧ t.transmissions = 1 := by
    rcases List.mem_filterMap.mp member with ⟨p, _, sent⟩
    rw [Network.send] at sent
    split at sent
    · cases sent
      exact ⟨rfl, rfl, rfl⟩
    · cases sent
  have allOriginal : originals (start net targets msg).inFlight =
      (start net targets msg).inFlight :=
    List.filter_eq_self.mpr fun t member => by simp [(sent member).1]
  have noReplies : replies (start net targets msg).inFlight = [] :=
    replies_eq_nil fun t member => (sent member).1
  have few : (start net targets msg).inFlight.length ≤ degree :=
    ((List.length_filterMap_le _ _).trans live.length_le).trans (net.bounded n)
  constructor
  · intro t member
    rcases sent (mem_originals.mp member).1 with ⟨_, ttlEq, transmissionsEq⟩
    omega
  · intro t member reply
    exact absurd ((sent member).1.symm.trans reply) Bool.false_ne_true
  · rw [allOriginal, poolSize_of_rank fun t member => (sent member).2.1]
    change 0 + _ ≤ _
    rw [Nat.zero_add]
    exact Nat.mul_le_mul_right _ few
  · rw [noReplies]
    exact Nat.le_refl _

/-- A delivery adds to the copies those that it spreads. -/
theorem copies_perm {flood next : Flood} {t : Transmission} {others fresh : List Transmission}
    (perm : flood.inFlight.Perm (t :: others)) (inFlightEq : next.inFlight = others ++ fresh)
    (deliveredEq : next.delivered = flood.delivered ++ [t]) :
    next.copies.Perm (flood.copies ++ originals fresh) := by
  rw [copies, copies, ← originals_append, inFlightEq, deliveredEq]
  apply List.Perm.filter
  calc
    flood.delivered ++ [t] ++ (others ++ fresh)
      = flood.delivered ++ (t :: others) ++ fresh := by simp
    List.Perm _ (flood.delivered ++ flood.inFlight ++ fresh) :=
      (perm.symm.append_left _).append_right _

/-- The delivery of an answer takes it off the network. -/
theorem Inv.deliver_reply {levels : Nat} {flood next : Flood} {t : Transmission}
    {others : List Transmission} (inv : Inv degree levels flood)
    (perm : flood.inFlight.Perm (t :: others)) (reply : t.reply = true)
    (inFlightEq : next.inFlight = others) (deliveredEq : next.delivered = flood.delivered ++ [t]) :
    Inv degree levels next := by
  have copiesPerm : next.copies.Perm flood.copies := by
    rw [← List.append_nil flood.copies]
    exact copies_perm perm (inFlightEq.trans (List.append_nil _).symm) deliveredEq
  have inFlightOriginals : (originals flood.inFlight).Perm (originals next.inFlight) := by
    rw [inFlightEq, ← originals_cons_reply reply others]
    exact perm.filter _
  have deliveredOriginals : originals next.delivered = originals flood.delivered := by
    rw [deliveredEq, originals_append, originals_cons_reply reply]
    exact List.append_nil _
  have inFlightReplies : (replies flood.inFlight).length = (replies next.inFlight).length + 1 := by
    rw [inFlightEq, ← List.length_cons, ← replies_cons_reply reply]
    exact (perm.filter _).length_eq
  have deliveredReplies :
      (replies next.delivered).length = (replies flood.delivered).length + 1 := by
    rw [deliveredEq, replies_append, replies_cons_reply reply]
    exact List.length_append
  constructor
  · intro u member
    exact inv.ranked u (copiesPerm.mem_iff.mp member)
  · intro u member
    apply inv.pongs
    rw [inFlightEq] at member
    exact perm.mem_iff.mpr (List.mem_cons_of_mem t member)
  · rw [deliveredOriginals, ← poolSize_perm inFlightOriginals]
    exact inv.budget
  · have answers := inv.answers
    rw [deliveredOriginals, deliveredReplies]
    omega

/-- The delivery of a copy replaces it by what it spreads. -/
theorem Inv.deliver_copy {levels : Nat} {flood next : Flood} {t : Transmission}
    {others fresh : List Transmission} (inv : Inv degree levels flood)
    (perm : flood.inFlight.Perm (t :: others)) (own : t.reply = false)
    (spreads : 0 < t.ttl → Spreads degree t fresh)
    (inFlightEq : next.inFlight = others ++ fresh)
    (deliveredEq : next.delivered = flood.delivered ++ [t]) :
    Inv degree levels next := by
  have inFlightOriginals : (originals flood.inFlight).Perm (t :: originals others) := by
    rw [← originals_cons_copy own]
    exact perm.filter _
  have inFlightReplies : (replies flood.inFlight).length = (replies others).length := by
    rw [← replies_cons_copy own others]
    exact (perm.filter _).length_eq
  have deliveredOriginals : originals next.delivered = originals flood.delivered ++ [t] := by
    rw [deliveredEq, originals_append, originals_cons_copy own]
    rfl
  have deliveredReplies : replies next.delivered = replies flood.delivered := by
    rw [deliveredEq, replies_append, replies_cons_copy own]
    exact List.append_nil _
  have onItsWay : t ∈ flood.copies :=
    mem_originals.mpr
      ⟨List.mem_append_right _ (perm.mem_iff.mpr List.mem_cons_self), own⟩
  rcases inv.ranked t onItsWay with ⟨rankEq, lives, sent⟩
  rcases spreads lives with ⟨relayed, few, pongs, once⟩
  constructor
  · intro u member
    have copiesPerm := copies_perm perm inFlightEq deliveredEq
    rcases List.mem_append.mp (copiesPerm.mem_iff.mp member) with old | new
    · exact inv.ranked u old
    · rcases mem_originals.mp new with ⟨member, ownCopy⟩
      rcases relayed u member ownCopy with ⟨hopped, again, livesOn⟩
      omega
  · intro u member reply
    rw [inFlightEq] at member
    rcases List.mem_append.mp member with old | new
    · exact inv.pongs u (perm.mem_iff.mpr (List.mem_cons_of_mem t old)) reply
    · exact pongs u new reply
  · have budget := inv.budget
    have descendants : poolSize (degree - 1) Transmission.ttl (originals fresh) <
        treeSize (degree - 1) t.ttl := by
      apply poolSize_children_lt lives few
      intro u member
      rcases mem_originals.mp member with ⟨member, ownCopy⟩
      exact (relayed u member ownCopy).1
    rw [poolSize_perm inFlightOriginals, poolSize_cons] at budget
    rw [deliveredOriginals, List.length_append, List.length_singleton, inFlightEq,
      originals_append, poolSize_append]
    omega
  · have answers := inv.answers
    rw [deliveredReplies, deliveredOriginals, List.length_append, List.length_singleton,
      inFlightEq, replies_append, List.length_append]
    omega

/-- Every delivery keeps the invariant. -/
theorem Inv.deliver {levels : Nat} {flood next : Flood} {arrival : Arrival ν degree}
    (inv : Inv degree levels flood) (step : deliver flood arrival = some next) :
    Inv degree levels next := by
  rcases deliver_cases step with
    ⟨t, others, fresh, perm, inFlightEq, deliveredEq, spreads, silent⟩
  cases reply : t.reply with
  | true =>
      have onItsWay : t ∈ flood.inFlight := perm.mem_iff.mpr List.mem_cons_self
      rcases inv.pongs t onItsWay reply with ⟨type, ttl⟩
      rw [silent reply type ttl, List.append_nil] at inFlightEq
      exact inv.deliver_reply perm reply inFlightEq deliveredEq
  | false => exact inv.deliver_copy perm reply (spreads reply) inFlightEq deliveredEq

/-- All copies that there are have been counted. -/
theorem Inv.length_copies_le {levels : Nat} {flood : Flood} (inv : Inv degree levels flood) :
    flood.copies.length ≤ degree * treeSize (degree - 1) levels := by
  have budget := inv.budget
  have onTheirWay : (originals flood.inFlight).length ≤
      poolSize (degree - 1) Transmission.ttl (originals flood.inFlight) := by
    apply length_le_poolSize
    intro t member
    apply (inv.ranked t _).2.1
    rw [copies, originals_append]
    exact List.mem_append_right _ member
  rw [copies, originals_append, List.length_append]
  omega

/-- An arrival is that of a copy or that of an answer. -/
theorem Inv.length_delivered_le {levels : Nat} {flood : Flood}
    (inv : Inv degree levels flood) :
    flood.delivered.length ≤ 2 * (degree * treeSize (degree - 1) levels) := by
  have budget := inv.budget
  have answers := inv.answers
  have split : flood.delivered.length =
      (replies flood.delivered).length + (originals flood.delivered).length :=
    List.length_eq_length_filter_add _
  omega

theorem deliver_count {flood next : Flood} {arrival : Arrival ν degree}
    (step : deliver flood arrival = some next) :
    next.delivered.length = flood.delivered.length + 1 := by
  rcases deliver_cases step with ⟨t, _, _, _, _, deliveredEq, _⟩
  rw [deliveredEq, List.length_append, List.length_singleton]

/-- Nothing happens any more when nothing is on its way. -/
theorem eq_of_replay_of_empty {flood last : Flood} (empty : flood.inFlight = [])
    {arrivals : List (Arrival ν degree)} (run : replay deliver flood arrivals = some last) :
    last = flood := by
  cases arrivals with
  | nil =>
      cases run
      rfl
  | cons arrival arrivals =>
      rcases replay_cons.mp run with ⟨next, step, _⟩
      rw [deliver, empty] at step
      cases step

/-- A flood of a message is bounded by the time to live it was sent with: each copy has
travelled the hops it has lost, there are no more copies than a tree of that height has
nodes, and the deliveries come to an end, after which nothing is sent. -/
theorem flooding_bounded {net : Network ν degree} {n : ν} {targets : List Peer}
    (live : targets.Sublist (net.list n).live) {msg : Message} {ttl : Nat}
    (sent : msg.header.ttl.toNat = ttl) (lives : 1 ≤ ttl)
    {arrivals : List (Arrival ν degree)} {flood : Flood}
    (run : replay deliver (start net targets msg) arrivals = some flood) :
    (∀ t ∈ flood.copies, t.ttl = ttl - t.transmissions + 1 ∧ 1 ≤ t.ttl ∧
      1 ≤ t.transmissions ∧ t.transmissions ≤ ttl) ∧
    flood.copies.length ≤ degree * ∑ i ∈ Finset.range ttl, (degree - 1) ^ i ∧
    arrivals.length ≤ 2 * (degree * ∑ i ∈ Finset.range ttl, (degree - 1) ^ i) ∧
    (flood.inFlight = [] → ∀ (later : List (Arrival ν degree)) (last : Flood),
      replay deliver flood later = some last → last = flood) := by
  have initially : Inv degree ttl (start net targets msg) := by
    rw [← sent] at lives ⊢
    exact inv_start live lives
  have inv : Inv degree ttl flood := replay_invariant _ Inv.deliver initially run
  have counted : flood.delivered.length = 0 + arrivals.length :=
    replay_count (fun flood => flood.delivered.length) deliver_count run
  refine ⟨?_, inv.length_copies_le, ?_, ?_⟩
  · intro t member
    rcases inv.ranked t member with ⟨rankEq, lives, transmitted⟩
    omega
  · rw [Nat.zero_add] at counted
    rw [← counted]
    exact inv.length_delivered_le
  · intro empty later last more
    exact eq_of_replay_of_empty empty more

/-- A peer object of the line of nodes. -/
def linePeer (address : Nat) : Peer := ⟨address, List.Vector.replicate 16 address.toUInt8⟩

/-- Three nodes in a line: the one in the middle has two connections. -/
def line : Network Nat 2 where
  node p := (p.address + 1) / 2
  far p := linePeer (if p.address % 2 = 0 then p.address + 1 else p.address - 1)
  list
    | 0 => ⟨[some (linePeer 0)], by decide⟩
    | 1 => ⟨[some (linePeer 1), some (linePeer 2)], by decide⟩
    | 2 => ⟨[some (linePeer 3)], by decide⟩
    | _ => ⟨[], by decide⟩
  bounded n := by
    split <;> decide

/-- A ping with two hops to live goes through the line, and both nodes answer it. -/
theorem flooding_bounded_line :
    ∃ flood : Flood, flood.copies.length = 2 ∧ flood.inFlight = [] ∧
      ∀ t ∈ flood.copies, t.ttl = 2 - t.transmissions + 1 ∧ 1 ≤ t.ttl ∧
        1 ≤ t.transmissions ∧ t.transmissions ≤ 2 := by
  have answered :
      ∃ flood, replay deliver (start line [linePeer 0] (Message.create msgTypePing 2 0))
        [⟨line, 0, none⟩, ⟨line, 1, none⟩, ⟨line, 0, none⟩, ⟨line, 0, none⟩] = some flood ∧
          flood.copies.length = 2 ∧ flood.inFlight = [] := ⟨_, rfl, rfl, rfl⟩
  rcases answered with ⟨flood, run, count, empty⟩
  have live : [linePeer 0].Sublist (line.list 0).live := List.Sublist.refl _
  exact ⟨flood, count, empty, (flooding_bounded live rfl (by decide) run).1⟩

end Flood

end IotChain.P2P
