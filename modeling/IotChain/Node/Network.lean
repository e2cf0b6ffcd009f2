import IotChain.Node.Gossip
import IotChain.Node.Publication
import IotChain.P2P.Flooding

/-!
# What travels in a network of nodes

Each connection is read byte by byte as it comes in, and what it leads to is written to other
connections.  A transaction or a block does not travel on from a node that has received it,
and one that is published is not sent to anybody in the first place.
-/

namespace IotChain

open IotChain.P2P IotChain.Transition

/-- The peer objects of a network: the bytes on their way to each, what each has read and
led to, and the calls of `peer::send` so far. -/
structure Traffic where
  pipe : Peer → List UInt8
  conn : Peer → Connection
  sent : List (Peer × Message)

/-- What happens in a network. -/
inductive Happening (ν : Type)
  /-- A node calls `blockchain::send_tx`. -/
  | publishes (n : ν) (tx : TX) (size : UInt32)
  /-- Bytes that no node of the network has sent get into a connection. -/
  | injected (p : Peer) (bytes : List UInt8)
  | reads (p : Peer) (event : ReadEvent)

/-- What happens, with the connections at that moment. -/
structure Moment (ν : Type) (degree : Nat) where
  network : Network ν degree
  happening : Happening ν

namespace Traffic

variable {ν : Type} {degree : Nat}

/-- Nothing is on its way, and every peer has called `do_read` for the first time. -/
def start : Traffic := ⟨fun _ => [], fun _ => Connection.fresh, []⟩

/-- `peer::send`: nothing is sent if the message is too big. -/
def send (net : Network ν degree) (traffic : Traffic) (call : Peer × Message) : Traffic :=
  if call.2.size ≤ maxPktSize then
    { traffic with
      pipe := Function.update traffic.pipe (net.far call.1)
        (traffic.pipe (net.far call.1) ++ Protocol.wireBytes call.2)
      sent := traffic.sent ++ [call] }
  else
    traffic

/-- Calls of `peer::send`, one after the other. -/
def sendAll (net : Network ν degree) (traffic : Traffic) (sends : List (Peer × Message)) :
    Traffic :=
  sends.foldl (send net) traffic

/-- The calls of `peer::send` that an effect on a connection comes to. -/
def calls (net : Network ν degree) (p : Peer) : Effect → List (Peer × Message)
  | .sent response => [(p, response)]
  | .broadcast msg => (net.peers p).broadcast msg (some p)
  | .handled _ _ => []
  | .unhandled _ => []
  | .refused _ => []

/-- A read takes the bytes that have come first. -/
def react (memory : Peer → List Effect → List UInt8) (process : Peer → Processing) :
    Reaction Traffic (Moment ν degree) := fun traffic moment =>
  match moment.happening with
  | .publishes n tx size =>
      some (traffic.sendAll moment.network (sendTx (moment.network.list n) tx size).2)
  | .injected p bytes =>
      some { traffic with pipe := Function.update traffic.pipe p (traffic.pipe p ++ bytes) }
  | .reads p event =>
      if event.bytes <+: traffic.pipe p then
        match Connection.react (memory p) (process p) (traffic.conn p) event with
        | none => none
        | some next =>
            let fresh := next.log.drop (traffic.conn p).log.length
            let read := { traffic with
              pipe := Function.update traffic.pipe p ((traffic.pipe p).drop event.bytes.length)
              conn := Function.update traffic.conn p next }
            some (read.sendAll moment.network (fresh.flatMap (calls moment.network p)))
      else
        none

/-! ## What travels -/

theorem conn_sendAll (net : Network ν degree) (traffic : Traffic) (sends : List (Peer × Message)) :
    (traffic.sendAll net sends).conn = traffic.conn := by
  induction sends generalizing traffic with
  | nil => rfl
  | cons call sends ih =>
      rw [sendAll, List.foldl_cons]
      refine (ih _).trans ?_
      rw [send]
      split <;> rfl

theorem mem_sent_sendAll {net : Network ν degree} {traffic : Traffic}
    {sends : List (Peer × Message)} {call : Peer × Message}
    (member : call ∈ (traffic.sendAll net sends).sent) : call ∈ traffic.sent ∨ call ∈ sends := by
  induction sends generalizing traffic with
  | nil => exact .inl member
  | cons first sends ih =>
      rw [sendAll, List.foldl_cons] at member
      rcases ih member with before | later
      · rw [send] at before
        split at before
        · rcases List.mem_append.mp before with before | same
          · exact .inl before
          · rw [List.mem_singleton.mp same]
            exact .inr List.mem_cons_self
        · exact .inl before
      · exact .inr (List.mem_cons_of_mem first later)

/-- A node sends pings and pongs on behalf of its connections. -/
theorem control_of_calls {net : Network ν degree} {p : Peer} {effect : Effect}
    (node : NodeEffect effect) {call : Peer × Message} (member : call ∈ calls net p effect) :
    call.2.Control := by
  cases node with
  | pong =>
      rw [List.mem_singleton.mp member]
      exact .inr rfl
  | @relayed msg control =>
      rw [calls, PeerList.broadcast, PeerList.broadcastIf_eq_map] at member
      rcases List.mem_map.mp member with ⟨spt, _, rfl⟩
      exact control
  | last last =>
      cases last with
      | threw registered => cases member
      | unhandled unregistered => cases member
      | refused => cases member

section Nodes

variable {digests : Digests} {curve : Secp256k1.Curve} {networkId : UInt8}
  {contexts : Peer → List Effect → Contexts} {memory : Peer → List Effect → List UInt8}

/-- Every peer belongs to a node that has its real handlers. -/
abbrev nodes (digests : Digests) (curve : Secp256k1.Curve) (networkId : UInt8)
    (contexts : Peer → List Effect → Contexts) : Peer → Processing := fun p =>
  MsgHandler.handleMessage (MsgHandler.behaviour digests curve networkId (contexts p))

/-- Each connection has a run behind it, and what was sent are pings and pongs. -/
structure Inv (memory : Peer → List Effect → List UInt8) (process : Peer → Processing)
    (traffic : Traffic) : Prop where
  conns : ∀ p, ∃ events,
    replay (Connection.react (memory p) (process p)) Connection.fresh events =
      some (traffic.conn p)
  sent : ∀ call ∈ traffic.sent, call.2.Control

theorem Inv.sendAll {process : Peer → Processing} {traffic : Traffic}
    (inv : traffic.Inv memory process) (net : Network ν degree) {sends : List (Peer × Message)}
    (controls : ∀ call ∈ sends, call.2.Control) :
    (traffic.sendAll net sends).Inv memory process where
  conns := by
    rw [conn_sendAll]
    exact inv.conns
  sent := by
    intro call member
    rcases mem_sent_sendAll member with before | fresh
    · exact inv.sent call before
    · exact controls call fresh

theorem Inv.react {traffic next : Traffic} {moment : Moment ν degree}
    (inv : traffic.Inv memory (nodes digests curve networkId contexts))
    (step : Traffic.react memory (nodes digests curve networkId contexts) traffic moment =
      some next) : next.Inv memory (nodes digests curve networkId contexts) := by
  rcases moment with ⟨net, happening⟩
  cases happening with
  | publishes n tx size =>
      cases step
      have nobody : (sendTx (net.list n) tx size).2 = [] := PeerList.broadcast_none _ _
      exact inv.sendAll net (by simp [nobody])
  | injected p bytes =>
      cases step
      exact ⟨inv.conns, inv.sent⟩
  | reads p event =>
      simp only [Traffic.react] at step
      split at step
      · cases reacted : Connection.react (memory p) (nodes digests curve networkId contexts p)
            (traffic.conn p) event with
        | none =>
            rw [reacted] at step
            cases step
        | some conn =>
            rw [reacted] at step
            cases step
            obtain ⟨events, run⟩ := inv.conns p
            have further := replay_concat.mpr ⟨_, run, reacted⟩
            apply Inv.sendAll
            · constructor
              · intro q
                change ∃ events, replay _ _ events = some (Function.update traffic.conn p conn q)
                by_cases same : q = p
                · subst same
                  rw [Function.update_self]
                  exact ⟨_, further⟩
                · rw [Function.update_of_ne same]
                  exact inv.conns q
              · exact inv.sent
            · intro call member
              rcases List.mem_flatMap.mp member with ⟨effect, fresh, called⟩
              exact control_of_calls
                (nodeEffect_of_mem further (List.mem_of_mem_drop fresh)) called
      · cases step

/-- Nothing has happened but publications and reads of nothing. -/
structure Silent (traffic : Traffic) : Prop where
  pipe : ∀ p, traffic.pipe p = []
  conn : ∀ p, (traffic.conn p).log = [] ∧ ∀ rest, (traffic.conn p).task ≠ .receiving rest
  sent : traffic.sent = []

/-- Without bytes a connection goes on to wait or is done. -/
theorem silent_react {memory : List Effect → List UInt8} {process : Processing}
    {conn next : Connection} {event : ReadEvent}
    (idle : ∀ rest, conn.task ≠ .receiving rest) (nothing : event.bytes = [])
    (step : Connection.react memory process conn event = some next) :
    next.log = conn.log ∧ next.task = .done := by
  rcases conn with ⟨protocol, log, task⟩
  cases task with
  | waiting =>
      cases event with
      | completed chunk =>
          obtain rfl : chunk = [] := nothing
          cases step
          exact ⟨rfl, rfl⟩
      | failed =>
          cases step
          exact ⟨rfl, rfl⟩
      | round => cases step
  | receiving rest => exact absurd rfl (idle rest)
  | done =>
      cases event with
      | completed chunk => cases step
      | failed => cases step
      | round => cases step

theorem Silent.react {process : Peer → Processing} {traffic next : Traffic}
    {moment : Moment ν degree} (silent : traffic.Silent)
    (own : ∀ p bytes, moment.happening ≠ .injected p bytes)
    (step : Traffic.react memory process traffic moment = some next) : next.Silent := by
  rcases moment with ⟨net, happening⟩
  cases happening with
  | publishes n tx size =>
      have nobody : (sendTx (net.list n) tx size).2 = [] := PeerList.broadcast_none _ _
      simp only [Traffic.react, nobody] at step
      cases step
      exact silent
  | injected p bytes => exact absurd rfl (own p bytes)
  | reads p event =>
      simp only [Traffic.react] at step
      split at step
      · rename_i taken
        rw [silent.pipe p, List.prefix_nil] at taken
        cases reacted : Connection.react (memory p) (process p) (traffic.conn p) event with
        | none =>
            rw [reacted] at step
            cases step
        | some conn =>
            obtain ⟨logEq, done⟩ := silent_react (silent.conn p).2 taken reacted
            rw [reacted] at step
            simp only [logEq, List.drop_length, List.flatMap_nil] at step
            cases step
            constructor
            · intro q
              change Function.update traffic.pipe p _ q = []
              rw [taken, List.length_nil, List.drop_zero, Function.update_eq_self]
              exact silent.pipe q
            · intro q
              change (Function.update traffic.conn p conn q).log = [] ∧
                ∀ rest, (Function.update traffic.conn p conn q).task ≠ .receiving rest
              by_cases same : q = p
              · subst same
                rw [Function.update_self, logEq, done]
                exact ⟨(silent.conn q).1, by simp⟩
              · rw [Function.update_of_ne same]
                exact silent.conn q
            · exact silent.sent
      · cases step

/-- In a network whose nodes have their real handlers, whatever is injected, nobody sends
anything but pings and pongs and no handler returns; and if nothing is injected, nobody sends
anything at all, however much is published. -/
theorem nothing_travels {moments : List (Moment ν degree)} {traffic : Traffic}
    (run : replay (react memory (nodes digests curve networkId contexts)) start moments =
      some traffic) :
    (∀ call ∈ traffic.sent, call.2.Control) ∧
    (∀ p, ∀ msg answer, .handled msg answer ∈ (traffic.conn p).log → answer = .throws) ∧
    ((∀ moment ∈ moments, ∀ p bytes, moment.happening ≠ .injected p bytes) →
      traffic.sent = [] ∧ ∀ p, (traffic.conn p).log = []) := by
  have inv : traffic.Inv memory (nodes digests curve networkId contexts) :=
    replay_invariant (Inv memory _) Inv.react ⟨fun _ => ⟨[], rfl⟩, List.forall_mem_nil _⟩ run
  refine ⟨inv.sent, ?_, ?_⟩
  · intro p msg answer member
    obtain ⟨events, behind⟩ := inv.conns p
    cases nodeEffect_of_mem behind member with
    | last last =>
        cases last
        rfl
  · intro own
    have silent : traffic.Silent := by
      apply replay_history (fun moments traffic =>
        (∀ moment ∈ moments, ∀ p bytes, moment.happening ≠ .injected p bytes) → traffic.Silent)
        _ _ run own
      · intro moments state moment next kept step own
        rw [List.forall_mem_append, List.forall_mem_singleton] at own
        exact (kept own.1).react own.2 step
      · exact fun _ => ⟨fun _ => rfl, fun _ => ⟨rfl, by simp [start, Connection.fresh]⟩, rfl⟩
    exact ⟨silent.sent, fun p => (silent.conn p).1⟩

/-- A transaction is published, and another one is put into a connection. -/
theorem nothing_travels_line :
    ∃ traffic : Traffic,
      (traffic.conn (Flood.linePeer 0)).log = [.handled ⟨Stream.empty, ⟨0, 3, 4⟩⟩ .throws] ∧
        ∀ call ∈ traffic.sent, call.2.Control := by
  have happened : ∃ traffic, replay (react (fun _ _ => [])
      (nodes SampleTransaction.digests SampleTransaction.curve 4 fun _ _ => Contexts.fresh)) start
      [⟨Flood.line, .publishes 1 default 0⟩,
        ⟨Flood.line, .injected (Flood.linePeer 0) [0, 0, 0, 0, 3, 5]⟩,
        ⟨Flood.line, .reads (Flood.linePeer 0) (.completed [0, 0, 0, 0, 3, 5])⟩,
        ⟨Flood.line, .reads (Flood.linePeer 0) .round⟩] = some traffic ∧
      (traffic.conn (Flood.linePeer 0)).log = [.handled ⟨Stream.empty, ⟨0, 3, 4⟩⟩ .throws] :=
    ⟨_, rfl, rfl⟩
  obtain ⟨traffic, run, logEq⟩ := happened
  exact ⟨traffic, logEq, (nothing_travels run).1⟩

end Nodes

end Traffic

end IotChain
