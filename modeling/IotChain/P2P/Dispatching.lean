import IotChain.P2P.PeerList
import IotChain.P2P.Sending
import Mathlib.Data.List.Perm.Basic

/-!
# Where a message is refused

`protocol::send` refuses a message that is too big by an exception.  It is called by a
closure that `strand.dispatch` runs at once or posts, and so the exception goes to the caller
of `broadcast` or out of `io_service::run`.
-/

namespace IotChain.P2P

open IotChain.Transition

/-- The closure that `peer::send` dispatches. -/
def Sender.closure (peer : Sender) (msg : Message) : Except StdException Sender := do
  let protocol ← peer.protocol.send msg
  return doWrite { peer with protocol := protocol, accepted := peer.accepted ++ [msg] }

theorem Sender.closure_of_le {peer : Sender} {msg : Message} (fits : msg.size ≤ maxPktSize) :
    peer.closure msg = .ok (peer.send msg) := by
  rw [closure, send_of_le fits, Protocol.send_of_le fits]
  rfl

theorem Sender.closure_of_gt {peer : Sender} {msg : Message} (big : maxPktSize < msg.size) :
    peer.closure msg = .error (.runtimeError "msg is too big to send") := by
  rw [closure, Protocol.send_of_gt big]
  rfl

theorem Sender.accepted_doWrite (peer : Sender) : peer.doWrite.accepted = peer.accepted := by
  rw [doWrite]
  split
  · rfl
  · split
    · split <;> rfl
    · rfl

theorem Sender.accepted_send {peer : Sender} {msg : Message} (fits : msg.size ≤ maxPktSize) :
    (peer.send msg).accepted = peer.accepted ++ [msg] := by
  rw [send_of_le fits]
  exact accepted_doWrite _

/-- The completion of a write accepts nothing. -/
theorem Sender.accepted_of_react {peer next : Sender} {event : SendEvent}
    (notSend : ∀ msg, event ≠ .send msg) (step : react peer event = some next) :
    next.accepted = peer.accepted := by
  cases event with
  | send msg => exact absurd rfl (notSend msg)
  | written write =>
      rcases Option.ite_none_right_eq_some.mp step with ⟨_, same⟩
      rw [written_eq_doWrite] at same
      cases same
      exact accepted_doWrite _
  | failed write =>
      rcases Option.ite_none_right_eq_some.mp step with ⟨_, same⟩
      cases same
      rfl

/-! ## A broadcast -/

/-- A broadcast and what it has led to. -/
structure Dispatching where
  senders : Peer → Sender
  /-- The calls of `send` that the loop of `broadcast` has yet to make. -/
  calls : List (Peer × Message)
  /-- The closures that wait for their strands. -/
  posted : List (Peer × Message)
  /-- The exception with which `broadcast` has ended. -/
  thrown : Option StdException
  /-- The exceptions that have left handlers which `io_service::run` executes. -/
  escaped : List StdException

/-- A step of the loop of `broadcast`, or of a strand. -/
inductive DispatchEvent
  /-- The next call of `send`, whose closure is run at once or is posted. -/
  | called (inline : Bool)
  /-- A posted closure is executed. -/
  | executed (call : Peer × Message)

namespace Dispatching

/-- A broadcast that has locked the list. -/
def start (senders : Peer → Sender) (list : PeerList) (msg : Message) (p : Option Peer) :
    Dispatching :=
  ⟨senders, list.broadcast msg p, [], none, []⟩

/-- The calls are made in order, and the closures are executed in any order. -/
def react : Reaction Dispatching DispatchEvent := fun s event =>
  match event with
  | .called inline =>
      match s.calls with
      | [] => none
      | (p, msg) :: calls =>
          if inline then
            match (s.senders p).closure msg with
            | .ok next =>
                some { s with senders := Function.update s.senders p next, calls := calls }
            | .error e => some { s with calls := [], thrown := some e }
          else
            some { s with calls := calls, posted := s.posted ++ [(p, msg)] }
  | .executed call =>
      if call ∈ s.posted then
        match (s.senders call.1).closure call.2 with
        | .ok next =>
            some { s with
              senders := Function.update s.senders call.1 next
              posted := s.posted.erase call }
        | .error e =>
            some { s with posted := s.posted.erase call, escaped := s.escaped ++ [e] }
      else
        none

/-- The loop has ended, and no closure is waiting. -/
def Complete (s : Dispatching) : Prop := s.calls = [] ∧ s.posted = []

/-- The live peers to which a broadcast goes. -/
def Addressed (list : PeerList) (p : Option Peer) (spt : Peer) : Prop :=
  spt ∈ list.live ∧ PeerList.passes p spt = true

/-- A message that is too big changes no peer and is reported to the caller of `broadcast`;
any other message is queued for every addressed peer.  No exception leaves a handler. -/
structure Clean (senders : Peer → Sender) (list : PeerList) (msg : Message) (p : Option Peer)
    (last : Dispatching) : Prop where
  escaped : last.escaped = []
  tooBig : maxPktSize < msg.size → last.senders = senders ∧ last.thrown.isSome
  queued : msg.size ≤ maxPktSize → ∀ spt, Addressed list p spt →
    (last.senders spt).accepted = (senders spt).accepted ++ [msg]

/-- The peers whose `send` a broadcast calls. -/
theorem map_fst_broadcast (list : PeerList) (msg : Message) (p : Option Peer) :
    (list.broadcast msg p).map Prod.fst = list.live.filter (PeerList.passes p) := by
  rw [PeerList.broadcast, PeerList.broadcastIf_eq_map, List.map_map]
  exact List.map_id _

theorem addressed_iff {list : PeerList} {msg : Message} {p : Option Peer} {spt : Peer} :
    Addressed list p spt ↔ spt ∈ (list.broadcast msg p).map Prod.fst := by
  rw [map_fst_broadcast, List.mem_filter, Addressed]

theorem nodup_broadcast (list : PeerList) (msg : Message) (p : Option Peer) :
    ((list.broadcast msg p).map Prod.fst).Nodup := by
  rw [map_fst_broadcast]
  exact list.distinct.filter _

theorem msg_of_broadcast {list : PeerList} {msg : Message} {p : Option Peer}
    {call : Peer × Message} (member : call ∈ list.broadcast msg p) : call.2 = msg := by
  rw [PeerList.broadcast, PeerList.broadcastIf_eq_map] at member
  rcases List.mem_map.mp member with ⟨spt, -, rfl⟩
  rfl

/-! ## A message that fits -/

section Fitting

variable {senders now : Peer → Sender} {msg : Message} {targets left rest : List Peer}

/-- The message was sent to the targets, except to those that wait for it. -/
structure Served (senders : Peer → Sender) (msg : Message) (targets left : List Peer)
    (now : Peer → Sender) : Prop where
  distinct : left.Nodup
  inside : left ⊆ targets
  sent : ∀ p, now p = if p ∈ targets ∧ p ∉ left then (senders p).send msg else senders p

theorem Served.perm (served : Served senders msg targets left now)
    (perm : left.Perm rest) : Served senders msg targets rest now where
  distinct := perm.nodup_iff.mp served.distinct
  inside _ member := served.inside (perm.mem_iff.mpr member)
  sent p := by
    simp only [served.sent, perm.mem_iff]

/-- The message is sent to the first one that waits. -/
theorem Served.send {p : Peer} (served : Served senders msg targets (p :: rest) now) :
    Served senders msg targets rest (Function.update now p ((now p).send msg)) where
  distinct := (List.nodup_cons.mp served.distinct).2
  inside _ member := served.inside (List.mem_cons_of_mem _ member)
  sent q := by
    by_cases same : q = p
    · subst same
      have target := served.inside List.mem_cons_self
      have first := (List.nodup_cons.mp served.distinct).1
      have unsent : ¬ (q ∈ targets ∧ q ∉ q :: rest) := fun both => both.2 List.mem_cons_self
      rw [Function.update_self, served.sent, if_neg unsent, if_pos ⟨target, first⟩]
    · rw [Function.update_of_ne same, served.sent]
      simp only [List.mem_cons, same, false_or]

/-- The peers whose closures have not been run. -/
def waiting (s : Dispatching) : List Peer := (s.posted ++ s.calls).map Prod.fst

/-- What holds of a broadcast of a message that fits. -/
structure Serves (senders : Peer → Sender) (msg : Message) (targets : List Peer)
    (s : Dispatching) : Prop where
  served : Served senders msg targets s.waiting s.senders
  same : ∀ call ∈ s.posted ++ s.calls, call.2 = msg
  escaped : s.escaped = []

theorem serves_start (senders : Peer → Sender) (list : PeerList) (msg : Message)
    (p : Option Peer) :
    Serves senders msg ((list.broadcast msg p).map Prod.fst) (start senders list msg p) where
  served := {
    distinct := nodup_broadcast list msg p
    inside := fun _ member => member
    sent := fun _ => (if_neg fun both => both.2 both.1).symm }
  same _ member := msg_of_broadcast member
  escaped := rfl

theorem Serves.react {s next : Dispatching} {event : DispatchEvent}
    (serves : Serves senders msg targets s) (fits : msg.size ≤ maxPktSize)
    (step : Dispatching.react s event = some next) : Serves senders msg targets next := by
  rcases s with ⟨now, calls, posted, thrown, escaped⟩
  rcases serves with ⟨served, same, quiet⟩
  cases event with
  | called inline =>
      cases calls with
      | nil => cases step
      | cons call calls =>
          rcases call with ⟨p, other⟩
          obtain rfl : other = msg := same (p, other) (by simp)
          cases inline with
          | true =>
              simp only [Dispatching.react, Sender.closure_of_le fits, if_true] at step
              obtain rfl := Option.some.inj step
              refine ⟨Served.send (served.perm ?_), fun call member => same call ?_, quiet⟩
              · exact List.perm_middle.map Prod.fst
              · exact (List.sublist_cons_self _ _).append_left posted |>.subset member
          | false =>
              obtain rfl := Option.some.inj step
              have order : (posted ++ [(p, other)]) ++ calls = posted ++ (p, other) :: calls :=
                List.append_assoc _ _ _
              refine ⟨?_, ?_, quiet⟩
              · rw [waiting, order]
                exact served
              · rw [order]
                exact same
  | executed call =>
      rcases Option.ite_none_right_eq_some.mp step with ⟨member, ran⟩
      obtain rfl : call.2 = msg := same call (List.mem_append_left calls member)
      simp only [Sender.closure_of_le fits] at ran
      obtain rfl := Option.some.inj ran
      refine ⟨Served.send (served.perm ?_), fun other others => same other ?_, quiet⟩
      · exact ((List.perm_cons_erase member).append_right calls).map Prod.fst
      · exact (List.erase_sublist.append_right calls).subset others

end Fitting

/-! ## A message that is too big -/

/-- A posted closure throws, or one has thrown already. -/
def Escapes (s : Dispatching) : Prop :=
  (∃ call ∈ s.posted, maxPktSize < call.2.size) ∨ s.escaped ≠ []

theorem Escapes.react {s next : Dispatching} {event : DispatchEvent} (escapes : s.Escapes)
    (step : Dispatching.react s event = some next) : next.Escapes := by
  rcases s with ⟨now, calls, posted, thrown, escaped⟩
  cases event with
  | called inline =>
      cases calls with
      | nil => cases step
      | cons call calls =>
          rcases call with ⟨p, msg⟩
          cases inline with
          | true =>
              simp only [Dispatching.react, if_true] at step
              split at step
              · obtain rfl := Option.some.inj step
                exact escapes
              · obtain rfl := Option.some.inj step
                exact escapes
          | false =>
              obtain rfl := Option.some.inj step
              rcases escapes with ⟨call, member, big⟩ | already
              · exact .inl ⟨call, List.mem_append_left _ member, big⟩
              · exact .inr already
  | executed call =>
      rcases Option.ite_none_right_eq_some.mp step with ⟨member, ran⟩
      split at ran
      · rename_i ok
        obtain rfl := Option.some.inj ran
        rcases escapes with ⟨other, others, big⟩ | already
        · have differs : other ≠ call := by
            rintro rfl
            cases (Sender.closure_of_gt big).symm.trans ok
          exact .inl ⟨other, (List.mem_erase_of_ne differs).mpr others, big⟩
        · exact .inr already
      · obtain rfl := Option.some.inj ran
        exact .inr (List.append_ne_nil_of_right_ne_nil _ (List.cons_ne_nil _ _))

theorem mem_posted {s next : Dispatching} {call : Peer × Message}
    (step : Dispatching.react s (.executed call) = some next) : call ∈ s.posted := by
  rcases Option.ite_none_right_eq_some.mp step with ⟨member, -⟩
  exact member

/-- Nothing happens any more when a broadcast is complete. -/
theorem Complete.ended {s last : Dispatching} {events : List DispatchEvent}
    (complete : s.Complete) (run : replay react s events = some last) :
    events = [] ∧ last = s := by
  cases events with
  | nil => exact ⟨rfl, (Option.some.inj run).symm⟩
  | cons event events =>
      rcases replay_cons.mp run with ⟨next, step, -⟩
      rcases s with ⟨now, calls, posted, thrown, escaped⟩
      obtain ⟨rfl, rfl⟩ : calls = [] ∧ posted = [] := complete
      cases event with
      | called inline => cases step
      | executed call =>
          exact absurd (mem_posted step) List.not_mem_nil

/-- The first closure throws, at once or later. -/
theorem tooBig_iff {senders : Peer → Sender} {list : PeerList} {msg : Message} {p : Option Peer}
    {events : List DispatchEvent} {last : Dispatching} (big : maxPktSize < msg.size)
    (run : replay react (start senders list msg p) events = some last)
    (complete : last.Complete) :
    (last.senders = senders ∧ last.thrown.isSome) ∧ last.escaped = [] ↔
      events.head? = some (.called true) := by
  cases events with
  | nil =>
      obtain rfl := Option.some.inj run
      exact iff_of_false (fun both => Bool.false_ne_true both.1.2) nofun
  | cons event events =>
      rcases replay_cons.mp run with ⟨next, step, rest⟩
      rw [List.head?_cons, Option.some.injEq]
      cases event with
      | executed call =>
          exact absurd (mem_posted step) List.not_mem_nil
      | called inline =>
          cases calls : list.broadcast msg p with
          | nil =>
              simp only [Dispatching.react, start, calls] at step
              cases step
          | cons call calls' =>
              obtain same : call.2 = msg :=
                msg_of_broadcast (calls.symm ▸ List.mem_cons_self)
              rcases call with ⟨spt, other⟩
              obtain rfl : other = msg := same
              cases inline with
              | true =>
                  simp only [Dispatching.react, start, calls, if_true,
                    Sender.closure_of_gt big] at step
                  obtain rfl := Option.some.inj step
                  obtain ⟨-, rfl⟩ := Complete.ended ⟨rfl, rfl⟩ rest
                  exact iff_of_true ⟨⟨rfl, rfl⟩, rfl⟩ rfl
              | false =>
                  simp only [Dispatching.react, start, calls, Bool.false_eq_true,
                    if_false] at step
                  obtain rfl := Option.some.inj step
                  have escapes : last.Escapes :=
                    replay_invariant Escapes (fun kept step => kept.react step)
                      (.inl ⟨(spt, other), List.mem_singleton_self _, big⟩) rest
                  rcases escapes with ⟨call, member, -⟩ | escaped
                  · rw [complete.2] at member
                    cases member
                  · exact iff_of_false (fun both => escaped both.2) nofun

/-! ## Every schedule -/

/-- In every complete run of a broadcast, the message is sent cleanly exactly if it fits or
the closure of the first addressed peer is run at once. -/
theorem clean_iff {senders : Peer → Sender} {list : PeerList} {msg : Message} {p : Option Peer}
    {events : List DispatchEvent} {last : Dispatching}
    (run : replay react (start senders list msg p) events = some last)
    (complete : last.Complete) :
    Clean senders list msg p last ↔
      msg.size ≤ maxPktSize ∨ events.head? = some (.called true) := by
  by_cases big : maxPktSize < msg.size
  · rw [or_iff_right (Nat.not_le_of_lt big), ← tooBig_iff big run complete]
    constructor
    · intro clean
      exact ⟨clean.tooBig big, clean.escaped⟩
    · rintro ⟨reported, quiet⟩
      exact ⟨quiet, fun _ => reported, fun fits => absurd big (Nat.not_lt_of_le fits)⟩
  · have fits := Nat.le_of_not_lt big
    apply iff_of_true _ (.inl fits)
    have serves : Serves senders msg ((list.broadcast msg p).map Prod.fst) last :=
      replay_invariant _ (fun kept step => kept.react fits step)
        (serves_start senders list msg p) run
    refine ⟨serves.escaped, fun large => absurd large big, fun _ spt addressed => ?_⟩
    have none : spt ∉ last.waiting := by
      rw [waiting, complete.1, complete.2]
      exact List.not_mem_nil
    rw [serves.served.sent, if_pos ⟨addressed_iff.mp addressed, none⟩]
    exact Sender.accepted_send fits

namespace SampleBroadcast

/-- The peer that a broadcast leaves out. -/
def origin : Peer := ⟨1, List.Vector.replicate 16 1⟩

/-- A peer that it does not leave out. -/
def other : Peer := ⟨2, List.Vector.replicate 16 2⟩

/-- Both of them are on the list. -/
def list : PeerList := ⟨[some origin, some other], by decide⟩

/-- A message of this many bytes. -/
def message (size : Nat) : Message :=
  { Stream.empty.write (List.replicate size 0) with header := ⟨0, 5, 1⟩ }

theorem size_message (size : Nat) : (message size).size = size := by
  change (Stream.empty.write (List.replicate size 0)).buf.length = size
  rw [Stream.empty_write, List.length_replicate]

theorem broadcast_eq (msg : Message) : list.broadcast msg (some origin) = [(other, msg)] := by
  rfl

/-- The closure for the other peer is posted and then throws. -/
theorem run_posted (senders : Peer → Sender) {msg : Message} (big : maxPktSize < msg.size) :
    replay react (start senders list msg (some origin)) [.called false, .executed (other, msg)] =
      some ⟨senders, [], [], none, [.runtimeError "msg is too big to send"]⟩ := by
  rw [replay_cons]
  refine ⟨⟨senders, [], [(other, msg)], none, []⟩, ?_, ?_⟩
  · rw [start, broadcast_eq]
    rfl
  · rw [replay_cons]
    refine ⟨_, ?_, replay_nil _ _⟩
    rw [react]
    simp only [List.mem_singleton_self, if_true, Sender.closure_of_gt big, List.erase_cons_head,
      List.nil_append]

/-- The closure for the other peer throws at once. -/
theorem run_inline (senders : Peer → Sender) {msg : Message} (big : maxPktSize < msg.size) :
    replay react (start senders list msg (some origin)) [.called true] =
      some ⟨senders, [], [], some (.runtimeError "msg is too big to send"), []⟩ := by
  rw [replay_cons]
  refine ⟨_, ?_, replay_nil _ _⟩
  rw [start, broadcast_eq]
  simp only [react, if_true, Sender.closure_of_gt big]

end SampleBroadcast

theorem clean_iff_inline :
    Clean (fun _ => .fresh) SampleBroadcast.list (SampleBroadcast.message 10241)
        (some SampleBroadcast.origin)
        ⟨fun _ => .fresh, [], [], some (.runtimeError "msg is too big to send"), []⟩ ↔
      (SampleBroadcast.message 10241).size ≤ maxPktSize ∨
        [DispatchEvent.called true].head? = some (.called true) := by
  have big : maxPktSize < (SampleBroadcast.message 10241).size := by
    rw [SampleBroadcast.size_message]
    decide
  exact clean_iff (SampleBroadcast.run_inline _ big) ⟨rfl, rfl⟩

/-- Posted for another peer, a message that is too big throws out of `io_service::run`. -/
theorem clean_fails :
    ¬ ∀ (senders : Peer → Sender) (list : PeerList) (msg : Message) (p : Option Peer)
        (events : List DispatchEvent) (last : Dispatching),
      replay react (start senders list msg p) events = some last → last.Complete →
        Clean senders list msg p last := by
  intro clean
  have big : maxPktSize < (SampleBroadcast.message 10241).size := by
    rw [SampleBroadcast.size_message]
    decide
  have quiet := (clean (fun _ => .fresh) _ _ _ _ _ (SampleBroadcast.run_posted _ big)
    ⟨rfl, rfl⟩).escaped
  cases quiet

end Dispatching

end IotChain.P2P
