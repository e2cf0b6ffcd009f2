import IotChain.Transition.Runs
import Mathlib.Data.Finset.Card
import Mathlib.Data.Finset.Range

/-!
# How many connections there are

The server accepts one connection after the other.  Between the test of `connections_` and
its increment, peers are destroyed by other threads, which decrement it.  It counts the
accepted peers that are alive all the same, and stays within its limit.
-/

namespace IotChain.P2P

open IotChain.Transition

/-- What the chain of `do_accept` is doing. -/
inductive Stage
  /-- An accept is outstanding. -/
  | accepting
  /-- The handler has not looked at `connections_` yet. -/
  | testing
  /-- There is room, and the connection is not counted yet. -/
  | counting
  /-- The connection is counted, and its peer is not made yet. -/
  | handing
  /-- There is no room, and the socket is not closed yet. -/
  | closing
  deriving DecidableEq, Repr

/-- A `server_impl`, with the addresses of the peers that it has accepted and that are alive. -/
structure Server where
  self : UInt64
  maxConnections : UInt64
  connections : UInt64
  stage : Stage
  alive : List UInt64
  deriving DecidableEq, Repr

/-- A step of `accept` or of its handler, or the destruction of an accepted peer. -/
inductive ServerEvent
  | accepted
  | failed
  /-- `max_connections_ == 0 || connections_.load() < max_connections_` -/
  | tested
  /-- `connections_++` -/
  | counted
  /-- The handler makes a peer. -/
  | handed (p : UInt64)
  /-- `socket_.close` -/
  | closed
  /-- `~peer` has called `on_session_end_`, while the server is running. -/
  | destroyed (p : UInt64)
  deriving DecidableEq, Repr

namespace Server

/-- A server that has been started. -/
def listening (self maxConnections : UInt64) : Server := ⟨self, maxConnections, 0, .accepting, []⟩

/-- A peer is made where no other object is. -/
def Free (s : Server) (p : UInt64) : Prop := p ≠ 0 ∧ p ≠ s.self ∧ p ∉ s.alive

instance (s : Server) (p : UInt64) : Decidable (s.Free p) :=
  inferInstanceAs (Decidable (_ ∧ _ ∧ _))

/-- The handler takes its steps in this order, and peers are destroyed at any time. -/
def react : Reaction Server ServerEvent := fun s event =>
  match event with
  | .accepted => if s.stage = .accepting then some { s with stage := .testing } else none
  | .failed => if s.stage = .accepting then some s else none
  | .tested =>
      if s.stage = .testing then
        if s.maxConnections = 0 ∨ s.connections < s.maxConnections then
          some { s with stage := .counting }
        else
          some { s with stage := .closing }
      else
        none
  | .counted =>
      if s.stage = .counting then
        some { s with connections := s.connections + 1, stage := .handing }
      else
        none
  | .handed p =>
      if s.stage = .handing ∧ s.Free p then
        some { s with alive := p :: s.alive, stage := .accepting }
      else
        none
  | .closed => if s.stage = .closing then some { s with stage := .accepting } else none
  | .destroyed p =>
      if p ∈ s.alive then
        some { s with connections := s.connections - 1, alive := s.alive.erase p }
      else
        none

/-! ## What is counted -/

/-- The accepted peers that are alive, with the one that is about to be made. -/
def accepted (s : Server) : Nat := s.alive.length + if s.stage = .handing then 1 else 0

/-- The connections that are or will be counted. -/
def granted (s : Server) : Nat := s.connections.toNat + if s.stage = .counting then 1 else 0

/-- No two objects have one address, and `connections_` counts the accepted peers within its
limit. -/
structure Inv (s : Server) : Prop where
  distinct : (0 :: s.self :: s.alive).Nodup
  counted : s.connections.toNat = s.accepted
  bounded : s.maxConnections ≠ 0 → s.granted ≤ s.maxConnections.toNat

theorem inv_listening {self : UInt64} (address : self ≠ 0) (maxConnections : UInt64) :
    (listening self maxConnections).Inv where
  distinct := List.nodup_cons.mpr
    ⟨fun member => address (List.mem_singleton.mp member).symm, List.nodup_singleton self⟩
  counted := rfl
  bounded _ := Nat.zero_le _

/-- There are fewer objects than addresses. -/
theorem length_le_of_nodup {addresses : List UInt64} (distinct : addresses.Nodup) :
    addresses.length ≤ 2 ^ 64 := by
  have values : (addresses.map UInt64.toNat).Nodup :=
    distinct.map fun _ _ same => UInt64.toNat_inj.mp same
  have inside : (addresses.map UInt64.toNat).toFinset ⊆ Finset.range (2 ^ 64) := by
    intro n member
    rcases List.mem_map.mp (List.mem_toFinset.mp member) with ⟨address, -, rfl⟩
    exact Finset.mem_range.mpr address.toNat_lt
  have card := Finset.card_le_card inside
  rwa [List.toFinset_card_of_nodup values, List.length_map, Finset.card_range] at card

/-- The counter does not come to its end. -/
theorem Inv.room {s : Server} (inv : s.Inv) (stage : s.stage = .counting) :
    (s.connections + 1).toNat = s.connections.toNat + 1 := by
  have few := length_le_of_nodup inv.distinct
  have counted := inv.counted
  rw [accepted, stage, if_neg (by decide)] at counted
  rw [List.length_cons, List.length_cons] at few
  rw [UInt64.toNat_add, UInt64.toNat_one]
  omega

/-- A peer that is alive is counted. -/
theorem Inv.positive {s : Server} (inv : s.Inv) {p : UInt64} (alive : p ∈ s.alive) :
    (s.connections - 1).toNat + 1 = s.connections.toNat := by
  have positive := List.length_pos_of_mem alive
  have counted := inv.counted
  rw [accepted] at counted
  have one : (1 : UInt64) ≤ s.connections := by
    rw [UInt64.le_iff_toNat_le, UInt64.toNat_one]
    omega
  rw [UInt64.toNat_sub_of_le _ _ one, UInt64.toNat_one]
  omega

/-- Every event keeps the invariant. -/
theorem Inv.react {s next : Server} {event : ServerEvent} (inv : s.Inv)
    (step : Server.react s event = some next) : next.Inv := by
  rcases s with ⟨self, max, connections, stage, alive⟩
  rcases inv with ⟨distinct, counted, bounded⟩
  simp only [accepted, granted] at counted bounded
  cases event with
  | accepted =>
      rcases Option.ite_none_right_eq_some.mp step with ⟨rfl, same⟩
      cases same
      exact ⟨distinct, counted, bounded⟩
  | failed =>
      rcases Option.ite_none_right_eq_some.mp step with ⟨rfl, same⟩
      cases same
      exact ⟨distinct, counted, bounded⟩
  | tested =>
      rcases Option.ite_none_right_eq_some.mp step with ⟨rfl, same⟩
      split at same
      · rename_i room
        cases same
        refine ⟨distinct, counted, fun limited => ?_⟩
        exact UInt64.lt_iff_toNat_lt.mp (room.resolve_left limited)
      · cases same
        exact ⟨distinct, counted, bounded⟩
  | counted =>
      rcases Option.ite_none_right_eq_some.mp step with ⟨rfl, same⟩
      cases same
      have room : (connections + 1).toNat = connections.toNat + 1 :=
        Inv.room ⟨distinct, counted, bounded⟩ rfl
      refine ⟨distinct, ?_, fun limited => ?_⟩
      · exact room.trans (congrArg (· + 1) counted)
      · exact le_of_eq_of_le room (bounded limited)
  | handed p =>
      rcases Option.ite_none_right_eq_some.mp step with ⟨⟨rfl, nonzero, other, fresh⟩, same⟩
      cases same
      rw [List.nodup_cons, List.nodup_cons, List.mem_cons] at distinct
      refine ⟨?_, counted, bounded⟩
      simp only [List.nodup_cons, List.mem_cons, not_or]
      exact ⟨⟨fun same => distinct.1 (.inl same), Ne.symm nonzero,
        fun member => distinct.1 (.inr member)⟩, ⟨Ne.symm other, distinct.2.1⟩, fresh,
        distinct.2.2⟩
  | closed =>
      rcases Option.ite_none_right_eq_some.mp step with ⟨rfl, same⟩
      cases same
      exact ⟨distinct, counted, bounded⟩
  | destroyed p =>
      rcases Option.ite_none_right_eq_some.mp step with ⟨member, same⟩
      cases same
      have positive : (connections - 1).toNat + 1 = connections.toNat :=
        Inv.positive ⟨distinct, counted, bounded⟩ member
      have fewer : (alive.erase p).length + 1 = alive.length := by
        rw [List.length_erase_of_mem member]
        exact Nat.sub_add_cancel (List.length_pos_of_mem member)
      refine ⟨?_, ?_, fun limited => ?_⟩
      · exact distinct.sublist ((List.erase_sublist.cons_cons self).cons_cons 0)
      · simp only [accepted]
        omega
      · have before := bounded limited
        simp only [granted]
        omega

/-! ## Every run -/

/-- `connections_` is the number of accepted peers that are alive, and within its limit. -/
structure Accounts (s : Server) : Prop where
  counted : s.connections.toNat = s.accepted
  bounded : s.maxConnections ≠ 0 → s.connections ≤ s.maxConnections

/-- A step does not decrement zero, and both sides of it account for the connections.  It goes
to close a socket exactly if a connection was accepted while the limit is reached; only then
is one closed, and only a connection that was counted gets a peer. -/
structure Accounted (t : Taken Server ServerEvent) : Prop where
  before : t.before.Accounts
  after : t.after.Accounts
  positive : ∀ p, t.event = .destroyed p → t.before.connections ≠ 0
  refused : t.after.stage = .closing ↔
    t.event = .tested ∧ t.before.maxConnections ≠ 0 ∧
        t.before.connections = t.before.maxConnections ∨
      t.before.stage = .closing ∧ ∃ p, t.event = .destroyed p
  closed : t.event = .closed → t.before.stage = .closing ∧ t.after.alive = t.before.alive
  handed : ∀ p, t.event = .handed p → t.before.stage = .handing

theorem Inv.accounts {s : Server} (inv : s.Inv) : s.Accounts where
  counted := inv.counted
  bounded limited :=
    UInt64.le_iff_toNat_le.mpr (Nat.le_trans (Nat.le_add_right _ _) (inv.bounded limited))

theorem Inv.full_iff {s : Server} (inv : s.Inv) :
    ¬ (s.maxConnections = 0 ∨ s.connections < s.maxConnections) ↔
      s.maxConnections ≠ 0 ∧ s.connections = s.maxConnections := by
  rw [not_or]
  apply and_congr_right
  intro limited
  constructor
  · intro reached
    exact UInt64.le_antisymm (inv.accounts.bounded limited) (UInt64.not_lt.mp reached)
  · intro same
    rw [same]
    exact UInt64.lt_irrefl _

/-- The steps behind which a socket is about to be closed. -/
theorem closing_iff {s next : Server} {event : ServerEvent} (inv : s.Inv)
    (step : Server.react s event = some next) :
    next.stage = .closing ↔
      event = .tested ∧ s.maxConnections ≠ 0 ∧ s.connections = s.maxConnections ∨
        s.stage = .closing ∧ ∃ p, event = .destroyed p := by
  have full := inv.full_iff
  cases event with
  | tested =>
      rcases Option.ite_none_right_eq_some.mp step with ⟨stage, same⟩
      rw [← full]
      split at same
      · rename_i room
        cases same
        simp [room]
      · rename_i refused
        cases same
        exact iff_of_true rfl (.inl ⟨rfl, refused⟩)
  | destroyed p =>
      rcases Option.ite_none_right_eq_some.mp step with ⟨member, same⟩
      cases same
      simp
  | handed p =>
      rcases Option.ite_none_right_eq_some.mp step with ⟨_, same⟩
      cases same
      simp
  | accepted | failed | counted | closed =>
      rcases Option.ite_none_right_eq_some.mp step with ⟨stage, same⟩
      cases same
      simp [stage]

theorem accounted_of_step {s next : Server} {event : ServerEvent} (inv : s.Inv)
    (step : Server.react s event = some next) : Accounted ⟨s, event, next⟩ where
  before := inv.accounts
  after := (inv.react step).accounts
  positive := by
    rintro p rfl zero
    have member := (Option.ite_none_right_eq_some.mp step).1
    have positive := inv.positive member
    change s.connections = 0 at zero
    rw [zero, UInt64.toNat_zero] at positive
    exact Nat.succ_ne_zero _ positive
  refused := closing_iff inv step
  closed := by
    rintro rfl
    rcases Option.ite_none_right_eq_some.mp step with ⟨stage, same⟩
    cases same
    exact ⟨stage, rfl⟩
  handed := by
    rintro p rfl
    exact (Option.ite_none_right_eq_some.mp step).1.1

/-- In every run of a server, `connections_` is the number of the accepted peers that are
alive, it stays within the limit, and sockets are closed at the limit alone. -/
theorem connections_accounted {self maxConnections : UInt64} (address : self ≠ 0)
    {steps : List (Taken Server ServerEvent)} {last : Server}
    (run : Runs Server.react.Steps (listening self maxConnections) steps last) :
    last.Accounts ∧ ∀ t ∈ steps, Accounted t := by
  have start := inv_listening address maxConnections
  constructor
  · exact (run.invariant Inv (fun step inv => inv.react step) start).accounts
  · refine (run.forall_iff Inv ?_ ?_ start).mpr fun _ _ => trivial
    · intro s event next step inv
      exact iff_of_true (accounted_of_step inv step) trivial
    · intro s event next step inv _
      exact inv.react step

/-- A server for one peer accepts it, refuses another one, and loses it. -/
theorem connections_accounted_two :
    ∃ steps last, Runs Server.react.Steps (listening 8 1) steps last ∧ last.Accounts ∧
      ∀ t ∈ steps, Accounted t := by
  have run : replay Server.react (listening 8 1)
      [.accepted, .tested, .counted, .handed 16, .accepted, .tested, .closed, .destroyed 16] =
        some ⟨8, 1, 0, .accepting, []⟩ := by decide
  rcases Runs.of_replay run with ⟨steps, taken, -⟩
  exact ⟨steps, _, taken, connections_accounted (by decide) taken⟩

end Server

end IotChain.P2P
