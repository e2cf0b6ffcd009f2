import IotChain.P2P.PeerList
import IotChain.Transition.Runs

/-!
# Who is on the list

A peer registers when it is started.  When the last shared pointer to it goes, its weak
pointers expire, and some time later its destructor calls `remove_peer`.  Entries are never
erased, but the ones that lock are the started peers that are alive, in their order.
-/

namespace IotChain.P2P

open IotChain.Bytes IotChain.Transition

namespace PeerList

/-- The last shared pointer to a peer is gone. -/
def expirePeer (list : PeerList) (p : Peer) : PeerList where
  entries := expire p list.entries
  distinct := List.Nodup.sublist (reduceOption_expire_sublist p list.entries) list.distinct

/-- `peer_list::remove_peer`. -/
def removeId (list : PeerList) (id : ByteVec 16) : PeerList where
  entries := removeIf (removes id) list.entries
  distinct := removeIf_distinct _ list.distinct

/-- The destructor of a peer whose weak pointers have expired. -/
theorem removePeer_eq (list : PeerList) (p : Peer) :
    list.removePeer p = (list.expirePeer p).removeId p.uuid :=
  rfl

/-- `peer_list::count`. -/
def count (list : PeerList) : Nat := list.entries.length

theorem live_addPeer {list : PeerList} {p : Peer} (unregistered : p ∉ list.live) :
    (list.addPeer p unregistered).live = list.live ++ [p] := by
  rw [live, addPeer, List.reduceOption_append]
  rfl

theorem reduceOption_expire (p : Peer) (entries : List (Option Peer)) :
    (expire p entries).reduceOption = entries.reduceOption.filter (· != p) := by
  induction entries with
  | nil => rfl
  | cons x entries ih =>
      rw [expire, List.map_cons]
      cases x with
      | none => exact ih
      | some other =>
          rw [List.reduceOption_cons_of_some, List.filter_cons]
          by_cases same : other = p
          · rw [if_pos (congrArg some same), if_neg (by simpa using same)]
            exact ih
          · rw [if_neg fun equal => same (Option.some.inj equal), if_pos (by simpa using same)]
            exact congrArg (other :: ·) ih

/-- A peer that expires is taken out from among the others. -/
theorem live_expirePeer (list : PeerList) (p : Peer) :
    (list.expirePeer p).live = list.live.erase p := by
  rw [live, live, List.Nodup.erase_eq_filter list.distinct]
  exact reduceOption_expire p list.entries

theorem reduceOption_filter (test : Option Peer → Bool) (entries : List (Option Peer)) :
    (entries.filter test).reduceOption =
      entries.reduceOption.filter fun p => test (some p) := by
  induction entries with
  | nil => rfl
  | cons x entries ih =>
      cases x with
      | none =>
          rw [List.reduceOption_cons_of_none, ← ih, List.filter_cons]
          split
          · exact List.reduceOption_cons_of_none _
          · rfl
      | some p =>
          rw [List.reduceOption_cons_of_some, List.filter_cons, List.filter_cons, ← ih]
          split
          · exact List.reduceOption_cons_of_some p _
          · rfl

/-- Nobody is moved past another one or lost, if the `uuid_` is nobody's any more. -/
theorem live_removeId {list : PeerList} {id : ByteVec 16}
    (nobody : ∀ p ∈ list.live, p.uuid ≠ id) : (list.removeId id).live = list.live := by
  have kept : ∀ p ∈ list.live, removes id (some p) = false :=
    fun p member => beq_eq_false_iff_ne.mpr (nobody p member)
  rcases reduceOption_removeIf (removes id) list.entries with ⟨left, sublist, entriesEq⟩
  rw [reduceOption_filter, List.filter_eq_nil_iff.mpr] at sublist
  · rw [reduceOption_filter, List.eq_nil_of_sublist_nil sublist, List.append_nil,
      List.filter_eq_self.mpr] at entriesEq
    · exact entriesEq
    · intro p member
      rw [kept p member]
      rfl
  · intro p member
    rw [kept p member]
    exact Bool.false_ne_true

theorem length_removeIf (remove : Option Peer → Bool) (entries : List (Option Peer)) :
    (removeIf remove entries).length = entries.length := by
  have le := List.length_filter_le (fun x => !remove x) entries
  rw [removeIf, List.length_append, List.length_map, List.length_drop]
  exact Nat.add_sub_of_le le

/-- What `remove_peer` does not change. -/
theorem count_removeId (list : PeerList) (id : ByteVec 16) :
    (list.removeId id).count = list.count :=
  length_removeIf _ _

theorem count_expirePeer (list : PeerList) (p : Peer) :
    (list.expirePeer p).count = list.count :=
  List.length_map _

theorem count_addPeer {list : PeerList} {p : Peer} (unregistered : p ∉ list.live) :
    (list.addPeer p unregistered).count = list.count + 1 :=
  List.length_append

end PeerList

/-! ## Runs -/

/-- The list and the peers that there are. -/
structure Registry where
  list : PeerList
  /-- The `uuid_`s that peers have been given so far. -/
  uuids : List (ByteVec 16)
  /-- The peers to which there are shared pointers. -/
  alive : List Peer
  /-- Those of them that were started, in this order. -/
  started : List Peer
  /-- The destructors that have yet to call `remove_peer`. -/
  dying : List Peer
  /-- The peers that were started and are not alive. -/
  lost : List Peer

/-- What happens to peers and their list. -/
inductive PeerEvent
  /-- `peer::peer`, which makes up a `uuid_` -/
  | constructed (p : Peer)
  /-- `peer::start` -/
  | started (p : Peer)
  /-- The last shared pointer to the peer goes. -/
  | expired (p : Peer)
  /-- `remove_peer`, called by `peer::~peer` -/
  | removed (p : Peer)
  /-- `peer_list::broadcast` -/
  | broadcast (msg : Message) (p : Option Peer)

namespace Registry

/-- No peer has been made yet. -/
def empty : Registry := ⟨⟨[], List.nodup_nil⟩, [], [], [], [], []⟩

/-- No `uuid_` is made up twice, and no peer is started twice. -/
def react : Reaction Registry PeerEvent
  | s, .constructed p =>
      if p.uuid ∉ s.uuids then
        some { s with uuids := p.uuid :: s.uuids, alive := p :: s.alive }
      else
        none
  | s, .started p =>
      if unregistered : p ∈ s.alive ∧ p ∉ s.list.live then
        some { s with
          list := s.list.addPeer p unregistered.2
          started := s.started ++ [p] }
      else
        none
  | s, .expired p =>
      if p ∈ s.alive then
        some { s with
          list := s.list.expirePeer p
          alive := s.alive.erase p
          started := s.started.erase p
          dying := p :: s.dying
          lost := if p ∈ s.started then p :: s.lost else s.lost }
      else
        none
  | s, .removed p =>
      if p ∈ s.dying then
        some { s with list := s.list.removeId p.uuid, dying := s.dying.erase p }
      else
        none
  | s, .broadcast _ _ => some s

/-! ## What always holds -/

/-- The started peers that are alive are those whose entries lock, and the entries are as
many as the peers that were ever started. -/
structure Sound (s : Registry) : Prop where
  live : s.list.live = s.started
  alive : ∀ p ∈ s.started, p ∈ s.alive
  /-- Peers that are not gone completely have different `uuid_`s, each of them known. -/
  distinct : ((s.dying ++ s.alive).map Peer.uuid).Nodup
  known : ∀ p ∈ s.dying ++ s.alive, p.uuid ∈ s.uuids
  count : s.list.count = s.started.length + s.lost.length

theorem sound_empty : empty.Sound :=
  ⟨rfl, List.forall_mem_nil _, List.nodup_nil, List.forall_mem_nil _, rfl⟩

/-- A peer that is dying shares its `uuid_` with none that is alive. -/
theorem Sound.uuid_ne {s : Registry} (sound : s.Sound) {p other : Peer} (dying : p ∈ s.dying)
    (alive : other ∈ s.alive) : other.uuid ≠ p.uuid := by
  have distinct := sound.distinct
  rw [List.map_append] at distinct
  have apart := List.disjoint_of_nodup_append distinct (List.mem_map_of_mem dying)
  intro same
  apply apart
  rw [← same]
  exact List.mem_map_of_mem alive

theorem Sound.constructed {s : Registry} (sound : s.Sound) {p : Peer} (new : p.uuid ∉ s.uuids) :
    Sound { s with uuids := p.uuid :: s.uuids, alive := p :: s.alive } where
  live := sound.live
  alive other member := List.mem_cons_of_mem p (sound.alive other member)
  distinct := by
    have front : (s.dying ++ p :: s.alive).Perm (p :: (s.dying ++ s.alive)) :=
      List.perm_middle
    apply (front.map Peer.uuid).nodup_iff.mpr
    rw [List.map_cons, List.nodup_cons]
    refine ⟨fun member => ?_, sound.distinct⟩
    rcases List.mem_map.mp member with ⟨other, known, same⟩
    exact new (same ▸ sound.known other known)
  known := by
    intro other member
    rcases List.mem_cons.mp (List.perm_middle.mem_iff.mp member) with rfl | member
    · exact List.mem_cons_self
    · exact List.mem_cons_of_mem _ (sound.known other member)
  count := sound.count

theorem Sound.started {s : Registry} (sound : s.Sound) {p : Peer} (alive : p ∈ s.alive)
    (unregistered : p ∉ s.list.live) :
    Sound { s with list := s.list.addPeer p unregistered, started := s.started ++ [p] } where
  live := by
    rw [PeerList.live_addPeer, sound.live]
  alive other member := by
    rcases List.mem_append.mp member with member | same
    · exact sound.alive other member
    · rwa [List.mem_singleton.mp same]
  distinct := sound.distinct
  known := sound.known
  count := by
    rw [PeerList.count_addPeer, sound.count, List.length_append, List.length_singleton]
    exact Nat.add_right_comm _ _ _

/-- A peer that expires is among those that are dying. -/
theorem perm_expired {s : Registry} {p : Peer} (alive : p ∈ s.alive) :
    (s.dying ++ s.alive).Perm (p :: s.dying ++ s.alive.erase p) :=
  ((List.perm_cons_erase alive).append_left s.dying).trans List.perm_middle

theorem Sound.expired {s : Registry} (sound : s.Sound) {p : Peer} (alive : p ∈ s.alive) :
    Sound { s with
      list := s.list.expirePeer p
      alive := s.alive.erase p
      started := s.started.erase p
      dying := p :: s.dying
      lost := if p ∈ s.started then p :: s.lost else s.lost } where
  live := by
    rw [PeerList.live_expirePeer, sound.live]
  alive other member := by
    have once : s.started.Nodup := sound.live ▸ s.list.distinct
    rcases (List.Nodup.mem_erase_iff once).mp member with ⟨differs, member⟩
    exact (List.mem_erase_of_ne differs).mpr (sound.alive other member)
  distinct := ((perm_expired alive).map Peer.uuid).nodup_iff.mp sound.distinct
  known other member := sound.known other ((perm_expired alive).mem_iff.mpr member)
  count := by
    rw [PeerList.count_expirePeer, sound.count]
    by_cases member : p ∈ s.started
    · have shorter := List.length_erase_of_mem member
      have positive := List.length_pos_of_mem member
      simp only [if_pos member, List.length_cons]
      omega
    · simp only [if_neg member, List.erase_of_not_mem member]

theorem Sound.removed {s : Registry} (sound : s.Sound) {p : Peer} (dying : p ∈ s.dying) :
    Sound { s with list := s.list.removeId p.uuid, dying := s.dying.erase p } where
  live := by
    rw [PeerList.live_removeId, sound.live]
    intro other member
    rw [sound.live] at member
    exact sound.uuid_ne dying (sound.alive other member)
  alive := sound.alive
  distinct := by
    have fewer : (s.dying.erase p ++ s.alive).Sublist (s.dying ++ s.alive) :=
      List.erase_sublist.append_right s.alive
    exact (fewer.map Peer.uuid).nodup sound.distinct
  known other member := by
    apply sound.known other
    rcases List.mem_append.mp member with member | member
    · exact List.mem_append_left _ (List.mem_of_mem_erase member)
    · exact List.mem_append_right _ member
  count := by
    rw [PeerList.count_removeId]
    exact sound.count

/-- Every event keeps what always holds. -/
theorem Sound.react {s next : Registry} {event : PeerEvent}
    (step : Registry.react s event = some next) (sound : s.Sound) : next.Sound := by
  cases event with
  | constructed p =>
      rcases Option.ite_none_right_eq_some.mp step with ⟨new, same⟩
      cases same
      exact sound.constructed new
  | started p =>
      rcases Option.dite_none_right_eq_some.mp step with ⟨⟨alive, unregistered⟩, same⟩
      cases same
      exact sound.started alive unregistered
  | expired p =>
      rcases Option.ite_none_right_eq_some.mp step with ⟨alive, same⟩
      cases same
      exact sound.expired alive
  | removed p =>
      rcases Option.ite_none_right_eq_some.mp step with ⟨dying, same⟩
      cases same
      exact sound.removed dying
  | broadcast msg p =>
      cases step
      exact sound

/-! ## Who is visited -/

/-- Each started peer that is alive is found in one entry, the entries are in the order of
the starts, and a broadcast comes to each peer once. -/
structure Registered (s : Registry) : Prop where
  once : ∀ p ∈ s.started, s.list.live.count p = 1
  ordered : s.list.live = s.started
  visited : ∀ msg origin, s.list.broadcast msg origin =
    (s.started.filter (PeerList.passes origin)).map fun p => (p, msg)

/-- No run of peers and broadcasts loses or doubles a peer. -/
theorem registered_of_replay {events : List PeerEvent} {s : Registry}
    (run : replay react empty events = some s) : s.Registered := by
  have sound : s.Sound :=
    replay_invariant Sound (fun sound step => Sound.react step sound) sound_empty run
  constructor
  · intro p member
    rw [← sound.live] at member
    exact List.count_eq_one_of_mem s.list.distinct member
  · exact sound.live
  · intro msg origin
    rw [PeerList.broadcast, PeerList.broadcastIf_eq_map, sound.live]

/-- A peer for each byte. -/
def samplePeer (n : UInt8) : Peer := ⟨n.toNat, List.Vector.replicate 16 n⟩

/-- Three peers, of whom the second is gone before the third is started. -/
theorem registered_of_replay_three :
    ∃ s : Registry, s.started = [samplePeer 1, samplePeer 3] ∧ s.Registered := by
  have run : ∃ s, replay react empty [.constructed (samplePeer 1), .started (samplePeer 1),
      .constructed (samplePeer 2), .started (samplePeer 2), .expired (samplePeer 2),
      .removed (samplePeer 2), .constructed (samplePeer 3), .started (samplePeer 3)] = some s ∧
        s.started = [samplePeer 1, samplePeer 3] := ⟨_, rfl, rfl⟩
  obtain ⟨s, run, started⟩ := run
  exact ⟨s, started, registered_of_replay run⟩

/-! ## How long the list is -/

/-- When `remove_peer` has returned, the list is as long as there are started peers alive. -/
def CountsLive (t : Taken Registry PeerEvent) : Prop :=
  ∀ p, t.event = .removed p → t.after.list.count = t.after.started.length

/-- When `remove_peer` is called, no peer that was started is gone. -/
def NoneLost (t : Taken Registry PeerEvent) : Prop :=
  ∀ p, t.event = .removed p → t.before.lost = []

theorem countsLive_iff_noneLost {s next : Registry} {event : PeerEvent}
    (step : react.Steps s event next) (sound : s.Sound) :
    CountsLive ⟨s, event, next⟩ ↔ NoneLost ⟨s, event, next⟩ := by
  have nextSound : next.Sound := Sound.react step sound
  apply forall₂_congr
  rintro p rfl
  have lost : next.lost = s.lost := by
    rcases Option.ite_none_right_eq_some.mp step with ⟨-, same⟩
    cases same
    rfl
  change next.list.count = next.started.length ↔ s.lost = []
  rw [nextSound.count, lost, Nat.add_eq_left, List.length_eq_zero_iff]

/-- The list counts the peers exactly as long as none of them is lost. -/
theorem count_iff {steps : List (Taken Registry PeerEvent)} {last : Registry}
    (run : Runs react.Steps empty steps last) :
    (∀ t ∈ steps, CountsLive t) ↔ ∀ t ∈ steps, NoneLost t :=
  run.forall_iff Sound countsLive_iff_noneLost (fun step sound _ => Sound.react step sound)
    sound_empty

/-- A peer is started, expires and is removed. -/
theorem oneLife_run :
    ∃ steps before last, Runs react.Steps empty
        (steps ++ [⟨before, .removed (samplePeer 1), last⟩]) last ∧
      last.list.count = 1 ∧ last.started = [] := by
  have expires : ∃ before last, replay react empty [.constructed (samplePeer 1),
      .started (samplePeer 1), .expired (samplePeer 1)] = some before ∧
        react before (.removed (samplePeer 1)) = some last ∧
        last.list.count = 1 ∧ last.started = [] := ⟨_, _, rfl, rfl, rfl, rfl⟩
  obtain ⟨before, last, replayed, removed, count, started⟩ := expires
  obtain ⟨steps, run, _⟩ := Runs.of_replay replayed
  exact ⟨steps, before, last, run.concat removed, count, started⟩

theorem count_iff_oneLife :
    ∃ steps last, Runs react.Steps empty steps last ∧
      ((∀ t ∈ steps, CountsLive t) ↔ ∀ t ∈ steps, NoneLost t) := by
  obtain ⟨steps, before, last, run, _⟩ := oneLife_run
  exact ⟨_, last, run, count_iff run⟩

/-- One entry is left behind by the only peer. -/
theorem count_fails :
    ¬ ∀ steps last, Runs react.Steps empty steps last → ∀ t ∈ steps, CountsLive t := by
  intro counts
  obtain ⟨steps, before, last, run, count, started⟩ := oneLife_run
  have live := counts _ last run _ List.mem_concat_self _ rfl
  rw [count, started] at live
  exact absurd live (by decide)

end Registry

end IotChain.P2P
