import IotChain.P2P.Message
import Mathlib.Data.List.ReduceOption

/-!
# The list of peers

`peer_list` holds weak pointers.  An entry of the model is what `lock()` returns for it:
a live peer, or nothing.  A peer registers itself once, in `start`, so no live peer is
found in two entries.
-/

namespace IotChain.P2P

open IotChain.Bytes

/-- A peer as its list sees it: which object it is, and its `uuid_`. -/
structure Peer where
  address : Nat
  uuid : ByteVec 16
  deriving DecidableEq

/-- The state of `peer_list`. -/
structure PeerList where
  entries : List (Option Peer)
  distinct : entries.reduceOption.Nodup

namespace PeerList

/-- The live peers that are registered. -/
def live (list : PeerList) : List Peer := list.entries.reduceOption

/-! ## Registration -/

/-- `peer_list::add_peer`, for a peer that is not registered yet. -/
def addPeer (list : PeerList) (p : Peer) (unregistered : p ∉ list.live) : PeerList where
  entries := list.entries ++ [some p]
  distinct := by
    rw [List.reduceOption_append]
    apply List.Nodup.append list.distinct (List.nodup_singleton p)
    intro other member same
    rw [List.mem_singleton.mp same] at member
    exact unregistered member

/-- The entries when `p` has been destroyed: weak pointers to it lock to nothing. -/
def expire (p : Peer) (entries : List (Option Peer)) : List (Option Peer) :=
  entries.map fun x => if x = some p then none else x

theorem reduceOption_expire_sublist (p : Peer) (entries : List (Option Peer)) :
    (expire p entries).reduceOption.Sublist entries.reduceOption := by
  induction entries with
  | nil => exact List.Sublist.refl _
  | cons x entries ih =>
      rw [expire, List.map_cons]
      split
      · cases x with
        | none => exact ih
        | some other => exact ih.cons other
      · cases x with
        | none => exact ih
        | some other => exact ih.cons_cons other

/-- `std::remove_if` on weak pointers: the entries to be kept move to the front and leave
empty pointers behind.  Nothing is erased. -/
def removeIf (remove : Option Peer → Bool) (entries : List (Option Peer)) :
    List (Option Peer) :=
  let kept := entries.filter fun x => !remove x
  kept ++ (entries.drop kept.length).map fun x => if remove x then x else none

/-- The peers behind the entries that `remove_if` leaves: those kept, and some of those
that were to be removed. -/
theorem reduceOption_removeIf (remove : Option Peer → Bool) (entries : List (Option Peer)) :
    ∃ left, left.Sublist (entries.filter remove).reduceOption ∧
      (removeIf remove entries).reduceOption =
        (entries.filter fun x => !remove x).reduceOption ++ left := by
  have emptied (others : List (Option Peer)) :
      (others.map fun x => if remove x then x else none).reduceOption =
        (others.filter remove).reduceOption := by
    induction others with
    | nil => rfl
    | cons x others ih =>
        rw [List.map_cons]
        cases removed : remove x with
        | true =>
            rw [List.filter_cons_of_pos removed]
            cases x with
            | none => exact ih
            | some p => exact congrArg (p :: ·) ih
        | false =>
            rw [List.filter_cons_of_neg (by simp [removed])]
            exact ih
  rw [removeIf, List.reduceOption_append, emptied]
  refine ⟨_, ?_, rfl⟩
  apply List.Sublist.filterMap
  apply List.Sublist.filter
  exact List.drop_sublist _ _

/-- The predicate of `peer_list::remove_peer`. -/
def removes (id : ByteVec 16) : Option Peer → Bool
  | some spt => spt.uuid == id
  | none => true

theorem removeIf_distinct (remove : Option Peer → Bool) {entries : List (Option Peer)}
    (distinct : entries.reduceOption.Nodup) : (removeIf remove entries).reduceOption.Nodup := by
  rcases reduceOption_removeIf remove entries with ⟨left, sublist, entriesEq⟩
  have parts : ((entries.filter fun x => !remove x).reduceOption ++
      (entries.filter remove).reduceOption).Nodup := by
    rw [← List.reduceOption_append]
    apply List.Perm.nodup _ distinct
    apply List.Perm.filterMap
    exact (List.perm_append_comm.trans (List.filter_append_perm _ _)).symm
  rw [entriesEq]
  exact List.Nodup.sublist (sublist.append_left _) parts

/-- `peer::~peer`, when the last shared pointer to the peer is gone: it is no longer found
by `lock`, and `peer_list::remove_peer` is called with its `uuid_`. -/
def removePeer (list : PeerList) (p : Peer) : PeerList where
  entries := removeIf (removes p.uuid) (expire p list.entries)
  distinct := by
    apply removeIf_distinct
    exact List.Nodup.sublist (reduceOption_expire_sublist p list.entries) list.distinct

theorem mem_live {list : PeerList} {p : Peer} : p ∈ list.live ↔ some p ∈ list.entries :=
  List.reduceOption_mem_iff

/-- A peer that is destroyed takes no other live peer off the list, unless that has the
same `uuid_`. -/
theorem mem_live_removePeer (list : PeerList) {p other : Peer} (differs : other.uuid ≠ p.uuid) :
    other ∈ (list.removePeer p).live ↔ other ∈ list.live := by
  have kept : removes p.uuid (some other) = false := beq_eq_false_iff_ne.mpr differs
  have otherObject : other ≠ p := fun same => differs (congrArg Peer.uuid same)
  have unexpired : some other ∈ expire p list.entries ↔ some other ∈ list.entries := by
    rw [expire, List.mem_map]
    constructor
    · rintro ⟨x, member, value⟩
      split at value
      · cases value
      · rwa [← value]
    · intro member
      exact ⟨some other, member, if_neg fun same => otherObject (Option.some.inj same)⟩
  rcases reduceOption_removeIf (removes p.uuid) (expire p list.entries) with
    ⟨left, sublist, entriesEq⟩
  rw [live, removePeer, entriesEq, List.mem_append, List.reduceOption_mem_iff, List.mem_filter,
    unexpired, mem_live]
  constructor
  · rintro (⟨member, _⟩ | member)
    · exact member
    · have removed := List.reduceOption_mem_iff.mp (sublist.subset member)
      rw [List.mem_filter, kept] at removed
      exact absurd removed.2 Bool.false_ne_true
  · intro member
    exact .inl ⟨member, by simp [kept]⟩

/-! ## Broadcasting -/

/-- The loop of `broadcast`, with the test that a live peer must pass. -/
def broadcastIf (passes : Option Peer → Peer → Bool) (list : PeerList) (msg : Message)
    (p : Option Peer) : List (Peer × Message) :=
  list.entries.flatMap fun x =>
    match x with
    | some spt => if passes p spt then [(spt, msg)] else []
    | none => []

/-- `p && p->get_uuid() != spt->get_uuid()`. -/
def passes : Option Peer → Peer → Bool
  | some p, spt => p.uuid != spt.uuid
  | none, _ => false

/-- `peer_list::broadcast`: the calls of `send`, in order. -/
def broadcast (list : PeerList) (msg : Message) (p : Option Peer) : List (Peer × Message) :=
  broadcastIf passes list msg p

/-- Each of the targets is sent one copy of a message, and nothing else is sent. -/
structure Sends (calls : List (Peer × Message)) (msg : Message) (targets : Peer → Prop) :
    Prop where
  copies : ∀ call ∈ calls, call.2 = msg
  once : ∀ spt, targets spt → (calls.map Prod.fst).count spt = 1
  only : ∀ call ∈ calls, targets call.1

theorem broadcastIf_eq_map (passes : Option Peer → Peer → Bool) (list : PeerList)
    (msg : Message) (p : Option Peer) :
    broadcastIf passes list msg p = (list.live.filter (passes p)).map fun spt => (spt, msg) := by
  rw [broadcastIf, live]
  induction list.entries with
  | nil => rfl
  | cons x entries ih =>
      rw [List.flatMap_cons, ih]
      cases x with
      | none => rfl
      | some spt =>
          rw [List.reduceOption_cons_of_some, List.filter_cons]
          by_cases pass : passes p spt = true
          · simp [pass]
          · simp [pass]

/-- A broadcast spares at least its origin. -/
theorem length_broadcast_lt {list : PeerList} {p : Peer} (registered : p ∈ list.live)
    (msg : Message) : (list.broadcast msg (some p)).length < list.live.length := by
  rw [broadcast, broadcastIf_eq_map, List.length_map]
  apply List.length_filter_lt_length_iff_exists.mpr
  exact ⟨p, registered, by simp [passes]⟩

/-- A broadcast reaches its targets exactly if they are the live peers that pass the test. -/
theorem sends_broadcastIf_iff {passes : Option Peer → Peer → Bool} {list : PeerList}
    {msg : Message} {p : Option Peer} {targets : Peer → Prop}
    (alive : ∀ spt, targets spt → spt ∈ list.live) :
    Sends (broadcastIf passes list msg p) msg targets ↔
      ∀ spt ∈ list.live, (passes p spt = true ↔ targets spt) := by
  have peersEq : (broadcastIf passes list msg p).map Prod.fst =
      list.live.filter (passes p) := by
    rw [broadcastIf_eq_map, List.map_map]
    exact List.map_id _
  constructor
  · rintro ⟨_, once, only⟩ spt member
    constructor
    · intro pass
      have called : (spt, msg) ∈ broadcastIf passes list msg p := by
        rw [broadcastIf_eq_map]
        exact List.mem_map.mpr ⟨spt, List.mem_filter.mpr ⟨member, pass⟩, rfl⟩
      exact only (spt, msg) called
    · intro target
      have counted := once spt target
      rw [peersEq] at counted
      have called : spt ∈ list.live.filter (passes p) :=
        List.count_pos_iff.mp (by omega)
      exact (List.mem_filter.mp called).2
  · intro agree
    constructor
    · intro call member
      rw [broadcastIf_eq_map] at member
      rcases List.mem_map.mp member with ⟨spt, _, rfl⟩
      rfl
    · intro spt target
      rw [peersEq]
      apply List.count_eq_one_of_mem (list.distinct.filter _)
      exact List.mem_filter.mpr ⟨alive spt target, (agree spt (alive spt target)).mpr target⟩
    · intro call member
      rw [broadcastIf_eq_map] at member
      rcases List.mem_map.mp member with ⟨spt, passed, rfl⟩
      rcases List.mem_filter.mp passed with ⟨member, pass⟩
      exact (agree spt member).mp pass

/-- The live peers that `broadcast` should reach: all of them but the origin. -/
def Others (list : PeerList) (p : Option Peer) (spt : Peer) : Prop :=
  spt ∈ list.live ∧ p ≠ some spt

/-- With an origin, the others are reached if none of them has its `uuid_`. -/
theorem sends_broadcast_some_iff (list : PeerList) (msg : Message) (p : Peer) :
    Sends (list.broadcast msg (some p)) msg (list.Others (some p)) ↔
      ∀ spt ∈ list.live, spt ≠ p → spt.uuid ≠ p.uuid := by
  rw [broadcast, sends_broadcastIf_iff fun spt target => target.1]
  refine forall₂_congr fun spt member => ?_
  constructor
  · intro agree other
    have target : list.Others (some p) spt :=
      ⟨member, fun same => other (Option.some.inj same).symm⟩
    exact (bne_iff_ne.mp (agree.mpr target)).symm
  · intro differs
    constructor
    · intro pass
      refine ⟨member, fun same => ?_⟩
      exact bne_iff_ne.mp pass (congrArg Peer.uuid (Option.some.inj same))
    · rintro ⟨_, other⟩
      apply bne_iff_ne.mpr
      exact (differs fun same => other (congrArg some same.symm)).symm

/-- Without an origin, nothing is sent. -/
theorem broadcast_none (list : PeerList) (msg : Message) : list.broadcast msg none = [] := by
  rw [broadcast, broadcastIf_eq_map, List.map_eq_nil_iff, List.filter_eq_nil_iff]
  exact fun _ _ => Bool.false_ne_true

theorem sends_nil_iff (msg : Message) (targets : Peer → Prop) :
    Sends [] msg targets ↔ ∀ spt, ¬ targets spt := by
  constructor
  · intro sends spt target
    exact absurd (sends.once spt target) (by simp)
  · intro noTarget
    exact ⟨List.forall_mem_nil _, fun spt target => absurd target (noTarget spt),
      List.forall_mem_nil _⟩

theorem sends_broadcast_none_iff (list : PeerList) (msg : Message) :
    Sends (list.broadcast msg none) msg (list.Others none) ↔ list.live = [] := by
  rw [broadcast_none, sends_nil_iff, List.eq_nil_iff_forall_not_mem]
  simp [Others]

/-! ## The copy under `___sunum` -/

/-- `!p || p->get_uuid() != spt->get_uuid()`. -/
def sunumPasses : Option Peer → Peer → Bool
  | some p, spt => p.uuid != spt.uuid
  | none, _ => true

/-- `peer_list::broadcast` of the copy. -/
def sunumBroadcast (list : PeerList) (msg : Message) (p : Option Peer) :
    List (Peer × Message) :=
  broadcastIf sunumPasses list msg p

/-- Without an origin, the copy reaches every live peer. -/
theorem sends_sunumBroadcast_none (list : PeerList) (msg : Message) :
    Sends (list.sunumBroadcast msg none) msg (list.Others none) := by
  rw [sunumBroadcast, sends_broadcastIf_iff fun spt target => target.1]
  intro spt member
  have target : list.Others none spt := ⟨member, fun same => nomatch same⟩
  simp [sunumPasses, target]

end PeerList

end IotChain.P2P
