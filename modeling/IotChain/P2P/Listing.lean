import IotChain.P2P.Locking
import IotChain.Transition.Events
import Mathlib.Data.List.Nodup

/-!
# No live peer gets lost

Peers come and go while other threads go through the list, and `remove_peer` decides entry by
entry what it takes away.  An entry that was expired when the loop was at it stays expired, and
so a peer that is alive is on the list as often as it was added.
-/

namespace IotChain.P2P

open IotChain.Bytes IotChain.Transition

/-- The peer that an event constructs. -/
def LockEvent.made : LockEvent → Option Peer
  | .constructed p => some p
  | _ => none

/-- The peers that have been constructed. -/
def peersMade (events : List LockEvent) : List Peer := events.filterMap LockEvent.made

/-- No identifier has been used twice. -/
def DistinctUuids (events : List LockEvent) : Prop := ((peersMade events).map Peer.uuid).Nodup

theorem peersMade_concat (events : List LockEvent) (event : LockEvent) :
    peersMade (events ++ [event]) = peersMade events ++ event.made.toList := by
  rw [peersMade, List.filterMap_append]
  cases event <;> rfl

theorem mem_peersMade_concat {events : List LockEvent} {p : Peer} (known : p ∈ peersMade events)
    (event : LockEvent) : p ∈ peersMade (events ++ [event]) := by
  rw [peersMade_concat]
  exact List.mem_append_left _ known

theorem DistinctUuids.nodup {events : List LockEvent} (distinct : DistinctUuids events) :
    (peersMade events).Nodup := by
  have uuids : ((peersMade events).map Peer.uuid).Nodup := distinct
  exact uuids.of_map

theorem DistinctUuids.of_concat {events : List LockEvent} {event : LockEvent}
    (distinct : DistinctUuids (events ++ [event])) : DistinctUuids events := by
  rw [DistinctUuids, peersMade_concat, List.map_append] at distinct
  exact (List.nodup_append'.mp distinct).1

theorem DistinctUuids.new {events : List LockEvent} {p : Peer}
    (distinct : DistinctUuids (events ++ [.constructed p])) : p ∉ peersMade events := by
  have nodup := distinct.nodup
  rw [peersMade_concat] at nodup
  intro known
  exact (List.nodup_append'.mp nodup).2.2 known (List.mem_singleton.mpr rfl)

namespace Locking

/-- The peer has been destroyed. -/
structure Dead (events : List LockEvent) (s : Locking) (p : Peer) : Prop where
  made : p ∈ peersMade events
  gone : ¬ s.Alive p

/-- A loop goes through the list as it is, and takes away what has been destroyed. -/
structure Visits (events : List LockEvent) (s : Locking) (v : Visiting) : Prop where
  purpose : ∀ id, v.purpose = .remove id → ∃ q, s.Dead events q ∧ q.uuid = id
  whole : v.passed.map Prod.fst ++ v.rest = s.entries
  taken : ∀ p, (some p, true) ∈ v.passed → s.Dead events p

/-- What the events have left. -/
structure Listed (events : List LockEvent) (s : Locking) : Prop where
  known : ∀ p, s.Alive p → p ∈ peersMade events
  added : ∀ p, .added p ∈ events → p ∈ peersMade events
  entered : ∀ p, some p ∈ s.entries → p ∈ peersMade events
  ending : ∀ q ∈ s.ending, s.Dead events q.2
  loop : ∀ v ∈ s.loop, s.Visits events v
  listed : ∀ p, s.Alive p → s.entries.count (some p) = events.count (.added p)

/-! ## Who is alive -/

variable {events : List LockEvent} {event : LockEvent} {s next : Locking} {p : Peer}

/-- Taking the mutex starts a loop and changes nothing else. -/
theorem lock_eq_some {thread : Nat} {purpose : Purpose}
    (step : s.lock thread purpose = some next) :
    next = { s with loop := some (.begin thread purpose s.entries) } :=
  (Option.some.inj (Option.ite_none_right_eq_some.mp step).2).symm

theorem refs_of_update {refs : Peer → Nat} {q : Peer} {n : Nat} (ne : p ≠ q)
    (pos : 0 < Function.update refs q n p) : 0 < refs p := by
  rwa [Function.update_of_ne ne] at pos

/-- Only a constructor brings a peer to life. -/
theorem alive_of_react (step : react s event = some next) (alive : next.Alive p) :
    s.Alive p ∨ event = .constructed p := by
  cases event with
  | constructed q =>
      rcases Option.ite_none_right_eq_some.mp step with ⟨-, same⟩
      cases same
      by_cases itself : p = q
      · exact .inr (congrArg LockEvent.constructed itself.symm)
      · exact .inl (alive.imp_left (refs_of_update itself))
  | added q =>
      rcases Option.ite_none_right_eq_some.mp step with ⟨-, same⟩
      cases same
      exact .inl alive
  | shared q =>
      rcases Option.ite_none_right_eq_some.mp step with ⟨before, same⟩
      cases same
      by_cases itself : p = q
      · exact .inl (itself ▸ before)
      · exact .inl (alive.imp_left (refs_of_update itself))
  | released thread q =>
      rcases Option.ite_none_right_eq_some.mp step with ⟨⟨before, -⟩, same⟩
      cases same
      by_cases itself : p = q
      · exact .inl (.inl (itself ▸ before))
      · exact .inl (alive.imp_left (refs_of_update itself))
  | broadcasting thread | forEach thread =>
      obtain rfl := lock_eq_some step
      rcases alive with refs | looked
      · exact .inl (.inl refs)
      · cases looked
  | removing thread q =>
      obtain rfl := lock_eq_some (Option.ite_none_right_eq_some.mp step).2
      rcases alive with refs | looked
      · exact .inl (.inl refs)
      · cases looked
  | visited =>
      rcases Option.bind_eq_some_iff.mp step with ⟨v, runs, rest⟩
      rcases Option.bind_eq_some_iff.mp rest with ⟨behind, visits, same⟩
      cases same
      rcases alive with refs | looked
      · exact .inl (.inl refs)
      · rw [Visiting.visit] at visits
        split at visits
        · cases visits
          exact .inl (.inl (of_decide_eq_true (Option.filter_eq_some_iff.mp looked).2))
        · cases visits
  | left throws =>
      rcases Option.bind_eq_some_iff.mp step with ⟨v, runs, rest⟩
      rcases Option.bind_eq_some_iff.mp rest with ⟨q, held, rest⟩
      rcases Option.bind_eq_some_iff.mp rest with ⟨behind, leaves, same⟩
      cases same
      rcases alive with refs | looked
      · exact .inl (.inl refs)
      · simp only [Visiting.leave] at leaves
        split at leaves <;> cases leaves <;> cases looked
  | unlocked =>
      rcases Option.bind_eq_some_iff.mp step with ⟨v, runs, rest⟩
      rcases Option.ite_none_right_eq_some.mp rest with ⟨-, same⟩
      cases same
      rcases alive with refs | looked
      · exact .inl (.inl refs)
      · cases looked

/-! ## What stays -/

theorem Dead.react (dead : s.Dead events p) (distinct : DistinctUuids (events ++ [event]))
    (step : react s event = some next) : next.Dead (events ++ [event]) p where
  made := mem_peersMade_concat dead.made event
  gone := by
    intro alive
    rcases alive_of_react step alive with before | rfl
    · exact dead.gone before
    · exact distinct.new dead.made

theorem Visits.keep {v : Visiting} (visits : s.Visits events v)
    (distinct : DistinctUuids (events ++ [event])) (step : Locking.react s event = some next)
    (entries : next.entries = s.entries) : next.Visits (events ++ [event]) v where
  purpose id removes := by
    obtain ⟨q, dead, same⟩ := visits.purpose id removes
    exact ⟨q, dead.react distinct step, same⟩
  whole := visits.whole.trans entries.symm
  taken q member := (visits.taken q member).react distinct step

/-- A loop that has just begun. -/
theorem Visits.begin {thread : Nat} {purpose : Purpose}
    (removes : ∀ id, purpose = .remove id → ∃ q, s.Dead events q ∧ q.uuid = id) :
    s.Visits events (.begin thread purpose s.entries) where
  purpose := removes
  whole := rfl
  taken _ member := nomatch member

theorem count_concat_of_ne (other : ∀ q, event ≠ .added q) :
    (events ++ [event]).count (.added p) = events.count (.added p) := by
  have none : [event].count (.added p) = 0 := by
    apply List.count_eq_zero.mpr
    intro member
    exact other p (List.mem_singleton.mp member).symm
  rw [List.count_append, none, Nat.add_zero]

theorem Listed.known_react (listed : s.Listed events) (step : Locking.react s event = some next) :
    ∀ p, next.Alive p → p ∈ peersMade (events ++ [event]) := by
  intro p alive
  rcases alive_of_react step alive with before | rfl
  · exact mem_peersMade_concat (listed.known p before) event
  · rw [peersMade_concat]
    exact List.mem_append_right _ (List.mem_singleton.mpr rfl)

theorem Listed.added_react (listed : s.Listed events)
    (known : ∀ q, event = .added q → q ∈ peersMade events) :
    ∀ p, .added p ∈ events ++ [event] → p ∈ peersMade (events ++ [event]) := by
  intro p member
  apply mem_peersMade_concat
  rcases List.mem_append.mp member with before | itself
  · exact listed.added p before
  · exact known p (List.mem_singleton.mp itself).symm

/-- A peer that has just been constructed is not on the list. -/
theorem Listed.count_react (listed : s.Listed events)
    (distinct : DistinctUuids (events ++ [event])) (step : Locking.react s event = some next)
    (alive : next.Alive p) : s.entries.count (some p) = events.count (.added p) := by
  rcases alive_of_react step alive with before | rfl
  · exact listed.listed p before
  · rw [List.count_eq_zero.mpr fun member => distinct.new (listed.entered p member),
      List.count_eq_zero.mpr fun member => distinct.new (listed.added p member)]

/-- An event that leaves the list as it is. -/
theorem Listed.of_entries (listed : s.Listed events)
    (distinct : DistinctUuids (events ++ [event])) (step : Locking.react s event = some next)
    (other : ∀ q, event ≠ .added q) (entries : next.entries = s.entries)
    (ending : ∀ q ∈ next.ending, next.Dead (events ++ [event]) q.2)
    (loop : ∀ v ∈ next.loop, next.Visits (events ++ [event]) v) :
    next.Listed (events ++ [event]) where
  known := listed.known_react step
  added := listed.added_react fun q same => absurd same (other q)
  entered q member := mem_peersMade_concat (listed.entered q (entries ▸ member)) event
  ending := ending
  loop := loop
  listed q alive := by
    rw [entries, listed.count_react distinct step alive, count_concat_of_ne other]

theorem Listed.of_same (listed : s.Listed events) (distinct : DistinctUuids (events ++ [event]))
    (step : Locking.react s event = some next) (other : ∀ q, event ≠ .added q)
    (entries : next.entries = s.entries) (loop : next.loop = s.loop)
    (ending : ∀ q ∈ next.ending, q ∈ s.ending ∨ next.Dead (events ++ [event]) q.2) :
    next.Listed (events ++ [event]) := by
  apply listed.of_entries distinct step other entries
  · intro q member
    rcases ending q member with before | dead
    · exact (listed.ending q before).react distinct step
    · exact dead
  · intro v member
    exact (listed.loop v (loop ▸ member)).keep distinct step entries

/-! ## What a loop leaves -/

/-- What is not taken away is behind the loop as often as before. -/
theorem count_kept (passed : List (Option Peer × Bool)) (kept : (some p, true) ∉ passed) :
    ((passed.filter fun x => !x.2).map Prod.fst).count (some p) =
      (passed.map Prod.fst).count (some p) := by
  induction passed with
  | nil => rfl
  | cons x passed ih =>
      have behind := ih fun member => kept (List.mem_cons_of_mem x member)
      rcases x with ⟨entry, flag⟩
      cases flag with
      | false => simp [List.count_cons, behind]
      | true =>
          have other : entry ≠ some p := fun same => kept (same ▸ List.mem_cons_self)
          simp [behind, other]

theorem count_entries {v : Visiting} (kept : (some p, true) ∉ v.passed) :
    v.entries.count (some p) = (v.passed.map Prod.fst).count (some p) := by
  rw [Visiting.entries, List.count_append, count_kept v.passed kept, Nat.add_eq_left,
    List.count_eq_zero]
  intro member
  rcases List.mem_map.mp member with ⟨⟨entry, flag⟩, behind, same⟩
  cases flag with
  | false => cases same
  | true =>
      obtain rfl : entry = some p := same
      exact kept (List.mem_of_mem_drop behind)

theorem mem_of_entries {v : Visiting} (member : some p ∈ v.entries) :
    some p ∈ v.passed.map Prod.fst := by
  rcases List.mem_append.mp member with kept | behind
  · exact (List.filter_sublist.map Prod.fst).subset kept
  · rcases List.mem_map.mp behind with ⟨⟨entry, flag⟩, behind, same⟩
    cases flag with
    | false => cases same
    | true => exact List.mem_map.mpr ⟨_, List.mem_of_mem_drop behind, same⟩

/-! ## Events -/

theorem Listed.add {q : Peer} (listed : s.Listed events)
    (distinct : DistinctUuids (events ++ [.added q]))
    (step : Locking.react s (.added q) = some next) : next.Listed (events ++ [.added q]) := by
  have known := listed.known_react step
  rcases Option.ite_none_right_eq_some.mp step with ⟨⟨free, refs⟩, same⟩
  have made := mem_peersMade_concat (listed.known q (.inl refs)) (.added q)
  have ending : ∀ x ∈ next.ending, next.Dead (events ++ [.added q]) x.2 := by
    intro x member
    cases same
    exact (listed.ending x member).react distinct step
  have count {p : Peer} (alive : next.Alive p) := listed.count_react distinct step alive
  cases same
  constructor
  · exact known
  · apply listed.added_react
    intro p same
    cases same
    exact listed.known q (.inl refs)
  · intro p member
    rcases List.mem_append.mp member with before | itself
    · exact mem_peersMade_concat (listed.entered p before) _
    · cases List.mem_singleton.mp itself
      exact made
  · exact ending
  · intro v member
    rw [Option.isNone_iff_eq_none.mp free] at member
    cases member
  · intro p alive
    rw [List.count_append, List.count_append, count alive]
    by_cases itself : p = q
    · subst itself
      simp
    · simp [Ne.symm itself]

/-- A pointer goes that is not the last one, or its peer is destroyed. -/
theorem Listed.release {thread : Nat} {q : Peer} (listed : s.Listed events)
    (distinct : DistinctUuids (events ++ [.released thread q]))
    (step : Locking.react s (.released thread q) = some next) :
    next.Listed (events ++ [.released thread q]) := by
  have kept := step
  rcases Option.ite_none_right_eq_some.mp step with ⟨⟨before, -⟩, same⟩
  cases same
  have other : ∀ p, LockEvent.released thread q ≠ .added p := by
    intro p same
    cases same
  apply listed.of_same distinct kept other rfl rfl
  intro x member
  by_cases last : s.refs q = 1 ∧ s.spt ≠ some q
  · rw [if_pos last] at member
    rcases List.mem_append.mp member with waits | itself
    · exact .inl waits
    · cases List.mem_singleton.mp itself
      refine .inr ⟨mem_peersMade_concat (listed.known q (.inl before)) _, ?_⟩
      rintro (refs | looked)
      · simp [last.1] at refs
      · exact last.2 looked
  · rw [if_neg last] at member
    exact .inl member

/-- A loop begins. -/
theorem Listed.lock {thread : Nat} {purpose : Purpose} (listed : s.Listed events)
    (distinct : DistinctUuids (events ++ [event]))
    (step : Locking.react s event = some next) (other : ∀ q, event ≠ .added q)
    (locks : next = { s with
      ending := next.ending, loop := some (.begin thread purpose s.entries) })
    (ending : next.ending ⊆ s.ending)
    (removes : ∀ id, purpose = .remove id → ∃ q, s.Dead events q ∧ q.uuid = id) :
    next.Listed (events ++ [event]) := by
  have entries : next.entries = s.entries := by rw [locks]
  have loop : next.loop = some (.begin thread purpose s.entries) := by rw [locks]
  apply listed.of_entries distinct step other entries
  · intro x member
    exact (listed.ending x (ending member)).react distinct step
  · intro v member
    obtain rfl : Visiting.begin thread purpose s.entries = v := Option.some.inj (loop ▸ member)
    exact (Visits.begin removes).keep distinct step entries

/-- What `lock()` does not find is expired, and an identifier names one peer. -/
theorem Listed.dead_of_removes {v : Visiting} (listed : s.Listed events)
    (distinct : DistinctUuids events) (visits : s.Visits events v) (loop : s.loop = some v)
    (free : v.spt = none) (member : some p ∈ s.entries)
    (removes : v.purpose.removes ((some p).filter fun q => 0 < s.refs q) = true) :
    s.Dead events p := by
  have made := listed.entered p member
  by_cases refs : 0 < s.refs p
  · have found : (some p).filter (fun q => decide (0 < s.refs q)) = some p := by
      simp [Option.filter, refs]
    rw [found] at removes
    cases purpose : v.purpose with
    | broadcast | forEach =>
        rw [purpose] at removes
        cases removes
    | remove id =>
        rw [purpose] at removes
        obtain ⟨q, dead, uuid⟩ := visits.purpose id purpose
        have uuids : p.uuid = q.uuid := (eq_of_beq removes).trans uuid.symm
        obtain rfl := List.inj_on_of_nodup_map distinct made dead.made uuids
        exact dead
  · refine ⟨made, ?_⟩
    rintro (alive | looked)
    · exact refs alive
    · rw [spt, loop] at looked
      cases free.symm.trans looked

/-- The loop comes to an entry. -/
theorem Listed.visit (listed : s.Listed events) (distinct : DistinctUuids (events ++ [.visited]))
    (step : Locking.react s .visited = some next) : next.Listed (events ++ [.visited]) := by
  have kept := step
  rcases Option.bind_eq_some_iff.mp step with ⟨v, runs, rest⟩
  rcases Option.bind_eq_some_iff.mp rest with ⟨behind, visited, same⟩
  have loop := (running_eq_some_iff.mp runs).1
  have visits := listed.loop v loop
  cases same
  apply listed.of_entries distinct kept ?_ rfl
  · intro x member
    exact (listed.ending x member).react distinct kept
  · intro w member
    obtain rfl : behind = w := Option.some.inj member
    have old := visits.keep distinct kept rfl
    have whole := visits.whole
    rw [Visiting.visit] at visited
    split at visited
    next x rest free entries =>
      cases visited
      rw [entries] at whole
      refine ⟨old.purpose, ?_, ?_⟩
      · simpa using whole
      · intro p member
        rcases List.mem_append.mp member with earlier | itself
        · exact old.taken p earlier
        · obtain ⟨rfl, removes⟩ := Prod.mk.inj (List.mem_singleton.mp itself)
          have entered : some p ∈ s.entries := by
            rw [← whole]
            exact List.mem_append_right _ List.mem_cons_self
          exact (listed.dead_of_removes distinct.of_concat visits loop free entered
            removes.symm).react distinct kept
    next => cases visited
  · intro p same
    cases same

/-- The body of a loop ends: the loop goes on, or it skips what is left. -/
theorem leave_cases {throws : Bool} {v behind : Visiting} (leaves : v.leave throws = some behind) :
    behind = { v with spt := none } ∨
      behind = { v with
        passed := v.passed ++ v.rest.map fun x => (x, false)
        rest := []
        spt := none } := by
  simp only [Visiting.leave] at leaves
  split at leaves
  · exact .inl (Option.some.inj leaves).symm
  · cases leaves
  · exact .inr (Option.some.inj leaves).symm

/-- The loop leaves an entry. -/
theorem Listed.leave {throws : Bool} (listed : s.Listed events)
    (distinct : DistinctUuids (events ++ [.left throws]))
    (step : Locking.react s (.left throws) = some next) :
    next.Listed (events ++ [.left throws]) := by
  have kept := step
  rcases Option.bind_eq_some_iff.mp step with ⟨v, runs, rest⟩
  rcases Option.bind_eq_some_iff.mp rest with ⟨q, held, rest⟩
  rcases Option.bind_eq_some_iff.mp rest with ⟨behind, leaves, same⟩
  have loop := (running_eq_some_iff.mp runs).1
  have alive : s.Alive q := by
    refine .inr ?_
    rw [spt, loop]
    exact held
  cases same
  apply listed.of_entries distinct kept ?_ rfl
  · intro x member
    by_cases last : s.refs q = 0
    · have member : x ∈ s.ending ++ [(v.thread, q)] := by simpa [last] using member
      rcases List.mem_append.mp member with before | itself
      · exact (listed.ending x before).react distinct kept
      · cases List.mem_singleton.mp itself
        refine ⟨mem_peersMade_concat (listed.known q alive) _, ?_⟩
        rintro (refs | looked)
        · exact absurd last refs.ne'
        · rcases leave_cases leaves with rfl | rfl
          · cases looked
          · cases looked
    · have member : x ∈ s.ending := by simpa [last] using member
      exact (listed.ending x member).react distinct kept
  · intro w member
    obtain rfl : behind = w := Option.some.inj member
    have old := (listed.loop v loop).keep distinct kept rfl
    rcases leave_cases leaves with rfl | rfl
    · exact ⟨old.purpose, old.whole, old.taken⟩
    · refine ⟨old.purpose, ?_, ?_⟩
      · have whole := old.whole
        simpa [Function.comp_def] using whole
      · intro p member
        rcases List.mem_append.mp member with earlier | skipped
        · exact old.taken p earlier
        · rcases List.mem_map.mp skipped with ⟨x, -, same⟩
          cases same
  · intro p same
    cases same

/-- The list is what the loop leaves. -/
theorem Listed.unlock (listed : s.Listed events)
    (distinct : DistinctUuids (events ++ [.unlocked]))
    (step : Locking.react s .unlocked = some next) : next.Listed (events ++ [.unlocked]) := by
  have known := listed.known_react step
  have kept := step
  have count {p : Peer} (alive : next.Alive p) := listed.count_react distinct step alive
  rcases Option.bind_eq_some_iff.mp step with ⟨v, runs, rest⟩
  rcases Option.ite_none_right_eq_some.mp rest with ⟨⟨done, -⟩, same⟩
  have visits := listed.loop v (running_eq_some_iff.mp runs).1
  have whole : v.passed.map Prod.fst = s.entries := by
    have whole := visits.whole
    rwa [List.isEmpty_iff.mp done, List.append_nil] at whole
  cases same
  constructor
  · exact known
  · apply listed.added_react
    intro p same
    cases same
  · intro p member
    have entered := mem_of_entries member
    rw [whole] at entered
    exact mem_peersMade_concat (listed.entered p entered) _
  · intro x member
    exact (listed.ending x member).react distinct kept
  · intro w member
    cases member
  · intro p alive
    have left : (some p, true) ∉ v.passed := by
      intro member
      exact ((visits.taken p member).react distinct kept).gone alive
    have others : (events ++ [LockEvent.unlocked]).count (.added p) = events.count (.added p) := by
      apply count_concat_of_ne
      intro q same
      cases same
    rw [others, ← count alive, ← whole]
    exact count_entries left

/-! ## Every run -/

theorem Listed.react (listed : s.Listed events) (distinct : DistinctUuids (events ++ [event]))
    (step : Locking.react s event = some next) : next.Listed (events ++ [event]) := by
  have kept := step
  cases event with
  | constructed p | shared p =>
      rcases Option.ite_none_right_eq_some.mp step with ⟨-, same⟩
      cases same
      apply listed.of_same distinct kept ?_ rfl rfl fun _ waits => .inl waits
      intro q same
      cases same
  | added p => exact listed.add distinct step
  | released thread p => exact listed.release distinct step
  | broadcasting thread | forEach thread =>
      obtain rfl := lock_eq_some step
      apply listed.lock distinct kept ?_ rfl (List.Subset.refl s.ending)
      · intro id same
        cases same
      · intro q same
        cases same
  | removing thread p =>
      rcases Option.ite_none_right_eq_some.mp step with ⟨waits, locks⟩
      obtain rfl := lock_eq_some locks
      apply listed.lock distinct kept ?_ rfl List.erase_subset
      · intro id same
        cases same
        exact ⟨p, listed.ending _ waits, rfl⟩
      · intro q same
        cases same
  | visited => exact listed.visit distinct step
  | left throws => exact listed.leave distinct step
  | unlocked => exact listed.unlock distinct step

/-- Whatever the threads do, a peer that is alive is on the list as often as it was added, and
a loop comes to every entry of the list once. -/
theorem listed_of_replay {events : List LockEvent} {s : Locking}
    (distinct : DistinctUuids events)
    (run : replay Locking.react (quiet [] fun _ => 0) events = some s) :
    (∀ p, s.Alive p → s.entries.count (some p) = events.count (.added p)) ∧
      ∀ v ∈ s.loop, v.passed.map Prod.fst ++ v.rest = s.entries := by
  have listed : DistinctUuids events → s.Listed events := by
    apply replay_history (fun events s => DistinctUuids events → s.Listed events) _ _ run
    · intro events s next event before step distinct
      exact (before distinct.of_concat).react distinct step
    · intro _
      constructor
      · rintro p (refs | looked)
        · exact absurd refs (Nat.lt_irrefl 0)
        · cases looked
      all_goals simp [quiet, Alive, spt]
  refine ⟨(listed distinct).listed, ?_⟩
  intro v member
  exact ((listed distinct).loop v member).whole

namespace SampleRun

/-- A second peer, with another uuid. -/
def other : Peer := ⟨2, List.Vector.replicate 16 2⟩

/-- The connection of the other peer ends while a broadcast is at the first one. -/
def closing : List LockEvent :=
  [.constructed peer, .added peer, .constructed other, .added other,
    .broadcasting 1, .visited, .released 2 other, .left false, .visited, .unlocked,
    .removing 2 other, .visited, .left false, .visited, .unlocked]

/-- `remove_if` has erased nothing. -/
def closed : Locking :=
  quiet [some peer, some other]
    (Function.update (Function.update (Function.update (fun _ => 0) peer 1) other 1) other 0)

end SampleRun

theorem listed_of_replay_closing :
    SampleRun.closed.entries.count (some SampleRun.peer) =
      SampleRun.closing.count (.added SampleRun.peer) := by
  have distinct : ((peersMade SampleRun.closing).map Peer.uuid).Nodup := by decide
  have run : replay Locking.react (quiet [] fun _ => 0) SampleRun.closing =
      some SampleRun.closed := by rfl
  exact (listed_of_replay distinct run).1 SampleRun.peer (.inl (by decide))

end Locking

end IotChain.P2P
