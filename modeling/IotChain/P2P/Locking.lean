import IotChain.P2P.PeerList
import IotChain.Transition.Runs
import Mathlib.Data.List.Perm.Basic

/-!
# Who locks the list

`broadcast`, `for_each` and `remove_peer` go through the list under a mutex and hold a shared
pointer to each live peer while they look at it.  Whoever lets go of the last shared pointer
to a peer runs `~peer` and locks the mutex in `remove_peer`.  If that is the thread that goes
through the list, it holds the mutex already.
-/

namespace IotChain.P2P

open IotChain.Bytes IotChain.Transition

/-- What a thread goes through the list for. -/
inductive Purpose
  | broadcast
  | forEach
  | remove (id : ByteVec 16)
  deriving DecidableEq

/-- What the loop makes of an entry that has been looked at; only `remove_if` does something. -/
def Purpose.removes : Purpose → Option Peer → Bool
  | remove id => PeerList.removes id
  | _ => fun _ => false

/-- The thread that holds the mutex, and how far it has come. -/
structure Visiting where
  thread : Nat
  purpose : Purpose
  /-- The entries behind, with what is to be made of them. -/
  passed : List (Option Peer × Bool)
  rest : List (Option Peer)
  /-- What `lock()` has returned for the present entry. -/
  spt : Option Peer
  deriving DecidableEq

/-- The list, its mutex and the shared pointers to peers. -/
structure Locking where
  entries : List (Option Peer)
  /-- The shared pointers besides the one of the loop. -/
  refs : Peer → Nat
  loop : Option Visiting
  /-- The threads that have come to `remove_peer` in the destructor of a peer. -/
  ending : List (Nat × Peer)

/-- A step of a thread that works on the list or on a shared pointer. -/
inductive LockEvent
  | constructed (p : Peer)
  | added (p : Peer)
  /-- A shared pointer is copied. -/
  | shared (p : Peer)
  /-- A thread lets go of a shared pointer. -/
  | released (thread : Nat) (p : Peer)
  | broadcasting (thread : Nat)
  | forEach (thread : Nat)
  /-- `remove_peer` has got the mutex. -/
  | removing (thread : Nat) (p : Peer)
  /-- The loop comes to the next entry. -/
  | visited
  /-- The body of the loop ends, and its shared pointer with it. -/
  | left (throws : Bool)
  | unlocked
  deriving DecidableEq

namespace Visiting

/-- The loop of a thread that has just locked the mutex. -/
def begin (thread : Nat) (purpose : Purpose) (entries : List (Option Peer)) : Visiting :=
  ⟨thread, purpose, [], entries, none⟩

/-- `if (auto spt = x.lock())` -/
def visit (refs : Peer → Nat) (v : Visiting) : Option Visiting :=
  match v.spt, v.rest with
  | none, x :: rest =>
      let found := x.filter fun p => 0 < refs p
      some { v with
        passed := v.passed ++ [(x, v.purpose.removes found)]
        rest := rest
        spt := found }
  | _, _ => none

/-- What is left of the loop behind its body.  An exception ends the loop; the predicate of
`remove_if` does not throw. -/
def leave (throws : Bool) (v : Visiting) : Option Visiting :=
  match throws, v.purpose with
  | false, _ => some { v with spt := none }
  | true, .remove _ => none
  | true, _ =>
      some { v with
        passed := v.passed ++ v.rest.map fun x => (x, false)
        rest := []
        spt := none }

/-- The list that the loop leaves, see `PeerList.removeIf`. -/
def entries (v : Visiting) : List (Option Peer) :=
  let kept := v.passed.filter fun x => !x.2
  kept.map Prod.fst ++ (v.passed.drop kept.length).map fun x => if x.2 then x.1 else none

end Visiting

namespace Locking

/-- Nobody holds the mutex or waits for it. -/
def quiet (entries : List (Option Peer)) (refs : Peer → Nat) : Locking := ⟨entries, refs, none, []⟩

/-- The shared pointer of the loop. -/
def spt (s : Locking) : Option Peer := s.loop.bind Visiting.spt

/-- Some shared pointer holds the peer. -/
def Alive (s : Locking) (p : Peer) : Prop := 0 < s.refs p ∨ s.spt = some p

instance (s : Locking) (p : Peer) : Decidable (s.Alive p) := inferInstanceAs (Decidable (_ ∨ _))

/-- The thread that holds the mutex. -/
def holder (s : Locking) : Option Nat := s.loop.map Visiting.thread

/-- The threads that wait for the mutex. -/
def waiting (s : Locking) : List Nat := s.ending.map Prod.fst

/-- The loop of a thread that does not wait. -/
def running (s : Locking) : Option Visiting := s.loop.filter fun v => v.thread ∉ s.waiting

/-- A thread takes the mutex. -/
def lock (s : Locking) (thread : Nat) (purpose : Purpose) : Option Locking :=
  if s.loop.isNone ∧ thread ∉ s.waiting then
    some { s with loop := some (.begin thread purpose s.entries) }
  else
    none

/-- A step that needs the mutex is taken when no other thread holds it. -/
def react : Reaction Locking LockEvent := fun s event =>
  match event with
  | .constructed p =>
      if ¬ s.Alive p ∧ some p ∉ s.entries then
        some { s with refs := Function.update s.refs p 1 }
      else
        none
  | .added p =>
      if s.loop.isNone ∧ 0 < s.refs p then
        some { s with entries := s.entries ++ [some p] }
      else
        none
  | .shared p =>
      if s.Alive p then some { s with refs := Function.update s.refs p (s.refs p + 1) } else none
  | .released thread p =>
      -- The thread of the loop only copies and drops pointers to the peer that it looks at.
      if 0 < s.refs p ∧ thread ∉ s.waiting ∧
          (∀ v ∈ s.loop, v.thread = thread → v.spt = some p) then
        some { s with
          refs := Function.update s.refs p (s.refs p - 1)
          ending := if s.refs p = 1 ∧ s.spt ≠ some p then s.ending ++ [(thread, p)]
            else s.ending }
      else
        none
  | .broadcasting thread => s.lock thread .broadcast
  | .forEach thread => s.lock thread .forEach
  | .removing thread p =>
      if (thread, p) ∈ s.ending then
        { s with ending := s.ending.erase (thread, p) }.lock thread (.remove p.uuid)
      else
        none
  | .visited => do
      let v ← s.running
      let v ← v.visit s.refs
      return { s with loop := some v }
  | .left throws => do
      let v ← s.running
      let p ← v.spt
      let behind ← v.leave throws
      return { s with
        loop := some behind
        ending := if s.refs p = 0 then s.ending ++ [(v.thread, p)] else s.ending }
  | .unlocked => do
      let v ← s.running
      if v.rest.isEmpty ∧ v.spt.isNone then
        return { s with loop := none, entries := v.entries }
      else
        none

/-- A thread that holds the mutex has come to `remove_peer`. -/
def Reenters (s : Locking) : Prop := ∃ thread ∈ s.holder, thread ∈ s.waiting

/-- When a loop lets go of a peer, there is another shared pointer to it. -/
def KeepsPeer (t : Taken Locking LockEvent) : Prop :=
  ∀ throws p, t.event = .left throws → t.before.spt = some p → t.before.refs p ≠ 0

/-- No thread waits twice, or for what it holds. -/
structure Inv (s : Locking) : Prop where
  distinct : s.waiting.Nodup
  outside : ¬ s.Reenters

/-! ## Events -/

variable {s next : Locking}

theorem running_eq_some_iff {v : Visiting} :
    s.running = some v ↔ s.loop = some v ∧ v.thread ∉ s.waiting := by
  rw [running, Option.filter_eq_some_iff, decide_eq_true_iff]

theorem Inv.of_holder (inv : s.Inv) (holder : next.holder = s.holder)
    (ending : next.ending = s.ending) : next.Inv where
  distinct := by
    rw [waiting, ending]
    exact inv.distinct
  outside := by
    rw [Reenters, holder, waiting, ending]
    exact inv.outside

theorem Inv.of_unheld (distinct : next.waiting.Nodup) (free : next.loop = none) : next.Inv where
  distinct := distinct
  outside := by
    rintro ⟨thread, holds, -⟩
    rw [holder, free] at holds
    cases holds

/-- Whoever takes the mutex does not wait for it. -/
theorem Inv.lock {thread : Nat} {purpose : Purpose} (distinct : s.waiting.Nodup)
    (step : s.lock thread purpose = some next) : next.Inv := by
  rcases Option.ite_none_right_eq_some.mp step with ⟨⟨-, outside⟩, same⟩
  cases same
  refine ⟨distinct, ?_⟩
  rintro ⟨other, holds, waits⟩
  obtain rfl : thread = other := Option.some.inj holds
  exact outside waits

/-- A thread that waits is added to the others. -/
theorem distinct_append {ending : List (Nat × Peer)} {thread : Nat} {p : Peer}
    (distinct : (ending.map Prod.fst).Nodup) (outside : thread ∉ ending.map Prod.fst) :
    ((ending ++ [(thread, p)]).map Prod.fst).Nodup := by
  rw [List.map_append]
  exact List.nodup_append'.mpr ⟨distinct, List.nodup_singleton _, by simpa using outside⟩

/-- A thread that lets go of a shared pointer outside of the loop does not hold the mutex when
the peer is destroyed. -/
theorem Inv.released (inv : s.Inv) {thread : Nat} {p : Peer}
    (step : react s (.released thread p) = some next) : next.Inv := by
  rcases Option.ite_none_right_eq_some.mp step with ⟨⟨-, outside, own⟩, same⟩
  cases same
  by_cases last : s.refs p = 1 ∧ s.spt ≠ some p
  · refine ⟨?_, ?_⟩
    · rw [waiting, if_pos last]
      exact distinct_append inv.distinct outside
    · rintro ⟨other, holds, waits⟩
      rw [waiting, if_pos last, List.map_append, List.mem_append] at waits
      rcases waits with waits | itself
      · exact inv.outside ⟨other, holds, waits⟩
      · obtain rfl : other = thread := List.mem_singleton.mp itself
        rcases Option.map_eq_some_iff.mp holds with ⟨v, loop, same⟩
        apply last.2
        rw [spt, show s.loop = some v from loop]
        exact own v loop same
  · exact inv.of_holder rfl (if_neg last)

/-- A thread that gets the mutex for `remove_peer` does not wait any more. -/
theorem Inv.removing (inv : s.Inv) {thread : Nat} {p : Peer}
    (step : react s (.removing thread p) = some next) : next.Inv := by
  rcases Option.ite_none_right_eq_some.mp step with ⟨-, locks⟩
  refine Inv.lock ?_ locks
  exact inv.distinct.sublist (List.erase_sublist.map Prod.fst)

/-- The loop goes on for the same thread. -/
theorem holder_of_visited (step : react s .visited = some next) :
    next.holder = s.holder ∧ next.ending = s.ending := by
  rcases Option.bind_eq_some_iff.mp step with ⟨v, runs, rest⟩
  rcases Option.bind_eq_some_iff.mp rest with ⟨behind, visits, same⟩
  cases same
  have thread : behind.thread = v.thread := by
    rw [Visiting.visit] at visits
    split at visits
    · cases visits
      rfl
    · cases visits
  refine ⟨?_, rfl⟩
  rw [holder, holder, (running_eq_some_iff.mp runs).1]
  exact congrArg some thread

/-- Behind the body of a loop, its thread waits if it has let go of the last shared pointer. -/
theorem exists_of_left {throws : Bool} (step : react s (.left throws) = some next) :
    ∃ thread p, s.holder = some thread ∧ next.holder = some thread ∧ thread ∉ s.waiting ∧
      s.spt = some p ∧
        next.ending = if s.refs p = 0 then s.ending ++ [(thread, p)] else s.ending := by
  rcases Option.bind_eq_some_iff.mp step with ⟨v, runs, rest⟩
  rcases Option.bind_eq_some_iff.mp rest with ⟨p, held, rest⟩
  rcases Option.bind_eq_some_iff.mp rest with ⟨behind, leaves, same⟩
  cases same
  rcases running_eq_some_iff.mp runs with ⟨loop, outside⟩
  have thread : behind.thread = v.thread := by
    simp only [Visiting.leave] at leaves
    split at leaves <;> cases leaves <;> rfl
  refine ⟨v.thread, p, ?_, congrArg some thread, outside, ?_, rfl⟩
  · rw [holder, loop]
    rfl
  · rw [spt, loop]
    exact held

/-- Only the end of a body can make a thread wait for what it holds. -/
theorem Inv.react (inv : s.Inv) {event : LockEvent} (step : Locking.react s event = some next)
    (others : ∀ throws, event ≠ .left throws) : next.Inv := by
  cases event with
  | constructed p | added p | shared p =>
      rcases Option.ite_none_right_eq_some.mp step with ⟨-, same⟩
      cases same
      exact inv.of_holder rfl rfl
  | released thread p => exact inv.released step
  | broadcasting thread | forEach thread => exact Inv.lock inv.distinct step
  | removing thread p => exact inv.removing step
  | visited =>
      rcases holder_of_visited step with ⟨holder, ending⟩
      exact inv.of_holder holder ending
  | left throws => exact absurd rfl (others throws)
  | unlocked =>
      rcases Option.bind_eq_some_iff.mp step with ⟨v, -, rest⟩
      rcases Option.ite_none_right_eq_some.mp rest with ⟨-, same⟩
      cases same
      exact Inv.of_unheld inv.distinct rfl

/-- A step makes a thread wait for what it holds exactly if a loop lets go of the last shared
pointer to a peer. -/
theorem Inv.react_iff (inv : s.Inv) {event : LockEvent}
    (step : Locking.react s event = some next) :
    next.waiting.Nodup ∧ (¬ next.Reenters ↔ KeepsPeer ⟨s, event, next⟩) := by
  by_cases left : ∃ throws, event = .left throws
  · rcases left with ⟨throws, rfl⟩
    rcases exists_of_left step with ⟨thread, p, held, holds, outside, spt, ending⟩
    have keeps : KeepsPeer ⟨s, .left throws, next⟩ ↔ s.refs p ≠ 0 := by
      constructor
      · intro keeps
        exact keeps throws p rfl spt
      · intro others throws' q _ same
        obtain rfl : p = q := Option.some.inj (spt.symm.trans same)
        exact others
    rw [keeps]
    by_cases last : s.refs p = 0
    · rw [if_pos last] at ending
      have waits : next.waiting = (s.ending ++ [(thread, p)]).map Prod.fst :=
        congrArg (List.map Prod.fst) ending
      constructor
      · rw [waits]
        exact distinct_append inv.distinct outside
      · apply iff_of_false _ (not_not_intro last)
        rw [not_not]
        refine ⟨thread, holds, ?_⟩
        rw [waits, List.map_append]
        exact List.mem_append_right _ (List.mem_singleton_self thread)
    · rw [if_neg last] at ending
      have kept := inv.of_holder (holds.trans held.symm) ending
      exact ⟨kept.distinct, iff_of_true kept.outside last⟩
  · have kept := inv.react step fun throws same => left ⟨throws, same⟩
    refine ⟨kept.distinct, iff_of_true kept.outside ?_⟩
    intro throws p same
    exact absurd ⟨throws, same⟩ left

/-! ## Every run -/

/-- From any list and any shared pointers, no thread comes to `remove_peer` while it holds the
mutex exactly if no loop lets go of the last shared pointer to a peer. -/
theorem never_reenters_iff {entries : List (Option Peer)} {refs : Peer → Nat}
    {steps : List (Taken Locking LockEvent)} {last : Locking}
    (run : Runs Locking.react.Steps (quiet entries refs) steps last) :
    (∀ t ∈ steps, ¬ t.after.Reenters) ↔ ∀ t ∈ steps, KeepsPeer t := by
  refine run.forall_iff Inv ?_ ?_ (Inv.of_unheld List.nodup_nil rfl)
  · intro s event next step inv
    exact (inv.react_iff step).2
  · intro s event next step inv outside
    exact ⟨(inv.react_iff step).1, outside⟩

namespace SampleRun

/-- The peer of the samples. -/
def peer : Peer := ⟨1, List.Vector.replicate 16 1⟩

/-- One shared pointer to each peer. -/
def start : Locking := quiet [some peer] fun _ => 1

/-- A broadcast is at the peer, and the number of other shared pointers is this. -/
def visiting (refs : Nat) : Locking :=
  ⟨[some peer], Function.update (fun _ => 1) peer refs,
    some ⟨1, .broadcast, [(some peer, false)], [], some peer⟩, []⟩

/-- The other thread lets go of the peer while the broadcast is at it. -/
theorem run_released :
    replay Locking.react start [.broadcasting 1, .visited, .released 2 peer] =
      some (visiting 0) := by
  rfl

/-- The broadcast sends to the peer. -/
theorem run_shared :
    replay Locking.react start [.broadcasting 1, .visited, .shared peer] = some (visiting 2) := by
  rfl

end SampleRun

theorem never_reenters_iff_shared :
    ∃ steps, Runs Locking.react.Steps SampleRun.start steps (SampleRun.visiting 2) ∧
      ((∀ t ∈ steps, ¬ t.after.Reenters) ↔ ∀ t ∈ steps, KeepsPeer t) := by
  rcases Runs.of_replay SampleRun.run_shared with ⟨steps, run, -⟩
  exact ⟨steps, run, never_reenters_iff run⟩

/-- If the connection of a peer ends while a broadcast is at the peer, the broadcast destroys
it. -/
theorem never_reenters_fails :
    ¬ ∀ (entries : List (Option Peer)) (refs : Peer → Nat)
        (steps : List (Taken Locking LockEvent)) (last : Locking),
      Runs Locking.react.Steps (quiet entries refs) steps last →
        ∀ t ∈ steps, ¬ t.after.Reenters := by
  intro never
  let behind : Locking :=
    ⟨[some SampleRun.peer], Function.update (fun _ => 1) SampleRun.peer 0,
      some ⟨1, .broadcast, [(some SampleRun.peer, false)], [], none⟩, [(1, SampleRun.peer)]⟩
  have left : Locking.react.Steps (SampleRun.visiting 0) (.left false) behind := by rfl
  rcases Runs.of_replay SampleRun.run_released with ⟨steps, run, -⟩
  have outside := never _ _ _ _ (run.concat left) _ (List.mem_append_right _ List.mem_cons_self)
  exact outside ⟨1, rfl, List.mem_cons_self⟩

end Locking

end IotChain.P2P
