import Mathlib.Data.List.Basic

/-!
# Systems that react to events

Some events cannot occur in some states: no operation completes that was not started.
A run is a list of events each of which could occur where it did.
-/

namespace IotChain.Transition

universe u v

variable {σ : Type u} {ε : Type v}

/-- What an event does to a state; `none` if it cannot occur there. -/
abbrev Reaction (σ : Type u) (ε : Type v) := σ → ε → Option σ

/-- The state after some events; `none` if one of them could not occur. -/
def replay (react : Reaction σ ε) (start : σ) (events : List ε) : Option σ :=
  events.foldlM react start

@[simp]
theorem replay_nil (react : Reaction σ ε) (start : σ) : replay react start [] = some start :=
  rfl

theorem replay_cons {react : Reaction σ ε} {start last : σ} {event : ε} {events : List ε} :
    replay react start (event :: events) = some last ↔
      ∃ next, react start event = some next ∧ replay react next events = some last := by
  simp only [replay, List.foldlM_cons, Option.bind_eq_bind]
  exact Option.bind_eq_some_iff

theorem replay_concat {react : Reaction σ ε} {start last : σ} {events : List ε} {event : ε} :
    replay react start (events ++ [event]) = some last ↔
      ∃ state, replay react start events = some state ∧ react state event = some last := by
  rw [replay, List.foldlM_append, Option.bind_eq_bind, Option.bind_eq_some_iff]
  apply exists_congr
  intro state
  rw [List.foldlM_cons, Option.bind_eq_bind, Option.bind_eq_some_iff]
  simp [replay]

/-- What every event keeps holds after every run. -/
theorem replay_invariant {react : Reaction σ ε} (inv : σ → Prop)
    (keeps : ∀ {state next event}, inv state → react state event = some next → inv next)
    {start last : σ} (holds : inv start) {events : List ε}
    (run : replay react start events = some last) : inv last := by
  induction events generalizing start with
  | nil =>
      cases run
      exact holds
  | cons event events ih =>
      rcases replay_cons.mp run with ⟨next, step, rest⟩
      exact ih (keeps holds step) rest

/-- What relates a state to the events behind it, and is handed on by each event, relates the
last state of a run to the whole run. -/
theorem replay_history {react : Reaction σ ε} (inv : List ε → σ → Prop)
    (keeps : ∀ {events state next event}, inv events state → react state event = some next →
      inv (events ++ [event]) next)
    {start last : σ} (holds : inv [] start) {events : List ε}
    (run : replay react start events = some last) : inv events last := by
  have further : ∀ before, inv before start → inv (before ++ events) last := by
    clear holds
    induction events generalizing start with
    | nil =>
        cases run
        intro before holds
        rwa [List.append_nil]
    | cons event events ih =>
        rcases replay_cons.mp run with ⟨next, step, rest⟩
        intro before holds
        rw [List.append_cons]
        exact ih rest _ (keeps holds step)
  exact further [] holds

/-- What every event raises by one counts the events. -/
theorem replay_count {react : Reaction σ ε} (count : σ → Nat)
    (raises : ∀ {state next event}, react state event = some next →
      count next = count state + 1)
    {start last : σ} {events : List ε} (run : replay react start events = some last) :
    count last = count start + events.length := by
  induction events generalizing start with
  | nil =>
      cases run
      rfl
  | cons event events ih =>
      rcases replay_cons.mp run with ⟨next, step, rest⟩
      rw [ih rest, raises step, List.length_cons]
      omega

/-! ## Calls that always take place -/

/-- The calls of a run with the states in front of them. -/
def trail (next : σ → ε → σ) (start : σ) : List ε → List (σ × ε)
  | [] => []
  | call :: calls => (start, call) :: trail next (next start call) calls

theorem forall_trail_cons {next : σ → ε → σ} {start : σ} {call : ε} {calls : List ε}
    {P : σ × ε → Prop} :
    (∀ p ∈ trail next start (call :: calls), P p) ↔
      P (start, call) ∧ ∀ p ∈ trail next (next start call) calls, P p := by
  rw [trail, List.forall_mem_cons]

/-- Two properties of calls hold along the same runs, if they are the same under an
invariant which the calls that have them keep. -/
theorem forall_trail_iff {next : σ → ε → σ} (inv : σ → Prop) {P Q : σ × ε → Prop}
    (same : ∀ {state} call, inv state → (P (state, call) ↔ Q (state, call)))
    (keeps : ∀ {state call}, inv state → P (state, call) → inv (next state call))
    {start : σ} (holds : inv start) (calls : List ε) :
    (∀ p ∈ trail next start calls, P p) ↔ ∀ p ∈ trail next start calls, Q p := by
  induction calls generalizing start with
  | nil => exact ⟨fun _ => List.forall_mem_nil _, fun _ => List.forall_mem_nil _⟩
  | cons call calls ih =>
      rw [forall_trail_cons, forall_trail_cons, ← same call holds]
      apply and_congr_right
      intro first
      exact ih (keeps holds first)

end IotChain.Transition
