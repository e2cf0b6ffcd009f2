import IotChain.Transition.Events
import Mathlib.Algebra.BigOperators.Group.List.Basic
import Mathlib.Tactic.Ring

/-!
# Runs as lists of steps

A run is listed by its steps, each with the state in front of it, its event and the state
behind it.  What the steps have in common is carried to the run: what they keep, what they
add up to, and how they follow an abstract system or a ghost state.
-/

namespace IotChain.Transition

universe u v w

variable {σ : Type u} {ε : Type v} {γ : Type w}

/-- A step that was taken. -/
structure Taken (σ : Type u) (ε : Type v) where
  before : σ
  event : ε
  after : σ

/-- The steps lead from one state to another. -/
inductive Runs (step : σ → ε → σ → Prop) : σ → List (Taken σ ε) → σ → Prop
  | refl (state : σ) : Runs step state [] state
  | cons {state next last : σ} {event : ε} {steps : List (Taken σ ε)}
      (first : step state event next) (rest : Runs step next steps last) :
      Runs step state (⟨state, event, next⟩ :: steps) last

/-- The steps of a system that reacts to events. -/
def Reaction.Steps (react : Reaction σ ε) (state : σ) (event : ε) (next : σ) : Prop :=
  react state event = some next

namespace Runs

variable {step : σ → ε → σ → Prop} {start last : σ} {steps : List (Taken σ ε)}

/-- One more step at the end. -/
theorem concat {next : σ} {event : ε} (run : Runs step start steps last)
    (one : step last event next) : Runs step start (steps ++ [⟨last, event, next⟩]) next := by
  induction run with
  | refl state => exact .cons one (.refl next)
  | cons first rest ih => exact .cons first (ih one)

/-- The events that could occur are those of a run. -/
theorem of_replay {react : Reaction σ ε} {events : List ε}
    (run : replay react start events = some last) :
    ∃ steps, Runs react.Steps start steps last ∧ steps.map Taken.event = events := by
  induction events generalizing start with
  | nil =>
      cases run
      exact ⟨[], .refl _, rfl⟩
  | cons event events ih =>
      rcases replay_cons.mp run with ⟨next, first, rest⟩
      rcases ih rest with ⟨steps, run, same⟩
      exact ⟨_, .cons first run, congrArg (event :: ·) same⟩

/-- What every step keeps is the same at the end. -/
theorem same {α : Type*} (value : σ → α) {P : Taken σ ε → Prop}
    (keeps : ∀ {state event next}, step state event next → P ⟨state, event, next⟩ →
      value next = value state)
    (run : Runs step start steps last) (all : ∀ t ∈ steps, P t) :
    value last = value start := by
  induction run with
  | refl state => rfl
  | cons first rest ih =>
      rcases List.forall_mem_cons.mp all with ⟨here, others⟩
      rw [ih others, keeps first here]

/-- What the steps change adds up. -/
theorem total (value : σ → Int) (change : Taken σ ε → Int) {P : Taken σ ε → Prop}
    (changes : ∀ {state event next}, step state event next → P ⟨state, event, next⟩ →
      value next = value state + change ⟨state, event, next⟩)
    (run : Runs step start steps last) (all : ∀ t ∈ steps, P t) :
    value last = value start + (steps.map change).sum := by
  induction run with
  | refl state => simp
  | cons first rest ih =>
      rcases List.forall_mem_cons.mp all with ⟨here, others⟩
      rw [ih others, changes first here, List.map_cons, List.sum_cons]
      ring

/-- If an abstract system can do what is observed of each step, it can do what is observed
of the run. -/
theorem replays {κ : Type*} {react : Reaction γ κ} (view : σ → γ) (observe : Taken σ ε → κ)
    {P : Taken σ ε → Prop}
    (simulates : ∀ {state event next}, step state event next → P ⟨state, event, next⟩ →
      react (view state) (observe ⟨state, event, next⟩) = some (view next))
    (run : Runs step start steps last) (all : ∀ t ∈ steps, P t) :
    replay react (view start) (steps.map observe) = some (view last) := by
  induction run with
  | refl state => rfl
  | cons first rest ih =>
      rcases List.forall_mem_cons.mp all with ⟨here, others⟩
      rw [List.map_cons, replay_cons]
      exact ⟨_, simulates first here, ih others⟩

/-- What every step keeps holds all along a run. -/
theorem invariant (inv : σ → Prop)
    (keeps : ∀ {state event next}, step state event next → inv state → inv next)
    (run : Runs step start steps last) (holds : inv start) : inv last := by
  induction run with
  | refl state => exact holds
  | cons first rest ih => exact ih (keeps first holds)

/-- Two properties of steps hold along the same runs, if they are the same under an
invariant which the steps that have them keep. -/
theorem forall_iff (inv : σ → Prop) {P Q : Taken σ ε → Prop}
    (same : ∀ {state event next}, step state event next → inv state →
      (P ⟨state, event, next⟩ ↔ Q ⟨state, event, next⟩))
    (keeps : ∀ {state event next}, step state event next → inv state →
      P ⟨state, event, next⟩ → inv next)
    (run : Runs step start steps last) (holds : inv start) :
    (∀ t ∈ steps, P t) ↔ ∀ t ∈ steps, Q t := by
  induction run with
  | refl state => exact ⟨fun _ => List.forall_mem_nil _, fun _ => List.forall_mem_nil _⟩
  | cons first rest ih =>
      rw [List.forall_mem_cons, List.forall_mem_cons, ← same first holds]
      apply and_congr_right
      intro here
      exact ih (keeps first holds here)

/-- Under an invariant that ties the states to a ghost state, what is required of each step
leads to what is shown of it. -/
theorem ghost {update : γ → Taken σ ε → γ} (inv : σ → γ → Prop) {P Q : γ × Taken σ ε → Prop}
    (keeps : ∀ {state event next tag}, step state event next → inv state tag →
      P (tag, ⟨state, event, next⟩) →
        Q (tag, ⟨state, event, next⟩) ∧ inv next (update tag ⟨state, event, next⟩))
    (run : Runs step start steps last) {tag : γ} (holds : inv start tag)
    (all : ∀ p ∈ trail update tag steps, P p) : ∀ p ∈ trail update tag steps, Q p := by
  induction run generalizing tag with
  | refl state => exact List.forall_mem_nil _
  | cons first rest ih =>
      rw [forall_trail_cons] at all ⊢
      rcases keeps first holds all.1 with ⟨shown, next⟩
      exact ⟨shown, ih next all.2⟩

end Runs

end IotChain.Transition
