import Mathlib.Data.Sum.Basic

/-!
# Loops that may never leave

A loop body either goes round again from a new state or leaves with a result.
The bounded run keeps the state it has reached when its rounds are used up, so
that what a non-terminating loop has already done can still be stated.  Leaving
and running forever are then quantifications over the bound.
-/

namespace IotChain.Transition

universe u v

variable {σ : Type u} {ρ : Type v}

/-- One round of a loop: `inl` goes round again, `inr` leaves. -/
abbrev Body (σ : Type u) (ρ : Type v) := σ → σ ⊕ ρ

/-- Go round at most `n` times. -/
def iterate (body : Body σ ρ) : Nat → Body σ ρ
  | 0, state => .inl state
  | n + 1, state =>
      match body state with
      | .inl next => iterate body n next
      | .inr result => .inr result

@[simp]
theorem iterate_zero (body : Body σ ρ) (state : σ) :
    iterate body 0 state = .inl state :=
  rfl

theorem iterate_succ_of_inl {body : Body σ ρ} {state next : σ}
    (round : body state = .inl next) (n : Nat) :
    iterate body (n + 1) state = iterate body n next := by
  rw [iterate, round]

theorem iterate_succ_of_inr {body : Body σ ρ} {state : σ} {result : ρ}
    (round : body state = .inr result) (n : Nat) :
    iterate body (n + 1) state = .inr result := by
  rw [iterate, round]

/-- The loop started in `state` leaves with `result`. -/
def Exits (body : Body σ ρ) (state : σ) (result : ρ) : Prop :=
  ∃ n, iterate body n state = .inr result

/-- The loop started in `state` never leaves. -/
def Diverges (body : Body σ ρ) (state : σ) : Prop :=
  ∀ result, ¬ Exits body state result

/-- A finished run stays finished with more rounds. -/
theorem iterate_mono {body : Body σ ρ} {n m : Nat} {state : σ} {result : ρ}
    (run : iterate body n state = .inr result) (le : n ≤ m) :
    iterate body m state = .inr result := by
  induction n generalizing m state with
  | zero => simp at run
  | succ n ih =>
      obtain ⟨m, rfl⟩ : ∃ k, m = k + 1 := ⟨m - 1, by omega⟩
      cases round : body state with
      | inl next =>
          rw [iterate_succ_of_inl round] at run ⊢
          exact ih run (by omega)
      | inr left =>
          rw [iterate_succ_of_inr round] at run ⊢
          exact run

theorem Exits.unique {body : Body σ ρ} {state : σ} {first second : ρ}
    (left : Exits body state first) (right : Exits body state second) :
    first = second := by
  rcases left with ⟨n, leftRun⟩
  rcases right with ⟨m, rightRun⟩
  have leftMax := iterate_mono leftRun (Nat.le_max_left n m)
  have rightMax := iterate_mono rightRun (Nat.le_max_right n m)
  exact Sum.inr.inj (leftMax.symm.trans rightMax)

/-- Going round once does not change how the loop ends. -/
theorem exits_iff_of_inl {body : Body σ ρ} {state next : σ}
    (round : body state = .inl next) (result : ρ) :
    Exits body state result ↔ Exits body next result := by
  constructor
  · rintro ⟨n, run⟩
    cases n with
    | zero => simp at run
    | succ n => exact ⟨n, by rwa [iterate_succ_of_inl round] at run⟩
  · rintro ⟨n, run⟩
    exact ⟨n + 1, by rwa [iterate_succ_of_inl round]⟩

theorem exits_of_inr {body : Body σ ρ} {state : σ} {result : ρ}
    (round : body state = .inr result) : Exits body state result :=
  ⟨1, iterate_succ_of_inr round 0⟩

theorem exits_iff_of_inr {body : Body σ ρ} {state : σ} {left : ρ}
    (round : body state = .inr left) (result : ρ) :
    Exits body state result ↔ left = result :=
  ⟨fun run => (exits_of_inr round).unique run,
    fun equal => equal ▸ exits_of_inr round⟩

/-- A run that leaves does so in the round that starts in the last state reached. -/
theorem iterate_eq_inr_iff {body : Body σ ρ} {n : Nat} {state : σ} {result : ρ} :
    iterate body n state = .inr result ↔
      ∃ k < n, ∃ last, iterate body k state = .inl last ∧ body last = .inr result := by
  induction n generalizing state with
  | zero => simp
  | succ n ih =>
      cases round : body state with
      | inl next =>
          rw [iterate_succ_of_inl round, ih]
          constructor
          · rintro ⟨k, lt, last, reached, leaves⟩
            exact ⟨k + 1, by omega, last, by rwa [iterate_succ_of_inl round], leaves⟩
          · rintro ⟨k, lt, last, reached, leaves⟩
            cases k with
            | zero =>
                obtain rfl : state = last := Sum.inl.inj reached
                rw [round] at leaves
                cases leaves
            | succ k =>
                rw [iterate_succ_of_inl round] at reached
                exact ⟨k, by omega, last, reached, leaves⟩
      | inr left =>
          rw [iterate_succ_of_inr round]
          constructor
          · rintro equal
            exact ⟨0, by omega, state, rfl, round.trans equal⟩
          · rintro ⟨k, lt, last, reached, leaves⟩
            cases k with
            | zero =>
                obtain rfl : state = last := Sum.inl.inj reached
                exact round.symm.trans leaves
            | succ k =>
                rw [iterate_succ_of_inr round] at reached
                cases reached

/-- Two states with the same round lead to the same end. -/
theorem exits_congr {body : Body σ ρ} {first second : σ}
    (same : body first = body second) (result : ρ) :
    Exits body first result ↔ Exits body second result := by
  cases round : body second with
  | inl next =>
      rw [exits_iff_of_inl (same.trans round), exits_iff_of_inl round]
  | inr left =>
      rw [exits_iff_of_inr (same.trans round), exits_iff_of_inr round]

/-- A round that changes nothing repeats forever. -/
theorem diverges_of_fixed {body : Body σ ρ} {state : σ}
    (round : body state = .inl state) : Diverges body state := by
  rintro result ⟨n, run⟩
  induction n with
  | zero => simp at run
  | succ n ih => exact ih (by rwa [iterate_succ_of_inl round] at run)

/-- Invariant rule: what every round keeps holds of the state reached, and what
every leaving round gives holds of the result. -/
theorem iterate_invariant {body : Body σ ρ} (inv : σ → Prop) (post : ρ → Prop)
    (keeps : ∀ state, inv state → Sum.elim inv post (body state))
    (n : Nat) {state : σ} (start : inv state) :
    Sum.elim inv post (iterate body n state) := by
  induction n generalizing state with
  | zero => exact start
  | succ n ih =>
      have kept := keeps state start
      cases round : body state with
      | inl next =>
          rw [round] at kept
          rw [iterate_succ_of_inl round]
          exact ih kept
      | inr result =>
          rw [round] at kept
          rw [iterate_succ_of_inr round]
          exact kept

/-- The invariant rule for the result of a loop that leaves. -/
theorem Exits.of_invariant {body : Body σ ρ} (inv : σ → Prop) (post : ρ → Prop)
    (keeps : ∀ state, inv state → Sum.elim inv post (body state))
    {state : σ} (start : inv state) {result : ρ}
    (run : Exits body state result) : post result := by
  rcases run with ⟨n, run⟩
  have kept := iterate_invariant inv post keeps n start
  rwa [run] at kept

/-! ## States reached -/

/-- The loop started in `state` comes round to `reached`. -/
def Reaches (body : Body σ ρ) (state reached : σ) : Prop :=
  ∃ n, iterate body n state = .inl reached

theorem Reaches.refl (body : Body σ ρ) (state : σ) : Reaches body state state :=
  ⟨0, rfl⟩

theorem Reaches.single {body : Body σ ρ} {state next : σ}
    (round : body state = .inl next) : Reaches body state next :=
  ⟨1, iterate_succ_of_inl round 0⟩

/-- The rounds after a state is reached are the rounds of the loop started there. -/
theorem iterate_add {body : Body σ ρ} {n : Nat} {state reached : σ}
    (run : iterate body n state = .inl reached) (m : Nat) :
    iterate body (n + m) state = iterate body m reached := by
  induction n generalizing state with
  | zero =>
      cases run
      rw [Nat.zero_add]
  | succ n ih =>
      cases round : body state with
      | inl next =>
          rw [iterate_succ_of_inl round] at run
          rw [Nat.add_right_comm, iterate_succ_of_inl round, ih run]
      | inr result =>
          rw [iterate_succ_of_inr round] at run
          cases run

theorem Reaches.trans {body : Body σ ρ} {state middle last : σ}
    (first : Reaches body state middle) (second : Reaches body middle last) :
    Reaches body state last := by
  rcases first with ⟨n, first⟩
  rcases second with ⟨m, second⟩
  exact ⟨n + m, by rw [iterate_add first, second]⟩

/-- A loop ends as it does from a state that it comes round to. -/
theorem Reaches.exits_iff {body : Body σ ρ} {state reached : σ}
    (run : Reaches body state reached) (result : ρ) :
    Exits body state result ↔ Exits body reached result := by
  rcases run with ⟨n, run⟩
  constructor
  · rintro ⟨m, left⟩
    have later := iterate_mono left (Nat.le_add_left m n)
    exact ⟨m, by rwa [iterate_add run] at later⟩
  · rintro ⟨m, left⟩
    exact ⟨n + m, by rwa [iterate_add run]⟩

/-- Of two states that are reached, one is reached from the other. -/
theorem Reaches.linear {body : Body σ ρ} {state first second : σ}
    (left : Reaches body state first) (right : Reaches body state second) :
    Reaches body first second ∨ Reaches body second first := by
  rcases left with ⟨n, left⟩
  rcases right with ⟨m, right⟩
  rcases Nat.le_total n m with le | le
  · obtain ⟨k, rfl⟩ := Nat.exists_eq_add_of_le le
    rw [iterate_add left] at right
    exact .inl ⟨k, right⟩
  · obtain ⟨k, rfl⟩ := Nat.exists_eq_add_of_le le
    rw [iterate_add right] at left
    exact .inr ⟨k, left⟩

/-- A round that changes nothing reaches nothing else. -/
theorem Reaches.eq_of_fixed {body : Body σ ρ} {state reached : σ}
    (round : body state = .inl state) (run : Reaches body state reached) :
    reached = state := by
  rcases run with ⟨n, run⟩
  induction n with
  | zero => exact (Sum.inl.inj run).symm
  | succ n ih => exact ih (by rwa [iterate_succ_of_inl round] at run)

/-- The invariant rule for the states that a loop comes round to. -/
theorem Reaches.of_invariant {body : Body σ ρ} (inv : σ → Prop)
    (keeps : ∀ state next, inv state → body state = .inl next → inv next)
    {state reached : σ} (start : inv state) (run : Reaches body state reached) :
    inv reached := by
  rcases run with ⟨n, run⟩
  have keepsBoth (state : σ) (held : inv state) :
      Sum.elim inv (fun _ => True) (body state) := by
    cases round : body state with
    | inl next => exact keeps state next held round
    | inr result => trivial
  have kept := iterate_invariant inv _ keepsBoth n start
  rwa [run] at kept

/-- A loop whose rounds keep an invariant and lower a measure leaves. -/
theorem exits_of_measure {body : Body σ ρ} (inv : σ → Prop) (measure : σ → Nat)
    (lowers : ∀ state next, inv state → body state = .inl next →
      inv next ∧ measure next < measure state)
    {state : σ} (start : inv state) : ∃ result, Exits body state result := by
  induction size : measure state using Nat.strongRecOn generalizing state with
  | _ size ih =>
      cases round : body state with
      | inl next =>
          rcases lowers state next start round with ⟨kept, lower⟩
          obtain ⟨result, run⟩ := ih (measure next) (by omega) kept rfl
          exact ⟨result, (exits_iff_of_inl round result).mpr run⟩
      | inr result => exact ⟨result, exits_of_inr round⟩

/-- Such a loop has left when the measure is used up. -/
theorem iterate_of_measure {body : Body σ ρ} (inv : σ → Prop) (measure : σ → Nat)
    (lowers : ∀ state next, inv state → body state = .inl next →
      inv next ∧ measure next < measure state)
    {n : Nat} {state : σ} (start : inv state) (few : measure state < n) :
    ∃ result, iterate body n state = .inr result := by
  induction n generalizing state with
  | zero => exact absurd few (Nat.not_lt_zero _)
  | succ n ih =>
      cases round : body state with
      | inl next =>
          rcases lowers state next start round with ⟨kept, lower⟩
          rw [iterate_succ_of_inl round]
          exact ih kept (Nat.lt_of_lt_of_le lower (Nat.le_of_lt_succ few))
      | inr result => exact ⟨result, iterate_succ_of_inr round n⟩

end IotChain.Transition
