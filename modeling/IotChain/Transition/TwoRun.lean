import IotChain.Transition.Loop

/-!
# Two runs of one program

Relational rules for a computation with a state and failures, and for a loop.  Two
runs of the same program from related states end alike when each part of it does;
two runs of the same loop stay related when each round keeps them so.
-/

namespace IotChain.Transition

universe u v w

/-! ## Computations -/

section Computations

variable {σ ε α β : Type u}

/-- Both runs finish, with the same value and related states, or both fail alike. -/
inductive EndAlike (post : α → σ → σ → Prop) :
    Except ε (α × σ) → Except ε (α × σ) → Prop
  | ok {value : α} {left right : σ} (related : post value left right) :
      EndAlike post (.ok (value, left)) (.ok (value, right))
  | error (failure : ε) : EndAlike post (.error failure) (.error failure)

namespace EndAlike

variable {post : α → σ → σ → Prop} {left right : σ}

theorem weaken {post' : α → σ → σ → Prop} {first second : Except ε (α × σ)}
    (alike : EndAlike post first second)
    (implies : ∀ value left right, post value left right → post' value left right) :
    EndAlike post' first second := by
  cases alike with
  | ok related => exact ok (implies _ _ _ related)
  | error failure => exact error failure

theorem bind {post' : β → σ → σ → Prop} {first : StateT σ (Except ε) α}
    {rest : α → StateT σ (Except ε) β} (alike : EndAlike post (first left) (first right))
    (restAlike : ∀ value left right, post value left right →
      EndAlike post' (rest value left) (rest value right)) :
    EndAlike post' ((first >>= rest) left) ((first >>= rest) right) := by
  change EndAlike post' (first left >>= fun run => rest run.1 run.2)
    (first right >>= fun run => rest run.1 run.2)
  cases leftRun : first left with
  | error failure =>
      rw [leftRun] at alike
      cases rightRun : first right with
      | error other =>
          rw [rightRun] at alike
          cases alike
          exact error failure
      | ok result =>
          rw [rightRun] at alike
          cases alike
  | ok result =>
      rw [leftRun] at alike
      cases rightRun : first right with
      | error other =>
          rw [rightRun] at alike
          cases alike
      | ok result' =>
          rw [rightRun] at alike
          cases alike with
          | ok related => exact restAlike _ _ _ related

end EndAlike

end Computations

/-! ## Loops -/

section Loops

variable {σ : Type u} {ρ : Type v} {body : Body σ ρ}

/-- The last round of a run. -/
theorem iterate_succ_last (body : Body σ ρ) (n : Nat) (state : σ) :
    iterate body (n + 1) state =
      match iterate body n state with
      | .inl last => body last
      | .inr result => .inr result := by
  induction n generalizing state with
  | zero =>
      cases round : body state with
      | inl next => exact (iterate_succ_of_inl round 0).trans round.symm
      | inr result => exact (iterate_succ_of_inr round 0).trans round.symm
  | succ n ih =>
      cases round : body state with
      | inl next => rw [iterate_succ_of_inl round, iterate_succ_of_inl round, ih]
      | inr result => rw [iterate_succ_of_inr round, iterate_succ_of_inr round]

/-- A relation that may change from round to round, and that every round from a state
the first run reaches keeps, relates the two runs at every length. -/
theorem iterate_related (related : Nat → σ → σ → Prop) (ended : ρ → ρ → Prop)
    {left right : σ} (start : related 0 left right)
    (keeps : ∀ n leftLast rightLast, iterate body n left = .inl leftLast →
      related n leftLast rightLast →
      Sum.LiftRel (related (n + 1)) ended (body leftLast) (body rightLast)) (n : Nat) :
    Sum.LiftRel (related n) ended (iterate body n left) (iterate body n right) := by
  induction n with
  | zero => exact .inl start
  | succ n ih =>
      rw [iterate_succ_last, iterate_succ_last]
      cases leftRun : iterate body n left with
      | inl leftLast =>
          rw [leftRun] at ih
          cases rightRun : iterate body n right with
          | inl rightLast =>
              rw [rightRun] at ih
              cases ih with
              | inl kept => exact keeps n leftLast rightLast leftRun kept
          | inr result =>
              rw [rightRun] at ih
              cases ih
      | inr result =>
          rw [leftRun] at ih
          cases rightRun : iterate body n right with
          | inl rightLast =>
              rw [rightRun] at ih
              cases ih
          | inr result' =>
              rw [rightRun] at ih
              cases ih with
              | inr kept => exact .inr kept

/-- Two loops run alike exactly if they go on alike from each state that the first one
reaches. -/
theorem iterate_eq_iff {first second : Body σ ρ} {state : σ} :
    (∀ n, iterate first n state = iterate second n state) ↔
      ∀ reached, Reaches first state reached → first reached = second reached := by
  constructor
  · rintro same reached ⟨n, run⟩
    have last := same (n + 1)
    have run' : iterate second n state = .inl reached := (same n).symm.trans run
    rwa [iterate_succ_last, iterate_succ_last, run, run'] at last
  · intro same n
    induction n with
    | zero => rfl
    | succ n ih =>
        rw [iterate_succ_last, iterate_succ_last, ← ih]
        cases run : iterate first n state with
        | inl reached => exact same reached ⟨n, run⟩
        | inr result => rfl

end Loops

end IotChain.Transition
