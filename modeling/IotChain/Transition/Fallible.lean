import Mathlib.Data.List.Forall2

/-!
# Computations that may fail

A sequence of computations in `Except` has a result exactly if each of them has one.  It
avoids a failure if each of them does that is reached.
-/

namespace IotChain.Transition

variable {ε α β : Type}

theorem bind_of_eq_ok {run : Except ε α} {a : α} (ok : run = .ok a) (next : α → Except ε β) :
    (run >>= next) = next a := by
  rw [ok]
  rfl

theorem bind_eq_ok_iff {run : Except ε α} {next : α → Except ε β} {b : β} :
    (run >>= next) = .ok b ↔ ∃ a, run = .ok a ∧ next a = .ok b := by
  cases run with
  | ok a =>
      constructor
      · intro ok
        exact ⟨a, rfl, ok⟩
      · rintro ⟨_, same, ok⟩
        cases same
        exact ok
  | error failure =>
      constructor
      · intro ok
        cases ok
      · rintro ⟨_, same, _⟩
        cases same

theorem mapM_eq_ok_iff {f : α → Except ε β} {values : List α} {results : List β} :
    values.mapM f = .ok results ↔
      List.Forall₂ (fun value result => f value = .ok result) values results := by
  induction values generalizing results with
  | nil =>
      rw [List.mapM_nil, List.forall₂_nil_left_iff]
      constructor
      · intro same
        cases same
        rfl
      · rintro rfl
        rfl
  | cons value values ih =>
      rw [List.mapM_cons, bind_eq_ok_iff, List.forall₂_cons_left_iff]
      constructor
      · rintro ⟨first, run, rest⟩
        rcases bind_eq_ok_iff.mp rest with ⟨others, othersRun, same⟩
        cases same
        exact ⟨first, others, run, ih.mp othersRun, rfl⟩
      · rintro ⟨first, others, run, othersRun, rfl⟩
        exact ⟨first, run, bind_eq_ok_iff.mpr ⟨others, ih.mpr othersRun, rfl⟩⟩

/-- Lists are written and read as their elements are. -/
theorem mapM_roundTrip {ι : Type} {write : α → Except ε β} {read : ι → β → Except ε α}
    {values : List α}
    (each : ∀ value ∈ values, ∃ j, write value = .ok j ∧ ∀ i, read i j = .ok value) :
    ∃ js, values.mapM write = .ok js ∧ ∀ i, js.mapM (read i) = .ok values := by
  induction values with
  | nil => exact ⟨[], rfl, fun _ => rfl⟩
  | cons value values ih =>
      rcases each value List.mem_cons_self with ⟨j, written, back⟩
      rcases ih fun other member => each other (List.mem_cons_of_mem _ member) with
        ⟨js, writtenAll, backAll⟩
      refine ⟨j :: js, ?_, fun i => ?_⟩
      · rw [List.mapM_cons, bind_of_eq_ok written, bind_of_eq_ok writtenAll]
        rfl
      · rw [List.mapM_cons, bind_of_eq_ok (back i), bind_of_eq_ok (backAll i)]
        rfl

/-- What has been written and read needed each element to be. -/
theorem mapM_forall {P : α → Prop} {write : α → Except ε β} {read : β → Except ε α}
    (each : ∀ {value j back}, write value = .ok j → read j = .ok back → P value)
    {values backs : List α} {js : List β} (written : values.mapM write = .ok js)
    (backRun : js.mapM read = .ok backs) : ∀ value ∈ values, P value := by
  have writes := mapM_eq_ok_iff.mp written
  have reads := mapM_eq_ok_iff.mp backRun
  clear written backRun
  induction writes generalizing backs with
  | nil => exact List.forall_mem_nil _
  | cons run _ ih =>
      rcases List.forall₂_cons_left_iff.mp reads with ⟨back, others, readRun, readOthers, rfl⟩
      exact List.forall_mem_cons.mpr ⟨each run readRun, ih readOthers⟩

/-! ## Failures that are avoided -/

section Avoiding

variable {ι γ : Type} {failure : ε} {safe passes : ι → Prop}

/-- Steps in order are safe, each if those in front of it pass. -/
def SafeInOrder (safe passes : ι → Prop) : List ι → Prop
  | [] => True
  | i :: is => safe i ∧ (passes i → SafeInOrder safe passes is)

theorem safeInOrder_append {is js : List ι} :
    SafeInOrder safe passes (is ++ js) ↔
      SafeInOrder safe passes is ∧ ((∀ i ∈ is, passes i) → SafeInOrder safe passes js) := by
  induction is with
  | nil =>
      rw [List.nil_append, SafeInOrder, true_and]
      exact (imp_iff_right (List.forall_mem_nil _)).symm
  | cons i is ih =>
      rw [List.cons_append, SafeInOrder, SafeInOrder, ih, List.forall_mem_cons]
      tauto

/-- A computation avoids a failure exactly if its steps are safe, and it has a result exactly
if they pass. -/
structure Takes (failure : ε) (safe passes : ι → Prop) (run : Except ε α) (steps : List ι) :
    Prop where
  avoids : run ≠ .error failure ↔ SafeInOrder safe passes steps
  returns : (∃ a, run = .ok a) ↔ ∀ i ∈ steps, passes i

theorem Takes.of_ok {run : Except ε α} {a : α} (ok : run = .ok a) :
    Takes failure safe passes run [] where
  avoids := by
    rw [ok]
    exact iff_of_true nofun trivial
  returns := iff_of_true ⟨a, ok⟩ (List.forall_mem_nil _)

theorem Takes.bind {run : Except ε α} {next : α → Except ε β} {is js : List ι}
    (first : Takes failure safe passes run is)
    (rest : ∀ a, run = .ok a → Takes failure safe passes (next a) js) :
    Takes failure safe passes (run >>= next) (is ++ js) := by
  cases run with
  | error e =>
      have stops : ¬ ∀ i ∈ is, passes i := by
        rw [← first.returns]
        rintro ⟨a, same⟩
        cases same
      have stopped : (Except.error e >>= next) = .error e := rfl
      constructor
      · rw [safeInOrder_append, ← first.avoids, stopped, ne_eq, ne_eq, Except.error.injEq,
          Except.error.injEq]
        exact (and_iff_left fun all => absurd all stops).symm
      · rw [stopped]
        constructor
        · rintro ⟨b, same⟩
          cases same
        · intro all
          exact absurd (fun i member => all i (List.mem_append_left js member)) stops
  | ok a =>
      have goesOn : ∀ i ∈ is, passes i := first.returns.mp ⟨a, rfl⟩
      have reached : (Except.ok a >>= next) = next a := rfl
      constructor
      · rw [safeInOrder_append, and_iff_right (first.avoids.mp nofun), reached,
          (rest a rfl).avoids]
        exact (imp_iff_right goesOn).symm
      · rw [reached, (rest a rfl).returns, List.forall_mem_append]
        exact (and_iff_right goesOn).symm

theorem Takes.mapM {f : α → Except ε β} {related : α → γ → Prop} {steps : γ → List ι}
    {values : List α} {shapes : List γ} (all : List.Forall₂ related values shapes)
    (each : ∀ {a c}, related a c → Takes failure safe passes (f a) (steps c)) :
    Takes failure safe passes (values.mapM f) (shapes.flatMap steps) := by
  induction all with
  | nil => exact .of_ok rfl
  | cons first _ ih =>
      rw [List.mapM_cons, List.flatMap_cons]
      refine (each first).bind fun _ _ => ?_
      rw [← List.append_nil (List.flatMap _ _)]
      exact ih.bind fun _ _ => .of_ok rfl

end Avoiding

end IotChain.Transition
