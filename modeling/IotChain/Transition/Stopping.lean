import IotChain.Transition.Events
import Mathlib

/-!
# Programs that may stop

A program works on a state and returns, or it stops early and leaves the state as it is
then.  What triples say of a program is carried over to the runs of many of them.
-/

namespace IotChain.Transition

open Std.Do

variable {σ ε α β ι : Type}

/-- A program that returns an `α` or stops with an `ε`. -/
abbrev Stopping (σ ε α : Type) := ExceptT ε (StateM σ) α

/-- What a program leads to, given a triple for it. -/
theorem run_of_triple {program : Stopping σ ε α} {pre : σ → Prop} {post : α → σ → Prop}
    {stop : ε → σ → Prop}
    (triple : ⦃fun s => ⌜pre s⌝⦄ program
      ⦃post⟨fun a s => ⌜post a s⌝, fun e s => ⌜stop e s⌝⟩⦄) {s : σ} (held : pre s) :
    match program.run s with
    | (.ok a, next) => post a next
    | (.error e, next) => stop e next := by
  have weakest := triple s held
  simp only [wp, PredTrans.apply_pushExcept, PredTrans.apply_pushArg] at weakest
  rcases run : program.run s with ⟨failure | a, next⟩
  · have stopped : StateT.run program.run s = (.error failure, next) := run
    rw [stopped] at weakest
    exact weakest
  · have returned : StateT.run program.run s = (.ok a, next) := run
    rw [returned] at weakest
    exact weakest

/-- What follows a program that has returned. -/
theorem run_bind_of_ok {program : Stopping σ ε α} {rest : α → Stopping σ ε β} {s next : σ}
    {a : α} (run : program.run s = (.ok a, next)) :
    (program >>= rest).run s = (rest a).run next := by
  have returned : StateT.run program.run s = (.ok a, next) := run
  change StateT.run (program >>= rest).run s = StateT.run (rest a).run next
  rw [ExceptT.run_bind, StateT.run_bind, returned]
  rfl

/-- Nothing follows a program that has stopped. -/
theorem run_bind_of_error {program : Stopping σ ε α} {rest : α → Stopping σ ε β} {s next : σ}
    {e : ε} (run : program.run s = (.error e, next)) :
    (program >>= rest).run s = (.error e, next) := by
  have stopped : StateT.run program.run s = (.error e, next) := run
  change StateT.run (program >>= rest).run s = (.error e, next)
  rw [ExceptT.run_bind, StateT.run_bind, stopped]
  rfl

/-- A program and what follows it have both returned. -/
theorem ok_of_run_bind {program : Stopping σ ε α} {rest : α → Stopping σ ε β} {s last : σ}
    {b : β} (run : (program >>= rest).run s = (.ok b, last)) :
    ∃ a next, program.run s = (.ok a, next) ∧ (rest a).run next = (.ok b, last) := by
  rcases first : program.run s with ⟨e | a, next⟩
  · rw [run_bind_of_error first] at run
    cases run
  · rw [run_bind_of_ok first] at run
    exact ⟨a, next, rfl, run⟩

/-! ## Many programs -/

/-- All the programs in order, as long as they return. -/
def actAll (act : ι → Stopping σ ε Unit) : List ι → Stopping σ ε Unit
  | [] => return
  | i :: is => do
      act i
      actAll act is

/-- All the programs in order, and then what undoes them in reverse order.  What undoes a
program may look at the state in front of it. -/
def thereAndBack (act : ι → Stopping σ ε Unit) (undo : σ → ι → Stopping σ ε Unit) :
    List ι → Stopping σ ε Unit
  | [] => return
  | i :: is => do
      let before ← get
      act i
      thereAndBack act undo is
      undo before i

/-- If every program can be undone, so can all of them. -/
theorem run_thereAndBack {act : ι → Stopping σ ε Unit} {undo : σ → ι → Stopping σ ε Unit}
    (inv : σ → Prop)
    (undone : ∀ {s next} i, inv s → (act i).run s = (.ok (), next) →
      inv next ∧ (undo s i).run next = (.ok (), s))
    {s last : σ} (held : inv s) {is : List ι} (run : (actAll act is).run s = (.ok (), last)) :
    (thereAndBack act undo is).run s = (.ok (), s) := by
  induction is generalizing s with
  | nil => rfl
  | cons i is ih =>
      obtain ⟨_, next, first, rest⟩ := ok_of_run_bind run
      rcases undone i held first with ⟨nextHeld, back⟩
      have looked : (get : Stopping σ ε σ).run s = (.ok s, s) := rfl
      rw [thereAndBack, run_bind_of_ok looked, run_bind_of_ok first,
        run_bind_of_ok (ih nextHeld rest), back]

/-- The state behind some programs, up to one that stops in a way that ends everything. -/
def runAll (act : ι → Stopping σ ε Unit) (ends : ε → Bool) : List ι → σ → σ
  | [], s => s
  | i :: is, s =>
      match (act i).run s with
      | (.ok _, next) => runAll act ends is next
      | (.error e, next) => if ends e then next else runAll act ends is next

/-- What each program keeps, whether it returns or stops, all of them keep. -/
theorem runAll_invariant {act : ι → Stopping σ ε Unit} {ends : ε → Bool} (inv : σ → Prop)
    (keeps : ∀ i, ⦃fun s => ⌜inv s⌝⦄ act i ⦃post⟨fun _ s => ⌜inv s⌝, fun _ s => ⌜inv s⌝⟩⦄)
    {s : σ} (held : inv s) (is : List ι) : inv (runAll act ends is s) := by
  induction is generalizing s with
  | nil => exact held
  | cons i is ih =>
      have kept := run_of_triple (keeps i) held
      rw [runAll]
      rcases run : (act i).run s with ⟨failure | _, next⟩
      · rw [run] at kept
        by_cases ended : ends failure = true
        · simp only [if_pos ended]
          exact kept
        · simp only [if_neg ended]
          exact ih kept
      · rw [run] at kept
        simp only
        exact ih kept

/-- The reaction of programs that must return. -/
def reacting (act : ι → Stopping σ ε Unit) : Reaction σ ι := fun s i =>
  match (act i).run s with
  | (.ok _, next) => some next
  | (.error _, _) => none

theorem reacting_of_triple {act : ι → Stopping σ ε Unit} {i : ι} {s last : σ}
    (triple : ⦃fun state => ⌜state = s⌝⦄ act i
      ⦃post⟨fun _ state => ⌜state = last⌝, fun _ _ => ⌜False⌝⟩⦄) :
    reacting act s i = some last := by
  have ended := run_of_triple triple rfl
  rw [reacting]
  rcases run : (act i).run s with ⟨failure | _, next⟩
  · rw [run] at ended
    exact False.elim ended
  · rw [run] at ended
    exact congrArg some ended

end IotChain.Transition
