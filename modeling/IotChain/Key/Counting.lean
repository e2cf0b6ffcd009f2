import IotChain.Key.Contexts

/-!
# The users of the context for verifying

`secp256k1_verify_start` and `secp256k1_verify_stop` count the users of one context.  Behind
balanced calls the globals are a function of three counts, until the counter overflows.
-/

namespace IotChain

open IotChain.Transition Std.Do

namespace Contexts

/-! ## The calls and their counts -/

/-- The calls that count the users of the context for verifying. -/
inductive VerifyCall
  | start
  | stop
  deriving DecidableEq, Repr

/-- What a call does with the contexts. -/
def VerifyCall.action : VerifyCall → Action Unit
  | .start => verifyStart
  | .stop => verifyStop

/-- The starts that are not stopped yet, and the periods that have begun and ended: the
times when there are such starts. -/
structure Tally where
  level : Nat
  opened : Nat
  closed : Nat
  deriving DecidableEq, Repr

/-- The tally behind one more call. -/
def Tally.call (t : Tally) : VerifyCall → Tally
  | .start => ⟨t.level + 1, if t.level = 0 then t.opened + 1 else t.opened, t.closed⟩
  | .stop => ⟨t.level - 1, t.opened, if t.level = 1 then t.closed + 1 else t.closed⟩

/-- The tally of calls, made in this order. -/
def tally (calls : List VerifyCall) : Tally := calls.foldl Tally.call ⟨0, 0, 0⟩

/-- The contexts behind calls with such a tally. -/
def contextsOf (t : Tally) : Contexts where
  sign := none
  verify := (UInt32.ofNat t.level, if t.level = 0 then none else some t.closed)
  created := t.opened
  destroyed := List.range t.closed
  uses := []

set_option mvcgen.warning false in
theorem verifyStart_first (closed : Nat) :
    ⦃fun c => ⌜c = contextsOf ⟨0, closed, closed⟩⌝⦄ verifyStart
      ⦃post⟨fun _ c => ⌜c = contextsOf ⟨1, closed + 1, closed⟩⌝, fun _ _ => ⌜False⌝⟩⦄ := by
  mvcgen [verifyStart, check, create]
  all_goals
    obtain rfl : _ = contextsOf _ := ‹_›
  · rfl
  · exact absurd rfl ‹¬ _›
  · exact absurd rfl ‹¬ _›

theorem count_succ (level : Nat) : UInt32.ofNat level + 1 = UInt32.ofNat (level + 1) :=
  (UInt32.ofNat_add level 1).symm

theorem count_pred (level : Nat) : UInt32.ofNat (level + 1) - 1 = UInt32.ofNat level := by
  rw [← count_succ, UInt32.add_sub_cancel]

/-- The count of the starts is not zero before it overflows. -/
theorem count_ne_zero {level : Nat} (below : level + 1 < 2 ^ 32) :
    UInt32.ofNat (level + 1) ≠ 0 := by
  intro zero
  have value := congrArg UInt32.toNat zero
  rw [UInt32.toNat_ofNat_of_lt' below] at value
  cases value

set_option mvcgen.warning false in
theorem verifyStart_later {level opened closed : Nat} (below : level + 1 < 2 ^ 32) :
    ⦃fun c => ⌜c = contextsOf ⟨level + 1, opened, closed⟩⌝⦄ verifyStart
      ⦃post⟨fun _ c => ⌜c = contextsOf ⟨level + 2, opened, closed⟩⌝, fun _ _ => ⌜False⌝⟩⦄ := by
  mvcgen [verifyStart, check, create]
  all_goals
    obtain rfl : _ = contextsOf _ := ‹_›
  · exact absurd ‹_› (count_ne_zero below)
  · exact absurd ‹_› (count_ne_zero below)
  · exact congrArg (Contexts.mk none · opened (List.range closed) [])
      (congrArg (·, some closed) (count_succ (level + 1)))

set_option mvcgen.warning false in
theorem verifyStop_last (opened closed : Nat) :
    ⦃fun c => ⌜c = contextsOf ⟨1, opened, closed⟩⌝⦄ verifyStop
      ⦃post⟨fun _ c => ⌜c = contextsOf ⟨0, opened, closed + 1⟩⌝, fun _ _ => ⌜False⌝⟩⦄ := by
  mvcgen [verifyStop, destroy]
  all_goals
    obtain rfl : _ = contextsOf _ := ‹_›
  · have null : some closed = none := ‹_›
    cases null
  · have same : some closed = some _ := ‹_›
    cases same
    have range : List.range closed ++ [closed] = List.range (closed + 1) := List.range_succ.symm
    change Contexts.mk none (UInt32.ofNat 1 - 1, none) opened (List.range closed ++ [closed]) [] =
      Contexts.mk none (0, none) opened (List.range (closed + 1)) []
    rw [range]
    rfl
  · have nonzero : ¬ UInt32.ofNat 1 - 1 = 0 := ‹_›
    exact absurd rfl nonzero

set_option mvcgen.warning false in
theorem verifyStop_later {level opened closed : Nat} (below : level + 2 ≤ 2 ^ 32) :
    ⦃fun c => ⌜c = contextsOf ⟨level + 2, opened, closed⟩⌝⦄ verifyStop
      ⦃post⟨fun _ c => ⌜c = contextsOf ⟨level + 1, opened, closed⟩⌝, fun _ _ => ⌜False⌝⟩⦄ := by
  have left : UInt32.ofNat (level + 2) - 1 ≠ 0 := by
    rw [count_pred]
    exact count_ne_zero below
  mvcgen [verifyStop, destroy]
  all_goals
    obtain rfl : _ = contextsOf _ := ‹_›
  · exact absurd ‹_› left
  · exact absurd ‹_› left
  · exact congrArg (Contexts.mk none · opened (List.range closed) [])
      (congrArg (·, some closed) (count_pred (level + 1)))

/-! ## Runs of such calls -/

/-- No prefix has more stops than starts. -/
def Balanced (calls : List VerifyCall) : Prop :=
  ∀ before, before <+: calls → before.count .stop ≤ before.count .start

/-- No prefix has so many more starts than stops that the count overflows. -/
def Bounded (calls : List VerifyCall) : Prop :=
  ∀ before, before <+: calls → before.count .start < before.count .stop + 2 ^ 32

/-- The calls return.  Behind them there is a context while the count is positive, and
contexts have been created and destroyed with the periods. -/
def Tracks (calls : List VerifyCall) : Prop :=
  ∃ last, replay (reacting VerifyCall.action) fresh calls = some last ∧
    (last.verify.2 ≠ none ↔ 0 < last.verify.1) ∧ last.created = (tally calls).opened ∧
      last.destroyed.Nodup ∧ last.destroyed.length = (tally calls).closed

/-- A period has begun that has not ended exactly while there are starts to be stopped. -/
def Tally.Sound (t : Tally) : Prop := t.opened = t.closed + min t.level 1

theorem Tally.Sound.call {t : Tally} (sound : t.Sound) {call : VerifyCall}
    (stops : call = .stop → 0 < t.level) : (t.call call).Sound := by
  rcases t with ⟨level, opened, closed⟩
  have opened : opened = closed + min level 1 := sound
  cases call with
  | start =>
      simp only [Tally.Sound, Tally.call]
      split <;> omega
  | stop =>
      have pos : 0 < level := stops rfl
      simp only [Tally.Sound, Tally.call]
      split <;> omega

/-- A call leads from the contexts of a tally to those of the next. -/
theorem reacting_contextsOf {t : Tally} (sound : t.Sound) {call : VerifyCall}
    (stops : call = .stop → 0 < t.level) (below : t.level ≤ 2 ^ 32)
    (starts : call = .start → t.level < 2 ^ 32) :
    reacting VerifyCall.action (contextsOf t) call = some (contextsOf (t.call call)) := by
  rcases t with ⟨level, opened, closed⟩
  cases call with
  | start =>
      cases level with
      | zero =>
          obtain rfl : opened = closed := sound
          exact reacting_of_triple (verifyStart_first opened)
      | succ level => exact reacting_of_triple (verifyStart_later (starts rfl))
  | stop =>
      match level, stops rfl with
      | 1, _ => exact reacting_of_triple (verifyStop_last opened closed)
      | level + 2, _ => exact reacting_of_triple (verifyStop_later below)

/-- No prefix has more stops than there are starts, with so many in front of the calls. -/
def BalancedFrom (level : Nat) (calls : List VerifyCall) : Prop :=
  ∀ before, before <+: calls → before.count .stop ≤ level + before.count .start

/-- No prefix has more starts than the count can take, with so many in front of the calls. -/
def FullFrom (level : Nat) (calls : List VerifyCall) : Prop :=
  ∀ before, before <+: calls → level + before.count .start ≤ before.count .stop + 2 ^ 32

theorem Balanced.from_zero {calls : List VerifyCall} (balanced : Balanced calls) :
    BalancedFrom 0 calls := by
  intro before prefixed
  rw [Nat.zero_add]
  exact balanced before prefixed

theorem BalancedFrom.stops {t : Tally} {call : VerifyCall} {calls : List VerifyCall}
    (balanced : BalancedFrom t.level (call :: calls)) : call = .stop → 0 < t.level := by
  rintro rfl
  exact balanced [.stop] ⟨calls, rfl⟩

/-- The starts and stops of some calls, with a call in front of them. -/
theorem level_call {t : Tally} {call : VerifyCall} (stops : call = .stop → 0 < t.level)
    (calls : List VerifyCall) :
    (t.call call).level + calls.count .start + (call :: calls).count .stop =
      t.level + (call :: calls).count .start + calls.count .stop := by
  cases call with
  | start =>
      have differs : VerifyCall.start ≠ .stop := by decide
      simp only [List.count_cons_self, List.count_cons_of_ne differs, Tally.call]
      omega
  | stop =>
      have differs : VerifyCall.stop ≠ .start := by decide
      have pos : 0 < t.level := stops rfl
      simp only [List.count_cons_self, List.count_cons_of_ne differs, Tally.call]
      omega

theorem BalancedFrom.tail {t : Tally} {call : VerifyCall} {calls : List VerifyCall}
    (balanced : BalancedFrom t.level (call :: calls)) :
    BalancedFrom (t.call call).level calls := by
  intro before prefixed
  have longer := balanced (call :: before) (List.cons_prefix_cons.mpr ⟨rfl, prefixed⟩)
  have level := level_call balanced.stops before
  omega

theorem FullFrom.tail {t : Tally} {call : VerifyCall} {calls : List VerifyCall}
    (full : FullFrom t.level (call :: calls)) (stops : call = .stop → 0 < t.level) :
    FullFrom (t.call call).level calls := by
  intro before prefixed
  have longer := full (call :: before) (List.cons_prefix_cons.mpr ⟨rfl, prefixed⟩)
  have level := level_call stops before
  omega

/-- The contexts are those of the tally as long as no stop comes without a start, and no
start when the count is full. -/
theorem replay_contextsOf {t : Tally} (sound : t.Sound) {calls : List VerifyCall}
    (balanced : BalancedFrom t.level calls) (full : FullFrom t.level calls) :
    replay (reacting VerifyCall.action) (contextsOf t) calls =
      some (contextsOf (calls.foldl Tally.call t)) := by
  induction calls generalizing t with
  | nil => rfl
  | cons call calls ih =>
      have starts : call = .start → t.level < 2 ^ 32 := by
        rintro rfl
        exact full [.start] ⟨calls, rfl⟩
      have step := reacting_contextsOf sound balanced.stops (full [] List.nil_prefix) starts
      have rest := ih (sound.call balanced.stops) balanced.tail (full.tail balanced.stops)
      exact replay_cons.mpr ⟨_, step, rest⟩

/-- The level of a tally is the number of starts beyond the stops. -/
theorem level_foldl {t : Tally} {calls : List VerifyCall}
    (balanced : BalancedFrom t.level calls) :
    (calls.foldl Tally.call t).level + calls.count .stop = t.level + calls.count .start := by
  induction calls generalizing t with
  | nil => rfl
  | cons call calls ih =>
      have level := level_call balanced.stops calls
      have rest := ih balanced.tail
      rw [List.foldl_cons]
      omega

/-- Before the count overflows, there is a context while it is positive. -/
theorem present_iff {t : Tally} (below : t.level < 2 ^ 32) :
    (contextsOf t).verify.2 ≠ none ↔ 0 < (contextsOf t).verify.1 := by
  rcases t with ⟨level, opened, closed⟩
  cases level with
  | zero => exact iff_of_false (fun present => present rfl) (UInt32.lt_irrefl 0)
  | succ level =>
      apply iff_of_true (Option.some_ne_none _)
      rw [UInt32.lt_iff_toNat_lt, contextsOf, UInt32.toNat_ofNat_of_lt' below]
      exact Nat.succ_pos level

/-- Within the bound, the context for verifying keeps to the periods. -/
theorem tracks_of_bounded {calls : List VerifyCall} (balanced : Balanced calls)
    (bounded : Bounded calls) : Tracks calls := by
  have full : FullFrom 0 calls := by
    intro before prefixed
    rw [Nat.zero_add]
    exact (bounded before prefixed).le
  have run := replay_contextsOf (t := ⟨0, 0, 0⟩) rfl balanced.from_zero full
  have level : (tally calls).level + calls.count .stop = 0 + calls.count .start :=
    level_foldl balanced.from_zero
  have below := bounded calls List.prefix_rfl
  exact ⟨_, run, present_iff (by rw [← tally]; omega), rfl, List.nodup_range,
    List.length_range⟩

/-- Starts alone are balanced. -/
theorem balanced_starts (n : Nat) : Balanced (List.replicate n .start) := by
  intro before prefixed
  have few := prefixed.sublist.count_le VerifyCall.stop
  rw [List.count_replicate, if_neg (by decide)] at few
  omega

/-- Starts alone return up to the one that fills the count. -/
theorem replay_starts {n : Nat} (le : n ≤ 2 ^ 32) :
    ∃ t : Tally, t.level = n ∧ replay (reacting VerifyCall.action) fresh
      (List.replicate n .start) = some (contextsOf t) := by
  have balanced := (balanced_starts n).from_zero
  have full : FullFrom 0 (List.replicate n .start) := by
    intro before prefixed
    have few := prefixed.sublist.count_le VerifyCall.start
    rw [List.count_replicate_self] at few
    omega
  have level := level_foldl (t := ⟨0, 0, 0⟩) balanced
  rw [List.count_replicate_self, List.count_replicate, if_neg (by decide)] at level
  exact ⟨_, level.trans (Nat.zero_add n), replay_contextsOf (t := ⟨0, 0, 0⟩) rfl balanced full⟩

/-- When the count overflows, there is a context and the count is zero. -/
theorem not_tracks_full : ¬ Tracks (List.replicate (2 ^ 32) .start) := by
  rintro ⟨last, run, present, _⟩
  rcases replay_starts (Nat.le_refl (2 ^ 32)) with ⟨t, level, other⟩
  rw [run] at other
  cases other
  have count : (contextsOf t).verify.1 = 0 := by
    rw [contextsOf, level]
    rfl
  have some : (contextsOf t).verify.2 ≠ none := by
    rw [contextsOf, level]
    exact Option.some_ne_none _
  have pos := present.mp some
  rw [count] at pos
  exact UInt32.lt_irrefl 0 pos

end Contexts

end IotChain
