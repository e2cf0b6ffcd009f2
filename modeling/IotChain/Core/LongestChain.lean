import IotChain.Core.Building

/-!
# Building the longest chain

The way from the genesis along blocks with one child is gone through block by block.  What
`build_longest_chain` comes to behind it is decided by three numbers: how many blocks there are
on the way, how many children the last of them has, and how many the first of these has.
-/

namespace IotChain

open IotChain.Bytes IotChain.Graph IotChain.Transition
open IotChain.Building

/-- The height is that of a longest path from the genesis, and the index is the path. -/
def Building.FindsLongest (blocks : List (Crypto.Hash × Crypto.Hash)) (genesis : Crypto.Hash)
    (b : Building) : Prop :=
  ∃ path, IsLongest blocks genesis path ∧ b.height = path.length ∧ b.index = path

/-- Nothing is left for a second turn of the inner loop at the first fork. -/
def OnceLookedUp (n k c : Nat) : Prop :=
  (n ≤ intMax ∧ 2 ^ 32 ∣ k) ∨ (n < intMax ∧ k % 2 ^ 32 = 1 ∧ 2 ^ 32 ∣ c)

/-- Nothing is left for a third turn of the inner loop at the first fork, or all turns remove
children of one block. -/
def OnceRemoved (n k c : Nat) : Prop :=
  (n ≤ intMax ∧ 2 ^ 32 ∣ k) ∨
  (n < intMax ∧ (0 < k % 2 ^ 32 ∧ k % 2 ^ 32 < 2 ^ 31) ∧
    (c = 0 ∨ (k % 2 ^ 32 = 1 ∧ 2 ^ 32 ∣ c) ∨ (k % 2 ^ 32 = 2 ∧ 2 ^ 31 ∣ c)))

/-! ## Whole runs -/

section Runs

variable {container : BlockContainer} {genesis : Crypto.Hash}

theorem enterChain_of_tree (tree : IsTree container.blocks (zeroBytes 32) genesis) :
    container.enterChain = .inl ⟨[genesis], 0, [], []⟩ := by
  have first := tree.first
  rw [children] at first
  rcases List.map_eq_singleton_iff.mp first with ⟨entry, range, rfl⟩
  have found : container.blocks.find? (·.1 = zeroBytes 32) = some entry := by
    rw [← List.head?_filter, range]
    rfl
  have nonempty : container.blocks ≠ [] := by
    intro empty
    rw [empty] at found
    cases found
  simp only [BlockContainer.enterChain, List.isEmpty_iff, if_neg nonempty, found]
  rfl

theorem builds_iff_exits (tree : IsTree container.blocks (zeroBytes 32) genesis)
    (result : Except ContainerFailure Building) :
    container.Builds result ↔ Exits (round container.blocks) ⟨[genesis], 0, [], []⟩ result := by
  simp only [BlockContainer.Builds, BlockContainer.buildLongestChain, enterChain_of_tree tree]
  rfl

/-- The loop goes along the trunk, one block a round. -/
theorem reaches_trunk {before : List Crypto.Hash} {a : Crypto.Hash}
    (trunk : Trunk container.blocks genesis before a) (low : before.length ≤ intMax) :
    Reaches (round container.blocks) ⟨[genesis], 0, [], []⟩
      ⟨[a], before.length, before, before⟩ := by
  induction trunk with
  | root => exact .refl _ _
  | @next before a b _ only ih =>
      rw [List.length_append] at low ⊢
      have next : round container.blocks ⟨[a], before.length, before, before⟩ = _ :=
        round_singleton a low before before
      rw [only] at next
      exact (ih (Nat.le_of_succ_le low)).trans (.single next)

/-- What the loop does behind the trunk is what the whole function does. -/
theorem builds_iff_of_trunk (tree : IsTree container.blocks (zeroBytes 32) genesis)
    {before : List Crypto.Hash} {a : Crypto.Hash} (trunk : Trunk container.blocks genesis before a)
    (low : before.length < intMax) (result : Except ContainerFailure Building) :
    container.Builds result ↔ Exits (round container.blocks)
      ⟨children container.blocks a, before.length + 1, before ++ [a], before ++ [a]⟩ result := by
  rw [builds_iff_exits tree, (reaches_trunk trunk low.le).exits_iff]
  exact exits_iff_of_inl (round_singleton a low before before) result

/-- On a trunk that is too long the height overflows. -/
theorem builds_iff_of_long (tree : IsTree container.blocks (zeroBytes 32) genesis)
    {before : List Crypto.Hash} {a : Crypto.Hash} (trunk : Trunk container.blocks genesis before a)
    (long : intMax ≤ before.length) (result : Except ContainerFailure Building) :
    container.Builds result ↔ .error .overflow = result := by
  obtain ⟨shorter, b, trunk, length⟩ := trunk.exists_shorter long
  rw [builds_iff_exits tree, (reaches_trunk trunk length.le).exits_iff]
  apply exits_iff_of_inr
  apply round_of_overflow
  · exact Int.one_ne_zero
  · exact length.not_lt

/-- A tree without forks is gone through block by block. -/
theorem builds_of_leaf (tree : IsTree container.blocks (zeroBytes 32) genesis)
    {before : List Crypto.Hash} {a : Crypto.Hash} (trunk : Trunk container.blocks genesis before a)
    (leaf : children container.blocks a = []) (low : before.length < intMax) :
    container.Builds (.ok ⟨[], before.length + 1, before ++ [a], before ++ [a]⟩) := by
  rw [builds_iff_of_trunk tree trunk low, leaf]
  exact exits_of_inr (round_of_zero rfl)

/-- Behind the trunk there is a fork. -/
def atFork (before : List Crypto.Hash) (a : Crypto.Hash) (kids : List Crypto.Hash) : Building :=
  ⟨kids, before.length + 1, before ++ [a], before ++ [a]⟩

theorem builds_iff_of_fork (tree : IsTree container.blocks (zeroBytes 32) genesis)
    {before : List Crypto.Hash} {a first second : Crypto.Hash} {others : List Crypto.Hash}
    (trunk : Trunk container.blocks genesis before a)
    (fork : children container.blocks a = first :: second :: others)
    (low : before.length < intMax) (result : Except ContainerFailure Building) :
    container.Builds result ↔
      EndsAtFork container.blocks first (atFork before a (first :: second :: others)) result := by
  rw [builds_iff_of_trunk tree trunk low, fork]
  have stuck : Stuck first (atFork before a (first :: second :: others)) :=
    ⟨second :: others, List.cons_ne_nil _ _, rfl⟩
  exact stuck.exits_iff low result

theorem builds_unique {first second : Except ContainerFailure Building}
    (tree : IsTree container.blocks (zeroBytes 32) genesis) (left : container.Builds first)
    (right : container.Builds second) : first = second :=
  ((builds_iff_exits tree first).mp left).unique ((builds_iff_exits tree second).mp right)

/-- Where the function returns, the low bits of the size are all zero. -/
theorem ended_of_builds (tree : IsTree container.blocks (zeroBytes 32) genesis) {b : Building}
    (builds : container.Builds (.ok b)) : 2 ^ 32 ∣ b.index.length ∧ b.height ≤ intMax :=
  ended_of_exits (Nat.zero_le _) ((builds_iff_exits tree _).mp builds)

/-- So many blocks are no path whose length is an `int`. -/
theorem not_findsLongest_of_builds (tree : IsTree container.blocks (zeroBytes 32) genesis)
    {b : Building} (builds : container.Builds (.ok b)) :
    ¬ b.FindsLongest container.blocks genesis := by
  rintro ⟨path, longest, height, rfl⟩
  obtain ⟨size, low⟩ := ended_of_builds tree builds
  have nonempty : 0 < b.index.length := by
    apply List.length_pos_iff.mpr
    intro empty
    have head := longest.branch.head
    rw [empty] at head
    cases head
  have large := Nat.le_of_dvd nonempty size
  rw [intMax] at low
  omega

/-- Where the function returns to from a fork. -/
theorem exists_builds_iff_of_fork (tree : IsTree container.blocks (zeroBytes 32) genesis)
    {before : List Crypto.Hash} {a first second : Crypto.Hash} {others : List Crypto.Hash}
    (trunk : Trunk container.blocks genesis before a)
    (fork : children container.blocks a = first :: second :: others) (post : Building → Prop) :
    (∃ b, container.Builds (.ok b) ∧ post b) ↔
      ∃ rounds, RunsOutIn (before.length + 1) (others.length + 2)
          (children container.blocks first).length rounds ∧
        post ((atFork before a (first :: second :: others)).turned container.blocks first
          (turnsIn (others.length + 2) (children container.blocks first).length rounds)
          rounds) := by
  rcases Nat.lt_or_ge before.length intMax with low | long
  · constructor
    · rintro ⟨b, builds, held⟩
      rcases (builds_iff_of_fork tree trunk fork low _).mp builds with ⟨rounds, ends, same⟩ | never
      · cases same
        exact ⟨rounds, ends, held⟩
      · cases never.2
    · rintro ⟨rounds, ends, held⟩
      exact ⟨_, (builds_iff_of_fork tree trunk fork low _).mpr (.inl ⟨rounds, ends, rfl⟩), held⟩
  · apply iff_of_false
    · rintro ⟨b, builds, _⟩
      cases (builds_iff_of_long tree trunk long _).mp builds
    · rintro ⟨rounds, ends, _⟩
      have low := ends.low
      omega

/-- Where the function returns to without forks. -/
theorem exists_builds_iff_of_leaf (tree : IsTree container.blocks (zeroBytes 32) genesis)
    {before : List Crypto.Hash} {a : Crypto.Hash} (trunk : Trunk container.blocks genesis before a)
    (leaf : children container.blocks a = []) (post : Building → Prop) :
    (∃ b, container.Builds (.ok b) ∧ post b) ↔
      before.length < intMax ∧ post ⟨[], before.length + 1, before ++ [a], before ++ [a]⟩ := by
  rcases Nat.lt_or_ge before.length intMax with low | long
  · have only := builds_of_leaf tree trunk leaf low
    constructor
    · rintro ⟨b, builds, held⟩
      cases builds_unique tree builds only
      exact ⟨low, held⟩
    · rintro ⟨_, held⟩
      exact ⟨_, only, held⟩
  · apply iff_of_false
    · rintro ⟨b, builds, _⟩
      cases (builds_iff_of_long tree trunk long _).mp builds
    · rintro ⟨low, _⟩
      omega

/-- The function returns exactly if the number of nodes gets zero at the end of the trunk. -/
theorem returns_iff (tree : IsTree container.blocks (zeroBytes 32) genesis) {n k c : Nat}
    (stem : Stem container.blocks genesis n k c) :
    (∃ b, container.Builds (.ok b)) ↔ RunsOut n k c := by
  cases stem with
  | @leaf before a trunk leaf =>
      have returned := exists_builds_iff_of_leaf tree trunk leaf fun _ => True
      simp only [and_true] at returned
      rw [returned]
      constructor
      · intro low
        refine ⟨0, fun i lt => absurd lt (Nat.not_lt_zero i), ?_, low⟩
        rw [Nat.zero_mul]
        rfl
      · rintro ⟨rounds, ends⟩
        have low := ends.low
        omega
  | @fork before a first second others trunk fork =>
      have returned := exists_builds_iff_of_fork tree trunk fork fun _ => True
      simp only [and_true] at returned
      exact returned

/-- A genesis with four children, the first of which has four more, has `2 ^ 32` nodes behind
16 rounds. -/
example : RunsOut 1 4 4 := ⟨15, by rw [Counts]; decide, by decide, by decide⟩

/-! ## Blocks removed once -/

theorem runsOutIn_zero {n k c : Nat} (low : n ≤ intMax) (zero : 2 ^ 32 ∣ k) :
    RunsOutIn n k c 0 where
  counts i lt := absurd lt (Nat.not_lt_zero i)
  zero := by
    rw [pow_zero, Nat.mul_one]
    exact intOfSize_eq_zero_iff.mpr zero
  low := low

theorem runsOutIn_one {n k c : Nat} (low : n < intMax)
    (positive : 0 < k % 2 ^ 32 ∧ k % 2 ^ 32 < 2 ^ 31) (zero : 2 ^ 32 ∣ k * c) :
    RunsOutIn n k c 1 where
  counts i lt := by
    obtain rfl := Nat.lt_one_iff.mp lt
    rw [pow_zero, Nat.mul_one]
    exact intOfSize_pos_iff.mpr positive
  zero := by
    rw [pow_one]
    exact intOfSize_eq_zero_iff.mpr zero
  low := low

/-- The first round makes as many turns as there are children, as far as they count. -/
theorem turnsIn_one {k c rounds : Nat} (counts : Counts k c (rounds + 1)) :
    (0 < k % 2 ^ 32 ∧ k % 2 ^ 32 < 2 ^ 31) ∧ turnsIn k c 1 = k % 2 ^ 32 := by
  have positive := counts 0 (Nat.succ_pos rounds)
  rw [turnsIn, turnsIn, toNat_intOfSize positive, Nat.zero_add]
  rw [pow_zero, Nat.mul_one] at positive ⊢
  exact ⟨intOfSize_pos_iff.mp positive, rfl⟩

/-- After one turn in the first round the second one has as many nodes as the first child has
children. -/
theorem dvd_of_one {k c : Nat} (one : k % 2 ^ 32 = 1) : 2 ^ 32 ∣ k * c ↔ 2 ^ 32 ∣ c := by
  have same : k * c ≡ 1 * c [MOD 2 ^ 32] := Nat.ModEq.mul_right c one
  rw [same.dvd_iff dvd_rfl, Nat.one_mul]

theorem dvd_of_two {k c : Nat} (two : k % 2 ^ 32 = 2) : 2 ^ 32 ∣ k * c ↔ 2 ^ 31 ∣ c := by
  have same : k * c ≡ 2 * c [MOD 2 ^ 32] := Nat.ModEq.mul_right c two
  rw [same.dvd_iff dvd_rfl]
  omega

theorem onceLookedUp_iff {n k c : Nat} :
    OnceLookedUp n k c ↔ ∃ rounds, RunsOutIn n k c rounds ∧ turnsIn k c rounds ≤ 1 := by
  constructor
  · rintro (⟨low, zero⟩ | ⟨low, one, zero⟩)
    · exact ⟨0, runsOutIn_zero low zero, Nat.zero_le 1⟩
    · have ends := runsOutIn_one (c := c) low (by omega) ((dvd_of_one one).mpr zero)
      refine ⟨1, ends, ?_⟩
      rw [(turnsIn_one ends.counts).2, one]
  · rintro ⟨rounds, ends, few⟩
    have le := le_turnsIn ends.counts
    have zero := intOfSize_eq_zero_iff.mp ends.zero
    have low := ends.low
    match rounds with
    | 0 =>
        rw [pow_zero, Nat.mul_one] at zero
        exact .inl ⟨low, zero⟩
    | 1 =>
        obtain ⟨positive, turns⟩ := turnsIn_one ends.counts
        have one : k % 2 ^ 32 = 1 := by omega
        rw [pow_one, dvd_of_one one] at zero
        exact .inr ⟨low, one, zero⟩
    | rounds + 2 => omega

theorem onceRemoved_iff {n k c : Nat} :
    OnceRemoved n k c ↔
      ∃ rounds, RunsOutIn n k c rounds ∧ (c = 0 ∨ turnsIn k c rounds ≤ 2) := by
  constructor
  · rintro (⟨low, zero⟩ | ⟨low, positive, rfl | ⟨one, zero⟩ | ⟨two, zero⟩⟩)
    · exact ⟨0, runsOutIn_zero low zero, .inr (Nat.zero_le 2)⟩
    · exact ⟨1, runsOutIn_one low positive (dvd_zero _), .inl rfl⟩
    · have ends := runsOutIn_one (c := c) low positive ((dvd_of_one one).mpr zero)
      refine ⟨1, ends, .inr ?_⟩
      rw [(turnsIn_one ends.counts).2, one]
      exact one_le_two
    · have ends := runsOutIn_one (c := c) low positive ((dvd_of_two two).mpr zero)
      refine ⟨1, ends, .inr ?_⟩
      rw [(turnsIn_one ends.counts).2, two]
  · rintro ⟨rounds, ends, few⟩
    have le := le_turnsIn ends.counts
    have zero := intOfSize_eq_zero_iff.mp ends.zero
    have low := ends.low
    match rounds with
    | 0 =>
        rw [pow_zero, Nat.mul_one] at zero
        exact .inl ⟨low, zero⟩
    | rounds + 1 =>
        obtain ⟨positive, turns⟩ := turnsIn_one ends.counts
        refine .inr ⟨by omega, positive, ?_⟩
        rcases few with childless | few
        · exact .inl childless
        · refine .inr ?_
          match rounds with
          | 0 =>
              rw [pow_one] at zero
              rw [turns] at few
              rcases (show k % 2 ^ 32 = 1 ∨ k % 2 ^ 32 = 2 by omega) with one | two
              · exact .inl ⟨one, (dvd_of_one one).mp zero⟩
              · exact .inr ⟨two, (dvd_of_two two).mp zero⟩
          | 1 =>
              -- One turn in each of two rounds leaves a number that is not zero.
              have second := ends.counts 1 (by omega)
              rw [turnsIn, toNat_intOfSize second, turns, pow_one] at few
              rw [pow_one] at second
              have counted := (intOfSize_pos_iff.mp second).1
              have one : k % 2 ^ 32 = 1 := by omega
              have still : k * c % 2 ^ 32 = 1 := by omega
              rw [pow_two, ← Nat.mul_assoc, dvd_of_one still, ← dvd_of_one one] at zero
              omega
          | rounds + 2 => omega

section Fork

variable {before : List Crypto.Hash} {a first second : Crypto.Hash} {others : List Crypto.Hash}

theorem nodes_nodup_iff (tree : IsTree container.blocks (zeroBytes 32) genesis)
    (trunk : Trunk container.blocks genesis before a)
    (fork : children container.blocks a = first :: second :: others) (turns : Nat) :
    ((before ++ [a]) ++ List.replicate turns first).Nodup ↔ turns ≤ 1 := by
  constructor
  · intro nodup
    exact List.nodup_replicate.mp (List.nodup_append'.mp nodup).2.1
  · intro few
    have child : first ∈ children container.blocks a := by
      rw [fork]
      exact List.mem_cons_self
    refine List.nodup_append'.mpr ⟨trunk.nodup tree, List.nodup_replicate.mpr few, ?_⟩
    intro node old member
    obtain rfl := List.eq_of_mem_replicate member
    exact trunk.child_not_mem tree (trunk.nodup tree) child old

/-- Without grandchildren the children are removed one by one. -/
theorem popped_nodup_of_childless (tree : IsTree container.blocks (zeroBytes 32) genesis)
    (trunk : Trunk container.blocks genesis before a) (turns : Nat) :
    ((before ++ [a]) ++ forkPopped (children container.blocks a) [] turns).Nodup := by
  have nodup := trunk.nodup_append_children tree
  have removed := forkPopped_append_reverse (children container.blocks a) turns
  have sublist : (forkPopped (children container.blocks a) [] turns).Sublist
      (children container.blocks a).reverse := by
    rw [← removed]
    exact List.sublist_append_left _ _
  exact (((List.reverse_perm _).append_left _).nodup_iff.mpr nodup).sublist
    (sublist.append_left _)

/-- With grandchildren the last of them is removed in every turn from the second on. -/
theorem le_two_of_popped_nodup {kids grand removed : List Crypto.Hash} (some : grand ≠ [])
    {turns : Nat} (once : (removed ++ forkPopped kids grand turns).Nodup) : turns ≤ 2 := by
  by_contra more
  obtain ⟨turns, rfl⟩ := Nat.exists_eq_add_of_lt (Nat.lt_of_not_le more)
  rw [show 2 + turns + 1 = turns + 1 + 2 by omega, forkPopped_add_two some,
    forkPopped_add_two some] at once
  have twice := (List.nodup_append'.mp once).2.1
  exact (List.nodup_append'.mp twice).2.2
    (List.mem_append_right _ (List.mem_singleton_self _)) (List.mem_singleton_self _)

/-- The first turn removes the last child, and the second one the last grandchild. -/
theorem popped_nodup_of_le_two (tree : IsTree container.blocks (zeroBytes 32) genesis)
    (trunk : Trunk container.blocks genesis before a) (child : first ∈ children container.blocks a)
    (grand : children container.blocks first ≠ []) {turns : Nat} (few : turns ≤ 2) :
    ((before ++ [a]) ++ forkPopped (children container.blocks a)
      (children container.blocks first) turns).Nodup := by
  have kids : children container.blocks a ≠ [] := List.ne_nil_of_mem child
  have firstTurn := forkPopped_one kids (children container.blocks first)
  have one : ((before ++ [a]) ++ forkPopped (children container.blocks a)
      (children container.blocks first) 1).Nodup := by
    rw [firstTurn]
    exact List.Nodup.sublist ((List.singleton_sublist.mpr (List.getLast_mem kids)).append_left _)
      (trunk.nodup_append_children tree)
  rcases Nat.lt_or_eq_of_le few with fewer | rfl
  · cases turns with
    | zero => exact one.sublist ((List.nil_sublist _).append_left _)
    | succ turns =>
        obtain rfl : turns = 0 := by omega
        exact one
  · rw [forkPopped_add_two grand, ← List.append_assoc]
    refine List.nodup_append'.mpr ⟨one, List.nodup_singleton _, ?_⟩
    rw [List.disjoint_singleton, firstTurn]
    intro member
    apply trunk.grandchild_not_mem tree child (List.getLast_mem grand)
    rcases List.mem_append.mp member with old | last
    · exact List.mem_append_left _ old
    · rw [List.mem_singleton.mp last]
      exact List.mem_append_right _ (List.getLast_mem kids)

theorem popped_nodup_iff (tree : IsTree container.blocks (zeroBytes 32) genesis)
    (trunk : Trunk container.blocks genesis before a)
    (fork : children container.blocks a = first :: second :: others) (turns : Nat) :
    ((before ++ [a]) ++ forkPopped (first :: second :: others)
        (children container.blocks first) turns).Nodup ↔
      (children container.blocks first).length = 0 ∨ turns ≤ 2 := by
  have child : first ∈ children container.blocks a := by
    rw [fork]
    exact List.mem_cons_self
  rw [← fork]
  rcases eq_or_ne (children container.blocks first) [] with childless | grand
  · rw [childless]
    exact iff_of_true (popped_nodup_of_childless tree trunk turns) (.inl rfl)
  · rw [or_iff_right (List.length_pos_iff.mpr grand).ne']
    exact ⟨le_two_of_popped_nodup grand, popped_nodup_of_le_two tree trunk child grand⟩

end Fork

/-- Which blocks are looked up and removed, in terms of the numbers at the end of the trunk. -/
theorem once_iff_of_stem (tree : IsTree container.blocks (zeroBytes 32) genesis) {n k c : Nat}
    (stem : Stem container.blocks genesis n k c) :
    ((∃ b, container.Builds (.ok b) ∧ b.nodes.Nodup ∧ b.popped.Nodup) ↔ OnceLookedUp n k c) ∧
    ((∃ b, container.Builds (.ok b) ∧ b.popped.Nodup) ↔ OnceRemoved n k c) := by
  cases stem with
  | @leaf before a trunk leaf =>
      have nodup := trunk.nodup tree
      rw [exists_builds_iff_of_leaf tree trunk leaf fun b => b.nodes.Nodup ∧ b.popped.Nodup,
        exists_builds_iff_of_leaf tree trunk leaf fun b => b.popped.Nodup]
      constructor
      · constructor
        · exact fun ⟨low, _⟩ => .inl ⟨low, dvd_zero _⟩
        · rintro (⟨low, _⟩ | ⟨low, _⟩)
          · exact ⟨low, nodup, nodup⟩
          · exact ⟨low.le, nodup, nodup⟩
      · constructor
        · exact fun ⟨low, _⟩ => .inl ⟨low, dvd_zero _⟩
        · rintro (⟨low, _⟩ | ⟨low, _⟩)
          · exact ⟨low, nodup⟩
          · exact ⟨low.le, nodup⟩
  | @fork before a first second others trunk fork =>
      rw [exists_builds_iff_of_fork tree trunk fork fun b => b.nodes.Nodup ∧ b.popped.Nodup,
        exists_builds_iff_of_fork tree trunk fork fun b => b.popped.Nodup, onceLookedUp_iff,
        onceRemoved_iff]
      constructor
      · apply exists_congr
        intro rounds
        apply and_congr_right
        intro _
        simp only [turned, atFork, nodes_nodup_iff tree trunk fork,
          popped_nodup_iff tree trunk fork]
        omega
      · apply exists_congr
        intro rounds
        apply and_congr_right
        intro _
        exact popped_nodup_iff tree trunk fork _

end Runs

/-- `build_longest_chain` finds a longest chain whenever it returns exactly if it never
returns, for the number of nodes does not get zero at the end of the trunk. -/
theorem findsLongest_iff {container : BlockContainer} {genesis : Crypto.Hash}
    (tree : IsTree container.blocks (zeroBytes 32) genesis) :
    (∀ b, container.Builds (.ok b) → b.FindsLongest container.blocks genesis) ↔
      ∀ n k c, Stem container.blocks genesis n k c → ¬ RunsOut n k c := by
  constructor
  · intro finds n k c stem runsOut
    obtain ⟨b, builds⟩ := (returns_iff tree stem).mpr runsOut
    exact not_findsLongest_of_builds tree builds (finds b builds)
  · intro never b builds
    obtain ⟨n, k, c, stem⟩ := tree.exists_stem
    exact absurd ((returns_iff tree stem).mp ⟨b, builds⟩) (never n k c stem)

/-- A genesis with two children, one of which has a child.  The multimap may have the
children in either order. -/
def sampleTree (swapped : Bool) : BlockContainer where
  blocks :=
    let block : UInt8 → Crypto.Hash := List.Vector.replicate 32
    [(block 0, block 1), (block 1, block (if swapped then 3 else 2)),
      (block 1, block (if swapped then 2 else 3)), (block 3, block 4)]
  index := []

theorem isTree_sampleTree (swapped : Bool) :
    IsTree (sampleTree swapped).blocks (zeroBytes 32) (List.Vector.replicate 32 1) where
  first := by cases swapped <;> decide
  single := by cases swapped <;> decide
  outside := by cases swapped <;> decide
  reached := by
    intro edge member
    let kids := children (sampleTree swapped).blocks
    let root : Crypto.Hash := List.Vector.replicate 32 1
    have levels : (sampleTree swapped).blocks.map Prod.snd =
        root :: (kids root ++ (kids root).flatMap kids) := by
      cases swapped <;> decide
    have node := List.mem_map_of_mem (f := Prod.snd) member
    rw [levels] at node
    rcases List.mem_cons.mp node with same | lower
    · rw [same]
    · rcases List.mem_append.mp lower with child | grandchild
      · exact .single child
      · rcases List.mem_flatMap.mp grandchild with ⟨middle, child, grandchild⟩
        exact .tail (.single child) grandchild

theorem findsLongest_iff_sample :
    (∀ b, (sampleTree true).Builds (.ok b) →
      b.FindsLongest (sampleTree true).blocks (List.Vector.replicate 32 1)) ↔
      ∀ n k c, Stem (sampleTree true).blocks (List.Vector.replicate 32 1) n k c →
        ¬ RunsOut n k c :=
  findsLongest_iff (isTree_sampleTree true)

/-- With the childless child in front, the function returns two and leaves nothing in the
index. -/
theorem findsLongest_fails :
    ¬ ∀ (container : BlockContainer) (genesis : Crypto.Hash),
      IsTree container.blocks (zeroBytes 32) genesis →
      ∀ b, container.Builds (.ok b) → b.FindsLongest container.blocks genesis := by
  intro finds
  have tree := isTree_sampleTree false
  have builds : ∃ b, (sampleTree false).Builds (.ok b) := ⟨_, 3, rfl⟩
  rcases builds with ⟨b, builds⟩
  exact not_findsLongest_of_builds tree builds (finds _ _ tree b builds)

/-- `build_longest_chain` returns, having looked up and removed each block once at most,
exactly if there is no fork, or the number of nodes gets zero before a second turn at the first
one.  It returns, having removed each block once at most, exactly if there is no fork, or the
first child at the first one has no children, or the number of nodes gets zero before a third
turn there. -/
theorem dequeuesOnce_iff {container : BlockContainer} {genesis : Crypto.Hash}
    (tree : IsTree container.blocks (zeroBytes 32) genesis) :
    ((∃ b, container.Builds (.ok b) ∧ b.nodes.Nodup ∧ b.popped.Nodup) ↔
      ∃ n k c, Stem container.blocks genesis n k c ∧ OnceLookedUp n k c) ∧
    ((∃ b, container.Builds (.ok b) ∧ b.popped.Nodup) ↔
      ∃ n k c, Stem container.blocks genesis n k c ∧ OnceRemoved n k c) := by
  obtain ⟨n, k, c, stem⟩ := tree.exists_stem
  constructor
  · constructor
    · intro once
      exact ⟨n, k, c, stem, (once_iff_of_stem tree stem).1.mp once⟩
    · rintro ⟨n, k, c, stem, few⟩
      exact (once_iff_of_stem tree stem).1.mpr few
  · constructor
    · intro once
      exact ⟨n, k, c, stem, (once_iff_of_stem tree stem).2.mp once⟩
    · rintro ⟨n, k, c, stem, few⟩
      exact (once_iff_of_stem tree stem).2.mpr few

theorem dequeuesOnce_iff_sample :
    ((∃ b, (sampleTree false).Builds (.ok b) ∧ b.nodes.Nodup ∧ b.popped.Nodup) ↔
      ∃ n k c, Stem (sampleTree false).blocks (List.Vector.replicate 32 1) n k c ∧
        OnceLookedUp n k c) ∧
    ((∃ b, (sampleTree false).Builds (.ok b) ∧ b.popped.Nodup) ↔
      ∃ n k c, Stem (sampleTree false).blocks (List.Vector.replicate 32 1) n k c ∧
        OnceRemoved n k c) :=
  dequeuesOnce_iff (isTree_sampleTree false)

/-- With the other child in front, the function does not return. -/
theorem dequeuesOnce_fails :
    ¬ ∀ (container : BlockContainer) (genesis : Crypto.Hash),
      IsTree container.blocks (zeroBytes 32) genesis →
      ∃ b, container.Builds (.ok b) ∧ b.nodes.Nodup ∧ b.popped.Nodup := by
  intro ends
  have tree := isTree_sampleTree true
  obtain ⟨b, builds, _⟩ := ends _ _ tree
  have fork : children (sampleTree true).blocks (List.Vector.replicate 32 1) =
      [List.Vector.replicate 32 3, List.Vector.replicate 32 2] := by decide
  have stem : Stem (sampleTree true).blocks (List.Vector.replicate 32 1) 1 2
      (children (sampleTree true).blocks (List.Vector.replicate 32 3)).length :=
    .fork .root fork
  have one : (children (sampleTree true).blocks (List.Vector.replicate 32 3)).length = 1 := by
    decide
  rw [one] at stem
  -- The number of nodes is two in every round.
  obtain ⟨rounds, runsOut⟩ := (returns_iff tree stem).mp ⟨b, builds⟩
  have zero := runsOut.zero
  rw [one_pow, Nat.mul_one] at zero
  cases zero

end IotChain
