import IotChain.Core.BlockContainer
import IotChain.Graph.Tree
import IotChain.Transition.Loop
import Mathlib.Data.Nat.ModEq

/-!
# The rounds of build_longest_chain

`build_longest_chain` goes over the tree of blocks level by level, with `index_` for its
queue.  It reads the block at the front of the deque and removes the one at the back.  At a
fork the front stays the same, and the children of the first child are pushed once for each
block that is removed.  The size of the deque becomes an `int` in front of each level, so that
only its low 32 bits decide how the function goes on.
-/

namespace IotChain

open IotChain.Bytes IotChain.Graph IotChain.Transition

/-! ## Sizes as numbers of type int -/

/-- The largest `int`. -/
def intMax : Nat := 2 ^ 31 - 1

/-- `int nodeCount = index_.size()`: the low 32 bits of the size, with a sign. -/
def intOfSize (size : Nat) : Int := (BitVec.ofNat 32 size).toInt

theorem intOfSize_eq (size : Nat) :
    intOfSize size =
      if 2 * (size % 2 ^ 32) < 2 ^ 32 then ((size % 2 ^ 32 : Nat) : Int)
      else ((size % 2 ^ 32 : Nat) : Int) - (2 ^ 32 : Nat) := by
  rw [intOfSize, BitVec.toInt_eq_toNat_cond, BitVec.toNat_ofNat]

theorem intOfSize_eq_zero_iff {size : Nat} : intOfSize size = 0 ↔ 2 ^ 32 ∣ size := by
  rw [intOfSize_eq]
  split <;> omega

theorem intOfSize_pos_iff {size : Nat} :
    0 < intOfSize size ↔ 0 < size % 2 ^ 32 ∧ size % 2 ^ 32 < 2 ^ 31 := by
  rw [intOfSize_eq]
  split <;> omega

theorem toNat_intOfSize {size : Nat} (pos : 0 < intOfSize size) :
    (intOfSize size).toNat = size % 2 ^ 32 := by
  rw [intOfSize_eq] at pos ⊢
  split at pos <;> omega

theorem intOfSize_congr {size other : Nat} (same : size ≡ other [MOD 2 ^ 32]) :
    intOfSize size = intOfSize other := by
  have low : size % 2 ^ 32 = other % 2 ^ 32 := same
  rw [intOfSize_eq, intOfSize_eq, low]

/-! ## The function -/

/-- What the loops of `build_longest_chain` work on.  The index holds copies of hashes, with
as much memory as it takes.  `height` is an `int` that only grows from 0.  The blocks that have
been `node` and those that have been removed from the deque are kept as well, in their order. -/
structure Building where
  index : BlockIndex
  height : Nat
  nodes : List Crypto.Hash
  popped : List Crypto.Hash

namespace Building

variable (blocks : List (Crypto.Hash × Crypto.Hash))

/-- `equal_range` of the multimap. -/
def equalRange (node : Crypto.Hash) : List (Crypto.Hash × Crypto.Hash) :=
  blocks.filter (·.1 = node)

/-- The body of the inner loop. -/
def dequeue (b : Building) : Except ContainerFailure Building := do
  -- `node` refers to an element of the deque; its bytes outlive the removal.
  let node ← b.index.frontBlock
  let popped := b.popped ++ b.index.getLast?.toList
  let index := (equalRange blocks node).foldl (fun index entry => index.push entry.2) b.index.pop
  return { b with index, nodes := b.nodes ++ [node], popped }

/-- The inner loop, which `nodeCount` counts down. -/
def level : Nat → Building → Except ContainerFailure Building
  | 0, b => return b
  | nodeCount + 1, b => do
      let b ← b.dequeue blocks
      level nodeCount b

/-- The body of the outer loop. -/
def round : Body Building (Except ContainerFailure Building) := fun b =>
  let nodeCount := intOfSize b.index.size
  if nodeCount = 0 then
    .inr (return b)
  else if b.height < intMax then
    -- The inner loop does nothing if `nodeCount` is negative.
    match level blocks nodeCount.toNat { b with height := b.height + 1 } with
    | .ok b => .inl b
    | .error failure => .inr (throw failure)
  else
    .inr (throw .overflow)

end Building

open Building

/-- `build_longest_chain` in front of the loops. -/
def BlockContainer.enterChain (container : BlockContainer) :
    Building ⊕ Except ContainerFailure Building :=
  let index := container.index.clear
  if container.blocks.isEmpty then
    .inr (return ⟨index, 0, [], []⟩)
  else
    match container.blocks.find? (·.1 = zeroBytes 32) with
    | some entry => .inl ⟨index.push entry.2, 0, [], []⟩
    | none => .inr (throw .outOfBounds)

/-- `block_container::build_longest_chain`, for so many rounds of the outer loop. -/
def BlockContainer.buildLongestChain (container : BlockContainer) (rounds : Nat) :
    Building ⊕ Except ContainerFailure Building :=
  match container.enterChain with
  | .inl b => iterate (round container.blocks) rounds b
  | .inr result => .inr result

/-- `build_longest_chain` comes to an end, in this state or with a failure. -/
def BlockContainer.Builds (container : BlockContainer)
    (result : Except ContainerFailure Building) : Prop :=
  ∃ rounds, container.buildLongestChain rounds = .inr result

namespace Building

variable (blocks : List (Crypto.Hash × Crypto.Hash))

/-! ## One round -/

theorem foldl_push (index : BlockIndex) (node : Crypto.Hash) :
    (equalRange blocks node).foldl (fun index entry => index.push entry.2) index =
      index ++ children blocks node := by
  rw [children, equalRange]
  generalize blocks.filter (·.1 = node) = range
  induction range generalizing index with
  | nil => exact (List.append_nil index).symm
  | cons entry range ih =>
      rw [List.foldl_cons, ih, BlockIndex.push, List.append_assoc]
      rfl

/-- The block at the front is looked up, and the one at the back is removed. -/
theorem dequeue_cons (node : Crypto.Hash) (others : List Crypto.Hash) (height : Nat)
    (nodes popped : List Crypto.Hash) :
    dequeue blocks ⟨node :: others, height, nodes, popped⟩ =
      .ok ⟨(node :: others).dropLast ++ children blocks node, height, nodes ++ [node],
        popped ++ [(node :: others).getLast (List.cons_ne_nil _ _)]⟩ := by
  rw [dequeue]
  simp only [BlockIndex.frontBlock, List.head?_cons, pure_bind, foldl_push, BlockIndex.pop,
    List.getLast?_eq_getLast_of_ne_nil (List.cons_ne_nil node others), Option.toList_some]
  rfl

variable {blocks}

theorem round_of_zero {b : Building} (zero : intOfSize b.index.size = 0) :
    round blocks b = .inr (.ok b) := by
  rw [round]
  exact if_pos zero

theorem round_of_level {b next : Building} (nonzero : intOfSize b.index.size ≠ 0)
    (low : b.height < intMax)
    (run : level blocks (intOfSize b.index.size).toNat { b with height := b.height + 1 } =
      .ok next) : round blocks b = .inl next := by
  simp only [round]
  rw [if_neg nonzero, if_pos low, run]

theorem round_of_overflow {b : Building} (nonzero : intOfSize b.index.size ≠ 0)
    (high : ¬ b.height < intMax) : round blocks b = .inr (.error .overflow) := by
  simp only [round]
  rw [if_neg nonzero, if_neg high]
  rfl

/-- A negative number of nodes only raises the height. -/
theorem round_of_negative {b : Building} (negative : intOfSize b.index.size < 0) :
    (∃ next, round blocks b = .inl next ∧ intOfSize next.index.size < 0) ∨
      round blocks b = .inr (.error .overflow) := by
  by_cases low : b.height < intMax
  · refine .inl ⟨{ b with height := b.height + 1 }, ?_, negative⟩
    apply round_of_level negative.ne low
    rw [Int.toNat_of_nonpos negative.le]
    rfl
  · exact .inr (round_of_overflow negative.ne low)

/-- A single block is replaced by its children. -/
theorem round_singleton (node : Crypto.Hash) {height : Nat} (low : height < intMax)
    (nodes popped : List Crypto.Hash) :
    round blocks ⟨[node], height, nodes, popped⟩ =
      .inl ⟨children blocks node, height + 1, nodes ++ [node], popped ++ [node]⟩ := by
  have one : intOfSize (BlockIndex.size [node]) = 1 := by rfl
  apply round_of_level
  · rw [one]
    exact one_ne_zero
  · exact low
  · simp only [one]
    exact bind_of_eq_ok (dequeue_cons blocks node [] (height + 1) nodes popped) (level blocks 0)

theorem height_of_dequeue {b next : Building} (run : b.dequeue blocks = .ok next) :
    next.height = b.height := by
  rcases bind_eq_ok_iff.mp run with ⟨node, _, same⟩
  cases same
  rfl

theorem height_of_level {nodeCount : Nat} {b next : Building}
    (run : level blocks nodeCount b = .ok next) : next.height = b.height := by
  induction nodeCount generalizing b with
  | zero =>
      cases run
      rfl
  | succ nodeCount ih =>
      rcases bind_eq_ok_iff.mp run with ⟨middle, first, rest⟩
      exact (ih rest).trans (height_of_dequeue first)

/-- A round that goes on raises the height by one, which stays an `int`. -/
theorem height_of_round {b next : Building} (goes : round blocks b = .inl next) :
    next.height = b.height + 1 ∧ b.height < intMax := by
  by_cases zero : intOfSize b.index.size = 0
  · rw [round_of_zero zero] at goes
    cases goes
  · by_cases low : b.height < intMax
    · simp only [round] at goes
      rw [if_neg zero, if_pos low] at goes
      split at goes
      next reached run =>
        cases goes
        exact ⟨height_of_level run, low⟩
      next => cases goes
    · rw [round_of_overflow zero low] at goes
      cases goes

theorem ended_of_round {b last : Building} (leaves : round blocks b = .inr (.ok last)) :
    last = b ∧ 2 ^ 32 ∣ b.index.length := by
  by_cases zero : intOfSize b.index.size = 0
  · rw [round_of_zero zero] at leaves
    cases leaves
    exact ⟨rfl, intOfSize_eq_zero_iff.mp zero⟩
  · simp only [round] at leaves
    rw [if_neg zero] at leaves
    split at leaves
    · split at leaves <;> cases leaves
    · cases leaves

/-- Where the loop ends, the low bits of the size are all zero, and the height is an `int`. -/
theorem ended_of_exits {start last : Building} (low : start.height ≤ intMax)
    (run : Exits (round blocks) start (.ok last)) :
    2 ^ 32 ∣ last.index.length ∧ last.height ≤ intMax := by
  rcases run with ⟨n, run⟩
  rcases iterate_eq_inr_iff.mp run with ⟨k, _, b, reached, leaves⟩
  obtain ⟨rfl, zero⟩ := ended_of_round leaves
  have kept : last.height ≤ intMax := by
    apply Reaches.of_invariant (fun b => b.height ≤ intMax) _ low ⟨k, reached⟩
    intro b next _ goes
    obtain ⟨height, low⟩ := height_of_round goes
    rw [height]
    exact low
  exact ⟨zero, kept⟩

variable (blocks) in
/-- The height is an `int`, so that the loop cannot go round forever. -/
theorem exits_of_low (start : Building) : ∃ result, Exits (round blocks) start result := by
  apply exits_of_measure (fun _ => True) (fun b => intMax - b.height) _ trivial
  intro b next _ goes
  obtain ⟨height, low⟩ := height_of_round goes
  exact ⟨trivial, by omega⟩

/-! ## A fork -/

section Fork

variable (kids grand : List Crypto.Hash)

/-- The index behind so many turns of the inner loop, each of which removes the block at the
back and pushes the children of the first one. -/
def forkIndex : Nat → BlockIndex
  | 0 => kids
  | turns + 1 => (forkIndex turns).dropLast ++ grand

/-- The blocks that so many turns remove. -/
def forkPopped : Nat → List Crypto.Hash
  | 0 => []
  | turns + 1 => forkPopped turns ++ (forkIndex kids grand turns).getLast?.toList

/-- The turns in so many rounds, if the sizes of the levels are these powers. -/
def turnsIn (k c : Nat) : Nat → Nat
  | 0 => 0
  | rounds + 1 => turnsIn k c rounds + (intOfSize (k * c ^ rounds)).toNat

/-- In each of so many rounds the number of nodes is positive. -/
def Counts (k c rounds : Nat) : Prop := ∀ i < rounds, 0 < intOfSize (k * c ^ i)

/-- Behind so many rounds that count, the number of nodes is zero, and the height is still an
`int`. -/
structure RunsOutIn (height k c rounds : Nat) : Prop where
  counts : Counts k c rounds
  zero : intOfSize (k * c ^ rounds) = 0
  low : height + rounds ≤ intMax

/-- Levels of `k`, `k * c`, `k * c ^ 2` and so on nodes come to an end. -/
def RunsOut (height k c : Nat) : Prop := ∃ rounds, RunsOutIn height k c rounds

variable {kids grand}

/-- The front stays while there is a block behind it. -/
theorem forkIndex_eq_cons (first : Crypto.Hash) {others : List Crypto.Hash} (two : others ≠ [])
    (turns : Nat) (goes : turns < others.length + 1 ∨ grand ≠ []) :
    ∃ rest, forkIndex (first :: others) grand turns = first :: rest ∧
      (grand ≠ [] → rest ≠ []) ∧
      rest.length + 1 + turns = others.length + 1 + turns * grand.length := by
  induction turns with
  | zero => exact ⟨others, rfl, fun _ => two, by omega⟩
  | succ turns ih =>
      obtain ⟨rest, index, more, length⟩ := ih (goes.imp_left Nat.lt_of_succ_lt)
      have nonempty : rest ≠ [] := by
        rintro rfl
        have childless : grand = [] := by
          by_contra children
          exact more children rfl
        subst childless
        rcases goes with few | children
        · simp at length
          omega
        · exact children rfl
      refine ⟨rest.dropLast ++ grand, ?_, List.append_ne_nil_of_right_ne_nil _, ?_⟩
      · rw [forkIndex, index, List.dropLast_cons_of_ne_nil nonempty]
        rfl
      · have pos := List.length_pos_iff.mpr nonempty
        rw [List.length_append, List.length_dropLast, Nat.succ_mul]
        omega

theorem length_forkIndex (first : Crypto.Hash) {others : List Crypto.Hash} (two : others ≠ [])
    (turns : Nat) (goes : turns ≤ others.length + 1 ∨ grand ≠ []) :
    (forkIndex (first :: others) grand turns).length + turns =
      others.length + 1 + turns * grand.length := by
  cases turns with
  | zero => simp [forkIndex]
  | succ turns =>
      obtain ⟨rest, index, -, length⟩ :=
        forkIndex_eq_cons first two turns (goes.imp_left Nat.lt_of_succ_le)
      rw [forkIndex, index, List.length_append, List.length_dropLast, List.length_cons,
        Nat.succ_mul]
      omega

/-- Without grandchildren the children are removed one after the other. -/
theorem forkPopped_append_reverse (kids : List Crypto.Hash) (turns : Nat) :
    forkPopped kids [] turns ++ (forkIndex kids [] turns).reverse = kids.reverse := by
  induction turns with
  | zero => rfl
  | succ turns ih =>
      rw [← ih, forkPopped, forkIndex, List.append_nil, List.append_assoc]
      congr 1
      rcases List.eq_nil_or_concat (forkIndex kids [] turns) with empty | ⟨front, last, index⟩
      · rw [empty]
        rfl
      · rw [index, List.concat_eq_append, List.getLast?_concat, List.dropLast_concat,
          List.reverse_append]
        rfl

theorem forkPopped_one {kids : List Crypto.Hash} (some : kids ≠ []) (grand : List Crypto.Hash) :
    forkPopped kids grand 1 = [kids.getLast some] := by
  rw [forkPopped, forkPopped, forkIndex, List.getLast?_eq_getLast_of_ne_nil some]
  rfl

/-- With grandchildren every turn but the first removes the last of them. -/
theorem forkPopped_add_two (children : grand ≠ []) (turns : Nat) :
    forkPopped kids grand (turns + 2) =
      forkPopped kids grand (turns + 1) ++ [grand.getLast children] := by
  rw [forkPopped, forkIndex, List.getLast?_append_of_ne_nil _ children,
    List.getLast?_eq_getLast_of_ne_nil children]
  rfl

/-- Each round that counts makes a turn. -/
theorem le_turnsIn {k c rounds : Nat} (counts : Counts k c rounds) :
    rounds ≤ turnsIn k c rounds := by
  induction rounds with
  | zero => exact Nat.zero_le _
  | succ rounds ih =>
      have before := ih fun i lt => counts i (Nat.lt_succ_of_lt lt)
      have positive := counts rounds (Nat.lt_succ_self rounds)
      rw [turnsIn]
      omega

/-- The sizes of the levels are powers, up to multiples of `2 ^ 32`. -/
theorem length_turnsIn (first : Crypto.Hash) {others : List Crypto.Hash} (two : others ≠ [])
    {rounds : Nat} (counts : Counts (others.length + 1) grand.length rounds) :
    (turnsIn (others.length + 1) grand.length rounds ≤ others.length + 1 ∨ grand ≠ []) ∧
      (forkIndex (first :: others) grand
        (turnsIn (others.length + 1) grand.length rounds)).length ≡
          (others.length + 1) * grand.length ^ rounds [MOD 2 ^ 32] := by
  induction rounds with
  | zero =>
      refine ⟨.inl (Nat.zero_le _), ?_⟩
      rw [turnsIn, forkIndex, pow_zero, Nat.mul_one]
      exact Nat.ModEq.refl _
  | succ rounds ih =>
      obtain ⟨goes, size⟩ := ih fun i lt => counts i (Nat.lt_succ_of_lt lt)
      have count : (intOfSize ((others.length + 1) * grand.length ^ rounds)).toNat =
          (forkIndex (first :: others) grand
            (turnsIn (others.length + 1) grand.length rounds)).length % 2 ^ 32 := by
        rw [toNat_intOfSize (counts rounds (Nat.lt_succ_self rounds))]
        exact size.symm
      have before := length_forkIndex first two _ goes
      rw [turnsIn, count]
      generalize turnsIn (others.length + 1) grand.length rounds = turns at goes size before ⊢
      generalize sizeEq : (forkIndex (first :: others) grand turns).length = length
        at size before ⊢
      have le := Nat.mod_le length (2 ^ 32)
      have still : turns + length % 2 ^ 32 ≤ others.length + 1 ∨ grand ≠ [] := by
        rcases eq_or_ne grand [] with rfl | children
        · left
          simp at before
          omega
        · exact .inr children
      refine ⟨still, ?_⟩
      have behind := length_forkIndex first two _ still
      generalize (forkIndex (first :: others) grand (turns + length % 2 ^ 32)).length = next
        at behind ⊢
      have sum : next + length % 2 ^ 32 = length + length % 2 ^ 32 * grand.length := by
        rw [Nat.add_mul] at behind
        omega
      have low : length % 2 ^ 32 ≡ length [MOD 2 ^ 32] := Nat.mod_modEq length (2 ^ 32)
      have same : next + length % 2 ^ 32 ≡ length * grand.length + length % 2 ^ 32 [MOD 2 ^ 32] :=
        calc
          next + length % 2 ^ 32 ≡ length + length % 2 ^ 32 * grand.length [MOD 2 ^ 32] := by
            rw [sum]
          _ ≡ length % 2 ^ 32 + length * grand.length [MOD 2 ^ 32] :=
            low.symm.add (low.mul_right _)
          _ ≡ length * grand.length + length % 2 ^ 32 [MOD 2 ^ 32] := by rw [Nat.add_comm]
      rw [pow_succ grand.length, ← Nat.mul_assoc]
      exact (same.add_right_cancel').trans (size.mul_right _)

end Fork

/-- The index has this block at the front and others behind it. -/
def Stuck (first : Crypto.Hash) (b : Building) : Prop :=
  ∃ others, others ≠ [] ∧ b.index = first :: others

variable (blocks) in
/-- What becomes of a fork in so many turns of the inner loop and rounds of the outer one. -/
def turned (first : Crypto.Hash) (start : Building) (turns rounds : Nat) : Building where
  index := forkIndex start.index (children blocks first) turns
  height := start.height + rounds
  nodes := start.nodes ++ List.replicate turns first
  popped := start.popped ++ forkPopped start.index (children blocks first) turns

section Turns

variable {first : Crypto.Hash} {start : Building}

theorem turned_zero : start.turned blocks first 0 0 = start := by
  simp [turned, forkIndex, forkPopped]

theorem Stuck.dequeue (stuck : start.Stuck first) {turns : Nat} (rounds : Nat)
    (goes : turns < start.index.length ∨ children blocks first ≠ []) :
    (start.turned blocks first turns rounds).dequeue blocks =
      .ok (start.turned blocks first (turns + 1) rounds) := by
  obtain ⟨others, two, front⟩ := stuck
  rw [front] at goes
  obtain ⟨rest, index, -, -⟩ := forkIndex_eq_cons first two turns goes
  rw [← front] at index
  have last := List.getLast?_eq_getLast_of_ne_nil (List.cons_ne_nil first rest)
  simp only [turned, forkIndex, forkPopped, index]
  rw [dequeue_cons, last, Option.toList_some, List.replicate_succ', List.append_assoc,
    List.append_assoc]

theorem Stuck.level (stuck : start.Stuck first) (count : Nat) {turns : Nat} (rounds : Nat)
    (goes : turns + count ≤ start.index.length ∨ children blocks first ≠ []) :
    level blocks count (start.turned blocks first turns rounds) =
      .ok (start.turned blocks first (turns + count) rounds) := by
  induction count generalizing turns with
  | zero => rfl
  | succ count ih =>
      have one := stuck.dequeue rounds (goes.imp_left fun le => Nat.lt_of_lt_of_le
        (Nat.lt_add_of_pos_right (Nat.succ_pos count)) le)
      have others : turns + 1 + count ≤ start.index.length ∨ children blocks first ≠ [] :=
        goes.imp_left fun le => by omega
      rw [Building.level, bind_of_eq_ok one, ih others, Nat.add_right_comm, Nat.add_assoc]

/-- The turns in so many rounds at this fork. -/
def forkTurns (blocks : List (Crypto.Hash × Crypto.Hash)) (first : Crypto.Hash)
    (start : Building) (rounds : Nat) : Nat :=
  turnsIn start.index.length (children blocks first).length rounds

/-- At a fork each round that counts makes as many turns as its level has nodes. -/
theorem Stuck.size (stuck : start.Stuck first) {rounds : Nat}
    (counts : Counts start.index.length (children blocks first).length rounds) (raised : Nat) :
    let turns := forkTurns blocks first start rounds
    (turns ≤ start.index.length ∨ children blocks first ≠ []) ∧
      intOfSize (start.turned blocks first turns raised).index.size =
        intOfSize (start.index.length * (children blocks first).length ^ rounds) := by
  obtain ⟨others, two, front⟩ := stuck
  rw [front] at counts
  have sizes := length_turnsIn first two counts
  simp only [forkTurns, turned, front]
  exact ⟨sizes.1, intOfSize_congr sizes.2⟩

/-- Such a round goes on at the fork. -/
theorem Stuck.round (stuck : start.Stuck first) {rounds : Nat}
    (counts : Counts start.index.length (children blocks first).length (rounds + 1))
    (low : start.height + rounds < intMax) :
    let turns := forkTurns blocks first start
    round blocks (start.turned blocks first (turns rounds) rounds) =
      .inl (start.turned blocks first (turns (rounds + 1)) (rounds + 1)) := by
  have fewer : Counts start.index.length (children blocks first).length rounds :=
    fun i lt => counts i (Nat.lt_succ_of_lt lt)
  have count := (stuck.size fewer rounds).2
  have positive := counts rounds (Nat.lt_succ_self rounds)
  have goes := (stuck.size counts 0).1
  apply round_of_level
  · rw [count]
    exact positive.ne'
  · exact low
  · rw [count]
    exact stuck.level _ (rounds + 1) goes

/-- At a fork the rounds go on as long as they count. -/
theorem Stuck.reaches (stuck : start.Stuck first) {rounds : Nat}
    (counts : Counts start.index.length (children blocks first).length rounds)
    (low : start.height + rounds ≤ intMax) :
    Reaches (Building.round blocks) start
      (start.turned blocks first (forkTurns blocks first start rounds) rounds) := by
  induction rounds with
  | zero =>
      rw [forkTurns, turnsIn, turned_zero]
      exact .refl _ _
  | succ rounds ih =>
      have before := ih (fun i lt => counts i (Nat.lt_succ_of_lt lt)) (Nat.le_of_succ_le low)
      exact before.trans (.single (stuck.round counts low))

/-- The loop has come back from a fork. -/
def Returned (blocks : List (Crypto.Hash × Crypto.Hash)) (first : Crypto.Hash)
    (start : Building) (result : Except ContainerFailure Building) : Prop :=
  ∃ rounds, RunsOutIn start.height start.index.length (children blocks first).length rounds ∧
    result = .ok (start.turned blocks first (forkTurns blocks first start rounds) rounds)

/-- How the loop ends that comes to a fork. -/
def EndsAtFork (blocks : List (Crypto.Hash × Crypto.Hash)) (first : Crypto.Hash)
    (start : Building) (result : Except ContainerFailure Building) : Prop :=
  Returned blocks first start result ∨
  (¬ RunsOut start.height start.index.length (children blocks first).length ∧
    result = .error .overflow)

/-- All of so many rounds at the fork have counted. -/
structure Counted (blocks : List (Crypto.Hash × Crypto.Hash)) (first : Crypto.Hash)
    (start : Building) (rounds : Nat) (b : Building) : Prop where
  counts : Counts start.index.length (children blocks first).length rounds
  low : start.height + rounds ≤ intMax
  same : b = start.turned blocks first (forkTurns blocks first start rounds) rounds

/-- A round at the fork counts, or comes back, or makes the number of nodes negative, or is one
too many. -/
theorem Stuck.round_counted (stuck : start.Stuck first) {rounds : Nat} {b : Building}
    (counted : Counted blocks first start rounds b) :
    (∃ next, Building.round blocks b = .inl next ∧
      (Counted blocks first start (rounds + 1) next ∨ intOfSize next.index.size < 0)) ∨
    (∃ result, Building.round blocks b = .inr result ∧
      (Returned blocks first start result ∨ result = .error .overflow)) := by
  obtain ⟨counts, low, rfl⟩ := counted
  have count := (stuck.size counts rounds).2
  rcases lt_trichotomy (intOfSize
    (start.index.length * (children blocks first).length ^ rounds)) 0 with neg | zero | pos
  · rw [← count] at neg
    rcases round_of_negative neg with ⟨next, goes, negative⟩ | full
    · exact .inl ⟨next, goes, .inr negative⟩
    · exact .inr ⟨_, full, .inr rfl⟩
  · exact .inr ⟨_, round_of_zero (count.trans zero), .inl ⟨rounds, ⟨counts, zero, low⟩, rfl⟩⟩
  · have more : Counts start.index.length (children blocks first).length (rounds + 1) := by
      intro i lt
      rcases Nat.lt_succ_iff_lt_or_eq.mp lt with before | rfl
      · exact counts i before
      · exact pos
    rcases Nat.lt_or_eq_of_le low with further | full
    · exact .inl ⟨_, stuck.round more further, .inl ⟨more, further, rfl⟩⟩
    · exact .inr ⟨_, round_of_overflow (count.trans_ne pos.ne') full.not_lt, .inr rfl⟩

theorem Stuck.ends (stuck : start.Stuck first) (low : start.height ≤ intMax)
    {result : Except ContainerFailure Building} (run : Exits (Building.round blocks) start result) :
    Returned blocks first start result ∨ result = .error .overflow := by
  apply run.of_invariant
    (fun b => (∃ rounds, Counted blocks first start rounds b) ∨ intOfSize b.index.size < 0)
    (fun result => Returned blocks first start result ∨ result = .error .overflow)
  · rintro b (⟨rounds, counted⟩ | negative)
    · rcases stuck.round_counted counted with ⟨next, goes, kept⟩ | ⟨result, leaves, ended⟩
      · rw [goes]
        exact kept.imp_left fun counted => ⟨rounds + 1, counted⟩
      · rw [leaves]
        exact ended
    · rcases round_of_negative negative with ⟨next, goes, negative⟩ | full
      · rw [goes]
        exact .inr negative
      · rw [full]
        exact .inr rfl
  · exact .inl ⟨0, fun i lt => absurd lt (Nat.not_lt_zero i), low, turned_zero.symm⟩

/-- The function comes back from a fork exactly if the number of nodes gets zero before it gets
negative, and in time. -/
theorem Stuck.exits_iff (stuck : start.Stuck first) (low : start.height ≤ intMax)
    (result : Except ContainerFailure Building) :
    Exits (Building.round blocks) start result ↔ EndsAtFork blocks first start result := by
  have returns {rounds : Nat} (ends : RunsOutIn start.height start.index.length
      (children blocks first).length rounds) : Exits (Building.round blocks) start
        (.ok (start.turned blocks first (forkTurns blocks first start rounds) rounds)) := by
    have zero := (stuck.size ends.counts rounds).2.trans ends.zero
    rw [(stuck.reaches ends.counts ends.low).exits_iff]
    exact exits_of_inr (round_of_zero zero)
  constructor
  · intro run
    rcases stuck.ends low run with came | rfl
    · exact .inl came
    · refine .inr ⟨?_, rfl⟩
      rintro ⟨rounds, ends⟩
      cases run.unique (returns ends)
  · rintro (⟨rounds, ends, rfl⟩ | ⟨never, rfl⟩)
    · exact returns ends
    · obtain ⟨result, run⟩ := exits_of_low blocks start
      rcases stuck.ends low run with ⟨rounds, ends, _⟩ | rfl
      · exact absurd ⟨rounds, ends⟩ never
      · exact run

end Turns

end Building

end IotChain
