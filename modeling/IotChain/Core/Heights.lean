import IotChain.Core.BlockContainer
import IotChain.Store.Positions
import IotChain.Transition.Events

/-!
# Heights and hashes

`block_index` looks a hash up by its height and a height by its hash.  The hashes are
different, so that these are positions in a list and back, but the assertion of `block_at`
also lets the height pass that is one past the end.
-/

namespace IotChain

open IotChain.Bytes IotChain.Store IotChain.Transition

namespace BlockIndex

/-! ## Looking up -/

/-- `block_index::has_block`. -/
def hasBlock (index : BlockIndex) (hash : Crypto.Hash) : Bool := (index.idxOf? hash).isSome

/-- `block_index::block_height`, where the distance becomes a `uint32_t`. -/
def blockHeight (index : BlockIndex) (hash : Crypto.Hash) : Except ContainerFailure UInt32 :=
  match index.idxOf? hash with
  | some distance => return UInt32.ofNat distance
  | none => throw (.thrown (.runtimeError "cannot find blockhash"))

/-- The operations that change an index. -/
inductive Change
  | push (hash : Crypto.Hash)
  | pop
  | clear

/-- Only new hashes are pushed.  Nothing can be popped from an empty deque. -/
def react : Reaction BlockIndex Change
  | index, .push hash => if hash ∈ index then none else some (index.push hash)
  | index, .pop => if index.isEmpty then none else some index.pop
  | index, .clear => some index.clear

/-! ## What is looked up -/

/-- The height belongs to a hash of the index. -/
def Located (index : BlockIndex) (height : UInt32) : Prop :=
  ∃ hash ∈ index, index.blockAt height.toNat = .ok hash ∧ index.blockHeight hash = .ok height

/-- The hash is found again at its height. -/
def Recovered (index : BlockIndex) (hash : Crypto.Hash) : Prop :=
  ∃ height, index.blockHeight hash = .ok height ∧ index.blockAt height.toNat = .ok hash

/-- The three lookups agree: at every height that the assertion of `block_at` lets pass, and
on every hash. -/
structure Agrees (index : BlockIndex) : Prop where
  contained : ∀ hash, index.hasBlock hash = true ↔ hash ∈ index
  located : ∀ height : UInt32, height.toNat ≤ index.size → index.Located height
  recovered : ∀ hash ∈ index, index.Recovered hash

variable {index : BlockIndex}

theorem hasBlock_iff (index : BlockIndex) (hash : Crypto.Hash) :
    index.hasBlock hash = true ↔ hash ∈ index :=
  List.isSome_idxOf?

theorem blockAt_eq_ok_iff (distinct : index.Nodup) {height : Nat} {hash : Crypto.Hash} :
    index.blockAt height = .ok hash ↔ positions distinct height = some hash := by
  change _ ↔ index[height]? = some hash
  rw [blockAt]
  by_cases inside : height < index.length
  · rw [if_pos (Nat.le_of_lt inside), List.getElem?_eq_getElem inside]
    rw [Option.some_inj]
    exact ⟨Except.ok.inj, congrArg Except.ok⟩
  · have nothing : index[height]? = none := List.getElem?_eq_none (Nat.le_of_not_lt inside)
    rw [nothing]
    apply iff_of_false
    · split <;> rintro ⟨⟩
    · rintro ⟨⟩

theorem blockHeight_of_position (distinct : index.Nodup) {i : Nat} {hash : Crypto.Hash}
    (here : positions distinct i = some hash) :
    index.blockHeight hash = .ok (UInt32.ofNat i) := by
  have found : index.idxOf? hash = some i := (positions distinct).eq_some_iff.mpr here
  rw [blockHeight, found]
  rfl

/-- A height belongs to a hash exactly if it is not past the end. -/
theorem located_iff (distinct : index.Nodup) (height : UInt32) :
    index.Located height ↔ height.toNat < index.size := by
  constructor
  · rintro ⟨hash, -, there, -⟩
    rw [blockAt_eq_ok_iff distinct] at there
    exact (List.getElem?_eq_some_iff.mp there).1
  · intro inside
    have here : positions distinct height.toNat = some index[height.toNat] :=
      List.getElem?_eq_getElem inside
    refine ⟨_, List.getElem_mem inside, (blockAt_eq_ok_iff distinct).mpr here, ?_⟩
    rw [blockHeight_of_position distinct here, UInt32.ofNat_toNat]

/-- A hash is found again exactly if its position is a `uint32_t`. -/
theorem recovered_iff (distinct : index.Nodup) {hash : Crypto.Hash} (member : hash ∈ index) :
    index.Recovered hash ↔ hash ∈ index.take (2 ^ 32) := by
  rcases exists_position distinct member with ⟨i, here⟩
  rw [mem_take_iff_position distinct here]
  constructor
  · rintro ⟨height, found, there⟩
    rw [blockHeight_of_position distinct here] at found
    rw [blockAt_eq_ok_iff distinct] at there
    rw [(positions distinct).inj here there]
    exact height.toNat_lt
  · intro small
    refine ⟨_, blockHeight_of_position distinct here, ?_⟩
    rwa [blockAt_eq_ok_iff distinct, UInt32.toNat_ofNat_of_lt' small]

/-- With fewer hashes the height one past the end is a `uint32_t`, and with more the last
position is none. -/
theorem agrees_iff_size (distinct : index.Nodup) :
    index.Agrees ↔ index.size = 2 ^ 32 := by
  constructor
  · intro agrees
    apply Nat.le_antisymm
    · apply Nat.le_of_not_lt
      intro large
      have here : positions distinct (2 ^ 32) = some index[2 ^ 32] :=
        List.getElem?_eq_getElem large
      have member := List.getElem_mem large
      have front := (recovered_iff distinct member).mp (agrees.recovered _ member)
      exact Nat.lt_irrefl _ ((mem_take_iff_position distinct here).mp front)
    · apply Nat.le_of_not_lt
      intro small
      have past : (UInt32.ofNat index.size).toNat = index.size :=
        UInt32.toNat_ofNat_of_lt' small
      have inside := (located_iff distinct _).mp (agrees.located _ past.le)
      exact Nat.lt_irrefl _ (past ▸ inside)
  · intro size
    constructor
    · exact hasBlock_iff index
    · intro height _
      apply (located_iff distinct height).mpr
      rw [size]
      exact height.toNat_lt
    · intro hash member
      have whole : index.take (2 ^ 32) = index := List.take_of_length_le size.le
      apply (recovered_iff distinct member).mpr
      rwa [whole]

/-! ## Every index -/

/-- No change puts a hash into an index twice. -/
theorem nodup_react {next : BlockIndex} {change : Change} (distinct : index.Nodup)
    (step : react index change = some next) : next.Nodup := by
  cases change with
  | push hash =>
      rcases Option.ite_none_left_eq_some.mp step with ⟨new, same⟩
      cases same
      exact List.nodup_append'.mpr ⟨distinct, List.nodup_singleton hash, by simpa using new⟩
  | pop =>
      rcases Option.ite_none_left_eq_some.mp step with ⟨-, same⟩
      cases same
      exact distinct.sublist (List.dropLast_sublist index)
  | clear =>
      cases step
      exact List.nodup_nil

/-- In an index that is made by pushing new hashes, popping and clearing, the lookups agree
about what is contained, about every height except for the one past the end, and about the
first `2 ^ 32` hashes.  So they agree altogether in no index but one of that many hashes. -/
theorem agrees_iff {changes : List Change} (run : replay react [] changes = some index) :
    (∀ hash, index.hasBlock hash = true ↔ hash ∈ index) ∧
      (∀ height : UInt32, height.toNat ≤ index.size →
        (index.Located height ↔ height.toNat ≠ index.size)) ∧
      (∀ hash ∈ index, index.Recovered hash ↔ hash ∈ index.take (2 ^ 32)) ∧
      (index.Agrees ↔ index.size = 2 ^ 32) := by
  have distinct : index.Nodup := replay_invariant List.Nodup nodup_react List.nodup_nil run
  refine ⟨hasBlock_iff index, ?_, fun hash => recovered_iff distinct, agrees_iff_size distinct⟩
  intro height admitted
  rw [located_iff distinct]
  exact Nat.lt_iff_le_and_ne.trans (and_iff_right admitted)

/-- Two hashes are pushed, and one is popped. -/
theorem agrees_iff_popped :
    let index : BlockIndex := [zeroBytes 32]
    (∀ hash, index.hasBlock hash = true ↔ hash ∈ index) ∧
      (∀ height : UInt32, height.toNat ≤ index.size →
        (index.Located height ↔ height.toNat ≠ index.size)) ∧
      (∀ hash ∈ index, index.Recovered hash ↔ hash ∈ index.take (2 ^ 32)) ∧
      (index.Agrees ↔ index.size = 2 ^ 32) :=
  have run : replay react [] [.push (zeroBytes 32), .push (List.Vector.replicate 32 1), .pop] =
      some [zeroBytes 32] := rfl
  agrees_iff run

/-- There is no block at height 0 of an empty index, although the assertion lets it pass. -/
theorem agrees_fails :
    ¬ ∀ (changes : List Change) (index : BlockIndex),
      replay react [] changes = some index → index.Agrees := by
  intro agrees
  rcases (agrees [] [] rfl).located 0 (Nat.le_refl 0) with ⟨hash, member, -⟩
  cases member

end BlockIndex

end IotChain
