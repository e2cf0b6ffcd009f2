import Mathlib.Algebra.Ring.GeomSum
import Mathlib.Data.List.Perm.Basic

/-!
# Branching processes of bounded rank

Items of a pool are replaced one by one, each by a bounded number of items whose rank is
lower by one.  An item accounts for the tree of all the items that can descend from it, and
what a pool accounts for goes down with every replacement.
-/

namespace IotChain.Transition

universe u

/-- The nodes of a tree with so many levels in which each node has so many children. -/
def treeSize (breadth levels : Nat) : Nat :=
  ∑ i ∈ Finset.range levels, breadth ^ i

theorem treeSize_succ (breadth levels : Nat) :
    treeSize breadth (levels + 1) = breadth * treeSize breadth levels + 1 :=
  geom_sum_succ

theorem treeSize_pos (breadth : Nat) {levels : Nat} (pos : 0 < levels) :
    0 < treeSize breadth levels := by
  obtain ⟨lower, rfl⟩ := Nat.exists_eq_succ_of_ne_zero (Nat.ne_of_gt pos)
  rw [treeSize_succ]
  exact Nat.succ_pos _

variable {ι : Type u} {rank : ι → Nat} {breadth : Nat}

/-- The items that a pool can lead to, itself included. -/
def poolSize (breadth : Nat) (rank : ι → Nat) (pool : List ι) : Nat :=
  (pool.map fun item => treeSize breadth (rank item)).sum

@[simp]
theorem poolSize_nil : poolSize breadth rank [] = 0 :=
  rfl

theorem poolSize_cons (item : ι) (pool : List ι) :
    poolSize breadth rank (item :: pool) =
      treeSize breadth (rank item) + poolSize breadth rank pool := by
  simp [poolSize]

theorem poolSize_append (first second : List ι) :
    poolSize breadth rank (first ++ second) =
      poolSize breadth rank first + poolSize breadth rank second := by
  simp [poolSize]

theorem poolSize_perm {first second : List ι} (perm : first.Perm second) :
    poolSize breadth rank first = poolSize breadth rank second :=
  (perm.map _).sum_eq

/-- A pool of items of one rank. -/
theorem poolSize_of_rank {pool : List ι} {level : Nat}
    (ranks : ∀ item ∈ pool, rank item = level) :
    poolSize breadth rank pool = pool.length * treeSize breadth level := by
  induction pool with
  | nil => simp
  | cons item pool ih =>
      rw [poolSize_cons, ranks item List.mem_cons_self,
        ih fun other member => ranks other (List.mem_cons_of_mem item member),
        List.length_cons, Nat.succ_mul, Nat.add_comm]

/-- A pool accounts for the items in it at least. -/
theorem length_le_poolSize {pool : List ι} (ranks : ∀ item ∈ pool, 0 < rank item) :
    pool.length ≤ poolSize breadth rank pool := by
  induction pool with
  | nil => exact Nat.le_refl _
  | cons item pool ih =>
      have pos := treeSize_pos breadth (ranks item List.mem_cons_self)
      have others := ih fun other member => ranks other (List.mem_cons_of_mem item member)
      rw [poolSize_cons, List.length_cons]
      omega

/-- The children of an item account for one item less than it does. -/
theorem poolSize_children_lt {item : ι} {children : List ι} (pos : 0 < rank item)
    (few : children.length ≤ breadth)
    (lower : ∀ child ∈ children, rank child + 1 = rank item) :
    poolSize breadth rank children < treeSize breadth (rank item) := by
  obtain ⟨level, rankEq⟩ := Nat.exists_eq_succ_of_ne_zero (Nat.ne_of_gt pos)
  have ranks (child : ι) (member : child ∈ children) : rank child = level := by
    have childEq := lower child member
    omega
  rw [poolSize_of_rank ranks, rankEq, Nat.succ_eq_add_one, treeSize_succ]
  exact Nat.lt_succ_of_le (Nat.mul_le_mul_right _ few)

end IotChain.Transition
