import Mathlib.Data.List.Chain
import Mathlib.Data.List.Nodup
import Mathlib.Data.List.Perm.Subperm
import Mathlib.Logic.Relation

/-!
# Rooted trees

A tree is given by its edges, a list of pairs of a parent and a child.  The root is a child
as well, under something outside the tree.
-/

namespace IotChain.Graph

universe u

variable {α : Type u} [DecidableEq α]

/-- The children of a node, in the order of the list. -/
def children (edges : List (α × α)) (parent : α) : List α :=
  (edges.filter (·.1 = parent)).map Prod.snd

/-- The edges of a tree. -/
structure IsTree (edges : List (α × α)) (outside root : α) : Prop where
  first : children edges outside = [root]
  single : (edges.map Prod.snd).Nodup
  outside : outside ∉ edges.map Prod.snd
  reached : ∀ edge ∈ edges,
    Relation.ReflTransGen (fun a b => b ∈ children edges a) root edge.2

/-- A path from the root to a leaf. -/
structure IsBranch (edges : List (α × α)) (root : α) (path : List α) : Prop where
  head : path.head? = some root
  steps : path.IsChain fun a b => b ∈ children edges a
  leaf : ∀ last ∈ path.getLast?, children edges last = []

/-- A path from the root to a leaf, none of which has more nodes. -/
structure IsLongest (edges : List (α × α)) (root : α) (path : List α) : Prop where
  branch : IsBranch edges root path
  longest : ∀ other, IsBranch edges root other → other.length ≤ path.length

/-- The nodes in front of a node, where each is the only child of the one in front of it. -/
inductive Trunk (edges : List (α × α)) (root : α) : List α → α → Prop
  | root : Trunk edges root [] root
  | next {before : List α} {a b : α} (trunk : Trunk edges root before a)
      (only : children edges a = [b]) : Trunk edges root (before ++ [a]) b

variable {edges : List (α × α)} {outside root a b : α} {before : List α}

theorem mem_children : b ∈ children edges a ↔ (a, b) ∈ edges := by
  rw [children, List.mem_map]
  constructor
  · rintro ⟨⟨parent, child⟩, member, rfl⟩
    rcases List.mem_filter.mp member with ⟨held, same⟩
    obtain rfl : parent = a := of_decide_eq_true same
    exact held
  · intro member
    exact ⟨(a, b), List.mem_filter.mpr ⟨member, decide_eq_true rfl⟩, rfl⟩

theorem child_of_mem_children (child : b ∈ children edges a) : b ∈ edges.map Prod.snd :=
  List.mem_map_of_mem (mem_children.mp child)

/-! ## Parents -/

namespace IsTree

variable (tree : IsTree edges outside root)

include tree

theorem root_mem : root ∈ children edges outside := by
  rw [tree.first]
  exact List.mem_singleton_self root

/-- A node has one parent. -/
theorem parent_unique {parent : α} (child : b ∈ children edges a)
    (other : b ∈ children edges parent) : a = parent := by
  have same := List.inj_on_of_nodup_map tree.single (mem_children.mp child)
    (mem_children.mp other) rfl
  exact congrArg Prod.fst same

theorem nodup_children (a : α) : (children edges a).Nodup :=
  tree.single.sublist (List.filter_sublist.map Prod.snd)

/-- The root is no child of a node. -/
theorem root_not_mem_children (node : a ∈ edges.map Prod.snd) : root ∉ children edges a := by
  intro child
  rw [tree.parent_unique child tree.root_mem] at node
  exact tree.outside node

end IsTree

/-! ## The trunk -/

namespace Trunk

/-- The trunk goes from parent to child. -/
theorem eq_root_or_child (trunk : Trunk edges root before a) :
    ∀ b ∈ before ++ [a], b = root ∨ ∃ parent ∈ before, b ∈ children edges parent := by
  induction trunk with
  | root =>
      rintro b member
      exact .inl (List.mem_singleton.mp member)
  | @next before a c _ only ih =>
      intro b member
      rcases List.mem_append.mp member with old | new
      · rcases ih b old with rfl | ⟨parent, held, child⟩
        · exact .inl rfl
        · exact .inr ⟨parent, List.mem_append_left _ held, child⟩
      · obtain rfl := List.mem_singleton.mp new
        refine .inr ⟨a, List.mem_append_right _ (List.mem_singleton_self a), ?_⟩
        rw [only]
        exact List.mem_singleton_self b

theorem subset_children (tree : IsTree edges outside root) (trunk : Trunk edges root before a) :
    before ++ [a] ⊆ edges.map Prod.snd := by
  intro b member
  rcases trunk.eq_root_or_child b member with rfl | ⟨parent, _, child⟩
  · exact child_of_mem_children tree.root_mem
  · exact child_of_mem_children child

/-- A child of the last node is not on the trunk. -/
theorem child_not_mem (tree : IsTree edges outside root) (trunk : Trunk edges root before a)
    (nodup : (before ++ [a]).Nodup) (child : b ∈ children edges a) : b ∉ before ++ [a] := by
  intro member
  rcases trunk.eq_root_or_child b member with rfl | ⟨parent, held, other⟩
  · apply tree.root_not_mem_children _ child
    exact trunk.subset_children tree (List.mem_append_right _ (List.mem_singleton_self a))
  · obtain rfl := tree.parent_unique child other
    exact List.disjoint_of_nodup_append nodup held (List.mem_singleton_self a)

theorem nodup (tree : IsTree edges outside root) (trunk : Trunk edges root before a) :
    (before ++ [a]).Nodup := by
  induction trunk with
  | root => exact List.nodup_singleton root
  | @next before a b trunk only ih =>
      have new : b ∉ before ++ [a] := by
        apply trunk.child_not_mem tree ih
        rw [only]
        exact List.mem_singleton_self b
      exact List.nodup_append'.mpr ⟨ih, List.nodup_singleton b,
        List.disjoint_singleton.mpr new⟩

/-- The trunk and the children of its last node are all different. -/
theorem nodup_append_children (tree : IsTree edges outside root)
    (trunk : Trunk edges root before a) : ((before ++ [a]) ++ children edges a).Nodup :=
  List.nodup_append'.mpr ⟨trunk.nodup tree, tree.nodup_children a, fun _ held child =>
    trunk.child_not_mem tree (trunk.nodup tree) child held⟩

/-- A child of a child is neither on the trunk nor another child of its last node. -/
theorem grandchild_not_mem {c : α} (tree : IsTree edges outside root)
    (trunk : Trunk edges root before a) (child : b ∈ children edges a)
    (grandchild : c ∈ children edges b) : c ∉ (before ++ [a]) ++ children edges a := by
  have new := trunk.child_not_mem tree (trunk.nodup tree) child
  intro member
  rcases List.mem_append.mp member with old | other
  · rcases trunk.eq_root_or_child c old with rfl | ⟨parent, held, same⟩
    · exact tree.root_not_mem_children (child_of_mem_children child) grandchild
    · obtain rfl := tree.parent_unique grandchild same
      exact new (List.mem_append_left _ held)
  · obtain rfl := tree.parent_unique grandchild other
    exact new (List.mem_append_right _ (List.mem_singleton_self b))

theorem length_lt (tree : IsTree edges outside root) (trunk : Trunk edges root before a) :
    before.length < edges.length := by
  have bound := ((trunk.nodup tree).subperm (trunk.subset_children tree)).length_le
  rw [List.length_append, List.length_map] at bound
  exact bound

/-- Every node of the trunk is the end of a shorter one. -/
theorem exists_shorter (trunk : Trunk edges root before a) {n : Nat} (le : n ≤ before.length) :
    ∃ shorter b, Trunk edges root shorter b ∧ shorter.length = n := by
  induction trunk with
  | root =>
      obtain rfl := Nat.le_zero.mp le
      exact ⟨[], root, .root, rfl⟩
  | @next before a b trunk only ih =>
      rcases Nat.lt_or_eq_of_le le with less | rfl
      · rw [List.length_append] at less
        exact ih (Nat.le_of_lt_succ less)
      · exact ⟨before ++ [a], b, .next trunk only, rfl⟩

end Trunk

/-- The trunk of a tree ends where there is a leaf or a fork. -/
theorem IsTree.exists_trunk (tree : IsTree edges outside root) :
    ∃ before a, Trunk edges root before a ∧ ∀ b, children edges a ≠ [b] := by
  by_contra goes
  push Not at goes
  have long (n : Nat) : ∃ before a, Trunk edges root before a ∧ before.length = n := by
    induction n with
    | zero => exact ⟨[], root, .root, rfl⟩
    | succ n ih =>
        rcases ih with ⟨before, a, trunk, length⟩
        rcases goes before a trunk with ⟨b, only⟩
        refine ⟨before ++ [a], b, .next trunk only, ?_⟩
        rw [List.length_append, length]
        rfl
  rcases long edges.length with ⟨before, a, trunk, length⟩
  exact absurd (trunk.length_lt tree) (by omega)

/-- The trunk of the tree has `n` nodes, the last of them `k` children, which is not one, and
the first of these `c`, or there are no children at all. -/
inductive Stem (edges : List (α × α)) (root : α) : Nat → Nat → Nat → Prop
  | leaf {before : List α} {a : α} (trunk : Trunk edges root before a)
      (leaf : children edges a = []) : Stem edges root (before.length + 1) 0 0
  | fork {before : List α} {a first second : α} {others : List α}
      (trunk : Trunk edges root before a) (fork : children edges a = first :: second :: others) :
      Stem edges root (before.length + 1) (others.length + 2) (children edges first).length

theorem IsTree.exists_stem (tree : IsTree edges outside root) :
    ∃ n k c, Stem edges root n k c := by
  rcases tree.exists_trunk with ⟨before, a, trunk, notOnly⟩
  match kids : children edges a with
  | [] => exact ⟨_, _, _, .leaf trunk kids⟩
  | [b] => exact absurd kids (notOnly b)
  | first :: second :: others => exact ⟨_, _, _, .fork trunk kids⟩

end IotChain.Graph
