import Mathlib

/-!
# Finite trees by parent pointers

A `Tree` is a finite type of nodes with a parent for every node but the root. A depth that grows
by one from a parent to a child excludes cycles, so that every node is below the root.

`Below` is the order of the tree: a node is below its ancestors and below itself. The ancestors of
a node form a chain, so a node below `p` is `p` itself or is below exactly one child of `p`
(`below_iff`, `child_unique`). Sums over the children of a node are taken apart with this. It is
decidable: the ancestors of a node are found on the way up (`below_iff_mem_upward`).
-/

namespace Gwems

/-- A rooted tree, given by the parents of its nodes. -/
structure Tree (N : Type*) where
  nodes : List N
  mem_nodes : ∀ n, n ∈ nodes
  root : N
  parent : N → Option N
  parent_eq_none_iff : ∀ n, parent n = none ↔ n = root
  depth : N → ℕ
  depth_of_parent : ∀ n p, parent n = some p → depth n = depth p + 1

namespace Tree

variable {N : Type*} (T : Tree N)

/-- The node is the other one or one of its descendants. -/
def Below (n p : N) : Prop := Relation.ReflTransGen (fun a b => T.parent a = some b) n p

/-- A node and its ancestors, up to a distance. -/
def upward : ℕ → N → List N
  | 0, n => [n]
  | i + 1, n => n :: (T.parent n).elim [] (upward i)

/-- A node without children. -/
def IsLeaf (n : N) : Prop := ∀ k, T.parent k ≠ some n

variable {T} {n p q k k' : N}

@[simp] theorem below_refl : T.Below n n := .refl

theorem Below.trans (h : T.Below n p) (h' : T.Below p q) : T.Below n q :=
  Relation.ReflTransGen.trans h h'

theorem below_of_parent (h : T.parent k = some p) : T.Below k p := .single h

theorem Below.depth_le (h : T.Below n p) : T.depth p ≤ T.depth n := by
  induction h with
  | refl => exact le_refl _
  | tail _ hparent ih =>
    have hdepth := T.depth_of_parent _ _ hparent
    omega

/-- Induction from the root down: a node has the property if its parent has it. -/
theorem induction_down {P : N → Prop} (root : P T.root)
    (child : ∀ k p, T.parent k = some p → P p → P k) (n : N) : P n := by
  induction hd : T.depth n using Nat.strong_induction_on generalizing n with
  | h d ih =>
    cases hparent : T.parent n with
    | none => exact (T.parent_eq_none_iff n).mp hparent ▸ root
    | some p =>
      have hdepth := T.depth_of_parent n p hparent
      exact child n p hparent (ih _ (by omega) p rfl)

/-- Every node is below the root. -/
theorem below_root (n : N) : T.Below n T.root := by
  induction n using induction_down (T := T) with
  | root => exact below_refl
  | child k p hk hp => exact (below_of_parent hk).trans hp

/-- A node below `p` is `p` or is below a child of `p`. -/
theorem below_iff : T.Below n p ↔ n = p ∨ ∃ k, T.parent k = some p ∧ T.Below n k := by
  rw [Below]
  rw [Relation.ReflTransGen.cases_tail_iff]
  refine or_congr eq_comm (exists_congr fun k => and_comm)

/-- What a node is below is found on the way up from it. -/
theorem below_iff_mem_upward : T.Below n p ↔ p ∈ T.upward (T.depth n) n := by
  induction n using induction_down (T := T) with
  | root =>
    have hparent : T.parent T.root = none := (T.parent_eq_none_iff T.root).mpr rfl
    have hupward : T.upward (T.depth T.root) T.root = [T.root] := by
      cases T.depth T.root with
      | zero => rfl
      | succ d => rw [upward, hparent, Option.elim_none]
    rw [hupward, List.mem_singleton, Below, Relation.ReflTransGen.cases_head_iff, hparent]
    simp [eq_comm]
  | child k q hk ih =>
    rw [T.depth_of_parent k q hk, upward, hk, Option.elim_some, List.mem_cons, ← ih, Below,
      Relation.ReflTransGen.cases_head_iff, hk, eq_comm]
    simp only [Option.some.injEq, exists_eq_left']
    rfl

instance [DecidableEq N] (n p : N) : Decidable (T.Below n p) :=
  decidable_of_iff _ below_iff_mem_upward.symm

/-- A node is below at most one of the children of a node. -/
theorem child_unique (hk : T.parent k = some p) (hk' : T.parent k' = some p) (h : T.Below n k)
    (h' : T.Below n k') : k = k' := by
  have hright : Relator.RightUnique fun a b => T.parent a = some b := by
    intro a b c hb hc
    rw [hb, Option.some.injEq] at hc
    exact hc
  have hdepth := T.depth_of_parent k p hk
  have hdepth' := T.depth_of_parent k' p hk'
  -- siblings have one depth, so that neither is properly below the other
  have heq : ∀ {a b}, T.parent a = some p → T.parent b = some p → T.Below a b → a = b := by
    intro a b ha hb hab
    rcases below_iff.mp hab with heq | ⟨c, hc, hac⟩
    · exact heq
    · have hle := hac.depth_le
      have hda := T.depth_of_parent a p ha
      have hdb := T.depth_of_parent b p hb
      have hdc := T.depth_of_parent c b hc
      omega
  rcases Relation.ReflTransGen.total_of_right_unique hright h h' with hkk | hkk
  · exact heq hk hk' hkk
  · exact (heq hk' hk hkk).symm

/-- Only the leaf itself is below a leaf. -/
theorem IsLeaf.below_iff (h : T.IsLeaf p) : T.Below n p ↔ n = p := by
  rw [Tree.below_iff]
  refine or_iff_left ?_
  rintro ⟨k, hk, -⟩
  exact h k hk

theorem IsLeaf.ne_of_parent (h : T.IsLeaf n) (hk : T.parent k = some p) : n ≠ p := by
  rintro rfl
  exact h k hk

theorem ne_of_parent (hk : T.parent k = some p) : k ≠ p := by
  rintro rfl
  have hdepth := T.depth_of_parent k k hk
  omega

/-- Depths are bounded. -/
theorem exists_height (T : Tree N) : ∃ height, ∀ n, T.depth n ≤ height := by
  refine ⟨(T.nodes.map T.depth).sum, fun n => ?_⟩
  exact List.le_sum_of_mem (List.mem_map_of_mem (T.mem_nodes n))

end Tree

end Gwems
