import Mathlib.Algebra.Group.Nat.Defs
import Mathlib.Data.Nat.Size
import Mathlib.Data.Tree.Basic
import Mathlib.Order.Bounds.Basic

/-!
# Trees that are halved at every node

At every node of a `SizeBalanced` tree the numbers of nodes on the two sides differ by one at
most.  Such a tree has as many levels as the number of its nodes has binary digits
(`height_eq_size`).  So the heights of the two sides of a node differ by one at most too
(`heightBalanced`), and no smaller number of levels has room for the nodes (`height_least`).
-/

namespace CLib

variable {α : Type*}

/-- `P` holds of the left and the right subtree of every node. -/
def EveryNode (P : BinaryTree α → BinaryTree α → Prop) : BinaryTree α → Prop
  | .nil => True
  | .node _ l r => P l r ∧ EveryNode P l ∧ EveryNode P r

/-- The sides of a node differ by one node at most. -/
def SizeBalanced : BinaryTree α → Prop :=
  EveryNode fun l r => l.numNodes ≤ r.numNodes + 1 ∧ r.numNodes ≤ l.numNodes + 1

theorem sizeBalanced_node {x : α} {l r : BinaryTree α} (hl : SizeBalanced l) (hr : SizeBalanced r)
    (hleft : l.numNodes ≤ r.numNodes + 1) (hright : r.numNodes ≤ l.numNodes + 1) :
    SizeBalanced (.node x l r) := ⟨⟨hleft, hright⟩, hl, hr⟩

/-- The sides of a node differ by one level at most. -/
def HeightBalanced : BinaryTree α → Prop :=
  EveryNode fun l r => l.height ≤ r.height + 1 ∧ r.height ≤ l.height + 1

/-- A number has one more binary digit than its half. -/
theorem size_double {m n : ℕ} (hn : 0 < n) (hlow : 2 * m ≤ n) (hhigh : n ≤ 2 * m + 1) :
    Nat.size n = Nat.size m + 1 := by
  apply le_antisymm
  · have hm := Nat.lt_size_self m
    rw [Nat.size_le, Nat.pow_succ]
    omega
  · rw [Nat.add_one_le_iff, Nat.lt_size]
    cases hsize : Nat.size m with
    | zero => exact hn
    | succ k =>
        have hk : 2 ^ k ≤ m := Nat.lt_size.1 (by omega)
        rw [Nat.pow_succ]
        omega

/-- One more makes one digit more at most. -/
theorem size_succ_le {m n : ℕ} (h : n ≤ m + 1) : Nat.size n ≤ Nat.size m + 1 := by
  have hm := Nat.lt_size_self m
  rw [Nat.size_le, Nat.pow_succ]
  omega

theorem height_eq_size {t : BinaryTree α} (h : SizeBalanced t) :
    t.height = Nat.size t.numNodes := by
  induction t with
  | nil => rfl
  | node x l r ihl ihr =>
      obtain ⟨⟨hleft, hright⟩, hl, hr⟩ := h
      rw [BinaryTree.height, BinaryTree.numNodes, ihl hl, ihr hr]
      rcases Nat.le_total l.numNodes r.numNodes with hle | hle
      · rw [Nat.max_eq_right (Nat.size_le_size hle)]
        exact (size_double (Nat.succ_pos _) (by omega) (by omega)).symm
      · rw [Nat.max_eq_left (Nat.size_le_size hle)]
        exact (size_double (Nat.succ_pos _) (by omega) (by omega)).symm

theorem heightBalanced {t : BinaryTree α} (h : SizeBalanced t) : HeightBalanced t := by
  induction t with
  | nil => trivial
  | node x l r ihl ihr =>
      obtain ⟨⟨hleft, hright⟩, hl, hr⟩ := h
      refine ⟨?_, ihl hl, ihr hr⟩
      show l.height ≤ r.height + 1 ∧ r.height ≤ l.height + 1
      rw [height_eq_size hl, height_eq_size hr]
      exact ⟨size_succ_le hleft, size_succ_le hright⟩

theorem numNodes_map {β : Type*} (f : α → β) (t : BinaryTree α) :
    (t.map f).numNodes = t.numNodes := by
  induction t with
  | nil => rfl
  | node x l r ihl ihr => rw [BinaryTree.map, BinaryTree.numNodes, BinaryTree.numNodes, ihl, ihr]

/-- The values do not matter. -/
theorem SizeBalanced.map {β : Type*} {t : BinaryTree α} (h : SizeBalanced t) (f : α → β) :
    SizeBalanced (t.map f) := by
  induction t with
  | nil => trivial
  | node x l r ihl ihr =>
      obtain ⟨⟨hleft, hright⟩, hl, hr⟩ := h
      refine sizeBalanced_node (ihl hl) (ihr hr) ?_ ?_ <;> rw [numNodes_map, numNodes_map]
      · exact hleft
      · exact hright

/-- So many levels have room for fewer than `2 ^ h` nodes. -/
theorem numNodes_lt (t : BinaryTree α) : t.numNodes < 2 ^ t.height := by
  induction t with
  | nil => exact Nat.one_pos
  | node x l r ihl ihr =>
      have hl := ihl.trans_le (Nat.pow_le_pow_right Nat.two_pos (Nat.le_max_left _ r.height))
      have hr := ihr.trans_le (Nat.pow_le_pow_right Nat.two_pos (Nat.le_max_right l.height _))
      rw [BinaryTree.numNodes, BinaryTree.height, Nat.pow_succ]
      omega

/-- There are as few levels as have room for the nodes. -/
theorem height_least {t : BinaryTree α} (h : SizeBalanced t) :
    IsLeast {h | t.numNodes ≤ 2 ^ h - 1} t.height := by
  have hiff : ∀ k, t.numNodes ≤ 2 ^ k - 1 ↔ t.height ≤ k := by
    intro k
    have hpos : 0 < 2 ^ k := Nat.two_pow_pos k
    rw [height_eq_size h, Nat.size_le]
    omega
  exact ⟨(hiff t.height).2 le_rfl, fun k hk => (hiff k).1 hk⟩

end CLib
