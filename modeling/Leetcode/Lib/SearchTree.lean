import Mathlib.Data.List.Pairwise
import Mathlib.Data.Tree.Basic
import Mathlib.Order.Lattice

/-!
# Search trees

`SearchTree R t` says that at every node the values on the left are in the relation `R` to the
node's own value, and that to the values on the right.  For a transitive `R` this is the order of
the in-order sequence (`searchTree_iff`), so what a descent by comparison finds can be read off
lists.

`countP_lt_left` and `countP_lt_right` follow the number of smaller values on a descent.  For `R`
the strict order `inorder_erase_left`, `inorder_erase_root` and `inorder_erase_right`
say which part of a node loses a key, and `mem_inorder_left` and `mem_inorder_right` which part
has it.
-/

namespace CLib

variable {α : Type*}

/-- The values from left to right. -/
def inorder : BinaryTree α → List α
  | .nil => []
  | .node x l r => inorder l ++ x :: inorder r

theorem inorder_length (t : BinaryTree α) : (inorder t).length = t.numNodes := by
  induction t with
  | nil => rfl
  | node x l r ihl ihr =>
      rw [inorder, List.length_append, List.length_cons, ihl, ihr, BinaryTree.numNodes]
      omega

theorem mem_inorder_node {x y : α} {l r : BinaryTree α} :
    y ∈ inorder (.node x l r) ↔ y ∈ inorder l ∨ y = x ∨ y ∈ inorder r := by
  rw [inorder, List.mem_append, List.mem_cons]

/-- Left values, the value of the node and right values are in the relation `R`. -/
def SearchTree (R : α → α → Prop) : BinaryTree α → Prop
  | .nil => True
  | .node x l r =>
      (∀ y ∈ inorder l, R y x) ∧ (∀ y ∈ inorder r, R x y) ∧ SearchTree R l ∧ SearchTree R r

/-- A search tree is a tree with a sorted in-order sequence. -/
theorem searchTree_iff {R : α → α → Prop} [IsTrans α R] (t : BinaryTree α) :
    SearchTree R t ↔ (inorder t).Pairwise R := by
  induction t with
  | nil => simp [SearchTree, inorder]
  | node x l r ihl ihr =>
      rw [SearchTree, inorder, List.pairwise_append, List.pairwise_cons, ihl, ihr]
      constructor
      · rintro ⟨hleft, hright, hl, hr⟩
        refine ⟨hl, ⟨hright, hr⟩, fun y hy z hz => ?_⟩
        rcases List.mem_cons.1 hz with rfl | hz
        · exact hleft y hy
        · exact IsTrans.trans y x z (hleft y hy) (hright z hz)
      · rintro ⟨hl, ⟨hright, hr⟩, hcross⟩
        exact ⟨fun y hy => hcross y hy x List.mem_cons_self, hright, hl, hr⟩

variable [LinearOrder α] {x y : α} {l r : BinaryTree α}

/-! ## Ranks -/

/-- Up to the value of a node all smaller values are on the left. -/
theorem countP_lt_left (h : SearchTree (· ≤ ·) (.node x l r)) (hle : y ≤ x) :
    (inorder (.node x l r)).countP (· < y) = (inorder l).countP (· < y) := by
  have hright : (x :: inorder r).countP (· < y) = 0 := by
    rw [List.countP_eq_zero]
    intro z hz
    rw [decide_eq_true_eq, not_lt]
    rcases List.mem_cons.1 hz with rfl | hz
    · exact hle
    · exact hle.trans (h.2.1 z hz)
  rw [inorder, List.countP_append, hright, Nat.add_zero]

/-- Above the value of a node the left subtree and the node are smaller. -/
theorem countP_lt_right (h : SearchTree (· ≤ ·) (.node x l r)) (hlt : x < y) :
    (inorder (.node x l r)).countP (· < y) =
      (inorder l).length + 1 + (inorder r).countP (· < y) := by
  have hleft : (inorder l).countP (· < y) = (inorder l).length := by
    rw [List.countP_eq_length]
    intro z hz
    exact decide_eq_true ((h.1 z hz).trans_lt hlt)
  have hroot : (x :: inorder r).countP (· < y) = (inorder r).countP (· < y) + 1 :=
    List.countP_cons_of_pos (decide_eq_true hlt)
  rw [inorder, List.countP_append, hleft, hroot]
  omega

/-! ## Distinct keys -/

theorem not_mem_right (h : SearchTree (· < ·) (.node x l r)) (hlt : y ≤ x) : y ∉ inorder r :=
  fun hy => (h.2.1 y hy).not_ge hlt

theorem not_mem_left (h : SearchTree (· < ·) (.node x l r)) (hlt : x ≤ y) : y ∉ inorder l :=
  fun hy => (h.1 y hy).not_ge hlt

/-- A smaller key is on the left. -/
theorem mem_inorder_left (h : SearchTree (· < ·) (.node x l r)) (hlt : y < x) :
    y ∈ inorder (.node x l r) ↔ y ∈ inorder l := by
  rw [mem_inorder_node, or_iff_left]
  rintro (rfl | hy)
  · exact lt_irrefl _ hlt
  · exact not_mem_right h hlt.le hy

/-- A larger key is on the right. -/
theorem mem_inorder_right (h : SearchTree (· < ·) (.node x l r)) (hlt : x < y) :
    y ∈ inorder (.node x l r) ↔ y ∈ inorder r := by
  rw [mem_inorder_node, or_iff_right (not_mem_left h hlt.le), or_iff_right hlt.ne']

theorem inorder_erase_left (h : SearchTree (· < ·) (.node x l r)) (hlt : y < x) :
    (inorder (.node x l r)).erase y = (inorder l).erase y ++ x :: inorder r := by
  have hright : (x :: inorder r).erase y = x :: inorder r := by
    refine List.erase_of_not_mem fun hy => ?_
    rcases List.mem_cons.1 hy with rfl | hy
    · exact lt_irrefl _ hlt
    · exact not_mem_right h hlt.le hy
  rw [inorder, List.erase_append, hright]
  by_cases hy : y ∈ inorder l
  · rw [if_pos hy]
  · rw [if_neg hy, List.erase_of_not_mem hy]

theorem inorder_erase_root (h : SearchTree (· < ·) (.node x l r)) :
    (inorder (.node x l r)).erase x = inorder l ++ inorder r := by
  rw [inorder, List.erase_append_right _ (not_mem_left h le_rfl), List.erase_cons_head]

theorem inorder_erase_right (h : SearchTree (· < ·) (.node x l r)) (hlt : x < y) :
    (inorder (.node x l r)).erase y = inorder l ++ x :: (inorder r).erase y := by
  rw [inorder, List.erase_append_right _ (not_mem_left h hlt.le), List.erase_cons_tail]
  simpa using hlt.ne

end CLib
