import Leetcode.Bst.Model
import Leetcode.Lib.CInt
import Leetcode.Lib.SearchTree

/-!
# Deletion, search and validation

* `helper_iff`, `isValidBST_iff` — validation tells whether a tree is a search tree, so
  whether its in-order sequence increases (`isValidBST_exact`).
* `searchBST_iff` — a search finds the values of a search tree.
* `deleteNode_inorder` — a deletion removes one key from the in-order sequence.
-/

namespace Leetcode
namespace Bst

open CLib

/-! ## Validation -/

/-- The test of `helper` on a value. -/
theorem between_iff (v min max : Int64) : ¬(v ≤ min ∨ v ≥ max) ↔ min < v ∧ v < max := by
  rw [not_or, Int64.not_le, ge_iff_le, Int64.not_le]

/-- `helper` tells whether a tree is a search tree with values between the two bounds. -/
theorem helper_iff (t : TreeNode) (min max : Int64) :
    helper t min max = true ↔
      SearchTree (· < ·) t ∧ ∀ v ∈ inorder t, min < v.toInt64 ∧ v.toInt64 < max := by
  induction t generalizing min max with
  | nil => simp [helper, SearchTree, inorder]
  | node val left right ihl ihr =>
      by_cases hin : min < val.toInt64 ∧ val.toInt64 < max
      · rw [helper, if_neg ((between_iff _ _ _).2 hin), Bool.and_eq_true, ihl, ihr, SearchTree]
        constructor
        · rintro ⟨⟨hl, hleft⟩, hr, hright⟩
          refine ⟨⟨fun v hv => Int32.toInt64_lt.1 (hleft v hv).2,
            fun v hv => Int32.toInt64_lt.1 (hright v hv).1, hl, hr⟩, fun v hv => ?_⟩
          rcases mem_inorder_node.1 hv with hv | rfl | hv
          · exact ⟨(hleft v hv).1, Int64.lt_trans (hleft v hv).2 hin.2⟩
          · exact hin
          · exact ⟨Int64.lt_trans hin.1 (hright v hv).1, (hright v hv).2⟩
        · rintro ⟨⟨hleft, hright, hl, hr⟩, hall⟩
          refine ⟨⟨hl, fun v hv => ?_⟩, hr, fun v hv => ?_⟩
          · exact ⟨(hall v (mem_inorder_node.2 (Or.inl hv))).1, Int32.toInt64_lt.2 (hleft v hv)⟩
          · exact ⟨Int32.toInt64_lt.2 (hright v hv),
              (hall v (mem_inorder_node.2 (Or.inr (Or.inr hv)))).2⟩
      · -- The value of the node itself is out of the bounds.
        have hout := not_not.1 (mt (between_iff _ _ _).1 hin)
        rw [helper, if_pos hout]
        constructor
        · intro hfalse
          cases hfalse
        · intro h
          exact absurd (h.2 val (mem_inorder_node.2 (Or.inr (Or.inl rfl)))) hin

/-- Every `int` lies between `LONG_MIN` and `LONG_MAX`. -/
theorem isValidBST_iff (t : TreeNode) : isValidBST t = true ↔ SearchTree (· < ·) t := by
  rw [isValidBST, helper_iff, and_iff_left]
  intro v _
  exact ⟨minValue_lt_toInt64 v, toInt64_lt_maxValue v⟩

/-- Validation tells whether the in-order sequence is strictly increasing. -/
theorem isValidBST_exact (t : TreeNode) :
    isValidBST t = true ↔ (inorder t).Pairwise (· < ·) := by
  rw [isValidBST_iff, searchTree_iff]

example : isValidBST (.node 0 (.node Int32.minValue .nil .nil) (.node Int32.maxValue .nil .nil)) =
    true := by decide

/-! ## Search -/

/-- `searchBST` finds a node with its value. -/
def Finds (t : TreeNode) (val : Int32) : Prop :=
  ∃ left right, searchBST t val = .node val left right

theorem searchBST_iff {t : TreeNode} (h : SearchTree (· < ·) t) (val : Int32) :
    Finds t val ↔ val ∈ inorder t := by
  induction t with
  | nil => simp [Finds, searchBST, inorder]
  | node rootVal left right ihl ihr =>
      obtain ⟨-, -, hl, hr⟩ := id h
      by_cases heq : rootVal = val
      · subst heq
        rw [Finds, searchBST, if_pos rfl]
        exact iff_of_true ⟨left, right, rfl⟩ (mem_inorder_node.2 (Or.inr (Or.inl rfl)))
      by_cases hlt : val < rootVal
      · rw [Finds, searchBST, if_neg heq, if_pos hlt, mem_inorder_left h hlt]
        exact ihl hl
      · have hgt : rootVal < val := lt_of_le_of_ne (not_lt.1 hlt) heq
        rw [Finds, searchBST, if_neg heq, if_neg hlt, mem_inorder_right h hgt]
        exact ihr hr

/-! ## Deletion -/

/-- The minimum is the first value. -/
theorem findMin_ok {t : TreeNode} (h : t ≠ .nil) :
    ∃ val left right rest, findMin t = .node val left right ∧ inorder t = val :: rest := by
  induction t with
  | nil => exact absurd rfl h
  | node val left right ihl _ =>
      by_cases hleft : left = .nil
      · refine ⟨val, left, right, inorder right, by rw [findMin, if_pos hleft], ?_⟩
        rw [hleft]
        rfl
      · obtain ⟨temp, l, r, rest, hmin, hfirst⟩ := ihl hleft
        refine ⟨temp, l, r, rest ++ val :: inorder right, ?_, ?_⟩
        · rw [findMin, if_neg hleft, hmin]
        · rw [inorder, hfirst, List.cons_append]

/-- `deleteNode` removes the key from the in-order sequence. -/
theorem deleteNode_inorder {t : TreeNode} (h : SearchTree (· < ·) t) (key : Int32) :
    ∃ t', deleteNode t key = some t' ∧ inorder t' = (inorder t).erase key := by
  induction t generalizing key with
  | nil => exact ⟨.nil, rfl, rfl⟩
  | node val left right ihl ihr =>
      obtain ⟨-, -, hl, hr⟩ := id h
      rcases lt_trichotomy key val with hlt | rfl | hgt
      · obtain ⟨left', hdelete, hinorder⟩ := ihl hl key
        refine ⟨.node val left' right, ?_, ?_⟩
        · rw [deleteNode, if_pos hlt, hdelete, Option.map_some]
        · rw [inorder_erase_left h hlt, inorder, hinorder]
      · rw [deleteNode, if_neg (lt_irrefl key), if_neg (lt_irrefl key), inorder_erase_root h]
        by_cases hleft : left = .nil
        · refine ⟨right, if_pos hleft, ?_⟩
          rw [hleft]
          rfl
        rw [if_neg hleft]
        by_cases hright : right = .nil
        · refine ⟨left, if_pos hright, ?_⟩
          rw [hright, inorder, List.append_nil]
        -- The successor comes to the root, and is the first value that the right subtree loses.
        obtain ⟨temp, l, r, rest, hmin, hfirst⟩ := findMin_ok hright
        obtain ⟨right', hdelete, hinorder⟩ := ihr hr temp
        refine ⟨.node temp left right', ?_, ?_⟩
        · rw [if_neg hright, hmin]
          simp only [hdelete, Option.map_some]
        · rw [inorder, hinorder, hfirst, List.erase_cons_head]
      · obtain ⟨right', hdelete, hinorder⟩ := ihr hr key
        refine ⟨.node val left right', ?_, ?_⟩
        · rw [deleteNode, if_neg hgt.not_gt, if_pos hgt, hdelete, Option.map_some]
        · rw [inorder_erase_right h hgt, inorder, hinorder]

/-- A deletion removes exactly the key from a search tree, in the eyes of the other functions
too. -/
theorem deleteNode_exact {t : TreeNode} (h : SearchTree (· < ·) t) (key : Int32) :
    ∃ t', deleteNode t key = some t' ∧ SearchTree (· < ·) t' ∧
      inorder t' = (inorder t).erase key ∧
      isValidBST t = true ∧ isValidBST t' = true ∧
      ∀ q, (∃ left right, searchBST t' q = .node q left right) ↔
        q ≠ key ∧ ∃ left right, searchBST t q = .node q left right := by
  obtain ⟨t', hdelete, hinorder⟩ := deleteNode_inorder h key
  have hsorted := (searchTree_iff t).1 h
  have h' : SearchTree (· < ·) t' := by
    rw [searchTree_iff, hinorder]
    exact hsorted.sublist List.erase_sublist
  refine ⟨t', hdelete, h', hinorder, (isValidBST_iff t).2 h, (isValidBST_iff t').2 h', ?_⟩
  intro q
  have hnodup : (inorder t).Nodup := hsorted.imp ne_of_lt
  have hfinds := searchBST_iff h' q
  rw [hinorder, hnodup.mem_erase_iff, ← searchBST_iff h q] at hfinds
  exact hfinds

theorem deleteNode_exact_two_children :
    ∃ t', deleteNode (.node 5 (.node 3 (.node 2 .nil .nil) (.node 4 .nil .nil)) .nil) 3 =
        some t' ∧ SearchTree (· < ·) t' ∧
      inorder t' =
        (inorder (.node 5 (.node 3 (.node 2 .nil .nil) (.node 4 .nil .nil)) .nil)).erase 3 ∧
      isValidBST (.node 5 (.node 3 (.node 2 .nil .nil) (.node 4 .nil .nil)) .nil) = true ∧
      isValidBST t' = true ∧
      ∀ q, (∃ left right, searchBST t' q = .node q left right) ↔
        q ≠ 3 ∧ ∃ left right,
          searchBST (.node 5 (.node 3 (.node 2 .nil .nil) (.node 4 .nil .nil)) .nil) q =
            .node q left right :=
  deleteNode_exact ((searchTree_iff _).2 (by decide)) 3

end Bst
end Leetcode
