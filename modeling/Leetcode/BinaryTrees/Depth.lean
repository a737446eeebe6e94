import Leetcode.BinaryTrees.Model
import Leetcode.Bst.Session
import Leetcode.ListToBst.Balanced

/-!
# The depth of the trees that the other functions make

* `isSameTree_iff`, `maxDepth_ok` — what the two functions return.
* `deleteNode_depth` — a deletion does not make a tree deeper, and changes it only if the key is
  there.
* `sortedList_tree` — the tree of a sorted list has all its values, and the least depth.
* `balanced_depth` — and so has a tree in memory behind `balanceBST`, whatever was called before.
-/

namespace Leetcode
namespace BinaryTrees

open CLib
open Bst (deleteNode isValidBST searchBST)

variable {t t' u : TreeNode} {key : Int32}

/-! ## The two functions -/

theorem isSameTree_iff (t u : TreeNode) : isSameTree t u = true ↔ t = u := by
  induction t generalizing u with
  | nil => cases u <;> simp [isSameTree]
  | node val left right ihl ihr =>
      cases u with
      | nil => simp [isSameTree]
      | node val' left' right' =>
          rw [isSameTree]
          by_cases hval : val = val'
          · rw [if_neg (not_not_intro hval), Bool.and_eq_true, ihl, ihr, hval]
            simp
          · rw [if_pos hval]
            simp [hval]

theorem maxDepth_ok (hdepth : t.height < 2 ^ 31) : maxDepth t = some (t.height : ℤ) := by
  induction t with
  | nil => rfl
  | node val left right ihl ihr =>
      rw [BinaryTree.height] at hdepth
      have hleft := ihl (by omega)
      have hright := ihr (by omega)
      have hmax :
          (if (left.height : ℤ) > right.height then (left.height : ℤ) else right.height) + 1 =
          ((BinaryTree.node val left right).height : ℤ) := by
        rw [BinaryTree.height]
        split <;> push_cast <;> omega
      rw [maxDepth, hleft, Option.bind_some, hright, Option.bind_some, hmax]
      refine intResult_ok ⟨by omega, ?_⟩
      rw [BinaryTree.height]
      omega

theorem maxDepth_height {d : ℤ} (h : maxDepth t = some d) : d = t.height := by
  induction t generalizing d with
  | nil =>
      cases h
      rfl
  | node val left right ihl ihr =>
      obtain ⟨leftDepth, hleft, h⟩ := Option.bind_eq_some_iff.1 h
      obtain ⟨rightDepth, hright, h⟩ := Option.bind_eq_some_iff.1 h
      obtain rfl := ihl hleft
      obtain rfl := ihr hright
      rw [eq_of_intResult h, BinaryTree.height]
      split <;> push_cast <;> omega

/-- A tree has no fewer levels than the number of its nodes has binary digits. -/
theorem size_le_of_maxDepth {d : ℤ} {n : ℕ} (h : maxDepth t = some d) (hn : n ≤ t.numNodes) :
    (Nat.size n : ℤ) ≤ d := by
  rw [maxDepth_height h]
  have hroom := numNodes_lt t
  have hsize : Nat.size n ≤ t.height := Nat.size_le.2 (by omega)
  omega

/-! ## Deletion -/

/-- A deletion does not make a tree deeper, whatever its values are. -/
theorem deleteNode_height (h : deleteNode t key = some t') : t'.height ≤ t.height := by
  induction t generalizing key t' with
  | nil =>
      cases h
      exact Nat.le_refl _
  | node val left right ihl ihr =>
      rw [deleteNode] at h
      rw [BinaryTree.height]
      split at h
      · obtain ⟨left', hleft, rfl⟩ := Option.map_eq_some_iff.1 h
        have hle := ihl hleft
        rw [BinaryTree.height]
        omega
      · split at h
        · obtain ⟨right', hright, rfl⟩ := Option.map_eq_some_iff.1 h
          have hle := ihr hright
          rw [BinaryTree.height]
          omega
        · split at h
          · cases h
            omega
          · split at h
            · cases h
              omega
            · split at h
              · cases h
              · next temp _ _ _ =>
                  obtain ⟨right', hright, rfl⟩ := Option.map_eq_some_iff.1 h
                  have hle := ihr hright
                  rw [BinaryTree.height]
                  omega

/-- A search tree without the key stays as it is. -/
theorem deleteNode_absent (h : SearchTree (· < ·) t) (hkey : key ∉ inorder t) :
    deleteNode t key = some t := by
  induction t with
  | nil => rfl
  | node val left right ihl ihr =>
      obtain ⟨-, -, hl, hr⟩ := id h
      rw [mem_inorder_node, not_or, not_or] at hkey
      rw [deleteNode]
      rcases lt_trichotomy key val with hlt | rfl | hgt
      · rw [if_pos hlt, ihl hl hkey.1, Option.map_some]
      · exact absurd rfl hkey.2.1
      · rw [if_neg hgt.not_gt, if_pos hgt, ihr hr hkey.2.2, Option.map_some]

/-- A deletion from a search tree gives one that is no deeper, and that is the same exactly if the
key is not there. -/
theorem deleteNode_depth (t : TreeNode) (h : SearchTree (· < ·) t) (hdepth : t.height < 2 ^ 31)
    (key : Int32) :
    ∃ t' d d', deleteNode t key = some t' ∧ maxDepth t = some d ∧ maxDepth t' = some d' ∧ d' ≤ d ∧
      (isSameTree t' t = true ↔ key ∉ inorder t) := by
  obtain ⟨t', hdelete, hinorder⟩ := Bst.deleteNode_inorder h key
  have hle := deleteNode_height hdelete
  refine ⟨t', _, _, hdelete, maxDepth_ok hdepth, maxDepth_ok (by omega), by omega, ?_⟩
  rw [isSameTree_iff]
  constructor
  · rintro rfl hmem
    have hlen := congrArg List.length hinorder
    have hpos := List.length_pos_of_mem hmem
    rw [List.length_erase_of_mem hmem] at hlen
    omega
  · intro hkey
    exact Option.some.inj (hdelete.symm.trans (deleteNode_absent h hkey))

theorem deleteNode_depth_two :
    ∃ t' d d', deleteNode (.node 2 (.node 1 .nil .nil) .nil) 2 = some t' ∧
      maxDepth (.node 2 (.node 1 .nil .nil) .nil) = some d ∧ maxDepth t' = some d' ∧ d' ≤ d ∧
      (isSameTree t' (.node 2 (.node 1 .nil .nil) .nil) = true ↔
        (2 : Int32) ∉ inorder (.node 2 (.node 1 .nil .nil) .nil)) :=
  deleteNode_depth (.node 2 (.node 1 .nil .nil) .nil) ((searchTree_iff _).2 (by decide))
    (by decide) 2

/-! ## Balanced trees -/

/-- The depth of a balanced tree, which no tree with as many nodes goes below. -/
theorem maxDepth_balanced {t : TreeNode} (h : SizeBalanced t) (hsize : t.numNodes < 2 ^ 31) :
    maxDepth t = some (Nat.size t.numNodes : ℤ) := by
  rw [← height_eq_size h]
  exact maxDepth_ok (t.height_le_numNodes.trans_lt hsize)

/-- The tree of a list that ends is a valid search tree exactly if the list increases strictly;
then a search finds exactly the values of the list. In any case no tree with as many nodes is less
deep. -/
theorem sortedList_tree {m : ListToBst.Heap} {head : Option ListToBst.Ref} {l : List ListToBst.Ref}
    (hlist : Chain (ListToBst.next m) head l) {fuel : ℕ} (hfuel : l.length < fuel)
    (hlen : l.length < 2 ^ 31) :
    ∃ t, ListToBst.sortedListToBST m fuel head = some t ∧
      (isValidBST t = true ↔ (l.map fun a => (m a).val).Pairwise (· < ·)) ∧
      (isValidBST t = true → ∀ q, (∃ left right, searchBST t q = .node q left right) ↔
        q ∈ l.map fun a => (m a).val) ∧
      maxDepth t = some (Nat.size l.length : ℤ) ∧
      ∀ u d, u.numNodes = l.length → maxDepth u = some d → (Nat.size l.length : ℤ) ≤ d := by
  have hpart : ListToBst.Part m head l none := ⟨hlist, fun a _ => Option.some_ne_none a⟩
  obtain ⟨t, hbuild, hinorder, hbalanced⟩ :=
    ListToBst.buildTree_ok hpart (chain_nodup hlist) hfuel
  have hnodes : t.numNodes = l.length := by rw [← inorder_length, hinorder, List.length_map]
  refine ⟨t, hbuild, ?_, fun hvalid q => ?_, ?_, fun u d hu hd => ?_⟩
  · rw [Bst.isValidBST_iff, searchTree_iff, hinorder]
  · rw [← hinorder]
    exact Bst.searchBST_iff ((Bst.isValidBST_iff t).1 hvalid) q
  · rw [← hnodes]
    exact maxDepth_balanced hbalanced (hnodes.trans_lt hlen)
  · exact size_le_of_maxDepth hd hu.ge

theorem sortedList_tree_four :
    ∃ t, ListToBst.sortedListToBST (fun a => ⟨Int32.ofNat a, if a = 3 then none else some (a + 1)⟩)
        5 (some 0) = some t ∧
      (isValidBST t = true ↔ ([0, 1, 2, 3].map Int32.ofNat).Pairwise (· < ·)) ∧
      (isValidBST t = true → ∀ q, (∃ left right, searchBST t q = .node q left right) ↔
        q ∈ [0, 1, 2, 3].map Int32.ofNat) ∧
      maxDepth t = some 3 ∧ ∀ u d, u.numNodes = 4 → maxDepth u = some d → 3 ≤ d :=
  sortedList_tree (m := fun a => ⟨Int32.ofNat a, if a = 3 then none else some (a + 1)⟩)
    (l := [0, 1, 2, 3]) ⟨rfl, rfl, rfl, rfl, rfl⟩ (by decide) (by decide)

/-- After any calls on a search tree of 10000 nodes at most in memory, `balanceBST` gives the keys
that are left the least depth that a tree with these values can have. -/
theorem balanced_depth {s : Bst.State} {keys : Finset Int32} (h : Bst.Stores s keys)
    (calls : List Bst.Call) (junk : ℕ → Option Ref) :
    ∃ s' t', Trace Bst.step s (calls ++ [.balanceBST junk])
        (answers Bst.spec keys (calls ++ [.balanceBST junk])) s' ∧
      Bst.StoresIn s' t' (outcome Bst.spec keys calls) ∧
      maxDepth (Bst.values s'.memory.heap t') =
        some (Nat.size (outcome Bst.spec keys calls).card : ℤ) ∧
      ∀ u d, (inorder u).toFinset = outcome Bst.spec keys calls → maxDepth u = some d →
        (Nat.size (outcome Bst.spec keys calls).card : ℤ) ≤ d := by
  obtain ⟨s₁, htrace, t₁, h₁⟩ := Trace.of_simulation Bst.step Bst.spec Bst.Stores (fun _ => True)
    (fun s keys call hR _ => hR.step call) h fun _ (_ : _ ∈ calls) => trivial
  obtain ⟨s', t', hstep, h', hbalanced⟩ := h₁.balance junk
  refine ⟨s', t', ?_, h', ?_, fun u d hu hd => ?_⟩
  · rw [answers_concat]
    exact htrace.append (.cons hstep (.nil s'))
  · have hnodes : (Bst.values s'.memory.heap t').numNodes =
        (outcome Bst.spec keys calls).card := by
      rw [Bst.values, numNodes_map, ← h'.card, h'.card_eq]
    have hsize := h'.size
    rw [← hnodes]
    refine maxDepth_balanced (hbalanced.map _) ?_
    rw [Bst.values, numNodes_map]
    omega
  · refine size_le_of_maxDepth hd ?_
    rw [← hu, ← inorder_length]
    exact List.toFinset_card_le _

theorem balanced_depth_three :
    ∃ s' t', Trace Bst.step ⟨⟨Bst.three, {0, 1, 2}⟩, some 0⟩
        [.deleteNode 2, .balanceBST fun _ => none] [.done, .done] s' ∧
      Bst.StoresIn s' t' {1, 3} ∧ maxDepth (Bst.values s'.memory.heap t') = some 2 ∧
      ∀ u d, (inorder u).toFinset = {1, 3} → maxDepth u = some d → 2 ≤ d :=
  balanced_depth Bst.stores_three [.deleteNode 2] fun _ => none

end BinaryTrees
end Leetcode
