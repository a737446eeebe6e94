import Leetcode.CountSmaller.Model
import Leetcode.Lib.SearchTree
import Mathlib.Algebra.Order.Ring.Int
import Mathlib.Data.List.GetD

/-!
# What `countSmaller` returns

The tree is a search tree of the elements behind `i`, and every node stores the size of its left
subtree.  A descent of `insert` therefore adds up the number of smaller values, and it keeps both.

* `insert_counts` — what `insert` writes to `smallerCount`.
* `valid_step` — `insert` keeps the invariant.
* `Counting` — the invariant of the loop over `i`.
-/

namespace Leetcode
namespace CountSmaller

open CLib

/-! ## The tree -/

/-- The tree of the values. -/
def vals (root : Node) : BinaryTree ℤ := root.map Data.val

@[simp] theorem vals_nil : vals .nil = .nil := rfl

@[simp] theorem vals_node (d : Data) (left right : Node) :
    vals (.node d left right) = .node d.val (vals left) (vals right) := rfl

/-- Every node stores the size of its left subtree. -/
def Counted : Node → Prop
  | .nil => True
  | .node root left right =>
      root.count = (inorder (vals left)).length ∧ Counted left ∧ Counted right

structure Valid (root : Node) : Prop where
  sorted : SearchTree (· ≤ ·) (vals root)
  counted : Counted root

theorem valid_nil : Valid .nil := ⟨trivial, trivial⟩

theorem Valid.left {d : Data} {left right : Node} (h : Valid (.node d left right)) : Valid left :=
  ⟨h.sorted.2.2.1, h.counted.2.1⟩

theorem Valid.right {d : Data} {left right : Node} (h : Valid (.node d left right)) :
    Valid right :=
  ⟨h.sorted.2.2.2, h.counted.2.2⟩

/-- `insert` adds its value to the tree. -/
theorem insert_perm (root : Node) (val count : ℤ) :
    (inorder (vals (insert root val count).1)).Perm (val :: inorder (vals root)) := by
  induction root generalizing count with
  | nil => exact List.Perm.refl _
  | node d left right ihl ihr =>
      by_cases hle : val ≤ d.val
      · simp only [insert, if_pos hle]
        exact (ihl count).append_right _
      · simp only [insert, if_neg hle]
        have hright := ((ihr (count + d.count + 1)).cons d.val).append_left (inorder (vals left))
        exact hright.trans ((List.Perm.swap _ _ _).append_left _ |>.trans List.perm_middle)

/-- What `insert` adds to its argument `count` is the number of smaller values. -/
theorem insert_counts {root : Node} (h : Valid root) (val count : ℤ) :
    (insert root val count).2 = count + (inorder (vals root)).countP (· < val) := by
  induction root generalizing count with
  | nil => simp [insert, inorder]
  | node d left right ihl ihr =>
      have hsorted : SearchTree (· ≤ ·) (.node d.val (vals left) (vals right)) := h.sorted
      by_cases hle : val ≤ d.val
      · simp only [insert, if_pos hle]
        rw [ihl h.left, vals_node, countP_lt_left hsorted hle]
      · simp only [insert, if_neg hle]
        rw [ihr h.right, h.counted.1, vals_node, countP_lt_right hsorted (not_le.1 hle)]
        omega

theorem valid_step {root : Node} (h : Valid root) (val count : ℤ) :
    Valid (insert root val count).1 := by
  induction root generalizing count with
  | nil =>
      constructor
      · simp [insert, SearchTree, inorder]
      · simp [insert, Counted, inorder]
  | node d left right ihl ihr =>
      obtain ⟨hbelow, habove, -, -⟩ := h.sorted
      by_cases hle : val ≤ d.val
      · have hperm := insert_perm left val count
        obtain ⟨hsorted, hcounted⟩ := ihl h.left count
        simp only [insert, if_pos hle]
        constructor
        · refine ⟨fun y hy => ?_, habove, hsorted, h.right.sorted⟩
          rcases List.mem_cons.1 (hperm.mem_iff.1 hy) with rfl | hy
          · exact hle
          · exact hbelow y hy
        · refine ⟨?_, hcounted, h.right.counted⟩
          show d.count + 1 = _
          rw [hperm.length_eq, List.length_cons, h.counted.1, Nat.cast_add_one]
      · have hperm := insert_perm right val (count + d.count + 1)
        obtain ⟨hsorted, hcounted⟩ := ihr h.right (count + d.count + 1)
        simp only [insert, if_neg hle]
        constructor
        · refine ⟨hbelow, fun y hy => ?_, h.left.sorted, hsorted⟩
          rcases List.mem_cons.1 (hperm.mem_iff.1 hy) with rfl | hy
          · exact (not_le.1 hle).le
          · exact habove y hy
        · exact ⟨h.counted.1, h.left.counted, hcounted⟩

/-! ## The loop -/

/-- How many elements behind `i` are less than the one at `i`. -/
def smallerAfter (nums : List ℤ) (i : ℕ) : ℕ :=
  (nums.drop (i + 1)).countP (· < nums.getD i 0)

/-- The state with `i` more rounds to go. -/
structure Counting (nums : List ℤ) (i : ℕ) (root : Node) (res : List ℤ) : Prop where
  valid : Valid root
  elems : (inorder (vals root)).Perm (nums.drop i)
  length : res.length = nums.length
  done : ∀ j, i ≤ j → j < nums.length → res[j]? = some (smallerAfter nums j : ℤ)

theorem counting_init (junk : ℕ → ℤ) (nums : List ℤ) :
    Counting nums nums.length .nil ((List.range nums.length).map junk) where
  valid := valid_nil
  elems := by rw [List.drop_length]; exact List.Perm.refl _
  length := by simp
  done j hle hlt := absurd hlt (not_lt.2 hle)

theorem counting_step {nums res : List ℤ} {root : Node} {i : ℕ}
    (h : Counting nums (i + 1) root res) (hi : i < nums.length) :
    Counting nums i (insert root nums[i] 0).1 (res.set i (insert root nums[i] 0).2) := by
  obtain ⟨hvalid, helems, hlength, hdone⟩ := h
  constructor
  · exact valid_step hvalid nums[i] 0
  · rw [List.drop_eq_getElem_cons hi]
    exact (insert_perm root nums[i] 0).trans (helems.cons nums[i])
  · rw [List.length_set, hlength]
  · intro j hle hj
    rcases Nat.eq_or_lt_of_le hle with rfl | hlt
    · rw [List.getElem?_set_self (hlength ▸ hi), insert_counts hvalid, zero_add,
        helems.countP_eq, smallerAfter, List.getD_eq_getElem _ _ hi]
    · rw [List.getElem?_set_ne (Nat.ne_of_lt hlt)]
      exact hdone j hlt hj

theorem counting_run {nums res : List ℤ} {root : Node} {i : ℕ} (h : Counting nums i root res)
    (hi : i ≤ nums.length) :
    ∃ root' res', countLoop nums i root res = some res' ∧ Counting nums 0 root' res' := by
  induction i generalizing root res with
  | zero => exact ⟨root, res, rfl, h⟩
  | succ i ih =>
      obtain ⟨root', res', hloop, h'⟩ := ih (counting_step h hi) (Nat.le_of_succ_le hi)
      refine ⟨root', res', ?_, h'⟩
      rw [countLoop, List.getElem?_eq_getElem hi, Option.bind_some]
      simp only [h.length, if_pos (Nat.lt_of_succ_le hi), hloop]

/-- `countSmaller` returns an array of the length of its argument, with the number of smaller
elements behind every index. -/
theorem countSmaller_exact (junk : ℕ → ℤ) (nums : List ℤ) :
    ∃ res, countSmaller junk nums = some res ∧ res.length = nums.length ∧
      ∀ i, i < nums.length →
        res[i]? = some ((nums.drop (i + 1)).countP (· < nums.getD i 0) : ℤ) := by
  obtain ⟨_, res, hloop, h⟩ := counting_run (counting_init junk nums) le_rfl
  exact ⟨res, hloop, h.length, fun i hi => h.done i (Nat.zero_le i) hi⟩

end CountSmaller
end Leetcode
