import Mathlib.Data.Int.Notation
import Mathlib.Data.Nat.Notation
import Mathlib.Data.Tree.Basic

/-!
# `315.c`: counting smaller elements after self

`insert` is called on a tree that only its caller holds, and its result is stored back, so a tree
is a value here.  An index that leaves an array is `none`.  `malloc` is taken to succeed; `junk`
is what its memory holds before it is written.

A counter is never larger than the number of elements, which is an `int`.
-/

namespace Leetcode
namespace CountSmaller

/-- A `struct Node` without its links. -/
structure Data where
  val : ℤ
  count : ℤ
  deriving DecidableEq

/-- `struct Node *` -/
abbrev Node := BinaryTree Data

/-- `insert(root, val, smallerCount, count)`: the tree, and what `*smallerCount` is set to. -/
def insert : Node → ℤ → ℤ → Node × ℤ
  | .nil, val, count => (.node ⟨val, 0⟩ .nil .nil, count)
  | .node root left right, val, count =>
      if val ≤ root.val then
        let (left, smallerCount) := insert left val count
        (.node { root with count := root.count + 1 } left right, smallerCount)
      else
        let (right, smallerCount) := insert right val (count + root.count + 1)
        (.node root left right, smallerCount)

/-- The loop of `countSmaller`, with `i` more rounds to go. -/
def countLoop (nums : List ℤ) : ℕ → Node → List ℤ → Option (List ℤ)
  | 0, _, res => some res
  | i + 1, root, res =>
      nums[i]?.bind fun x =>
        let (root, count) := insert root x 0
        if i < res.length then countLoop nums i root (res.set i count) else none

/-- `countSmaller(nums, numsSize, returnSize)`: the array of `*returnSize` numbers. -/
def countSmaller (junk : ℕ → ℤ) (nums : List ℤ) : Option (List ℤ) :=
  countLoop nums nums.length .nil ((List.range nums.length).map junk)

end CountSmaller
end Leetcode
