import Leetcode.Lib.CInt
import Mathlib.Data.Tree.Basic

/-!
# `100.c` and `104.c`: comparing trees, and their depth

Both functions only read the trees, so the pointer to a node is the subtree below it.  An addition
that overflows is `none`.
-/

namespace Leetcode
namespace BinaryTrees

open CLib

/-- `struct TreeNode *` -/
abbrev TreeNode := BinaryTree Int32

/-- `isSameTree(p, q)` -/
def isSameTree : TreeNode → TreeNode → Bool
  | .nil, .nil => true
  | .nil, .node _ _ _ => false
  | .node _ _ _, .nil => false
  | .node pVal pLeft pRight, .node qVal qLeft qRight =>
      if pVal ≠ qVal then false else isSameTree pLeft qLeft && isSameTree pRight qRight

/-- `maxDepth(root)` -/
def maxDepth : TreeNode → Option ℤ
  | .nil => some 0
  | .node _ left right =>
      (maxDepth left).bind fun leftDepth => (maxDepth right).bind fun rightDepth =>
        intResult ((if leftDepth > rightDepth then leftDepth else rightDepth) + 1)

end BinaryTrees
end Leetcode
