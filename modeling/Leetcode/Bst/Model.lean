import Mathlib.Data.Tree.Basic

/-!
# `450.c`, `700.c` and `98.c`: binary search trees

`deleteNode` takes over the tree it is given and returns the one that is left, so a tree is a
value here, and the pointer to a node is the subtree below it.  An `int` is an `Int32` and a
`long` an `Int64`.  An access through a null pointer is `none`.
-/

namespace Leetcode
namespace Bst

/-- `struct TreeNode *` -/
abbrev TreeNode := BinaryTree Int32

/-! ## `450.c` -/

/-- `findMin(node)`: the node at the end of the left links. -/
def findMin : TreeNode → TreeNode
  | .nil => .nil
  | .node val left right => if left = .nil then .node val left right else findMin left

/-- `deleteNode(root, key)` -/
def deleteNode : TreeNode → Int32 → Option TreeNode
  | .nil, _ => some .nil
  | .node val left right, key =>
      if key < val then (deleteNode left key).map fun left => .node val left right
      else if key > val then (deleteNode right key).map fun right => .node val left right
      else if left = .nil then some right
      else if right = .nil then some left
      else
        match findMin right with
        | .nil => none
        | .node temp _ _ => (deleteNode right temp).map fun right => .node temp left right

/-! ## `700.c` -/

/-- `searchBST(root, val)` -/
def searchBST : TreeNode → Int32 → TreeNode
  | .nil, _ => .nil
  | .node rootVal left right, val =>
      if rootVal = val then .node rootVal left right
      else if val < rootVal then searchBST left val
      else searchBST right val

/-! ## `98.c` -/

/-- `helper(node, min, max)` -/
def helper : TreeNode → Int64 → Int64 → Bool
  | .nil, _, _ => true
  | .node val left right, min, max =>
      if val.toInt64 ≤ min ∨ val.toInt64 ≥ max then false
      else helper left min val.toInt64 && helper right val.toInt64 max

/-- `isValidBST(root)`, with `LONG_MIN` and `LONG_MAX`. -/
def isValidBST (root : TreeNode) : Bool := helper root Int64.minValue Int64.maxValue

end Bst
end Leetcode
