import Leetcode.Lib.CArray
import Mathlib.Logic.Function.Basic

/-!
# `1382.c`: rebalancing a search tree

The tree is rebuilt from its own nodes, so the nodes have addresses and the model keeps the heap.
`junk` is what the array of pointers holds before it is written.  An index that leaves the array
and an access through a null pointer are `none`, and so is a recursion that is deeper than any tree
whose nodes fit into the array.
-/

namespace Leetcode
namespace Rebalance

open CLib

/-- The address of a node. -/
abbrev Ref := ℕ

/-- `struct TreeNode` -/
structure TreeNode where
  val : Int32
  left : Option Ref
  right : Option Ref
  deriving DecidableEq, Repr

abbrev Heap := Ref → TreeNode

/-- `node->left = p` -/
def Heap.setLeft (m : Heap) (node : Ref) (p : Option Ref) : Heap :=
  Function.update m node { m node with left := p }

/-- `node->right = p` -/
def Heap.setRight (m : Heap) (node : Ref) (p : Option Ref) : Heap :=
  Function.update m node { m node with right := p }

/-- `inorder(root, arr, index)`: the array, and what `index` points to. -/
def inorder (m : Heap) :
    ℕ → Option Ref → List (Option Ref) → ℤ → Option (List (Option Ref) × ℤ)
  | 0, _, _, _ => none
  | _ + 1, none, arr, index => some (arr, index)
  | fuel + 1, some root, arr, index =>
      (inorder m fuel (m root).left arr index).bind fun (arr, index) =>
        (store arr index (some root)).bind fun arr =>
          inorder m fuel (m root).right arr (index + 1)

/-- `start + (end - start) / 2` -/
def middle (start last : ℤ) : ℤ := start + (last - start).tdiv 2

/-- `buildBalanced(arr, start, end)`: the heap, and the root. -/
def buildBalanced (arr : List (Option Ref)) : ℕ → Heap → ℤ → ℤ → Option (Heap × Option Ref)
  | 0, _, _, _ => none
  | fuel + 1, m, start, last =>
      if start > last then some (m, none)
      else
        let mid := middle start last
        (load arr mid).bind fun p =>
          (buildBalanced arr fuel m start (mid - 1)).bind fun (m, left) => p.bind fun root =>
            (buildBalanced arr fuel (m.setLeft root left) (mid + 1) last).map fun (m, right) =>
              (m.setRight root right, some root)

/-- `balanceBST(root)`: the heap afterwards, and the root. -/
def balanceBST (junk : ℕ → Option Ref) (m : Heap) (root : Option Ref) :
    Option (Heap × Option Ref) :=
  (inorder m 10001 root ((List.range 10000).map junk) 0).bind fun (arr, index) =>
    buildBalanced arr 10001 m 0 (index - 1)

end Rebalance
end Leetcode
