import Mathlib.Data.Tree.Basic

/-!
# `109.c`: a balanced search tree from a sorted list

The nodes of the list have addresses.  The nodes of the tree are new ones (`malloc` is taken to
succeed), so the tree is a value.  An access through a null pointer is `none`, and so is a loop or
a recursion that is not finished when `fuel` has run out.
-/

namespace Leetcode
namespace ListToBst

/-- The address of a list node. -/
abbrev Ref := ℕ

/-- `struct ListNode` -/
structure ListNode where
  val : Int32
  next : Option Ref
  deriving DecidableEq, Repr

abbrev Heap := Ref → ListNode

/-- `struct TreeNode *` -/
abbrev TreeNode := BinaryTree Int32

/-- The `while` loop of `buildTree`: where it leaves `slow`. -/
def race (m : Heap) (last : Option Ref) : ℕ → Option Ref → Option Ref → Option (Option Ref)
  | 0, _, _ => none
  | fuel + 1, slow, fast =>
      if fast = last then some slow
      else
        fast.bind fun f =>
          if (m f).next = last then some slow
          else
            slow.bind fun s => (m f).next.bind fun f' => race m last fuel (m s).next (m f').next

/-- `buildTree(start, end)` -/
def buildTree (m : Heap) : ℕ → Option Ref → Option Ref → Option TreeNode
  | 0, _, _ => none
  | fuel + 1, start, last =>
      if start = last then some .nil
      else
        (race m last (fuel + 1) start start).bind fun slow => slow.bind fun s =>
          (buildTree m fuel start slow).bind fun left =>
            (buildTree m fuel (m s).next last).map fun right => .node (m s).val left right

/-- `sortedListToBST(head)` -/
def sortedListToBST (m : Heap) (fuel : ℕ) (head : Option Ref) : Option TreeNode :=
  buildTree m fuel head none

end ListToBst
end Leetcode
