import Leetcode.Lib.CArray
import Leetcode.Lib.Loop
import Mathlib.Data.Tree.Basic

/-!
# `94.c`: in-order traversal with a stack

The traversal only reads the tree, so the pointer to a node is the subtree below it.  `malloc` is
taken to succeed.  `junk` and `junkStack` are what the arrays hold before they are written.  An
index that leaves an array and an access through a null pointer are `none`.
-/

namespace Leetcode
namespace Traversal

open CLib

/-- `struct TreeNode *` -/
abbrev TreeNode := BinaryTree Int32

/-- The variables of `inorderTraversal`, with what `returnSize` points to. -/
structure State where
  root : TreeNode
  stack : List TreeNode
  top : ℤ
  result : List Int32
  returnSize : ℤ
  deriving DecidableEq

/-- `while (root) { stack[++top] = root; root = root->left; }` -/
def pushLeft : TreeNode → List TreeNode → ℤ → Option (List TreeNode × ℤ)
  | .nil, stack, top => some (stack, top)
  | .node val left right, stack, top =>
      (store stack (top + 1) (.node val left right)).bind fun stack =>
        pushLeft left stack (top + 1)

/-- The body of the outer loop. -/
def round (s : State) : Option State :=
  (pushLeft s.root s.stack s.top).bind fun (stack, top) =>
    (load stack top).bind fun root =>
      match root with
      | .nil => none
      | .node val _ right =>
          (store s.result s.returnSize val).map fun result =>
            { root := right, stack, top := top - 1, result, returnSize := s.returnSize + 1 }

/-- The outer loop has ended. -/
def State.Finished (s : State) : Prop := s.root = .nil ∧ s.top = -1

instance : DecidablePred State.Finished := fun _ => inferInstanceAs (Decidable (_ ∧ _))

/-- One round of the outer loop, if there is one more. -/
def step (s : State) : Option State := if s.Finished then some s else round s

def start (junk : ℕ → Int32) (junkStack : ℕ → TreeNode) (root : TreeNode) : State where
  root := root
  stack := (List.range 100).map junkStack
  top := -1
  result := (List.range 100).map junk
  returnSize := 0

/-- `inorderTraversal(root, returnSize)`: the array, and `*returnSize`.  Every round writes one
entry of the array, so there are not more than 100. -/
def inorderTraversal (junk : ℕ → Int32) (junkStack : ℕ → TreeNode) (root : TreeNode) :
    Option (List Int32 × ℤ) :=
  (steps step 101 (start junk junkStack root)).bind fun s =>
    if s.Finished then some (s.result, s.returnSize) else none

end Traversal
end Leetcode
