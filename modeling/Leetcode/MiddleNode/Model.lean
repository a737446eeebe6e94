import Leetcode.ListToBst.Model

/-!
# `876.c`: the middle of a list

The nodes are those of `109.c`.  The links may form a cycle, so the loop may go on for ever, and
the model says what it has come to after a number of rounds.
-/

namespace Leetcode
namespace MiddleNode

open ListToBst (Heap)

/-- The address of a node. -/
abbrev Ref := ListToBst.Ref

/-- What the loop has come to. -/
inductive Result
  | running (slow fast : Option Ref)
  | returned (slow : Option Ref)
  | nullDereference
  deriving DecidableEq, Repr

/-- The `while` loop, for so many rounds. -/
def race (m : Heap) : ℕ → Option Ref → Option Ref → Result
  | 0, slow, fast => .running slow fast
  | _ + 1, slow, none => .returned slow
  | rounds + 1, slow, some f =>
      match (m f).next with
      | none => .returned slow
      | some f' =>
          match slow with
          | none => .nullDereference
          | some s => race m rounds (m s).next (m f').next

/-- `middleNode(head)` -/
def middleNode (m : Heap) (rounds : ℕ) (head : Option Ref) : Result := race m rounds head head

end MiddleNode
end Leetcode
