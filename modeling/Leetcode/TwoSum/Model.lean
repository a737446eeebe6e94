import Leetcode.Lib.CArray

/-!
# `1.c`: two numbers with a given sum

An `int` is an `Int32`, and its addition wraps.  `malloc` is taken to succeed, and `junk` is what
the two entries of `returnValues` hold before they are written.  An index that leaves an array is
`none`.
-/

namespace Leetcode
namespace TwoSum

open CLib

/-- The inner loop from the round `j` on; the number of rounds is the one that its condition
allows.  The `break` leaves this loop only. -/
def rowLoop (nums : List Int32) (target : Int32) (i : ℕ) :
    ℕ → ℕ → List ℤ → Option (List ℤ)
  | 0, _, returnValues => some returnValues
  | rounds + 1, j, returnValues =>
      (load nums i).bind fun a => (load nums j).bind fun b =>
        if a + b = target then
          (store returnValues 0 i).bind fun returnValues => store returnValues 1 j
        else rowLoop nums target i rounds (j + 1) returnValues

/-- `twoSum(nums, numsSize, target, returnSize)`: the array, and `*returnSize`. -/
def twoSum (junk : ℕ → ℤ) (nums : List Int32) (target : Int32) : Option (List ℤ × ℤ) :=
  ((List.range (nums.length - 1)).foldlM
    (fun returnValues i =>
      rowLoop nums target i (nums.length - (i + 1)) (i + 1) returnValues)
    ((List.range 2).map junk)).map fun returnValues => (returnValues, 2)

end TwoSum
end Leetcode
