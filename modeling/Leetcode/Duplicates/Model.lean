import Leetcode.Lib.CArray
import Leetcode.Lib.Qsort

/-!
# `217.c`: looking for duplicates

An `int` is an `Int32`, and the subtraction of `cmp` wraps.  `qsort` is a parameter: it rearranges
the array, and what it promises is `Sorts`.  An index that leaves the array is `none`.
-/

namespace Leetcode
namespace Duplicates

open CLib

/-- `cmp(a, b)` -/
def cmp (a b : Int32) : Int32 := a - b

/-- The loop from the round `i` on; the number of rounds is the one that its condition allows. -/
def scan (nums : List Int32) : ℕ → ℕ → Option Bool
  | 0, _ => some false
  | rounds + 1, i =>
      (load nums i).bind fun a => (load nums ((i : ℤ) - 1)).bind fun b =>
        if a = b then some true else scan nums rounds (i + 1)

/-- `containsDuplicate(nums, numsSize)`: the result, and the array it leaves. -/
def containsDuplicate (qsort : Qsort Int32) (nums : List Int32) : Option (Bool × List Int32) :=
  if nums.length ≤ 1 then some (false, nums)
  else
    let sorted := (qsort (fun a b => (cmp a b).toInt) nums).1
    (scan sorted (nums.length - 1) 1).map fun found => (found, sorted)

end Duplicates
end Leetcode
