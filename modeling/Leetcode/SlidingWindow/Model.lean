import Leetcode.Lib.CArray
import Leetcode.Lib.Loop

/-!
# `239.c`: the maximum of a sliding window

The loop is a machine that makes one test or one statement a step, so that what holds throughout
the loop is what holds after any number of steps.  An index that leaves an array is `none`.
`malloc` is taken to succeed; `junk n` is what the memory of its call `n` holds before it is
written.

Every number that the code computes lies between `-numsSize` and `numsSize`, so none overflows.
-/

namespace Leetcode
namespace SlidingWindow

open CLib

/-- What is done next. -/
inductive Place
  /-- `i < numsSize` -/
  | test
  /-- `if (head < tail && dq[head] <= i - k) head++` -/
  | expire
  /-- `while (head < tail && nums[dq[tail - 1]] <= nums[i]) tail--` -/
  | drop
  /-- `dq[tail++] = i` -/
  | push
  /-- `if (i >= k - 1) result[i - k + 1] = nums[dq[head]]`, and `i++` -/
  | emit
  /-- behind the loop -/
  | finished
  deriving DecidableEq

/-- The variables of the loop. -/
structure Vars where
  i : ℤ
  head : ℤ
  tail : ℤ
  dq : List ℤ
  result : List ℤ
  deriving DecidableEq

structure State extends Vars where
  place : Place
  deriving DecidableEq

/-- `head < tail && dq[head] <= i - k` -/
def frontGoes (k : ℤ) (v : Vars) : Option Bool :=
  if v.head < v.tail then (load v.dq v.head).map fun d => decide (d ≤ v.i - k) else some false

/-- `head < tail && nums[dq[tail - 1]] <= nums[i]` -/
def backGoes (nums : List ℤ) (v : Vars) : Option Bool :=
  if v.head < v.tail then
    (load v.dq (v.tail - 1)).bind fun d => (load nums d).bind fun y =>
      (load nums v.i).map fun x => decide (y ≤ x)
  else some false

/-- One step. -/
def step (nums : List ℤ) (k : ℤ) (s : State) : Option State :=
  match s.place with
  | .test => some { s with place := if s.i < nums.length then .expire else .finished }
  | .expire =>
      (frontGoes k s.toVars).map fun goes =>
        { s with place := .drop, head := if goes then s.head + 1 else s.head }
  | .drop =>
      (backGoes nums s.toVars).map fun goes =>
        if goes then { s with tail := s.tail - 1 } else { s with place := .push }
  | .push =>
      (store s.dq s.tail s.i).map fun dq => { s with place := .emit, dq, tail := s.tail + 1 }
  | .emit =>
      if s.i ≥ k - 1 then
        (load s.dq s.head).bind fun d => (load nums d).bind fun m =>
          (store s.result (s.i - k + 1) m).map fun result =>
            { s with place := .test, result, i := s.i + 1 }
      else some { s with place := .test, i := s.i + 1 }
  | .finished => some s

/-- The state in front of the loop. -/
def start (junk : ℕ → ℕ → ℤ) (nums : List ℤ) (k : ℤ) : State where
  place := .test
  i := 0
  head := 0
  tail := 0
  dq := (List.range nums.length).map (junk 1)
  result := (List.range (nums.length - k + 1).toNat).map (junk 0)

/-- `maxSlidingWindow(nums, numsSize, k, returnSize)`: the array or a null pointer, and
`*returnSize`.  The number of steps is more than the loop takes. -/
def maxSlidingWindow (junk : ℕ → ℕ → ℤ) (nums : List ℤ) (k : ℤ) : Option (Option (List ℤ) × ℤ) :=
  if nums.length = 0 ∨ k ≤ 0 ∨ k > nums.length then some (none, 0)
  else
    (steps (step nums k) (6 * nums.length + 6) (start junk nums k)).bind fun s =>
      if s.place = .finished then some (some s.result, nums.length - k + 1) else none

end SlidingWindow
end Leetcode
