import Mathlib.Algebra.Group.Nat.Defs
import Mathlib.Algebra.Ring.Int.Defs
import Mathlib.Data.Int.Notation
import Mathlib.Data.List.Basic
import Mathlib.Data.Nat.Notation
import Leetcode.Lib.CInt

/-!
# `327.c`: counting range sums by merging

`sums` is the array of `long`s, and the merging loops move over it by index.  An index that
leaves an array is `none`, and so is a sum or a difference that overflows: of `int`s where
indices are added, and of `long`s where prefix sums are.  `malloc` is taken to succeed.

The `long` that counts pairs is any integer here: it is never larger than the number of pairs of
indices, which is below `2 ^ 62`.
-/

namespace Leetcode
namespace RangeSum

open CLib

/-! ## The loops of a merge -/

/-- `while (p < right && test(sums[p])) p++`, with `rest` as `right - p`. -/
def advance (sums : List ℤ) (test : ℤ → Option Bool) : ℕ → ℕ → Option ℕ
  | 0, p => some p
  | rest + 1, p =>
      sums[p]?.bind fun y => (test y).bind fun go =>
        if go then advance sums test rest (p + 1) else some p

/-- `cache[r++] = x`, in a `cache` of `size` entries, the first `r` of which are written. -/
def push (size : ℕ) (cache : List ℤ) (x : ℤ) : Option (List ℤ) :=
  if cache.length < size then some (cache ++ [x]) else none

/-- `while (t < right && test(sums[t])) cache[r++] = sums[t++]`, with `rest` as `right - t`. -/
def drain (sums : List ℤ) (test : ℤ → Bool) (size : ℕ) : ℕ → ℕ → List ℤ → Option (ℕ × List ℤ)
  | 0, t, cache => some (t, cache)
  | rest + 1, t, cache =>
      sums[t]?.bind fun y =>
        if test y then (push size cache y).bind fun cache => drain sums test size rest (t + 1) cache
        else some (t, cache)

/-- The variables of the loop over the left half. -/
structure Merging where
  j : ℕ
  k : ℕ
  t : ℕ
  cache : List ℤ
  count : ℤ
  deriving DecidableEq

/-- One round of that loop. -/
def mergeRound (sums : List ℤ) (right : ℕ) (lower upper : ℤ) (size : ℕ) (s : Merging) (i : ℕ) :
    Option Merging :=
  sums[i]?.bind fun x =>
    let below := fun y => (longResult (y - x)).map fun d => decide (d < lower)
    let within := fun y => (longResult (y - x)).map fun d => decide (d ≤ upper)
    (advance sums below (right - s.k) s.k).bind fun k =>
      (advance sums within (right - s.j) s.j).bind fun j =>
        (drain sums (· < x) size (right - s.t) s.t s.cache).bind fun drained =>
          (push size drained.2 x).map fun cache =>
            ⟨j, k, drained.1, cache, s.count + ((j : ℤ) - k)⟩

/-- `for (i = 0; i < r; i++) sums[left + i] = cache[i]`, from the entry at `pos` on. -/
def copyBack : List ℤ → ℕ → List ℤ → Option (List ℤ)
  | [], _, sums => some sums
  | c :: cache, pos, sums =>
      if pos < sums.length then copyBack cache (pos + 1) (sums.set pos c) else none

/-- The body of `mergeCount` behind its two calls: what is added to `count`, and the array. -/
def merge (sums : List ℤ) (left mid right : ℕ) (lower upper : ℤ) : Option (ℤ × List ℤ) :=
  ((List.range' left (mid - left)).foldlM (mergeRound sums right lower upper (right - left))
      ⟨mid, mid, mid, [], 0⟩).bind fun s =>
    (drain sums (fun _ => true) (right - left) (right - s.t) s.t s.cache).bind fun drained =>
      (copyBack drained.2 left sums).map fun sums => (s.count, sums)

/-! ## The two functions -/

/-- `mergeCount(sums, left, right, lower, upper)`: the value and the array.  The two calls are
made in the order of the text; they are about different parts of the array. -/
def mergeCount (lower upper : ℤ) : ℕ → List ℤ → ℕ → ℕ → Option (ℤ × List ℤ)
  | 0, _, _, _ => none
  | fuel + 1, sums, left, right =>
      if right - left ≤ 1 then some (0, sums)
      else
        (intResult (left + right)).bind fun sum =>
          let mid := sum.toNat / 2
          (mergeCount lower upper fuel sums left mid).bind fun first =>
            (mergeCount lower upper fuel first.2 mid right).bind fun second =>
              (merge second.2 left mid right lower upper).map fun merged =>
                (first.1 + second.1 + merged.1, merged.2)

/-- The loop of `countRangeSum`: the sums from `sum` on. -/
def prefixSums (sum : ℤ) : List ℤ → Option (List ℤ)
  | [] => some [sum]
  | x :: nums =>
      (longResult (sum + x)).bind fun next => (prefixSums next nums).map (sum :: ·)

/-- What `mergeCount` returns to `countRangeSum`. -/
def answer (nums : List ℤ) (lower upper : ℤ) : Option ℤ :=
  (intResult (nums.length + 1)).bind fun size =>
    (prefixSums 0 nums).bind fun sums =>
      (mergeCount lower upper size.toNat sums 0 size.toNat).map Prod.fst

/-- `countRangeSum(nums, numsSize, lower, upper)`: the answer, cut down to an `int`. -/
def countRangeSum (nums : List ℤ) (lower upper : ℤ) : Option ℤ :=
  (answer nums lower upper).map fun ans => ans.bmod (2 ^ 32)

end RangeSum
end Leetcode
