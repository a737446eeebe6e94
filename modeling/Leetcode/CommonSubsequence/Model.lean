import Leetcode.Lib.CArray
import Leetcode.Lib.CInt
import Leetcode.Lib.CString

/-!
# `1143.c`: the longest common subsequence

`dp` is an array of `m + 1` rows of `n + 1` entries, with `junk` in it until it is written.  `m`
and `n` are what the lengths of the strings are converted to.  An index outside of the array or of
a string, an array without rows or columns, and the result of an `int` operation that is no `int`
are `none`.  The array is taken to fit into memory.
-/

namespace Leetcode
namespace CommonSubsequence

open CLib

/-- `max(a, b)` -/
def max (a b : ℤ) : ℤ := if a > b then a else b

/-- The entries of `dp`. -/
abbrev Table := ℤ → ℤ → ℤ

/-- Whether `dp[i][j]` is an entry. -/
abbrev Inside (m n i j : ℤ) : Prop := (0 ≤ i ∧ i ≤ m) ∧ 0 ≤ j ∧ j ≤ n

/-- The value of `dp[i][j]`. -/
def read (m n : ℤ) (dp : Table) (i j : ℤ) : Option ℤ :=
  if Inside m n i j then some (dp i j) else none

/-- `dp[i][j] = x` -/
def write (m n : ℤ) (dp : Table) (i j x : ℤ) : Option Table :=
  if Inside m n i j then some fun i' j' => if i' = i ∧ j' = j then x else dp i' j' else none

section Loops

variable (text1 text2 : Bytes) (m n : ℤ)

/-- What is stored at `dp[i][j]`. -/
def entry (dp : Table) (i j : ℤ) : Option ℤ :=
  if i = 0 ∨ j = 0 then some 0
  else
    (load text1 (i - 1)).bind fun a => (load text2 (j - 1)).bind fun b =>
      if a = b then (read m n dp (i - 1) (j - 1)).bind fun d => intResult (1 + d)
      else
        (read m n dp (i - 1) j).bind fun above =>
          (read m n dp i (j - 1)).map fun before => max above before

/-- One round of the inner loop. -/
def fillEntry (i : ℕ) (dp : Table) (j : ℕ) : Option Table :=
  (entry text1 text2 m n dp i j).bind fun x => write m n dp i j x

/-- One round of the outer loop; the inner one runs while `j <= n`. -/
def fillRow (dp : Table) (i : ℕ) : Option Table :=
  (List.range (n + 1).toNat).foldlM (fillEntry text1 text2 m n i) dp

end Loops

/-- `longestCommonSubsequence(text1, text2)` -/
def longestCommonSubsequence (text1 text2 : Bytes) (junk : Table) : Option ℤ :=
  let m := intOfSize text1.length
  let n := intOfSize text2.length
  (intResult (m + 1)).bind fun rows => (intResult (n + 1)).bind fun columns =>
    if 0 < rows ∧ 0 < columns then
      ((List.range rows.toNat).foldlM (fillRow text1 text2 m n) junk).bind fun dp =>
        read m n dp m n
    else none

end CommonSubsequence
end Leetcode
