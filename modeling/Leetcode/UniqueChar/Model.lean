import Leetcode.Lib.CArray
import Leetcode.Lib.CInt
import Leetcode.Lib.CString

/-!
# `387.c`: the first character that occurs once

A `char` is signed.  An index that leaves the array or the string, and an `int` that overflows, is
`none`.
-/

namespace Leetcode
namespace UniqueChar

open CLib

/-- `s[i] - 'a'` -/
def letterIndex (s : Bytes) (i : ℕ) : Option ℤ := s[i]?.map fun b => charValue b - 97

/-- `freq[s[i] - 'a']++` -/
def countRound (s : Bytes) (freq : List ℤ) (i : ℕ) : Option (List ℤ) :=
  (letterIndex s i).bind fun k => (load freq k).bind fun n => (intResult (n + 1)).bind fun n =>
    store freq k n

/-- The first loop. -/
def countLetters (s : Bytes) (len : ℕ) : Option (List ℤ) :=
  (List.range len).foldlM (countRound s) (List.replicate 26 0)

/-- The second loop, with so many rounds left from `i` on. -/
def findUnique (s : Bytes) (freq : List ℤ) : ℕ → ℕ → Option ℤ
  | 0, _ => some (-1)
  | left + 1, i =>
      (letterIndex s i).bind fun k => (load freq k).bind fun n =>
        if n = 1 then some i else findUnique s freq left (i + 1)

/-- `firstUniqChar(s)` -/
def firstUniqChar (s : Bytes) : Option ℤ :=
  let len := (intOfSize s.length).toNat
  (countLetters s len).bind fun freq => findUnique s freq len 0

end UniqueChar
end Leetcode
