import Leetcode.Lib.CArray
import Leetcode.Lib.CInt
import Leetcode.Lib.CString

/-!
# `20.c`: matching brackets

The string is the list of its bytes in front of the NUL.  `stack` has as many entries as the
string has bytes; `junk` is what it holds before it is written.  An array without entries is taken
to be there.  An index that leaves the array is `none`, and so is one that is no `int` any more.
-/

namespace Leetcode
namespace Brackets

open CLib

/-- `s[i] == closer && stack[top] != opener` -/
def differs (stack : Bytes) (top : ℤ) (c closer opener : UInt8) : Option Bool :=
  if c = closer then (load stack top).map fun x => decide (x ≠ opener) else some false

/-- The test in front of `return false`. -/
def mismatch (stack : Bytes) (top : ℤ) (c : UInt8) : Option Bool :=
  if top = -1 then some true
  else
    (differs stack top c ')'.toUInt8 '('.toUInt8).bind fun found =>
      if found then some true
      else
        (differs stack top c '}'.toUInt8 '{'.toUInt8).bind fun found =>
          if found then some true else differs stack top c ']'.toUInt8 '['.toUInt8

/-- The loop from `s[i]` on, and what follows it; the rest of the string starts there. -/
def scan : Bytes → ℤ → Bytes → ℤ → Option Bool
  | [], _, _, top => some (top = -1)
  | c :: s, i, stack, top =>
      if c = '('.toUInt8 ∨ c = '{'.toUInt8 ∨ c = '['.toUInt8 then
        (intResult (top + 1)).bind fun top => (store stack top c).bind fun stack =>
          (intResult (i + 1)).bind fun i => scan s i stack top
      else
        (mismatch stack top c).bind fun found =>
          if found then some false
          else
            (intResult (top - 1)).bind fun top =>
              (intResult (i + 1)).bind fun i => scan s i stack top

/-- `isValid(s)` -/
def isValid (junk : ℕ → UInt8) (s : Bytes) : Option Bool :=
  scan s 0 ((List.range s.length).map junk) (-1)

end Brackets
end Leetcode
