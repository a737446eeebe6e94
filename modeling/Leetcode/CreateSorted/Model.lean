import Mathlib.Data.Int.Bitwise
import Mathlib.Data.List.Basic
import Leetcode.Lib.CInt

/-!
# `1649.c`: inserting into a sorted array at the least cost

`bit` is a global array of `MAX_VAL + 2` entries, so a call finds in it what an earlier one has
left.  An index outside of it is `none`, and so is a loop that takes more rounds than it has
entries.  `index & -index` is taken in two's complement, which is the same for `int` and for
unbounded integers.

`updateWith` and `queryWith` are the two functions of the file, with a parameter for what an
operation on `int`s gives.  In `createSortedArray` the entries count instructions, and the number
of these is an `int`, so no addition overflows and `update` and `query` compute with unbounded
integers; `cost` is a `long long`.  Called with values of their own they can leave the range of
`int`: in `updateInt` and `queryInt` every addition is checked.
-/

namespace Leetcode
namespace CreateSorted

open CLib

def MOD : ℤ := 1000000007

def MAX_VAL : ℕ := 100000

/-- `bit`, by index. -/
abbrev Bit := ℕ → ℤ

/-- The entry at `index`. -/
def read (bit : Bit) (index : ℤ) : Option ℤ :=
  if 0 ≤ index ∧ index < MAX_VAL + 2 then some (bit index.toNat) else none

/-- `index & -index`. -/
def lowbit (index : ℤ) : ℤ := Int.land index (-index)

section

variable (result : ℤ → Option ℤ)

/-- `update(index, val)`. -/
def updateWith (val : ℤ) : ℕ → Bit → ℤ → Option Bit
  | 0, _, _ => none
  | fuel + 1, bit, index =>
      if index ≤ MAX_VAL then
        (read bit index).bind fun b => (result (b + val)).bind fun b' =>
          (result (index + lowbit index)).bind fun next =>
            updateWith val fuel (Function.update bit index.toNat b') next
      else some bit

/-- The loop of `query`, with `res` so far. -/
def queryLoop (bit : Bit) : ℕ → ℤ → ℤ → Option ℤ
  | 0, _, _ => none
  | fuel + 1, res, index =>
      if index > 0 then
        (read bit index).bind fun b => (result (res + b)).bind fun res =>
          (result (index - lowbit index)).bind fun next => queryLoop bit fuel res next
      else some res

/-- `query(index)`. -/
def queryWith (bit : Bit) (index : ℤ) : Option ℤ := queryLoop result bit (MAX_VAL + 1) 0 index

end

def update (val : ℤ) : ℕ → Bit → ℤ → Option Bit := updateWith some val

def query (bit : Bit) (index : ℤ) : Option ℤ := queryWith some bit index

def updateInt (val : ℤ) : ℕ → Bit → ℤ → Option Bit := updateWith intResult val

def queryInt (bit : Bit) (index : ℤ) : Option ℤ := queryWith intResult bit index

/-- Some calls `update(index, val)`, one after the other. -/
def updates (bit : Bit) (calls : List (ℤ × ℤ)) : Option Bit :=
  calls.foldlM (fun bit call => updateInt call.2 (MAX_VAL + 1) bit call.1) bit

/-- The variables of the loop over the instructions, with the global array. -/
structure State where
  bit : Bit
  cost : ℤ
  i : ℤ

/-- One round of that loop. -/
def insertRound (s : State) (x : ℤ) : Option State :=
  (query s.bit (x - 1)).bind fun less =>
    (query s.bit x).bind fun upTo =>
      let greater := s.i - upTo
      let cost := (s.cost + if less < greater then less else greater).tmod MOD
      (update 1 (MAX_VAL + 1) s.bit x).map fun bit => ⟨bit, cost, s.i + 1⟩

/-- `for (i = 0; i <= MAX_VAL; i++) bit[i] = 0`. -/
def clear (bit : Bit) : Bit := fun i => if i ≤ MAX_VAL then 0 else bit i

/-- `createSortedArray(instructions, instructionsSize)`: the cost, and the array it leaves. -/
def createSortedArray (bit : Bit) (instructions : List ℤ) : Option (ℤ × Bit) :=
  (instructions.foldlM insertRound ⟨clear bit, 0, 0⟩).map fun s => (s.cost, s.bit)

end CreateSorted
end Leetcode
