import Mathlib.Data.List.FinRange
import Leetcode.Lib.CString
import Leetcode.Lib.Words

/-!
# `wordcount.c`: counting words with threads

The buffer is the file as `read` returns it.  `main` gives each thread its `start` and
`end`, every thread counts in its part, and under the mutex it adds its count to
`word_count`; `order` is the order in which the threads do so.  `count` is an `int`: a
thread that counts beyond `INT_MAX` has no defined result.  `word_count` is a `long` and
has room for the counts of all threads.
-/

namespace Leetcode
namespace WordCount

open CLib

def MAX_THREADS : ℕ := 4

instance : NeZero MAX_THREADS := ⟨by decide⟩

def INT_MAX : Int := 2147483647

/-- `isalnum` in the C locale. -/
def isWordChar (c : UInt8) : Bool :=
  (48 ≤ c ∧ c ≤ 57) ∨ (65 ≤ c ∧ c ≤ 90) ∨ (97 ≤ c ∧ c ≤ 122)

/-! ## A thread -/

/-- One round of the loop, on `count` and `in_word`. -/
def countRound (data : Bytes) (acc : Int × Bool) (i : ℕ) : Option (Int × Bool) :=
  data[i]?.bind fun c =>
    if isWordChar c then
      if acc.2 then some acc
      else if acc.1 < INT_MAX then some (acc.1 + 1, true) else none
    else some (acc.1, false)

/-- The count that the thread adds to `word_count`. -/
def countWords (data : Bytes) (start stop : ℕ) : Option Int :=
  ((List.range' start (stop - start)).foldlM (countRound data) (0, false)).map Prod.fst

/-! ## `main` -/

/-- The loop that moves a position behind the word it is in, for at most `fuel` rounds. -/
def skipWord (buffer : Bytes) : ℕ → ℕ → ℕ
  | 0, pos => pos
  | fuel + 1, pos =>
      match buffer[pos]? with
      | some c => if isWordChar c then skipWord buffer fuel (pos + 1) else pos
      | none => pos

def chunks (buffer : Bytes) : ℕ := buffer.length / MAX_THREADS

/-- `args[i].start`. -/
def start (buffer : Bytes) (i : ℕ) : ℕ :=
  if 0 < i * chunks buffer then skipWord buffer buffer.length (i * chunks buffer)
  else i * chunks buffer

/-- `args[i].end` before it is moved. -/
def chunkEnd (buffer : Bytes) (i : ℕ) : ℕ :=
  if i = MAX_THREADS - 1 then buffer.length else (i + 1) * chunks buffer

/-- `args[i].end`. -/
def stop (buffer : Bytes) (i : ℕ) : ℕ :=
  if chunkEnd buffer i < buffer.length then skipWord buffer buffer.length (chunkEnd buffer i)
  else chunkEnd buffer i

/-- The final `word_count`, when the threads add their counts in this order. -/
def main (buffer : Bytes) (order : List (Fin MAX_THREADS)) : Option Int :=
  order.foldlM
    (fun wordCount (i : Fin MAX_THREADS) =>
      (countWords buffer (start buffer i) (stop buffer i)).map (wordCount + ·))
    0

end WordCount
end Leetcode
