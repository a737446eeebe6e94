import Leetcode.Lib.File

/-!
# `Asyn_IO.c`: a file in asynchronous blocks

What becomes of each request is an input.  `main` waits for a request before it makes the next
one, and it waits for ever when the request stays in progress: that is `none`, and so is a `memset`
on a null pointer.  One `aiocb` and one buffer serve all the requests.

The clock is left out, and of the two speeds that are printed only the text in front of them is
kept.
-/

namespace Leetcode
namespace AsyncIo

open CLib

def FILE_SIZE : ℕ := 100 * 1024 * 1024

def BLOCK_SIZE : ℕ := 4 * 1024

/-- What becomes of a request: the call itself fails, the request stays in progress, it fails, or
up to `n` bytes are transferred. -/
inductive Request
  | refused
  | pending
  | failed
  | transferred (n : ℕ)
  deriving DecidableEq, Repr

/-- The outcomes of the calls, by the round of the loop where there is one. -/
structure Calls where
  opened : Bool
  allocated : Bool
  write : ℕ → Request
  read : ℕ → Request

/-- How `main` ends: the value that it returns, the content of `testfile.bin` if it has been opened
and not removed, what is printed and what is handed to `perror`, and whether the buffer is freed
and the descriptor closed. -/
structure Exit where
  code : ℤ
  file : Option Bytes
  printed : List String
  errors : List String
  freed : Bool
  closed : Bool
  deriving DecidableEq

/-- `return 1` in one of the loops. -/
def fails (content : Bytes) (printed : List String) (call : String) : Exit :=
  ⟨1, some content, printed, [call], false, false⟩

/-- The first loop, with so many rounds left from the round `i` on: how `main` ends in it, or the
content of the file behind it. -/
def writeLoop (calls : Calls) (buf : Bytes) : ℕ → ℕ → Bytes → Option (Except Exit Bytes)
  | 0, _, content => some (.ok content)
  | rounds + 1, i, content =>
      match calls.write i with
      | .refused => some (.error (fails content [] "aio_write"))
      | .pending => none
      | .failed => some (.error (fails content [] "aio_return"))
      | .transferred n =>
          writeLoop calls buf rounds (i + 1)
            ((File.mk content (i * BLOCK_SIZE)).write (buf.take n)).content

/-- The first line. -/
def writeSpeed : String := "Async write speed: "

def readSpeed : String := "Async read speed: "

/-- The second loop: how `main` ends in it, or the buffer behind it. -/
def readLoop (calls : Calls) (content : Bytes) : ℕ → ℕ → Bytes → Option (Except Exit Bytes)
  | 0, _, buf => some (.ok buf)
  | rounds + 1, i, buf =>
      match calls.read i with
      | .refused => some (.error (fails content [writeSpeed] "aio_read"))
      | .pending => none
      | .failed => some (.error (fails content [writeSpeed] "aio_return"))
      | .transferred n =>
          let bytes := (content.drop (i * BLOCK_SIZE)).take (min n BLOCK_SIZE)
          readLoop calls content rounds (i + 1) (bytes ++ buf.drop bytes.length)

/-- The buffer behind `memset(buf, 'A', BLOCK_SIZE)`. -/
def block : Bytes := List.replicate BLOCK_SIZE 65

def blocks : ℕ := FILE_SIZE / BLOCK_SIZE

/-- `main()` -/
def main (calls : Calls) : Option Exit :=
  if !calls.opened then some ⟨1, none, [], ["open"], false, false⟩
  else if !calls.allocated then none
  else
    (writeLoop calls block blocks 0 []).bind fun
      | .error exit => some exit
      | .ok content =>
          (readLoop calls content blocks 0 block).map fun
            | .error exit => exit
            | .ok _ => ⟨0, none, [writeSpeed, readSpeed], [], true, true⟩

end AsyncIo
end Leetcode
