import Leetcode.Lib.File

/-!
# `low_level_sys_call.c`: copying a file

What the system calls do is an input, one outcome for each call that `main` can make: `none` is a
failure, and a number says how many bytes can be transferred.  A `read` with bytes left and without
a failure transfers at least one of them.  The file that is read is another one than the file that
is written.

The usage that `main` prints when it has not two arguments is left out.
-/

namespace Leetcode
namespace CopyFile

open CLib

def BUFFER_SIZE : ℕ := 4096

/-- The outcomes of the system calls, by the round of the loop where there is one. -/
structure Calls where
  openSrc : Bool
  openDest : Bool
  read : ℕ → Option ℕ
  write : ℕ → Option ℕ
  lseek : Bool
  overwrite : Option ℕ

inductive Fd
  | srcFd
  | destFd
  deriving DecidableEq, Repr

/-- How `main` ends: the value that it returns, the destination if it has been opened, what it has
handed to `perror`, and the descriptors that it has closed, in the order of the calls. -/
structure Exit where
  code : ℤ
  dest : Option Bytes
  errors : List String
  closed : List Fd
  deriving DecidableEq

/-- The bytes that a `read` transfers when it can transfer `k + 1` bytes of those left. -/
def chunk (k : ℕ) (left : Bytes) : Bytes := left.take (min (k + 1) BUFFER_SIZE)

/-- The loop, from the round `i` on: how `main` ends in it, or the destination behind it. -/
def copyLoop (calls : Calls) : ℕ → ℕ → Bytes → File → Option (Except Exit File)
  | 0, _, _, _ => none
  | fuel + 1, i, left, dest =>
      match calls.read i with
      | none => some (.error ⟨1, dest.content, ["read"], [.srcFd]⟩)
      | some k =>
          let buffer := chunk k left
          let nread := buffer.length
          if nread = 0 then some (.ok dest)
          else
            match calls.write i with
            | none => some (.error ⟨1, dest.content, ["write"], [.destFd]⟩)
            | some w =>
                let nwrite := (buffer.take w).length
                let dest := dest.write (buffer.take w)
                if nread ≠ nwrite then
                  some (.error ⟨1, dest.content, ["write"], [.srcFd, .destFd]⟩)
                else copyLoop calls fuel (i + 1) (left.drop nread) dest

/-- The character that `main` writes at the offset 6. -/
def newCharacter : UInt8 := 88

/-- Behind the loop. -/
def finish (calls : Calls) (dest : File) : Exit :=
  if calls.lseek then
    let dest := dest.seek 6
    let written := calls.overwrite.map fun w => [newCharacter].take w
    let dest := dest.write (written.getD [])
    if written.map List.length ≠ some 1 then
      ⟨0, dest.content, ["overwrite"], [.destFd, .srcFd, .destFd]⟩
    else ⟨0, dest.content, [], [.srcFd, .destFd]⟩
  else ⟨-1, dest.content, ["lseek"], []⟩

/-- `main`, for a source file with these bytes. -/
def main (argc : ℕ) (calls : Calls) (src : Bytes) : Option Exit :=
  if argc ≠ 3 then some ⟨0, none, [], []⟩
  else if !calls.openSrc then some ⟨1, none, ["open"], []⟩
  else if !calls.openDest then some ⟨1, none, ["open"], []⟩
  else
    (copyLoop calls (src.length + 1) 0 src ⟨[], 0⟩).map fun
      | .error exit => exit
      | .ok dest => finish calls dest

end CopyFile
end Leetcode
