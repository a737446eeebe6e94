import Mathlib.Algebra.GroupWithZero.Nat
import Mathlib.Data.List.FinRange
import Mathlib.Logic.Function.Basic
import Leetcode.Lib.Run

/-!
# `largefilemerge.c`: merging files through one ring

The ring is what `liburing` promises: every submitted request is completed once, in any
order, and its completion carries the request's user data, here the index of its
`file_ctx`, and its result.  `main` submits one read for each file and then collects
`MAX_FILES` completions; for each one with bytes in it `main` submits a write of that many
bytes of the context's buffer.

`main` is past its checks here: the files are open and the buffers allocated.
-/

namespace Leetcode
namespace FileMerge

def MAX_FILES : ℕ := 3

instance : NeZero MAX_FILES := ⟨by decide⟩

def BUF_SIZE : ℕ := 8192

/-- What a request asks for: to read `BUF_SIZE` bytes of the context's file into its
buffer, or to write these bytes. -/
inductive Op
  | read
  | write (content : List UInt8)
  deriving DecidableEq, Repr

/-- A submitted request and its user data. -/
structure Request where
  ctx : Fin MAX_FILES
  op : Op
  deriving DecidableEq, Repr

/-- What the ring delivers: which request it has completed, and the result. -/
structure Completion where
  request : Request
  res : Int
  deriving DecidableEq, Repr

structure State where
  buf : Fin MAX_FILES → List UInt8
  /-- The requests that are submitted and not completed. -/
  pending : List Request
  /-- The write requests that `main` has submitted. -/
  writes : List (Fin MAX_FILES × List UInt8)
  /-- The contexts that `main` has named in an error message. -/
  failed : List (Fin MAX_FILES)
  i : ℕ

/-- Behind the first loop of `main`, with the reads submitted. -/
def submitReads : State where
  buf := fun _ => []
  pending := (List.finRange MAX_FILES).map fun i => ⟨i, .read⟩
  writes := []
  failed := []
  i := 0

/-- The bytes that a read of this file transfers. -/
def transfer (file : List UInt8) : List UInt8 := file.take BUF_SIZE

/-- The ring takes the request off and, for a read, fills the buffer. -/
def State.complete (s : State) (files : Fin MAX_FILES → List UInt8) (r : Request) : State :=
  { s with
    pending := s.pending.erase r
    buf := match r.op with
      | .read => Function.update s.buf r.ctx (transfer (files r.ctx))
      | .write _ => s.buf }

/-- What `main` does with a completion that carries `ctx` and `res`. -/
def State.handle (s : State) (ctx : Fin MAX_FILES) (res : Int) : State :=
  if res < 0 then { s with failed := s.failed ++ [ctx] }
  else if 0 < res then
    let content := (s.buf ctx).take res.toNat
    { s with
      pending := s.pending ++ [⟨ctx, .write content⟩]
      writes := s.writes ++ [(ctx, content)] }
  else s

/-- One round of the loop that collects the completions. -/
def collect (files : Fin MAX_FILES → List UInt8) (s : State) (c : Completion) : Option State :=
  if s.i < MAX_FILES ∧ c.request ∈ s.pending then
    let s₁ := (s.complete files c.request).handle c.request.ctx c.res
    some { s₁ with i := s.i + 1 }
  else none

/-- The result that the ring may deliver: a read is without error and transfers what it
can, a write fails or transfers at most its bytes. -/
def Delivers (files : Fin MAX_FILES → List UInt8) (_ : State) (c : Completion) : Prop :=
  match c.request.op with
  | .read => c.res = (transfer (files c.request.ctx)).length
  | .write content => c.res ≤ content.length

instance (files : Fin MAX_FILES → List UInt8) (s : State) (c : Completion) :
    Decidable (Delivers files s c) := by
  unfold Delivers
  split <;> infer_instance

end FileMerge
end Leetcode
