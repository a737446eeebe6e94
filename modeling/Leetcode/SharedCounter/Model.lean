import Mathlib.Data.Fintype.Basic
import Leetcode.Lib.CInt
import Leetcode.Lib.Run

/-!
# `Shared_Counter.c` and `Shared_counter.c`: a parent and its counting children

Both programs are one protocol with constants and texts of their own (`Program`).  The parent
creates a shared segment, sets its counters to 0, forks the children, waits as often as it has
forked, and adds the counters up.  A child attaches the segment and adds 1 to the counter with
its number, again and again.

`shmget`, `shmat` and `fork` may fail; the process that they fail in says so and exits, and the
children that exist at that time go on.  `wait` takes any child that has exited, blocks as long
as there are children but none of them has exited, and fails at once when there are none; the
parent does not look at its result.  `perror` is the text of the error that a process exits
with; the reason that `perror` adds is left out.
-/

namespace Leetcode
namespace SharedCounter

open CLib

/-- The constants and the texts of a program. -/
structure Program where
  CHILD_COUNT : ℕ
  LOOP_COUNT : ℕ
  shmgetError : String
  shmatError : String
  forkError : String
  childError : String
  childLine : ℕ → ℤ → String
  totalLine : ℤ → String

/-- `main` of `Shared_Counter.c`. -/
def children : Program where
  CHILD_COUNT := 4
  LOOP_COUNT := 100
  shmgetError := "shmget failed"
  shmatError := "shmat failed"
  forkError := "fork error"
  childError := "child shmat error"
  childLine p val := "Child " ++ toString p ++ " : counter = " ++ toString val ++ "\n"
  totalLine grandTotal := "Final Total = " ++ toString grandTotal ++ "\n"

/-- `main` of `Shared_counter.c`. -/
def workers : Program where
  CHILD_COUNT := 4
  LOOP_COUNT := 100
  shmgetError := "shmget error"
  shmatError := "shmat error"
  forkError := "fork issue"
  childError := "child shmat"
  childLine i count := "Worker " ++ toString i ++ " : counter = " ++ toString count ++ "\n"
  totalLine total_increment :=
    "All workers finished.\nFinal sum of counter values : " ++ toString total_increment ++
      " (expected: " ++ toString (4 * 100) ++ ")\n"

/-- Where the parent is, with the variable of its loop. -/
inductive Parent
  | shmget
  | shmat
  /-- The loop that sets the counters to 0. -/
  | store (a : ℕ)
  | fork (id : ℕ)
  | wait (c : ℕ)
  /-- The loop that adds the counters up. -/
  | load (p : ℕ) (grandTotal : ℤ)
  | remove
  /-- Exited, with the error that `perror` has reported. -/
  | exited (error : Option String)
  /-- The sum is no `int`. -/
  | overflow
  deriving DecidableEq, Repr

/-- Where a child is, with the variable of its loop. -/
inductive Child
  /-- Not forked. -/
  | unborn
  | shmat
  | loop (t : ℕ)
  /-- Exited, and the parent has not waited for it. -/
  | exited (error : Option String)
  /-- Exited, and returned by `wait`. -/
  | reaped (error : Option String)
  deriving DecidableEq, Repr

/-- The shared segment. -/
inductive Segment
  | absent
  | present
  | removed
  deriving DecidableEq, Repr

variable {P : Program}

/-- The processes, the counters in the segment, and what the parent has printed. -/
structure State (P : Program) where
  parent : Parent
  child : Fin P.CHILD_COUNT → Child
  arr : Fin P.CHILD_COUNT → Int32
  segment : Segment
  output : List String

/-- Before the first step; `arr` is what a new segment holds. -/
def State.init (arr : Fin P.CHILD_COUNT → Int32) : State P where
  parent := .shmget
  child := fun _ => .unborn
  arr := arr
  segment := .absent
  output := []

/-- A child goes on. -/
def State.put (s : State P) (id : Fin P.CHILD_COUNT) (child : Child) : State P :=
  { s with child := Function.update s.child id child }

/-- `throwError(msg)`, in the other program `die(msg)`. -/
def State.throwError (s : State P) (msg : String) : State P :=
  { s with parent := .exited (some msg) }

/-- There is no child to wait for. -/
def Child.absent : Child → Bool
  | .unborn | .reaped _ => true
  | .shmat | .loop _ | .exited _ => false

/-- A step of the parent; `ok` is the outcome of the call where it may fail. -/
def parentStep (s : State P) (ok : Bool) : Option (State P) :=
  match s.parent, ok with
  | .shmget, true => some { s with segment := .present, parent := .shmat }
  | .shmget, false => some (s.throwError P.shmgetError)
  | .shmat, true => some { s with parent := .store 0 }
  | .shmat, false => some (s.throwError P.shmatError)
  | .store a, true =>
      if h : a < P.CHILD_COUNT then
        some { s with arr := Function.update s.arr ⟨a, h⟩ 0, parent := .store (a + 1) }
      else some { s with parent := .fork 0 }
  | .fork id, true =>
      if h : id < P.CHILD_COUNT then
        some { s.put ⟨id, h⟩ .shmat with parent := .fork (id + 1) }
      else some { s with parent := .wait 0 }
  | .fork id, false => if id < P.CHILD_COUNT then some (s.throwError P.forkError) else none
  | .wait c, true =>
      if c < P.CHILD_COUNT then
        -- The call fails, and the loop goes on.
        if ∀ id, (s.child id).absent = true then some { s with parent := .wait (c + 1) } else none
      else some { s with parent := .load 0 0 }
  | .load p grandTotal, true =>
      if h : p < P.CHILD_COUNT then
        let val := (s.arr ⟨p, h⟩).toInt
        some { s with
          output := s.output ++ [P.childLine p val]
          parent := ((intResult (grandTotal + val)).map (Parent.load (p + 1))).getD .overflow }
      else some { s with output := s.output ++ [P.totalLine grandTotal], parent := .remove }
  | .remove, true => some { s with segment := .removed, parent := .exited none }
  | _, _ => none

/-- `wait(NULL)` returns the child `id`. -/
def reap (s : State P) (id : Fin P.CHILD_COUNT) : Option (State P) :=
  match s.parent, s.child id with
  | .wait c, .exited error =>
      if c < P.CHILD_COUNT then some { s.put id (.reaped error) with parent := .wait (c + 1) }
      else none
  | _, _ => none

/-- A step of the child `id`; `ok` is the outcome of its `shmat`. -/
def childStep (s : State P) (id : Fin P.CHILD_COUNT) (ok : Bool) : Option (State P) :=
  match s.child id, ok with
  | .shmat, true => some (s.put id (.loop 0))
  | .shmat, false => some (s.put id (.exited (some P.childError)))
  | .loop t, true =>
      if t < P.LOOP_COUNT then
        some { s.put id (.loop (t + 1)) with arr := Function.update s.arr id (s.arr id + 1) }
      else some (s.put id (.exited none))
  | _, _ => none

inductive Event (n : ℕ)
  | parent (ok : Bool)
  | reap (id : Fin n)
  | child (id : Fin n) (ok : Bool)
  deriving DecidableEq, Repr

def step (s : State P) : Event P.CHILD_COUNT → Option (State P)
  | .parent ok => parentStep s ok
  | .reap id => reap s id
  | .child id ok => childStep s id ok

/-- The processes after these steps, one after the other in any order. -/
def Reachable (s : State P) : Prop :=
  ∃ arr schedule, Run step (fun _ _ => True) (State.init arr) schedule s

/-- The child has attached the segment and counted to the end. -/
def Child.finished : Child → Bool
  | .exited none | .reaped none => true
  | _ => false

/-- Exited or never forked. -/
def Child.over : Child → Bool
  | .unborn | .exited _ | .reaped _ => true
  | .shmat | .loop _ => false

/-- What the child has added, so far, to the counter with its number. -/
def Child.added (LOOP_COUNT : ℕ) : Child → ℕ
  | .loop t => t
  | child => if child.finished then LOOP_COUNT else 0

/-- The lines for the counters when these are what the children have added. -/
def lines (P : Program) (added : Fin P.CHILD_COUNT → ℕ) : List String :=
  (List.finRange P.CHILD_COUNT).map fun id => P.childLine id.val (added id)

end SharedCounter
end Leetcode
