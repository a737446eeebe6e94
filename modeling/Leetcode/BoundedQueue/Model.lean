import Mathlib.Data.Fintype.Basic
import Leetcode.Lib.Ring
import Leetcode.Lib.Run

/-!
# `producer_consumer.c`: the bounded queue and its threads

The threads are those of a finite type, any number of producers with any items and any
number of consumers.  A state has the queue, the holder of its lock, where every thread
is, and how far `main` has come; `pushed` and `popped` record who has pushed and popped
what.

A step is one of `main`, or one of a thread at the lock.  What a thread does to the queue
between its test and its signal is one step, since nobody else sees the queue then.
`pthread_cond_wait` releases the lock and sleeps in one step, `pthread_cond_signal` wakes
at least one thread that sleeps on the condition, and a thread may also wake up by
itself.  Producers sleep on `not_full` and consumers on `not_empty`.
-/

namespace Leetcode
namespace BoundedQueue

open CLib

def QUEUE_SIZE : ℕ := 10

inductive Role
  | producer
  | consumer
  deriving DecidableEq, Repr

/-- Where a thread is. -/
inductive Pc
  /-- `main` has not created it. -/
  | unborn
  /-- In front of its next call, if there is one. -/
  | ready
  /-- At the test of the loop, with the lock. -/
  | test
  /-- In `pthread_cond_wait`, not woken. -/
  | asleep
  /-- In `pthread_cond_wait`, woken and without the lock. -/
  | woken
  /-- Behind the loop. -/
  | update
  /-- In front of `pthread_cond_signal`. -/
  | signal
  /-- In front of `pthread_mutex_unlock`. -/
  | unlock
  deriving DecidableEq, Repr

/-- What the threads are, what the producers push, and in which order `main` creates
them. -/
structure Program (T : Type*) where
  role : T → Role
  items : T → List Int
  threads : List T

structure State (T : Type*) where
  buffer : ℕ → Int
  head : ℕ
  tail : ℕ
  count : Int
  owner : Option T
  pc : T → Pc
  items : T → List Int
  pushed : List (T × Int)
  popped : List (T × Int)
  toCreate : List T
  toJoin : List T
  returned : Bool

variable {T : Type*} [Fintype T] [DecidableEq T]

/-- Behind `queue_init`, before `main` creates the threads. -/
def State.init (P : Program T) : State T where
  buffer := fun _ => 0
  head := 0
  tail := 0
  count := 0
  owner := none
  pc := fun _ => .unborn
  items := P.items
  pushed := []
  popped := []
  toCreate := P.threads
  toJoin := P.threads.filter fun t => P.role t = .producer
  returned := false

/-- The test of the loop: the thread has to wait. -/
def State.blocked (s : State T) : Role → Bool
  | .producer => s.count = QUEUE_SIZE
  | .consumer => s.count = 0

/-- What `queue_push` does to the queue. -/
def State.store (s : State T) (t : T) (item : Int) : State T :=
  { s with
    buffer := Function.update s.buffer s.tail item
    tail := (s.tail + 1) % QUEUE_SIZE
    count := s.count + 1
    pushed := s.pushed ++ [(t, item)] }

/-- What `queue_pop` does to the queue. -/
def State.take (s : State T) (t : T) : State T :=
  { s with
    head := (s.head + 1) % QUEUE_SIZE
    count := s.count - 1
    popped := s.popped ++ [(t, s.buffer s.head)] }

/-- A thread that is at `pc` holds the lock. -/
def State.holds (s : State T) (t : T) (pc : Pc) : Bool :=
  s.owner = some t ∧ s.pc t = pc

/-- The thread may ask for the lock: it has been woken, or it makes a call. -/
def State.enters (P : Program T) (s : State T) (t : T) : Bool :=
  s.pc t = .woken ∨ s.pc t = .ready ∧ (P.role t = .consumer ∨ s.items t ≠ [])

/-- The producer has pushed all its items. -/
def State.finished (s : State T) (t : T) : Bool :=
  s.pc t = .ready ∧ s.items t = []

/-- The thread sleeps on the condition that a thread in the role `ρ` signals. -/
def State.waitsFor (P : Program T) (s : State T) (ρ : Role) (u : T) : Bool :=
  P.role u ≠ ρ ∧ s.pc u = .asleep

inductive Event (T : Type*)
  | create
  | join
  | ret
  | lock (t : T)
  | test (t : T)
  | update (t : T)
  | signal (t : T) (wake : T → Bool)
  | unlock (t : T)
  | wakeup (t : T)

/-- A thread goes on to `pc`. -/
def State.goto (s : State T) (t : T) (pc : Pc) : State T :=
  { s with pc := Function.update s.pc t pc }

/-- The steps of `main`. -/
def mainStep (s : State T) : Event T → Option (State T)
  | .create =>
      match s.toCreate with
      | t :: rest =>
          if s.pc t = .unborn then some { s.goto t .ready with toCreate := rest } else none
      | [] => none
  | .join =>
      match s.toCreate, s.toJoin with
      | [], t :: rest => if s.finished t then some { s with toJoin := rest } else none
      | _, _ => none
  | .ret =>
      match s.toCreate, s.toJoin with
      | [], [] => some { s with returned := true }
      | _, _ => none
  | _ => none

/-- The steps of the threads. -/
def threadStep (P : Program T) (s : State T) : Event T → Option (State T)
  | .lock t =>
      if s.owner = none ∧ s.enters P t then some { s.goto t .test with owner := some t } else none
  | .test t =>
      if s.holds t .test then
        if s.blocked (P.role t) then some { s.goto t .asleep with owner := none }
        else some (s.goto t .update)
      else none
  | .update t =>
      if s.holds t .update then
        match P.role t, s.items t with
        | .producer, item :: rest =>
            some { (s.store t item).goto t .signal with items := Function.update s.items t rest }
        | .producer, [] => none
        | .consumer, _ => some ((s.take t).goto t .signal)
      else none
  | .signal t wake =>
      if s.holds t .signal ∧
          ((∃ u, s.waitsFor P (P.role t) u) → ∃ u, s.waitsFor P (P.role t) u ∧ wake u) then
        some { s with
          pc := fun u =>
            if s.waitsFor P (P.role t) u ∧ wake u then .woken
            else if u = t then .unlock else s.pc u }
      else none
  | .unlock t =>
      if s.holds t .unlock then some { s.goto t .ready with owner := none } else none
  | .wakeup t => if s.pc t = .asleep then some (s.goto t .woken) else none
  | _ => none

/-- A step of the process, which ends when `main` returns. -/
def step (P : Program T) (s : State T) (e : Event T) : Option (State T) :=
  if s.returned then none else (mainStep s e).or (threadStep P s e)

end BoundedQueue
end Leetcode
