import Mathlib.Data.Fintype.Basic
import Leetcode.Lib.Run

/-!
# `Atomic_counter_Mutex_Counter.c`: the benchmark and its threads

A counter has `w` bits and wraps around.  `run_benchmark` creates its `T` threads one after
the other, while those that exist already run, and then joins them in the same order.

A thread takes one step for the test of its loop; `worker_mutex` takes one each for
`pthread_mutex_lock`, the load and the store of `mutex_counter++`, and
`pthread_mutex_unlock`, and `worker_atomic` one for `atomic_fetch_add`.  The clock and the
output are left out.
-/

namespace Leetcode
namespace BenchCounter

open CLib

/-- The function that the threads run. -/
inductive Worker
  | workerMutex
  | workerAtomic
  deriving DecidableEq, Repr

/-- Where a thread is. -/
inductive Pc (w : ℕ)
  /-- Not created. -/
  | unborn
  /-- At the test of the loop. -/
  | test
  /-- At the first call of the loop. -/
  | enter
  /-- In front of the load of `mutex_counter`. -/
  | load
  /-- In front of the store, with the value loaded. -/
  | store (loaded : BitVec w)
  /-- In front of `pthread_mutex_unlock`. -/
  | unlock
  /-- Returned. -/
  | done
  deriving DecidableEq, Repr

/-- A thread, with the variable `i` of its loop. -/
structure Thread (w : ℕ) where
  pc : Pc w
  i : ℕ
  deriving DecidableEq, Repr

/-- The counters, the holder of the mutex, the threads, and how many of them have been
created and joined. -/
structure State (T w : ℕ) where
  mutexCounter : BitVec w
  atomicCounter : BitVec w
  counterMutex : Option (Fin T)
  threads : Fin T → Thread w
  created : ℕ
  joined : ℕ

variable {T w : ℕ}

/-- `run_benchmark` with these values of the counters, before its first thread. -/
def State.start (mutexCounter atomicCounter : BitVec w) : State T w where
  mutexCounter := mutexCounter
  atomicCounter := atomicCounter
  counterMutex := none
  threads := fun _ => ⟨.unborn, 0⟩
  created := 0
  joined := 0

/-- A thread goes on. -/
def State.put (s : State T w) (t : Fin T) (thread : Thread w) : State T w :=
  { s with threads := Function.update s.threads t thread }

/-- A step of the thread `t`. -/
def threadStep (worker : Worker) (iterations : ℕ) (s : State T w) (t : Fin T) :
    Option (State T w) :=
  let i := (s.threads t).i
  match worker, (s.threads t).pc with
  | _, .test => some (s.put t ⟨if i < iterations then .enter else .done, i⟩)
  | .workerMutex, .enter =>
      if s.counterMutex = none then some { s.put t ⟨.load, i⟩ with counterMutex := some t }
      else none
  | .workerMutex, .load => some (s.put t ⟨.store s.mutexCounter, i⟩)
  | .workerMutex, .store loaded =>
      some { s.put t ⟨.unlock, i⟩ with mutexCounter := loaded + 1 }
  | .workerMutex, .unlock => some { s.put t ⟨.test, i + 1⟩ with counterMutex := none }
  | .workerAtomic, .enter =>
      some { s.put t ⟨.test, i + 1⟩ with atomicCounter := s.atomicCounter + 1 }
  | _, _ => none

inductive Event (T : ℕ)
  | create
  | join
  | run (t : Fin T)
  deriving DecidableEq, Repr

/-- A step of `run_benchmark` or of one of its threads. -/
def step (worker : Worker) (iterations : ℕ) (s : State T w) : Event T → Option (State T w)
  | .create =>
      if h : s.created < T then
        some { s.put ⟨s.created, h⟩ ⟨.test, 0⟩ with created := s.created + 1 }
      else none
  | .join =>
      if h : s.created = T ∧ s.joined < T then
        if (s.threads ⟨s.joined, h.2⟩).pc = .done then some { s with joined := s.joined + 1 }
        else none
      else none
  | .run t => threadStep worker iterations s t

/-- Every schedule of one benchmark until all its threads are joined. -/
def Completes (worker : Worker) (iterations : ℕ) (s s' : State T w) : Prop :=
  (∃ schedule, Run (step worker iterations) (fun _ _ => True) s schedule s') ∧ s'.joined = T

/-! ## The steps -/

/-- What a step does, one rule for each outcome. -/
inductive Step (iterations : ℕ) (s : State T w) : Worker → State T w → Prop
  | create {worker : Worker} (h : s.created < T) :
      Step iterations s worker
        { s.put ⟨s.created, h⟩ ⟨.test, 0⟩ with created := s.created + 1 }
  | join {worker : Worker} (hcreated : s.created = T) (h : s.joined < T)
      (hdone : (s.threads ⟨s.joined, h⟩).pc = .done) :
      Step iterations s worker { s with joined := s.joined + 1 }
  | again {worker : Worker} {t : Fin T} (hpc : (s.threads t).pc = .test)
      (hi : (s.threads t).i < iterations) :
      Step iterations s worker (s.put t ⟨.enter, (s.threads t).i⟩)
  | finish {worker : Worker} {t : Fin T} (hpc : (s.threads t).pc = .test)
      (hi : iterations ≤ (s.threads t).i) :
      Step iterations s worker (s.put t ⟨.done, (s.threads t).i⟩)
  | lock {t : Fin T} (hpc : (s.threads t).pc = .enter) (hfree : s.counterMutex = none) :
      Step iterations s .workerMutex
        { s.put t ⟨.load, (s.threads t).i⟩ with counterMutex := some t }
  | load {t : Fin T} (hpc : (s.threads t).pc = .load) :
      Step iterations s .workerMutex (s.put t ⟨.store s.mutexCounter, (s.threads t).i⟩)
  | store {t : Fin T} {loaded : BitVec w} (hpc : (s.threads t).pc = .store loaded) :
      Step iterations s .workerMutex
        { s.put t ⟨.unlock, (s.threads t).i⟩ with mutexCounter := loaded + 1 }
  | unlock {t : Fin T} (hpc : (s.threads t).pc = .unlock) :
      Step iterations s .workerMutex
        { s.put t ⟨.test, (s.threads t).i + 1⟩ with counterMutex := none }
  | fetchAdd {t : Fin T} (hpc : (s.threads t).pc = .enter) :
      Step iterations s .workerAtomic
        { s.put t ⟨.test, (s.threads t).i + 1⟩ with atomicCounter := s.atomicCounter + 1 }

variable {worker : Worker} {iterations : ℕ} {s s' : State T w}

theorem Step.of_threadStep {t : Fin T} (h : threadStep worker iterations s t = some s') :
    Step iterations s worker s' := by
  revert h
  fun_cases threadStep worker iterations s t with
  | case1 worker i hpc =>
      rintro ⟨⟩
      by_cases hi : i < iterations
      · rw [if_pos hi]
        exact .again hpc hi
      · rw [if_neg hi]
        exact .finish hpc (Nat.le_of_not_lt hi)
  | case2 i hpc hfree =>
      rintro ⟨⟩
      exact .lock hpc hfree
  | case4 i hpc =>
      rintro ⟨⟩
      exact .load hpc
  | case5 i loaded hpc =>
      rintro ⟨⟩
      exact .store hpc
  | case6 i hpc =>
      rintro ⟨⟩
      exact .unlock hpc
  | case7 i hpc =>
      rintro ⟨⟩
      exact .fetchAdd hpc
  | _ => exact nofun

/-- Every step is one of the rules. -/
theorem Step.of_step {e : Event T} (h : step worker iterations s e = some s') :
    Step iterations s worker s' := by
  cases e with
  | create =>
      rw [step] at h
      split at h
      · next hlt =>
          cases h
          exact .create hlt
      · cases h
  | join =>
      rw [step] at h
      split at h
      · next hand =>
          split at h
          · next hdone =>
              cases h
              exact .join hand.1 hand.2 hdone
          · cases h
      · cases h
  | run t => exact .of_threadStep h

end BenchCounter
end Leetcode
