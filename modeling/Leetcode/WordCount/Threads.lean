import Mathlib.Logic.Function.Basic
import Leetcode.Lib.Run
import Leetcode.WordCount.Model

/-!
# `wordcount.c` with its threads

`main` creates its threads one after the other, while those that exist already run, and then
joins them in the same order.  A thread takes one step for a round of its loop and one to leave
it, and one each for `pthread_mutex_lock`, the load and the store of `word_count += count`, and
`pthread_mutex_unlock`.  A thread whose `count` overflows has no step.
-/

namespace Leetcode
namespace WordCount

open CLib

/-- Where a thread is. -/
inductive Pc
  /-- Not created. -/
  | unborn
  /-- At the test of the loop, with `i` and with `count` and `in_word`. -/
  | loop (i : ℕ) (acc : Int × Bool)
  /-- In front of `pthread_mutex_lock`. -/
  | lock (count : Int)
  /-- In front of the load of `word_count`. -/
  | load (count : Int)
  /-- In front of the store, with the value loaded. -/
  | store (count loaded : Int)
  /-- In front of `pthread_mutex_unlock`. -/
  | unlock
  /-- Returned. -/
  | done
  deriving DecidableEq, Repr

/-- The globals, the threads, and how many of them have been created and joined. -/
structure State where
  wordCount : Int
  mutex : Option (Fin MAX_THREADS)
  threads : Fin MAX_THREADS → Pc
  created : ℕ
  joined : ℕ

/-- `main` in front of its first `pthread_create`. -/
def State.start : State where
  wordCount := 0
  mutex := none
  threads := fun _ => .unborn
  created := 0
  joined := 0

/-- A thread goes on. -/
def State.put (s : State) (t : Fin MAX_THREADS) (pc : Pc) : State :=
  { s with threads := Function.update s.threads t pc }

/-- A step of the thread `t`. -/
def threadStep (buffer : Bytes) (s : State) (t : Fin MAX_THREADS) : Option State :=
  match s.threads t with
  | .loop i acc =>
      if i < stop buffer t then (countRound buffer acc i).map fun acc => s.put t (.loop (i + 1) acc)
      else some (s.put t (.lock acc.1))
  | .lock count =>
      if s.mutex = none then some { s.put t (.load count) with mutex := some t } else none
  | .load count => some (s.put t (.store count s.wordCount))
  | .store count loaded => some { s.put t .unlock with wordCount := loaded + count }
  | .unlock => some { s.put t .done with mutex := none }
  | .unborn | .done => none

inductive Event
  | create
  | join
  | run (t : Fin MAX_THREADS)
  deriving DecidableEq, Repr

/-- A step of `main` or of one of its threads. -/
def step (buffer : Bytes) (s : State) : Event → Option State
  | .create =>
      if h : s.created < MAX_THREADS then
        some { s.put ⟨s.created, h⟩ (.loop (start buffer s.created) (0, false)) with
          created := s.created + 1 }
      else none
  | .join =>
      if h : s.created = MAX_THREADS ∧ s.joined < MAX_THREADS then
        if s.threads ⟨s.joined, h.2⟩ = .done then some { s with joined := s.joined + 1 } else none
      else none
  | .run t => threadStep buffer s t

/-! ## The steps -/

/-- What a step does, one rule for each outcome. -/
inductive Step (buffer : Bytes) (s : State) : State → Prop
  | create (h : s.created < MAX_THREADS) :
      Step buffer s
        { s.put ⟨s.created, h⟩ (.loop (start buffer s.created) (0, false)) with
          created := s.created + 1 }
  | join (hcreated : s.created = MAX_THREADS) (h : s.joined < MAX_THREADS)
      (hdone : s.threads ⟨s.joined, h⟩ = .done) :
      Step buffer s { s with joined := s.joined + 1 }
  | round {t : Fin MAX_THREADS} {i : ℕ} {acc next : Int × Bool} (hpc : s.threads t = .loop i acc)
      (hi : i < stop buffer t) (hround : countRound buffer acc i = some next) :
      Step buffer s (s.put t (.loop (i + 1) next))
  | leave {t : Fin MAX_THREADS} {i : ℕ} {acc : Int × Bool} (hpc : s.threads t = .loop i acc)
      (hi : stop buffer t ≤ i) :
      Step buffer s (s.put t (.lock acc.1))
  | lock {t : Fin MAX_THREADS} {count : Int} (hpc : s.threads t = .lock count)
      (hfree : s.mutex = none) :
      Step buffer s { s.put t (.load count) with mutex := some t }
  | load {t : Fin MAX_THREADS} {count : Int} (hpc : s.threads t = .load count) :
      Step buffer s (s.put t (.store count s.wordCount))
  | store {t : Fin MAX_THREADS} {count loaded : Int} (hpc : s.threads t = .store count loaded) :
      Step buffer s { s.put t .unlock with wordCount := loaded + count }
  | unlock {t : Fin MAX_THREADS} (hpc : s.threads t = .unlock) :
      Step buffer s { s.put t .done with mutex := none }

variable {buffer : Bytes} {s s' : State}

theorem Step.of_threadStep {t : Fin MAX_THREADS} (h : threadStep buffer s t = some s') :
    Step buffer s s' := by
  revert h
  fun_cases threadStep buffer s t with
  | case1 i acc hpc hi =>
      intro h
      obtain ⟨next, hround, rfl⟩ := Option.map_eq_some_iff.1 h
      exact .round hpc hi hround
  | case2 i acc hpc hi =>
      rintro ⟨⟩
      exact .leave hpc (Nat.le_of_not_lt hi)
  | case3 count hpc hfree =>
      rintro ⟨⟩
      exact .lock hpc hfree
  | case5 count hpc =>
      rintro ⟨⟩
      exact .load hpc
  | case6 count loaded hpc =>
      rintro ⟨⟩
      exact .store hpc
  | case7 hpc =>
      rintro ⟨⟩
      exact .unlock hpc
  | _ => exact nofun

/-- Every step is one of the rules. -/
theorem Step.of_step {e : Event} (h : step buffer s e = some s') : Step buffer s s' := by
  cases e with
  | create =>
      rw [step] at h
      split at h
      · next hlt =>
          cases h
          exact .create hlt
      · cases h
  | join =>
      rw [step] at h
      split at h
      · next hand =>
          split at h
          · next hdone =>
              cases h
              exact .join hand.1 hand.2 hdone
          · cases h
      · cases h
  | run t => exact .of_threadStep h

end WordCount
end Leetcode
