import Mathlib.Data.BitVec
import Leetcode.BenchCounter.Model
import Leetcode.Lib.Tally

/-!
# No increment is lost

`State.increments` counts what the threads have added.  While a benchmark runs, its counter
is that number (`Counts`), for `worker_mutex` because nobody stores between the load and the
store of the holder of the mutex (`Exclusive`).  When all threads are joined, each has been
through all its rounds (`Rounds`), so both counters end at the same number
(`counters_agree`).
-/

namespace Leetcode
namespace BenchCounter

open CLib

variable {T w : ℕ} {worker : Worker} {iterations : ℕ} {s s' : State T w} {t u : Fin T}
  {thread : Thread w}

/-! ## Counting -/

/-- How often the thread has added 1. -/
def Thread.added (thread : Thread w) : ℕ :=
  if thread.pc = .unlock then thread.i + 1 else thread.i

def State.increments (s : State T w) : ℕ := ∑ t, (s.threads t).added

theorem increments_put (s : State T w) (t : Fin T) (thread : Thread w) :
    (s.put t thread).increments + (s.threads t).added = s.increments + thread.added :=
  sum_update_add s.threads (fun _ => Thread.added) t thread

theorem increments_same (h : thread.added = (s.threads t).added) :
    (s.put t thread).increments = s.increments := by
  have hsum := increments_put s t thread
  omega

theorem increments_succ (h : thread.added = (s.threads t).added + 1) :
    (s.put t thread).increments = s.increments + 1 := by
  have hsum := increments_put s t thread
  omega

/-! ## The mutex -/

/-- Between `pthread_mutex_lock` and `pthread_mutex_unlock`. -/
def Pc.inside : Pc w → Bool
  | .load | .store _ | .unlock => true
  | .unborn | .test | .enter | .done => false

/-- Only the holder of the mutex is inside, and what it has loaded is still the value of
the counter. -/
def Exclusive (threads : Fin T → Thread w) (owner : Option (Fin T)) (c : BitVec w) : Prop :=
  ∀ t, (threads t).pc.inside = true →
    owner = some t ∧ ∀ v, (threads t).pc = .store v → v = c

section Exclusive

variable {threads : Fin T → Thread w} {owner : Option (Fin T)} {c : BitVec w}

/-- When nobody else holds the mutex, nobody else is inside. -/
theorem Exclusive.alone (h : Exclusive threads owner c)
    (howner : owner = none ∨ owner = some t) (hne : u ≠ t) :
    (threads u).pc.inside = false := by
  apply Bool.eq_false_iff.2
  intro hu
  obtain ⟨huowner, -⟩ := h u hu
  rcases howner with hnone | hsome
  · rw [hnone] at huowner
    cases huowner
  · rw [hsome] at huowner
    exact hne (Option.some.inj huowner).symm

/-- A thread goes to a place outside. -/
theorem Exclusive.outside (h : Exclusive threads owner c) (t : Fin T)
    (hthread : thread.pc.inside = false) :
    Exclusive (Function.update threads t thread) owner c := by
  intro u hu
  by_cases hut : u = t
  · subst hut
    rw [Function.update_self, hthread] at hu
    cases hu
  · rw [Function.update_of_ne hut] at hu ⊢
    exact h u hu

/-- The holder goes anywhere, and the counter may change. -/
theorem Exclusive.hold (h : Exclusive threads owner c) (howner : owner = none ∨ owner = some t)
    {c' : BitVec w} (hloaded : ∀ v, thread.pc = .store v → v = c') :
    Exclusive (Function.update threads t thread) (some t) c' := by
  intro u hu
  by_cases hut : u = t
  · subst hut
    rw [Function.update_self]
    exact ⟨rfl, hloaded⟩
  · rw [Function.update_of_ne hut, h.alone howner hut] at hu
    cases hu

/-- The holder leaves. -/
theorem Exclusive.release (h : Exclusive threads owner c) (howner : owner = some t)
    (hthread : thread.pc.inside = false) :
    Exclusive (Function.update threads t thread) none c := by
  intro u hu
  by_cases hut : u = t
  · subst hut
    rw [Function.update_self, hthread] at hu
    cases hu
  · rw [Function.update_of_ne hut, h.alone (Or.inr howner) hut] at hu
    cases hu

end Exclusive

/-! ## The counter -/

/-- The counter of the benchmark. -/
def State.counter (s : State T w) : Worker → BitVec w
  | .workerMutex => s.mutexCounter
  | .workerAtomic => s.atomicCounter

/-- The counter of the benchmark has every increment. -/
structure Counts (worker : Worker) (s : State T w) : Prop where
  later : ∀ t : Fin T, s.created ≤ t → s.threads t = ⟨.unborn, 0⟩
  exclusive : Exclusive s.threads s.counterMutex s.mutexCounter
  value : s.counter worker = BitVec.ofNat w s.increments

theorem counts_start {m a : BitVec w} (h : (State.start m a : State T w).counter worker = 0) :
    Counts worker (State.start m a : State T w) where
  later _ _ := rfl
  exclusive t ht := by cases ht
  value := by
    have hzero : (State.start m a : State T w).increments = 0 :=
      Finset.sum_eq_zero fun t _ => rfl
    rw [h, hzero]
    rfl

/-- Only threads that exist move. -/
theorem Counts.later_put (h : Counts worker s) (hpc : (s.threads t).pc ≠ .unborn)
    (thread : Thread w) (u : Fin T) (hu : s.created ≤ u) :
    (s.put t thread).threads u = ⟨.unborn, 0⟩ := by
  have hne : u ≠ t := by
    rintro rfl
    exact hpc (by rw [h.later u hu])
  exact (Function.update_of_ne hne ..).trans (h.later u hu)

/-- A step outside the critical section that adds nothing. -/
theorem Counts.aside (h : Counts worker s) (hpc : (s.threads t).pc ≠ .unborn)
    (hinside : thread.pc.inside = false) (hadded : thread.added = (s.threads t).added) :
    Counts worker (s.put t thread) where
  later := h.later_put hpc thread
  exclusive := h.exclusive.outside t hinside
  value := by
    rw [increments_same hadded, ← h.value]
    cases worker <;> rfl

theorem counts_step (h : Counts worker s) (hstep : Step iterations s worker s') :
    Counts worker s' := by
  cases hstep with
  | create hlt =>
      have hnew : s.threads ⟨s.created, hlt⟩ = ⟨.unborn, 0⟩ := h.later _ (Nat.le_refl _)
      have hsame : (s.put ⟨s.created, hlt⟩ ⟨.test, 0⟩).increments = s.increments :=
        increments_same (by rw [hnew]; rfl)
      refine ⟨fun u hu => ?_, h.exclusive.outside _ rfl, ?_⟩
      · have hne : u ≠ ⟨s.created, hlt⟩ := by
          rintro rfl
          exact Nat.not_succ_le_self _ hu
        exact (Function.update_of_ne hne ..).trans (h.later u (Nat.le_of_succ_le hu))
      · have hvalue := h.value
        rw [← hsame] at hvalue
        cases worker <;> exact hvalue
  | join hcreated hlt hdone => exact ⟨h.later, h.exclusive, h.value⟩
  | again hpc hi =>
      exact h.aside (by rw [hpc]; exact nofun) rfl (by simp [Thread.added, hpc])
  | finish hpc hi =>
      exact h.aside (by rw [hpc]; exact nofun) rfl (by simp [Thread.added, hpc])
  | @lock t hpc hfree =>
      have hsame : (s.put t ⟨.load, (s.threads t).i⟩).increments = s.increments :=
        increments_same (by simp [Thread.added, hpc])
      refine ⟨h.later_put (by rw [hpc]; exact nofun) _,
        h.exclusive.hold (Or.inl hfree) (by simp), ?_⟩
      exact h.value.trans (congrArg _ hsame.symm)
  | @load t hpc =>
      obtain ⟨howner, -⟩ := h.exclusive t (by rw [hpc]; rfl)
      have hsame : (s.put t ⟨.store s.mutexCounter, (s.threads t).i⟩).increments =
          s.increments := increments_same (by simp [Thread.added, hpc])
      refine ⟨h.later_put (by rw [hpc]; exact nofun) _, ?_, ?_⟩
      · rw [show (s.put t ⟨.store s.mutexCounter, (s.threads t).i⟩).counterMutex = some t
          from howner]
        exact h.exclusive.hold (Or.inr howner) fun v hv => (Pc.store.inj hv).symm
      · exact h.value.trans (congrArg _ hsame.symm)
  | @store t loaded hpc =>
      obtain ⟨howner, hloaded⟩ := h.exclusive t (by rw [hpc]; rfl)
      have hsucc : (s.put t ⟨.unlock, (s.threads t).i⟩).increments = s.increments + 1 :=
        increments_succ (by simp [Thread.added, hpc])
      refine ⟨h.later_put (by rw [hpc]; exact nofun) _, ?_, ?_⟩
      · show Exclusive _ s.counterMutex _
        rw [howner]
        exact h.exclusive.hold (Or.inr howner) (by simp)
      · show loaded + 1 = BitVec.ofNat w (s.put t ⟨.unlock, (s.threads t).i⟩).increments
        have hvalue : s.mutexCounter = BitVec.ofNat w s.increments := h.value
        rw [hsucc, hloaded loaded hpc, hvalue, BitVec.ofNat_add]
        rfl
  | @unlock t hpc =>
      obtain ⟨howner, -⟩ := h.exclusive t (by rw [hpc]; rfl)
      have hsame : (s.put t ⟨.test, (s.threads t).i + 1⟩).increments = s.increments :=
        increments_same (by simp [Thread.added, hpc])
      refine ⟨h.later_put (by rw [hpc]; exact nofun) _, h.exclusive.release howner rfl, ?_⟩
      exact h.value.trans (congrArg _ hsame.symm)
  | @fetchAdd t hpc =>
      have hsucc : (s.put t ⟨.test, (s.threads t).i + 1⟩).increments = s.increments + 1 :=
        increments_succ (by simp [Thread.added, hpc])
      refine ⟨h.later_put (by rw [hpc]; exact nofun) _, h.exclusive.outside t rfl, ?_⟩
      show s.atomicCounter + 1 =
        BitVec.ofNat w (s.put t ⟨.test, (s.threads t).i + 1⟩).increments
      have hvalue : s.atomicCounter = BitVec.ofNat w s.increments := h.value
      rw [hsucc, hvalue, BitVec.ofNat_add]
      rfl

/-! ## The rounds -/

theorem put_self (s : State T w) (t : Fin T) (thread : Thread w) :
    (s.put t thread).threads t = thread := Function.update_self ..

theorem put_of_ne (hut : u ≠ t) (s : State T w) (thread : Thread w) :
    (s.put t thread).threads u = s.threads u := Function.update_of_ne hut ..

/-- A thread in its loop has a round left, and one that has returned has none. -/
structure Thread.Within (iterations : ℕ) (thread : Thread w) : Prop where
  le : thread.i ≤ iterations
  busy : thread.pc = .enter ∨ thread.pc.inside = true → thread.i < iterations
  done : thread.pc = .done → thread.i = iterations

/-- A thread at the test of the loop. -/
theorem within_test {i : ℕ} (h : i ≤ iterations) :
    (⟨.test, i⟩ : Thread w).Within iterations where
  le := h
  busy := by
    rintro (hpc | hpc)
    · cases hpc
    · cases hpc
  done := nofun

/-- All threads keep to their rounds, and those that are joined have returned. -/
structure Rounds (iterations : ℕ) (s : State T w) : Prop where
  within : ∀ t, (s.threads t).Within iterations
  joined : ∀ t : Fin T, t < s.joined → (s.threads t).pc = .done

theorem rounds_start (m a : BitVec w) : Rounds iterations (State.start m a : State T w) where
  within t := by
    refine ⟨Nat.zero_le _, ?_, nofun⟩
    rintro (hpc | hpc)
    · cases hpc
    · cases hpc
  joined t ht := absurd ht (Nat.not_lt_zero _)

theorem Rounds.put (h : Rounds iterations s) (hpc : (s.threads t).pc ≠ .done)
    (hthread : thread.Within iterations) : Rounds iterations (s.put t thread) where
  within u := by
    by_cases hut : u = t
    · subst hut
      rw [put_self]
      exact hthread
    · rw [put_of_ne hut]
      exact h.within u
  joined u hu := by
    have hdone := h.joined u hu
    have hut : u ≠ t := by
      rintro rfl
      exact hpc hdone
    rw [put_of_ne hut]
    exact hdone

theorem rounds_step (h : Rounds iterations s) (hcounts : Counts worker s)
    (hstep : Step iterations s worker s') : Rounds iterations s' := by
  cases hstep with
  | create hlt =>
      have hnew : s.threads ⟨s.created, hlt⟩ = ⟨.unborn, 0⟩ := hcounts.later _ (Nat.le_refl _)
      have hput : Rounds iterations (s.put ⟨s.created, hlt⟩ ⟨.test, 0⟩) :=
        h.put (by rw [hnew]; exact nofun) (within_test (Nat.zero_le _))
      exact ⟨hput.within, hput.joined⟩
  | join hcreated hlt hdone =>
      refine ⟨h.within, fun t ht => ?_⟩
      rcases Nat.lt_succ_iff_lt_or_eq.1 ht with hbefore | hlast
      · exact h.joined t hbefore
      · obtain rfl : t = ⟨s.joined, hlt⟩ := Fin.ext hlast
        exact hdone
  | @again _ t hpc hi =>
      exact h.put (by rw [hpc]; exact nofun) ⟨(h.within t).le, fun _ => hi, nofun⟩
  | @finish _ t hpc hi =>
      refine h.put (by rw [hpc]; exact nofun) ⟨(h.within t).le, ?_, fun _ => ?_⟩
      · rintro (hpc | hpc)
        · cases hpc
        · cases hpc
      · exact Nat.le_antisymm (h.within t).le hi
  | @lock t hpc hfree =>
      have hlt := (h.within t).busy (Or.inl hpc)
      have hput : Rounds iterations (s.put t ⟨.load, (s.threads t).i⟩) :=
        h.put (by rw [hpc]; exact nofun) ⟨(h.within t).le, fun _ => hlt, nofun⟩
      exact ⟨hput.within, hput.joined⟩
  | @load t hpc =>
      have hlt := (h.within t).busy (Or.inr (by rw [hpc]; rfl))
      exact h.put (by rw [hpc]; exact nofun) ⟨(h.within t).le, fun _ => hlt, nofun⟩
  | @store t loaded hpc =>
      have hlt := (h.within t).busy (Or.inr (by rw [hpc]; rfl))
      have hput : Rounds iterations (s.put t ⟨.unlock, (s.threads t).i⟩) :=
        h.put (by rw [hpc]; exact nofun) ⟨(h.within t).le, fun _ => hlt, nofun⟩
      exact ⟨hput.within, hput.joined⟩
  | @unlock t hpc =>
      have hlt := (h.within t).busy (Or.inr (by rw [hpc]; rfl))
      have hput : Rounds iterations (s.put t ⟨.test, (s.threads t).i + 1⟩) :=
        h.put (by rw [hpc]; exact nofun) (within_test hlt)
      exact ⟨hput.within, hput.joined⟩
  | @fetchAdd t hpc =>
      have hlt := (h.within t).busy (Or.inl hpc)
      have hput : Rounds iterations (s.put t ⟨.test, (s.threads t).i + 1⟩) :=
        h.put (by rw [hpc]; exact nofun) (within_test hlt)
      exact ⟨hput.within, hput.joined⟩

/-- When all threads are joined, each has added its rounds. -/
theorem Rounds.increments_eq (h : Rounds iterations s) (hjoined : s.joined = T) :
    s.increments = T * iterations := by
  have hadded : ∀ t : Fin T, (s.threads t).added = iterations := by
    intro t
    have hdone := h.joined t (by rw [hjoined]; exact t.isLt)
    rw [Thread.added, hdone, if_neg nofun, (h.within t).done hdone]
  rw [State.increments, Finset.sum_const_nat fun t _ => hadded t, Finset.card_univ,
    Fintype.card_fin]

/-! ## Whole benchmarks -/

/-- A benchmark writes its own counter only. -/
theorem counter_step (hstep : Step iterations s worker s') {other : Worker}
    (hother : other ≠ worker) : s'.counter other = s.counter other := by
  cases hstep with
  | store hpc =>
      cases other with
      | workerMutex => exact absurd rfl hother
      | workerAtomic => rfl
  | fetchAdd hpc =>
      cases other with
      | workerMutex => rfl
      | workerAtomic => exact absurd rfl hother
  | _ => cases other <;> rfl

/-- A benchmark that starts its counter at 0 leaves the number of all rounds in it, and
the other counter as it is. -/
theorem completes_counters (hzero : s.counter worker = 0) {m a : BitVec w}
    (hstart : s = State.start m a) (h : Completes worker iterations s s') :
    s'.counter worker = BitVec.ofNat w (T * iterations) ∧
      ∀ other, other ≠ worker → s'.counter other = s.counter other := by
  obtain ⟨⟨schedule, hrun⟩, hjoined⟩ := h
  have hinv : Counts worker s' ∧ Rounds iterations s' ∧
      ∀ other, other ≠ worker → s'.counter other = s.counter other := by
    refine hrun.invariant (I := fun s' => Counts worker s' ∧ Rounds iterations s' ∧
      ∀ other, other ≠ worker → s'.counter other = s.counter other) ?_ ?_
    · subst hstart
      exact ⟨counts_start hzero, rounds_start m a, fun _ _ => rfl⟩
    · rintro u e v ⟨hcounts, hrounds, hother⟩ - hstep
      have hrule := Step.of_step hstep
      exact ⟨counts_step hcounts hrule, rounds_step hrounds hcounts hrule, fun other hne =>
        (counter_step hrule hne).trans (hother other hne)⟩
  obtain ⟨hcounts, hrounds, hother⟩ := hinv
  rw [hcounts.value, hrounds.increments_eq hjoined]
  exact ⟨rfl, hother⟩

/-- `main` runs the benchmark with the mutex from 0 and then, with `atomic_counter` set to
0, the one with the atomic addition: whatever the schedules are, both counters end at the
number of all rounds. -/
theorem counters_agree {T iterations w : ℕ} {a : BitVec w} {s s' : State T w}
    (hmutex : Completes .workerMutex iterations (State.start 0 a) s)
    (hatomic : Completes .workerAtomic iterations (State.start s.mutexCounter 0) s') :
    s'.mutexCounter = BitVec.ofNat w (T * iterations) ∧
      s'.atomicCounter = BitVec.ofNat w (T * iterations) := by
  obtain ⟨hfirst, -⟩ := completes_counters rfl rfl hmutex
  obtain ⟨hsecond, hkept⟩ := completes_counters rfl rfl hatomic
  exact ⟨(hkept .workerMutex nofun).trans hfirst, hsecond⟩

/-- Two threads, one round each; the second thread waits for the mutex. -/
theorem counters_agree_pair :
    ∃ s s' : State 2 8, Completes .workerMutex 1 (State.start 0 0) s ∧
      Completes .workerAtomic 1 (State.start s.mutexCounter 0) s' ∧
      s'.mutexCounter = BitVec.ofNat 8 (2 * 1) ∧ s'.atomicCounter = BitVec.ofNat 8 (2 * 1) := by
  have hmutex : Completes .workerMutex 1 (State.start 0 0 : State 2 8) (Option.get _ _) :=
    ⟨⟨[.create, .run 0, .run 0, .create, .run 1, .run 0, .run 0, .run 0, .run 1, .run 1, .run 0,
      .run 1, .run 1, .run 1, .join, .join],
      Run.of_exec (t := Option.get _ (by decide)) (Option.some_get _).symm⟩, by decide⟩
  have hatomic : Completes .workerAtomic 1 (State.start 2 0 : State 2 8) (Option.get _ _) :=
    ⟨⟨[.create, .create, .run 1, .run 0, .run 0, .run 1, .run 0, .run 1, .join, .join],
      Run.of_exec (t := Option.get _ (by decide)) (Option.some_get _).symm⟩, by decide⟩
  exact ⟨_, _, hmutex, hatomic, counters_agree hmutex hatomic⟩

end BenchCounter
end Leetcode
