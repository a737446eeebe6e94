import Mathlib.Algebra.BigOperators.Ring.Finset
import Leetcode.BenchCounter.Total

/-!
# A benchmark comes to its end

No thread waits for the mutex for ever, for its holder can always go on (`Held`), and every step
takes one of the steps that are left (`State.left`).  So `run_benchmark` returns whatever the
schedule is, and after a number of steps that the schedule does not change: a thread takes five
steps for a round of `worker_mutex` and two for one of `worker_atomic`, and one for the last
test of its loop, and it is created and joined.
-/

namespace Leetcode
namespace BenchCounter

open CLib

variable {T w : ℕ} {worker : Worker} {iterations : ℕ} {s s' : State T w} {t : Fin T}

/-! ## How many steps are left -/

/-- The steps of a round. -/
def Worker.round : Worker → ℕ
  | .workerMutex => 5
  | .workerAtomic => 2

/-- The steps that a thread has left. -/
def Thread.left (worker : Worker) (iterations : ℕ) (thread : Thread w) : ℕ :=
  let rest := worker.round * (iterations - thread.i)
  match thread.pc with
  | .unborn | .test => rest + 1
  | .enter => rest
  | .load => rest - 1
  | .store _ => rest - 2
  | .unlock => rest - 3
  | .done => 0

def State.left (worker : Worker) (iterations : ℕ) (s : State T w) : ℕ :=
  ∑ t, (s.threads t).left worker iterations + (T - s.created) + (T - s.joined)

/-- The steps of a whole benchmark. -/
def benchmarkSteps (worker : Worker) (T iterations : ℕ) : ℕ :=
  T * (worker.round * iterations + 3)

theorem left_start (m a : BitVec w) :
    (State.start m a : State T w).left worker iterations =
      benchmarkSteps worker T iterations := by
  have hsum : ∑ _t : Fin T, (⟨.unborn, 0⟩ : Thread w).left worker iterations =
      T * (worker.round * iterations + 1) := by
    rw [Finset.sum_const_nat fun _ _ => rfl, Finset.card_univ, Fintype.card_fin]
    rfl
  show ∑ _t : Fin T, (⟨.unborn, 0⟩ : Thread w).left worker iterations + (T - 0) + (T - 0) = _
  rw [hsum, Nat.sub_zero, benchmarkSteps, Nat.mul_succ, Nat.mul_succ, Nat.mul_succ, Nat.mul_succ]

/-- A thread that goes on uses one step. -/
theorem left_put (thread : Thread w) {s' : State T w}
    (hleft : thread.left worker iterations + 1 = (s.threads t).left worker iterations)
    (hthreads : s'.threads = Function.update s.threads t thread) (hcreated : s'.created = s.created)
    (hjoined : s'.joined = s.joined) :
    s'.left worker iterations + 1 = s.left worker iterations := by
  have hsum := sum_update_add s.threads (fun _ => Thread.left worker iterations) t thread
  rw [State.left, State.left, hthreads, hcreated, hjoined]
  omega

theorem left_step (hcounts : Counts worker s) (hrounds : Rounds iterations s)
    (hstep : Step iterations s worker s') :
    s'.left worker iterations + 1 = s.left worker iterations := by
  cases hstep with
  | create hlt =>
      have hnew : s.threads ⟨s.created, hlt⟩ = ⟨.unborn, 0⟩ := hcounts.later _ (Nat.le_refl _)
      have hsum := sum_update_add s.threads (fun _ => Thread.left worker iterations)
        ⟨s.created, hlt⟩ ⟨.test, 0⟩
      rw [hnew] at hsum
      have hsame : ∑ t, (Function.update s.threads ⟨s.created, hlt⟩ ⟨.test, 0⟩ t).left worker
          iterations = ∑ t, (s.threads t).left worker iterations := Nat.add_right_cancel hsum
      show ∑ t, _ + (T - (s.created + 1)) + (T - s.joined) + 1 = _
      simp only [State.left, State.put, hsame]
      omega
  | join hcreated hlt hdone =>
      show ∑ t, _ + (T - s.created) + (T - (s.joined + 1)) + 1 = _
      simp only [State.left]
      omega
  | again hpc hi =>
      exact left_put _ (by simp only [Thread.left, hpc]) rfl rfl rfl
  | finish hpc hi =>
      refine left_put _ ?_ rfl rfl rfl
      simp only [Thread.left, hpc, Nat.sub_eq_zero_of_le hi, Nat.mul_zero]
  | @lock t hpc hfree =>
      have hlt := (hrounds.within t).busy (.inl hpc)
      refine left_put ⟨.load, (s.threads t).i⟩ ?_ rfl rfl rfl
      simp only [Thread.left, hpc, Worker.round]
      omega
  | @load t hpc =>
      have hlt := (hrounds.within t).busy (.inr (by rw [hpc]; rfl))
      refine left_put ⟨.store s.mutexCounter, (s.threads t).i⟩ ?_ rfl rfl rfl
      simp only [Thread.left, hpc, Worker.round]
      omega
  | @store t loaded hpc =>
      have hlt := (hrounds.within t).busy (.inr (by rw [hpc]; rfl))
      refine left_put ⟨.unlock, (s.threads t).i⟩ ?_ rfl rfl rfl
      simp only [Thread.left, hpc, Worker.round]
      omega
  | @unlock t hpc =>
      have hlt := (hrounds.within t).busy (.inr (by rw [hpc]; rfl))
      refine left_put ⟨.test, (s.threads t).i + 1⟩ ?_ rfl rfl rfl
      simp only [Thread.left, hpc, Worker.round]
      omega
  | @fetchAdd t hpc =>
      have hlt := (hrounds.within t).busy (.inl hpc)
      refine left_put ⟨.test, (s.threads t).i + 1⟩ ?_ rfl rfl rfl
      simp only [Thread.left, hpc, Worker.round]
      omega

/-! ## Somebody can go on -/

/-- The holder of the mutex is inside, and `worker_atomic` never takes it; the threads that are
created are there, and no more are joined than created. -/
structure Held (worker : Worker) (s : State T w) : Prop where
  inside : ∀ t, s.counterMutex = some t → (s.threads t).pc.inside = true
  atomic : worker = .workerAtomic → s.counterMutex = none
  born : ∀ t : Fin T, t < s.created → (s.threads t).pc ≠ .unborn
  created : s.created ≤ T
  joined : s.joined ≤ s.created

theorem held_start (m a : BitVec w) : Held worker (State.start m a : State T w) where
  inside t ht := by cases ht
  atomic _ := rfl
  born t ht := absurd ht (Nat.not_lt_zero _)
  created := Nat.zero_le _
  joined := Nat.le_refl _

/-- A thread goes on to `thread`, with what becomes of the mutex. -/
theorem Held.put (h : Held worker s) (thread : Thread w) (hpc : thread.pc ≠ .unborn)
    (hthreads : s'.threads = Function.update s.threads t thread)
    (hinside : ∀ u, s'.counterMutex = some u →
      u = t ∧ thread.pc.inside = true ∨ u ≠ t ∧ s.counterMutex = some u)
    (hatomic : worker = .workerAtomic → s'.counterMutex = none)
    (hcreated : s'.created = s.created) (hjoined : s'.joined = s.joined) : Held worker s' where
  inside u hu := by
    rw [hthreads]
    rcases hinside u hu with ⟨rfl, hin⟩ | ⟨hut, hold⟩
    · rw [Function.update_self]
      exact hin
    · rw [Function.update_of_ne hut]
      exact h.inside u hold
  atomic := hatomic
  born u hu := by
    rw [hcreated] at hu
    rw [hthreads]
    by_cases hut : u = t
    · subst hut
      rw [Function.update_self]
      exact hpc
    · rw [Function.update_of_ne hut]
      exact h.born u hu
  created := hcreated ▸ h.created
  joined := by
    rw [hcreated, hjoined]
    exact h.joined

/-- A thread goes on outside of the critical section. -/
theorem Held.outside (h : Held worker s) {thread : Thread w} (hpc : thread.pc ≠ .unborn)
    (hout : (s.threads t).pc.inside = false)
    (hthreads : s'.threads = Function.update s.threads t thread)
    (hmutex : s'.counterMutex = s.counterMutex) (hcreated : s'.created = s.created)
    (hjoined : s'.joined = s.joined) : Held worker s' := by
  refine h.put thread hpc hthreads (fun u hu => ?_) (hmutex ▸ h.atomic) hcreated hjoined
  rw [hmutex] at hu
  refine .inr ⟨?_, hu⟩
  rintro rfl
  exact Bool.false_ne_true (hout.symm.trans (h.inside u hu))

theorem held_step (h : Held worker s) (hcounts : Counts worker s)
    (hstep : Step iterations s worker s') : Held worker s' := by
  cases hstep with
  | create hlt =>
      have hnew : s.threads ⟨s.created, hlt⟩ = ⟨.unborn, 0⟩ := hcounts.later _ (Nat.le_refl _)
      have hput : Held worker (s.put ⟨s.created, hlt⟩ ⟨.test, 0⟩) :=
        h.outside (by simp) (by rw [hnew]; rfl) rfl rfl rfl rfl
      refine ⟨hput.inside, hput.atomic, fun u hu => ?_, hlt, Nat.le_succ_of_le h.joined⟩
      rcases Nat.lt_succ_iff_lt_or_eq.1 hu with hbefore | hlast
      · exact hput.born u hbefore
      · obtain rfl : u = ⟨s.created, hlt⟩ := Fin.ext hlast
        rw [put_self]
        simp
  | join hcreated hlt hdone =>
      exact ⟨h.inside, h.atomic, h.born, h.created, by rw [hcreated]; exact hlt⟩
  | again hpc hi => exact h.outside (by simp) (by rw [hpc]; rfl) rfl rfl rfl rfl
  | finish hpc hi => exact h.outside (by simp) (by rw [hpc]; rfl) rfl rfl rfl rfl
  | fetchAdd hpc => exact h.outside (by simp) (by rw [hpc]; rfl) rfl rfl rfl rfl
  | @lock t hpc hfree =>
      refine h.put (t := t) ⟨.load, (s.threads t).i⟩ (by simp) rfl (fun u hu => ?_)
        (by simp) rfl rfl
      exact .inl ⟨(Option.some.inj hu).symm, rfl⟩
  | @load t hpc =>
      obtain ⟨howner, -⟩ := hcounts.exclusive t (by rw [hpc]; rfl)
      refine h.put (t := t) ⟨.store s.mutexCounter, (s.threads t).i⟩ (by simp) rfl
        (fun u hu => ?_) (by simp) rfl rfl
      exact .inl ⟨(Option.some.inj (howner.symm.trans hu)).symm, rfl⟩
  | @store t loaded hpc =>
      obtain ⟨howner, -⟩ := hcounts.exclusive t (by rw [hpc]; rfl)
      refine h.put (t := t) ⟨.unlock, (s.threads t).i⟩ (by simp) rfl
        (fun u hu => ?_) (by simp) rfl rfl
      exact .inl ⟨(Option.some.inj (howner.symm.trans hu)).symm, rfl⟩
  | @unlock t hpc =>
      refine h.put (t := t) ⟨.test, (s.threads t).i + 1⟩ (by simp) rfl
        (fun u hu => ?_) (fun _ => rfl) rfl rfl
      cases hu

/-- A thread that is there and has not returned can go on, unless it waits for the mutex. -/
theorem thread_goes_on (h : Held worker s) (hborn : (s.threads t).pc ≠ .unborn)
    (hdone : (s.threads t).pc ≠ .done) (hcounts : Counts worker s)
    (hfree : s.counterMutex = none ∨ s.counterMutex = some t) :
    (threadStep worker iterations s t).isSome := by
  have hatomic : worker = .workerAtomic → (s.threads t).pc.inside = false := by
    intro hworker
    refine Bool.eq_false_iff.2 fun hinside => ?_
    have howner := (hcounts.exclusive t hinside).1
    rw [h.atomic hworker] at howner
    cases howner
  cases hpc : (s.threads t).pc with
  | unborn => exact absurd hpc hborn
  | done => exact absurd hpc hdone
  | test => simp [threadStep, hpc]
  | enter =>
      have hnone : s.counterMutex = none := by
        refine hfree.resolve_right fun howner => ?_
        have hinside := h.inside t howner
        rw [hpc] at hinside
        cases hinside
      cases worker with
      | workerMutex => simp [threadStep, hpc, hnone]
      | workerAtomic => simp [threadStep, hpc]
  | load | store | unlock =>
      cases worker with
      | workerMutex => simp [threadStep, hpc]
      | workerAtomic =>
          have hout := hatomic rfl
          rw [hpc] at hout
          cases hout

/-- As long as a thread is not joined, somebody can go on. -/
theorem somebody_goes_on (iterations : ℕ) (h : Held worker s) (hcounts : Counts worker s)
    (hlt : s.joined < T) :
    ∃ e, (step worker iterations s e).isSome := by
  by_cases hcreated : s.created < T
  · refine ⟨.create, ?_⟩
    rw [step, dif_pos hcreated]
    rfl
  · have hall : s.created = T := Nat.le_antisymm h.created (Nat.le_of_not_lt hcreated)
    by_cases hdone : (s.threads ⟨s.joined, hlt⟩).pc = .done
    · refine ⟨.join, ?_⟩
      rw [step, dif_pos ⟨hall, hlt⟩, if_pos hdone]
      rfl
    · cases howner : s.counterMutex with
      | none =>
          refine ⟨.run ⟨s.joined, hlt⟩, ?_⟩
          exact thread_goes_on h (h.born _ (by rw [hall]; exact hlt)) hdone hcounts (.inl howner)
      | some u =>
          have hinside := h.inside u howner
          refine ⟨.run u, thread_goes_on h ?_ ?_ hcounts (.inr howner)⟩
          · intro hpc
            rw [hpc] at hinside
            cases hinside
          · intro hpc
            rw [hpc] at hinside
            cases hinside

/-! ## Whole benchmarks -/

/-- What holds in every state of a benchmark. -/
structure Running (worker : Worker) (iterations : ℕ) (s : State T w) : Prop where
  counts : Counts worker s
  rounds : Rounds iterations s
  held : Held worker s

theorem running_start {m a : BitVec w}
    (h : (State.start m a : State T w).counter worker = 0) :
    Running worker iterations (State.start m a : State T w) :=
  ⟨counts_start h, rounds_start m a, held_start m a⟩

theorem running_step (h : Running worker iterations s) {e : Event T}
    (hstep : step worker iterations s e = some s') : Running worker iterations s' :=
  ⟨counts_step h.counts (.of_step hstep), rounds_step h.rounds h.counts (.of_step hstep),
    held_step h.held h.counts (.of_step hstep)⟩

theorem run_left {schedule : List (Event T)}
    (h : Run (step worker iterations) (fun _ _ => True) s schedule s')
    (hs : Running worker iterations s) :
    s'.left worker iterations + schedule.length = s.left worker iterations := by
  induction h with
  | nil s => rfl
  | cons _ hstep _ ih =>
      have hfirst := left_step hs.counts hs.rounds (.of_step hstep)
      have hrest := ih (running_step hs hstep)
      rw [List.length_cons]
      omega

/-- Nothing is left when all threads are joined. -/
theorem left_eq_zero_iff (h : Running worker iterations s) :
    s.left worker iterations = 0 ↔ s.joined = T := by
  have hcreated := h.held.created
  have hjoined := h.held.joined
  constructor
  · intro hzero
    rw [State.left] at hzero
    omega
  · intro hall
    have hsum : ∑ t, (s.threads t).left worker iterations = 0 := by
      refine Finset.sum_eq_zero fun t _ => ?_
      have hdone := h.rounds.joined t (by rw [hall]; exact t.isLt)
      simp only [Thread.left, hdone]
    rw [State.left, hsum]
    omega

theorem stuck_iff (h : Running worker iterations s) :
    (∀ e, step worker iterations s e = none) ↔ s.joined = T := by
  constructor
  · intro hstuck
    refine Nat.le_antisymm (Nat.le_trans h.held.joined h.held.created) (Nat.le_of_not_lt ?_)
    intro hlt
    obtain ⟨e, he⟩ := somebody_goes_on iterations h.held h.counts hlt
    rw [hstuck e] at he
    cases he
  · intro hall e
    refine Option.eq_none_iff_forall_ne_some.2 fun s' hstep => ?_
    have hleft := left_step h.counts h.rounds (.of_step hstep)
    rw [(left_eq_zero_iff h).2 hall] at hleft
    cases hleft

/-- A benchmark that starts its counter at 0 cannot hang: nothing is possible only when all
threads are joined, every schedule can be continued until then, and it gets there after the same
number of steps whatever the schedule is. -/
theorem benchmark_returns {m a : BitVec w}
    (hzero : (State.start m a : State T w).counter worker = 0) {schedule : List (Event T)}
    (h : Run (step worker iterations) (fun _ _ => True) (State.start m a) schedule s) :
    ((∀ e, step worker iterations s e = none) ↔ s.joined = T) ∧
      schedule.length ≤ benchmarkSteps worker T iterations ∧
      (s.joined = T ↔ schedule.length = benchmarkSteps worker T iterations) ∧
      ∃ more s', Run (step worker iterations) (fun _ _ => True) s more s' ∧ s'.joined = T := by
  have hs : Running worker iterations s :=
    h.invariant (running_start hzero) fun _ _ _ hs _ hstep => running_step hs hstep
  have hlength := run_left h (running_start hzero)
  rw [left_start] at hlength
  refine ⟨stuck_iff hs, by omega, ?_, ?_⟩
  · rw [← left_eq_zero_iff hs]
    omega
  · refine Run.exists_end (I := Running worker iterations) (State.left worker iterations)
      (fun s hs hrunning => ?_) hs
    obtain ⟨e, he⟩ := not_forall.1 fun hstuck => hrunning ((stuck_iff hs).1 hstuck)
    obtain ⟨s', hstep⟩ := Option.ne_none_iff_exists'.1 he
    have hleft := left_step hs.counts hs.rounds (.of_step hstep)
    exact ⟨e, s', trivial, hstep, running_step hs hstep, by omega⟩

/-- The second thread waits for the mutex. -/
theorem benchmark_returns_pair :
    ∃ s : State 2 8,
      Run (step .workerMutex 1) (fun _ _ => True) (State.start 0 5)
        [.create, .create, .run 0, .run 1, .run 0] s ∧
      ∃ more s', Run (step .workerMutex 1) (fun _ _ => True) s more s' ∧ s'.joined = 2 := by
  have hrun := Run.of_exec (t := Option.get _ (by decide)) (Option.some_get
    (x := exec (step .workerMutex 1) (fun _ _ => True) (State.start 0 5 : State 2 8)
      [.create, .create, .run 0, .run 1, .run 0]) (by decide)).symm
  exact ⟨_, hrun, (benchmark_returns rfl hrun).2.2.2⟩

end BenchCounter
end Leetcode
