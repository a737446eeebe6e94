import Leetcode.BoundedQueue.Queue

/-!
# When `main` returns

`main` joins the producers and no consumer, and a consumer has no end.  `main_return` says
what is left then: the producers have pushed all their items, and the ones that have not
been popped are the ones in the queue.
-/

namespace Leetcode
namespace BoundedQueue

open CLib

variable {T : Type*} {P : Program T} {s s' : State T}

/-- `main` has still to join the producer, or it has pushed all its items. -/
structure JoinOk (P : Program T) (s : State T) : Prop where
  producers : ∀ t ∈ P.threads, P.role t = .producer → t ∈ s.toJoin ∨ s.finished t = true
  returned : s.returned = true → s.toJoin = []

theorem joinOk_init (P : Program T) : JoinOk P (State.init P) where
  producers := by
    intro t ht hrole
    exact .inl (List.mem_filter.2 ⟨ht, decide_eq_true hrole⟩)
  returned := nofun

theorem finished_iff {t : T} : s.finished t = true ↔ s.pc t = .ready ∧ s.items t = [] := by
  simp [State.finished]

variable [DecidableEq T]

/-- A producer that has pushed all its items makes no step. -/
theorem finished_step {t : T} (h : s.finished t = true) (hrole : P.role t = .producer)
    (hstep : Step P s s') : s'.finished t = true := by
  obtain ⟨hpc, hitems⟩ := finished_iff.1 h
  -- whoever moves is somewhere else
  have hother : ∀ {u : T}, s.pc u ≠ .ready → t ≠ u := by
    rintro u hu rfl
    exact hu hpc
  have hmoved : ∀ {u : T} {pc : Pc}, t ≠ u → (s.goto u pc).pc t = .ready := by
    intro u pc htu
    rw [goto_pc, Function.update_of_ne htu]
    exact hpc
  apply finished_iff.2
  cases hstep with
  | create htodo hunborn => exact ⟨hmoved (hother (by rw [hunborn]; nofun)), hitems⟩
  | join | ret => exact ⟨hpc, hitems⟩
  | @lock u hfree henters =>
      have htu : t ≠ u := by
        rintro rfl
        simp [State.enters, hpc, hitems, hrole] at henters
      exact ⟨hmoved htu, hitems⟩
  | sleep hholds | pass hholds | pop hholds | unlock hholds =>
      exact ⟨hmoved (hother (by rw [(holds_iff.1 hholds).2]; nofun)), hitems⟩
  | @push u item rest hholds hrole hrest =>
      have htu : t ≠ u := hother (by rw [(holds_iff.1 hholds).2]; nofun)
      refine ⟨hmoved htu, ?_⟩
      show Function.update s.items u rest t = []
      rw [Function.update_of_ne htu]
      exact hitems
  | @signal u wake hholds hwake =>
      have htu : t ≠ u := hother (by rw [(holds_iff.1 hholds).2]; nofun)
      exact ⟨by simp [State.waitsFor, hpc, htu], hitems⟩
  | wakeup hasleep => exact ⟨hmoved (hother (by rw [hasleep]; nofun)), hitems⟩

theorem JoinOk.step (h : JoinOk P s) (hstep : Step P s s') (hrunning : s.returned = false) :
    JoinOk P s' := by
  have hkept : ∀ t ∈ P.threads, P.role t = .producer → t ∈ s.toJoin ∨ s'.finished t = true := by
    intro t ht hrole
    rcases h.producers t ht hrole with hjoin | hfinished
    · exact .inl hjoin
    · exact .inr (finished_step hfinished hrole hstep)
  have hreturned : ¬ s.returned = true := Bool.eq_false_iff.1 hrunning
  cases hstep with
  | @join t rest hdone htodo hfinished =>
      refine ⟨fun u hu hrole => ?_, fun h => absurd h hreturned⟩
      rcases hkept u hu hrole with hjoin | hufinished
      · rw [htodo, List.mem_cons] at hjoin
        rcases hjoin with rfl | hrest
        · exact .inr hfinished
        · exact .inl hrest
      · exact .inr hufinished
  | ret hdone hjoined => exact ⟨hkept, fun _ => hjoined⟩
  | create | lock | sleep | pass | push | pop | signal | unlock | wakeup =>
      exact ⟨hkept, fun h => absurd h hreturned⟩

variable [Fintype T]

theorem running_of_step {e : Event T} (h : step P s e = some s') : s.returned = false := by
  unfold step at h
  split at h
  · cases h
  · next hrunning => exact Bool.eq_false_iff.2 hrunning

theorem joinOk_run {events : List (Event T)}
    (h : Run (step P) (fun _ _ => True) (State.init P) events s) : JoinOk P s :=
  h.invariant (joinOk_init P) fun _ _ _ hjoin _ hstep =>
    hjoin.step (.of_step hstep) (running_of_step hstep)

/-- The producer pushes both items and `main` joins it before the consumer moves. -/
def returnEvents : List (Event Bool) :=
  [.create, .create, .lock true, .test true, .update true, .signal true fun _ => false,
    .unlock true, .lock true, .test true, .update true, .signal true fun _ => false,
    .unlock true, .join, .ret]

/-- `main` may return while the queue still has the last items. -/
theorem main_return_early :
    ∃ s, Run (step pair) (fun _ _ => True) (State.init pair) returnEvents s ∧
      s.returned = true ∧ ¬ ∀ item ∈ s.pushed.map Prod.snd, item ∈ s.popped.map Prod.snd :=
  ⟨_, Run.of_exec (t := Option.get _ (by decide)) (Option.some_get _).symm, by decide, by decide⟩

/-- When `main` has returned, every producer that it created has pushed all its items,
and the pushed items are the popped ones and then the at most `QUEUE_SIZE` ones in the
queue.  So all of them have been popped exactly when the queue is empty. -/
theorem main_return (P : Program T) {events : List (Event T)} {s : State T}
    (h : Run (step P) (fun _ _ => True) (State.init P) events s) (hreturned : s.returned = true) :
    (∀ t ∈ P.threads, P.role t = .producer → itemsOf t s.pushed = P.items t) ∧
      s.pushed.map Prod.snd = s.popped.map Prod.snd ++ s.stored ∧
      s.stored.length = s.count ∧ s.count ≤ QUEUE_SIZE ∧
      (s.popped.map Prod.snd = s.pushed.map Prod.snd ↔ s.count = 0) := by
  obtain ⟨-, hqueue, hrest⟩ := inv_run h
  have hjoin := joinOk_run h
  have hlength : (s.stored.length : Int) = s.count := by
    rw [State.stored, length_ring, Int.toNat_of_nonneg hqueue.count_nonneg]
  refine ⟨fun t ht hrole => ?_, hqueue.fifo.symm, hlength, hqueue.count_le, ?_⟩
  · rcases hjoin.producers t ht hrole with hjoined | hfinished
    · rw [hjoin.returned hreturned] at hjoined
      cases hjoined
    · rw [← hrest t, (finished_iff.1 hfinished).2, List.append_nil]
  · rw [← hqueue.fifo, ← hlength]
    simp [List.length_eq_zero_iff]

theorem main_return_pair :
    ∃ s, Run (step pair) (fun _ _ => True) (State.init pair) returnEvents s ∧
      itemsOf true s.pushed = [7, 8] ∧
      s.pushed.map Prod.snd = s.popped.map Prod.snd ++ s.stored := by
  have hrun := Run.of_exec (t := Option.get _ (by decide)) (Option.some_get
    (x := exec (step pair) (fun _ _ => True) (State.init pair) returnEvents) (by decide)).symm
  have hreturn := main_return pair hrun (by decide)
  exact ⟨_, hrun, hreturn.1 true (by decide) rfl, hreturn.2.1⟩

end BoundedQueue
end Leetcode
