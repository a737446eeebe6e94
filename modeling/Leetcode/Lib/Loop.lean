import Mathlib.Data.List.Basic
import Mathlib.Data.Nat.Notation

/-!
# Loops

`foldlM_ok` and `foldlM_range_ok` are the invariant rules for a loop over a list and for a
counting loop, when the body may fail.

`steps step n` makes `n` steps of a partial step function, in which a finished state goes to
itself.  A property that every step keeps, and from which a step is always possible, holds after
any number of steps; with a measure that goes down until the machine is finished, it halts.
-/

namespace CLib

variable {σ : Type*}

/-- A property of the elements that are done and of the state that every round keeps holds behind
the loop. -/
theorem foldlM_ok {α : Type*} {f : σ → α → Option σ} {I : List α → σ → Prop} {done : List α}
    {s : σ} (rest : List α) (h : I done s)
    (hstep : ∀ done s x, x ∈ rest → I done s → ∃ s', f s x = some s' ∧ I (done ++ [x]) s') :
    ∃ s', rest.foldlM f s = some s' ∧ I (done ++ rest) s' := by
  induction rest generalizing done s with
  | nil => exact ⟨s, rfl, by rwa [List.append_nil]⟩
  | cons x rest ih =>
      obtain ⟨s₁, hround, h₁⟩ := hstep done s x List.mem_cons_self h
      obtain ⟨s', hrun, h'⟩ :=
        ih h₁ fun done s y hy => hstep done s y (List.mem_cons_of_mem x hy)
      refine ⟨s', ?_, ?_⟩
      · rw [List.foldlM_cons, hround]
        exact hrun
      · rwa [List.append_assoc, List.singleton_append] at h'

/-- A property of the counter and the state that every round keeps holds behind the loop. -/
theorem foldlM_range_ok {f : σ → ℕ → Option σ} {I : ℕ → σ → Prop} {n : ℕ} {s : σ} (h : I 0 s)
    (hstep : ∀ i s, i < n → I i s → ∃ s', f s i = some s' ∧ I (i + 1) s') :
    ∃ s', (List.range n).foldlM f s = some s' ∧ I n s' := by
  induction n with
  | zero => exact ⟨s, rfl, h⟩
  | succ n ih =>
      obtain ⟨s₁, hrun, h₁⟩ := ih fun i s hi => hstep i s (Nat.lt_succ_of_lt hi)
      obtain ⟨s', hround, h'⟩ := hstep n s₁ (Nat.lt_succ_self n) h₁
      refine ⟨s', ?_, h'⟩
      rw [List.range_succ, List.foldlM_append, hrun]
      show [n].foldlM f s₁ = some s'
      rw [List.foldlM_cons, hround]
      rfl

/-- `n` steps. -/
def steps (step : σ → Option σ) : ℕ → σ → Option σ
  | 0, s => some s
  | n + 1, s => (step s).bind (steps step n)

variable {step : σ → Option σ} {I finished : σ → Prop} {μ : σ → ℕ}

theorem steps_ok (hstep : ∀ s, I s → ∃ s', step s = some s' ∧ I s') (n : ℕ) {s : σ} (h : I s) :
    ∃ s', steps step n s = some s' ∧ I s' := by
  induction n generalizing s with
  | zero => exact ⟨s, rfl, h⟩
  | succ n ih =>
      obtain ⟨s₁, hs₁, h₁⟩ := hstep s h
      rw [steps, hs₁]
      exact ih h₁

theorem steps_finished (hstay : ∀ s, finished s → step s = some s) (n : ℕ) {s : σ}
    (h : finished s) : steps step n s = some s := by
  induction n with
  | zero => rfl
  | succ n ih => rw [steps, hstay s h, Option.bind_some, ih]

/-- As many steps as the measure says are enough. -/
theorem steps_halt (hstay : ∀ s, finished s → step s = some s)
    (hstep : ∀ s, I s → finished s ∨ ∃ s', step s = some s' ∧ I s' ∧ μ s' < μ s) (n : ℕ) {s : σ}
    (h : I s) (hn : μ s < n) : ∃ s', steps step n s = some s' ∧ I s' ∧ finished s' := by
  induction n generalizing s with
  | zero => exact absurd hn (Nat.not_lt_zero _)
  | succ n ih =>
      rcases hstep s h with hs | ⟨s₁, hs₁, h₁, hμ⟩
      · exact ⟨s, steps_finished hstay (n + 1) hs, h, hs⟩
      · rw [steps, hs₁]
        exact ih h₁ (by omega)

end CLib
