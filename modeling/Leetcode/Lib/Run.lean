import Mathlib.Data.List.Basic

/-!
# Guarded runs of a partial step function

`Run step ok s is t`: from `s` the inputs `is` lead to `t`, every one of them
given in a state where `ok` allows it.  The guard says which runs a result is
about (a calling convention, or a condition on the steps), so two results
about one step function differ only in their guards.

* `Run.invariant` carries an invariant from the first state to the last.
* `Run.exists_end` finds a run to the end where a measure goes down.
* `Run.congr` exchanges guards that agree wherever an invariant holds: a
  property of every step of a run is a guard too.
* `exec` is the run as a function, for concrete inputs.
-/

namespace CLib

variable {σ ι : Type*} {step : σ → ι → Option σ} {ok ok' : σ → ι → Prop}

/-- The inputs lead from one state to the other, each within its guard. -/
inductive Run (step : σ → ι → Option σ) (ok : σ → ι → Prop) : σ → List ι → σ → Prop
  | nil (s : σ) : Run step ok s [] s
  | cons {s t u : σ} {i : ι} {is : List ι} (hok : ok s i) (hstep : step s i = some t)
      (hrun : Run step ok t is u) : Run step ok s (i :: is) u

/-- An invariant that every guarded step preserves holds at the end of a run. -/
theorem Run.invariant {I : σ → Prop} {s t : σ} {is : List ι} (h : Run step ok s is t)
    (hinit : I s) (hpres : ∀ s i t, I s → ok s i → step s i = some t → I t) : I t := by
  induction h with
  | nil s => exact hinit
  | cons hok hstep _ ih => exact ih (hpres _ _ _ hinit hok hstep)

/-- A run may be read under any guard that the states of an invariant allow. -/
theorem Run.mono {I : σ → Prop} {s t : σ} {is : List ι} (h : Run step ok s is t)
    (hinit : I s) (hpres : ∀ s i t, I s → ok s i → step s i = some t → I t)
    (himp : ∀ s i t, I s → step s i = some t → ok s i → ok' s i) : Run step ok' s is t := by
  induction h with
  | nil s => exact .nil s
  | cons hok hstep _ ih =>
      exact .cons (himp _ _ _ hinit hstep hok) hstep (ih (hpres _ _ _ hinit hok hstep))

/-- Guards that agree wherever the invariant holds have the same runs. -/
theorem Run.congr {I : σ → Prop} {s t : σ} {is : List ι} (hinit : I s)
    (hpres : ∀ s i t, I s → step s i = some t → I t)
    (hiff : ∀ s i t, I s → step s i = some t → (ok s i ↔ ok' s i)) :
    Run step ok s is t ↔ Run step ok' s is t := by
  constructor
  · intro h
    exact h.mono hinit (fun s i t hI _ => hpres s i t hI) fun s i t hI ht => (hiff s i t hI ht).1
  · intro h
    exact h.mono hinit (fun s i t hI _ => hpres s i t hI) fun s i t hI ht => (hiff s i t hI ht).2

/-- A run may be cut anywhere. -/
theorem Run.append_iff {s u : σ} {is js : List ι} :
    Run step ok s (is ++ js) u ↔ ∃ t, Run step ok s is t ∧ Run step ok t js u := by
  constructor
  · intro h
    induction is generalizing s with
    | nil => exact ⟨s, .nil s, h⟩
    | cons i is ih =>
        cases h with
        | cons hok hstep hrun =>
            obtain ⟨t, hfirst, hsecond⟩ := ih hrun
            exact ⟨t, .cons hok hstep hfirst, hsecond⟩
  · rintro ⟨t, hfirst, hsecond⟩
    induction hfirst with
    | nil s => exact hsecond
    | cons hok hstep _ ih => exact .cons hok hstep (ih hsecond)

/-- The inputs decide where a run ends. -/
theorem Run.end_unique {s t u : σ} {is : List ι} (h : Run step ok s is t)
    (h' : Run step ok s is u) : t = u := by
  induction h with
  | nil s =>
      cases h'
      rfl
  | cons _ hstep _ ih =>
      cases h' with
      | cons _ hstep' hrun' =>
          obtain rfl := Option.some.inj (hstep.symm.trans hstep')
          exact ih hrun'

/-- Where some guarded step leads on, and down in a measure, as long as the end is not reached, a
run leads to the end. -/
theorem Run.exists_end {I done : σ → Prop} (measure : σ → ℕ)
    (hgo : ∀ s, I s → ¬ done s → ∃ i t, ok s i ∧ step s i = some t ∧ I t ∧ measure t < measure s)
    {s : σ} (hinit : I s) : ∃ is t, Run step ok s is t ∧ done t := by
  obtain ⟨n, hn⟩ : ∃ n, measure s = n := ⟨_, rfl⟩
  induction n using Nat.strongRecOn generalizing s with
  | ind n ih =>
      by_cases hdone : done s
      · exact ⟨[], s, .nil s, hdone⟩
      · obtain ⟨i, t, hok, hstep, hI, hlt⟩ := hgo s hinit hdone
        obtain ⟨is, u, hrun, hu⟩ := ih (measure t) (hn ▸ hlt) hI rfl
        exact ⟨i :: is, u, .cons hok hstep hrun, hu⟩

/-- The run as a function: `none` where a guard or the step itself refuses. -/
def exec (step : σ → ι → Option σ) (ok : σ → ι → Prop) [∀ s i, Decidable (ok s i)] :
    σ → List ι → Option σ
  | s, [] => some s
  | s, i :: is => if ok s i then (step s i).bind fun t => exec step ok t is else none

theorem Run.of_exec [∀ s i, Decidable (ok s i)] {s t : σ} {is : List ι}
    (h : exec step ok s is = some t) : Run step ok s is t := by
  induction is generalizing s with
  | nil =>
      obtain rfl : s = t := by simpa [exec] using h
      exact .nil s
  | cons i is ih =>
      unfold exec at h
      split at h
      · next hok =>
          obtain ⟨u, hu, ht⟩ := Option.bind_eq_some_iff.1 h
          exact .cons hok hu (ih ht)
      · cases h

end CLib
