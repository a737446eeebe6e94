import Mathlib.Data.List.Basic

/-!
# Runs with answers

`Trace step s is os t`: from `s` the inputs `is` lead to `t`, and the answers on the
way are `os`.  The answers of a specification are computed by `answers`, with `outcome`
the state it is left in; `Trace.of_simulation` carries a simulation of single steps to
whole runs, and `Trace.spends` bounds the number of steps.
-/

namespace CLib

variable {σ τ ι ω : Type*}

/-- The inputs lead from one state to the other with these answers. -/
inductive Trace (step : σ → ι → Option (σ × ω)) : σ → List ι → List ω → σ → Prop
  | nil (s : σ) : Trace step s [] [] s
  | cons {s t u : σ} {i : ι} {is : List ι} {o : ω} {os : List ω} (hstep : step s i = some (t, o))
      (htrace : Trace step t is os u) : Trace step s (i :: is) (o :: os) u

/-- The answers of a specification. -/
def answers (spec : τ → ι → τ × ω) : τ → List ι → List ω
  | _, [] => []
  | t, i :: is => (spec t i).2 :: answers spec (spec t i).1 is

/-- The state a specification is left in. -/
def outcome (spec : τ → ι → τ × ω) (t : τ) (is : List ι) : τ :=
  is.foldl (fun t i => (spec t i).1) t

theorem outcome_concat (spec : τ → ι → τ × ω) (t : τ) (is : List ι) (i : ι) :
    outcome spec t (is ++ [i]) = (spec (outcome spec t is) i).1 := by
  rw [outcome, List.foldl_concat, ← outcome]

theorem answers_concat (spec : τ → ι → τ × ω) (t : τ) (is : List ι) (i : ι) :
    answers spec t (is ++ [i]) = answers spec t is ++ [(spec (outcome spec t is) i).2] := by
  induction is generalizing t with
  | nil => rfl
  | cons j is ih =>
      rw [List.cons_append, answers, ih, answers, List.cons_append]
      rfl

/-- An answer is the one in the state that the inputs in front of it lead to. -/
theorem answers_getElem? (spec : τ → ι → τ × ω) (t : τ) (is : List ι) (n : ℕ) :
    (answers spec t is)[n]? = is[n]?.map fun i => (spec (outcome spec t (is.take n)) i).2 := by
  induction is generalizing t n with
  | nil => rfl
  | cons j is ih =>
      rw [answers]
      cases n with
      | zero => rfl
      | succ n =>
          rw [List.getElem?_cons_succ, List.getElem?_cons_succ, ih]
          rfl

theorem answers_map {κ : Type*} (spec : τ → κ → τ × ω) (f : ι → κ) (t : τ) (is : List ι) :
    answers (fun t i => spec t (f i)) t is = answers spec t (is.map f) := by
  induction is generalizing t with
  | nil => rfl
  | cons i is ih => rw [answers, ih, List.map_cons, answers]

theorem outcome_map {κ : Type*} (spec : τ → κ → τ × ω) (f : ι → κ) (t : τ) (is : List ι) :
    outcome (fun t i => spec t (f i)) t is = outcome spec t (is.map f) := by
  rw [outcome, outcome, List.foldl_map]

/-- A simulation of the steps is one of the runs. -/
theorem Trace.of_simulation (step : σ → ι → Option (σ × ω)) (spec : τ → ι → τ × ω)
    (R : σ → τ → Prop) (ok : ι → Prop)
    (hsim : ∀ s t i, R s t → ok i → ∃ s', step s i = some (s', (spec t i).2) ∧ R s' (spec t i).1)
    {s : σ} {t : τ} (hinit : R s t) {is : List ι} (hok : ∀ i ∈ is, ok i) :
    ∃ s', Trace step s is (answers spec t is) s' ∧ R s' (outcome spec t is) := by
  induction is generalizing s t with
  | nil => exact ⟨s, .nil s, hinit⟩
  | cons i is ih =>
      obtain ⟨s₁, hstep, hR⟩ := hsim s t i hinit (hok i List.mem_cons_self)
      obtain ⟨s', htrace, hR'⟩ := ih hR fun j hj => hok j (List.mem_cons_of_mem _ hj)
      exact ⟨s', .cons hstep htrace, hR'⟩

/-! ## How long a run can get -/

section Length

variable {step : σ → ι → Option (σ × ω)} {s t u : σ} {is js : List ι} {os ps : List ω}

/-- The inputs decide the answers and the state. -/
theorem Trace.unique (h : Trace step s is os t) (h' : Trace step s is ps u) : os = ps ∧ t = u := by
  induction h generalizing ps with
  | nil s =>
      cases h'
      exact ⟨rfl, rfl⟩
  | cons hstep _ ih =>
      cases h' with
      | cons hstep' hrest =>
          cases hstep.symm.trans hstep'
          obtain ⟨rfl, rfl⟩ := ih hrest
          exact ⟨rfl, rfl⟩

theorem Trace.append (h : Trace step s is os t) (h' : Trace step t js ps u) :
    Trace step s (is ++ js) (os ++ ps) u := by
  induction h with
  | nil s => exact h'
  | cons hstep _ ih => exact .cons hstep (ih h')

/-- Every step spends something: a run is no longer than what is spent on it. -/
theorem Trace.spends {R : σ → ℕ → Prop}
    (hspends : ∀ s i t o k, R s k → step s i = some (t, o) → ∃ k', k < k' ∧ R t k')
    (h : Trace step s is os t) {k : ℕ} (hk : R s k) : ∃ k', k + is.length ≤ k' ∧ R t k' := by
  induction h generalizing k with
  | nil s => exact ⟨k, Nat.le_refl k, hk⟩
  | cons hstep _ ih =>
      obtain ⟨k₁, hlt, hk₁⟩ := hspends _ _ _ _ _ hk hstep
      obtain ⟨k', hle, hk'⟩ := ih hk₁
      refine ⟨k', ?_, hk'⟩
      rw [List.length_cons]
      omega

/-- Where no run has more than `n` steps, every one can be continued until nothing more
is possible. -/
theorem Trace.exists_end {n : ℕ} (hbound : ∀ is os t, Trace step s is os t → is.length ≤ n)
    (h : Trace step s is os t) :
    ∃ js ps u, Trace step t js ps u ∧ ∀ j, step u j = none := by
  obtain ⟨k, hk⟩ : ∃ k, n - is.length = k := ⟨_, rfl⟩
  induction k using Nat.strongRecOn generalizing is os t with
  | ind k ih =>
      by_cases hend : ∀ j, step t j = none
      · exact ⟨[], [], t, .nil t, hend⟩
      · obtain ⟨j, hj⟩ := not_forall.1 hend
        obtain ⟨⟨t', o⟩, hstep⟩ := Option.ne_none_iff_exists'.1 hj
        have hnext : Trace step s (is ++ [j]) (os ++ [o]) t' := h.append (.cons hstep (.nil t'))
        have hle := hbound _ _ _ hnext
        rw [List.length_append, List.length_singleton] at hle
        have hlt : n - (is ++ [j]).length < k := by
          rw [List.length_append, List.length_singleton]
          omega
        obtain ⟨js, ps, u, htrace, hu⟩ := ih _ hlt hnext rfl
        exact ⟨j :: js, o :: ps, u, .cons hstep htrace, hu⟩

end Length

/-- The run as a function: `none` where the step refuses. -/
def execTrace (step : σ → ι → Option (σ × ω)) : σ → List ι → Option (List ω × σ)
  | s, [] => some ([], s)
  | s, i :: is =>
      (step s i).bind fun next => (execTrace step next.1 is).map fun rest =>
        (next.2 :: rest.1, rest.2)

theorem Trace.of_exec {step : σ → ι → Option (σ × ω)} {s t : σ} {is : List ι} {os : List ω}
    (h : execTrace step s is = some (os, t)) : Trace step s is os t := by
  induction is generalizing s os with
  | nil =>
      cases h
      exact .nil _
  | cons i is ih =>
      obtain ⟨next, hstep, hrest⟩ := Option.bind_eq_some_iff.1 h
      obtain ⟨rest, hexec, heq⟩ := Option.map_eq_some_iff.1 hrest
      cases heq
      exact .cons hstep (ih hexec)

end CLib
