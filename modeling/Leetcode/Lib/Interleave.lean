import Mathlib.Data.List.Basic
import Mathlib.Data.List.Perm.Basic
import Mathlib.Tactic

/-!
# Interleavings of finitely many sequences

`Interleaves threads out` says that `out` is one order in which a scheduler can
run the steps of all threads to completion: at every point it takes the head
of some thread that still has steps.
-/

namespace CLib

variable {α : Type*}

/-- Every schedule that runs all threads to their end. -/
inductive Interleaves : List (List α) → List α → Prop
  | done {threads : List (List α)} (h : ∀ l ∈ threads, l = []) : Interleaves threads []
  | step {threads : List (List α)} {k : Nat} {a : α} {rest out : List α}
      (hk : threads[k]? = some (a :: rest)) (h : Interleaves (threads.set k rest) out) :
      Interleaves threads (a :: out)

namespace Interleaves

/-- Taking a step out of a thread takes it out of the collection of all steps. -/
theorem flatten_set_perm {threads : List (List α)} {k : Nat} {a : α} {rest : List α}
    (hk : threads[k]? = some (a :: rest)) :
    threads.flatten.Perm (a :: (threads.set k rest).flatten) := by
  induction threads generalizing k with
  | nil => simp at hk
  | cons l threads ih =>
      cases k with
      | zero =>
          have hl : l = a :: rest := by simpa using hk
          subst hl
          simp
      | succ k =>
          have hrec := ih (k := k) (by simpa using hk)
          rw [List.set_cons_succ, List.flatten_cons, List.flatten_cons]
          exact (hrec.append_left l).trans List.perm_middle

/-- An interleaving neither loses nor repeats a step. -/
theorem perm {threads : List (List α)} {out : List α} (h : Interleaves threads out) :
    out.Perm threads.flatten := by
  induction h with
  | done h => rw [List.flatten_eq_nil_iff.mpr h]
  | step hk _ ih => exact (ih.cons _).trans (flatten_set_perm hk).symm

end Interleaves

end CLib
