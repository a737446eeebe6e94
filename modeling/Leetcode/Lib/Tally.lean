import Mathlib.Algebra.BigOperators.Group.Finset.Piecewise
import Mathlib.Algebra.Order.BigOperators.Group.Finset
import Mathlib.Data.Fintype.Basic

/-!
# How many threads are somewhere

`tally place p` counts the threads `t` of a finite type whose place `p t` accepts.
`tally_update` follows the count when one thread moves, `sum_update_add` any other sum over
the threads, and `tally_le` and `tally_lt` compare the count when many move.
-/

namespace CLib

variable {T α : Type*} [Fintype T]

/-- How many threads are at a place that `p` accepts. -/
def tally (place : T → α) (p : T → α → Bool) : ℕ :=
  (Finset.univ.filter fun t => p t (place t)).card

theorem tally_eq_sum (place : T → α) (p : T → α → Bool) :
    tally place p = ∑ t, (p t (place t)).toNat := by
  unfold tally
  rw [Finset.card_filter]
  refine Finset.sum_congr rfl fun t _ => ?_
  cases p t (place t) <;> rfl

variable {place place' : T → α} {p : T → α → Bool}

/-- A sum over the threads when one of them moves to `a`. -/
theorem sum_update_add [DecidableEq T] (place : T → α) (f : T → α → ℕ) (t : T) (a : α) :
    ∑ u, f u (Function.update place t a u) + f t (place t) = ∑ u, f u (place u) + f t a := by
  have hothers : ∑ u ∈ Finset.univ.erase t, f u (Function.update place t a u) =
      ∑ u ∈ Finset.univ.erase t, f u (place u) := by
    refine Finset.sum_congr rfl fun u hu => ?_
    rw [Function.update_of_ne (Finset.ne_of_mem_erase hu)]
  have hafter := Finset.add_sum_erase Finset.univ
    (fun u => f u (Function.update place t a u)) (Finset.mem_univ t)
  have hbefore := Finset.add_sum_erase Finset.univ (fun u => f u (place u)) (Finset.mem_univ t)
  rw [Function.update_self, hothers] at hafter
  rw [← hafter, ← hbefore]
  omega

/-- One thread moves to `a`. -/
theorem tally_update [DecidableEq T] (place : T → α) (p : T → α → Bool) (t : T) (a : α) :
    tally (Function.update place t a) p + (p t (place t)).toNat =
      tally place p + (p t a).toNat := by
  rw [tally_eq_sum, tally_eq_sum]
  exact sum_update_add place (fun u b => (p u b).toNat) t a

/-- Nobody leaves. -/
theorem tally_le (h : ∀ t, p t (place t) = true → p t (place' t) = true) :
    tally place p ≤ tally place' p :=
  Finset.card_le_card (Finset.monotone_filter_right _ fun t _ => h t)

/-- Nobody leaves and somebody comes. -/
theorem tally_lt (h : ∀ t, p t (place t) = true → p t (place' t) = true)
    (hnew : ∃ t, p t (place t) = false ∧ p t (place' t) = true) :
    tally place p < tally place' p := by
  obtain ⟨t, hbefore, hafter⟩ := hnew
  rw [tally_eq_sum, tally_eq_sum]
  refine Finset.sum_lt_sum (fun t _ => Bool.toNat_le_toNat (h t)) ⟨t, Finset.mem_univ t, ?_⟩
  rw [hbefore, hafter]
  decide

/-- Somebody is there when the count is positive. -/
theorem exists_of_tally_pos (h : 0 < tally place p) : ∃ t, p t (place t) = true := by
  obtain ⟨t, ht⟩ := Finset.card_pos.1 h
  exact ⟨t, (Finset.mem_filter.1 ht).2⟩

end CLib
