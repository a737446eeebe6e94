import Mathlib.Data.List.Cycle
import Mathlib.Logic.Relation

/-!
# Cycles of a relation

A closed walk contains a cycle without repetitions, and an element from which
every path ends lies on no closed walk.  Together these turn the search for a
cycle into the search for a closed walk.  An edge of a closed walk connects
vertices of closed walks (`transGen_back`), so a relation that holds between
such vertices only has the same cycles.
-/

namespace CLib

open Relation

variable {α : Type*} {r : α → α → Prop}

/-- A closed walk, as the list of its vertices with the first repeated at the end. -/
theorem exists_closed_walk {a : α} (h : TransGen r a a) :
    ∃ l, List.IsChain r (a :: (l ++ [a])) := by
  obtain ⟨b, hab, hba⟩ := TransGen.tail'_iff.1 h
  obtain ⟨l, hl, hlast⟩ := List.exists_isChain_cons_of_relationReflTransGen hab
  refine ⟨l, ?_⟩
  rw [← List.cons_append]
  apply hl.append (.singleton a)
  intro x hx y hy
  obtain rfl : x = b := by
    rw [List.getLast?_eq_some_getLast (List.cons_ne_nil a l), hlast] at hx
    exact (Option.some.inj hx).symm
  obtain rfl : y = a := by simpa using hy.symm
  exact hba

/-- A list with a repetition reads as a shorter walk from an element back to it,
with something before and after. -/
theorem exists_repetition {l : List α} (h : ¬l.Nodup) :
    ∃ b x y z, l = x ++ b :: (y ++ b :: z) := by
  rw [List.nodup_iff_sublist] at h
  push Not at h
  obtain ⟨b, hb⟩ := h
  obtain ⟨l₁, l₂, rfl, hb₁, hb₂⟩ := List.cons_sublist_iff.1 hb
  obtain ⟨x, y₁, rfl⟩ := List.append_of_mem hb₁
  obtain ⟨y₂, z, rfl⟩ := List.append_of_mem (List.singleton_sublist.1 hb₂)
  exact ⟨b, x, y₁ ++ y₂, z, by simp⟩

/-- A closed walk contains a cycle of distinct vertices. -/
theorem exists_cycle_of_closed_walk {a : α} {l : List α} (h : List.IsChain r (a :: (l ++ [a]))) :
    ∃ c : Cycle α, c ≠ Cycle.nil ∧ c.Nodup ∧ c.Chain r := by
  induction hn : l.length using Nat.strong_induction_on generalizing a l with
  | _ n ih =>
      by_cases hnodup : (a :: l).Nodup
      · refine ⟨(a :: l : List α), ?_, hnodup, ?_⟩
        · simp
        · rw [Cycle.chain_coe_cons]
          exact h
      · -- The part between two visits of one vertex is a shorter closed walk.
        obtain ⟨b, x, y, z, hsplit⟩ := exists_repetition hnodup
        have hinner : List.IsChain r (b :: (y ++ [b])) := by
          apply h.infix
          refine ⟨x, z ++ [a], ?_⟩
          have hwalk : a :: (l ++ [a]) = (a :: l) ++ [a] := rfl
          rw [hwalk, hsplit]
          simp
        have hlength := congrArg List.length hsplit
        apply ih y.length _ hinner rfl
        simp at hlength
        omega

theorem exists_cycle_of_transGen {a : α} (h : TransGen r a a) :
    ∃ c : Cycle α, c ≠ Cycle.nil ∧ c.Nodup ∧ c.Chain r := by
  obtain ⟨l, hl⟩ := exists_closed_walk h
  exact exists_cycle_of_closed_walk hl

/-- A nonempty cycle is a closed walk from one of its vertices. -/
theorem exists_transGen_of_cycle {c : Cycle α} (hne : c ≠ Cycle.nil) (h : c.Chain r) :
    ∃ a ∈ c, TransGen r a a := by
  induction c with
  | nil => exact absurd rfl hne
  | cons a l =>
      have ha : a ∈ (↑(a :: l) : Cycle α) := by simp
      exact ⟨a, ha, Cycle.chain_iff_pairwise.1 (h.imp fun _ _ => .single) a ha a ha⟩

/-- Where every path ends there is no way back. -/
theorem not_transGen_of_acc {a : α} (h : Acc (Function.swap r) a) : ¬TransGen r a a := by
  induction h with
  | intro a _ ih =>
      intro hcycle
      obtain ⟨b, hab, hba⟩ := TransGen.head'_iff.1 hcycle
      exact ih b hab (TransGen.tail' hba hab)

/-- Every edge of a closed walk leads back to where it started. -/
theorem transGen_back {a b : α} (h : TransGen r a b) (hback : ReflTransGen r b a) :
    TransGen (fun x y => r x y ∧ ReflTransGen r y x) a b := by
  induction h with
  | single hab => exact .single ⟨hab, hback⟩
  | tail hab hbc ih =>
      have hcb : ReflTransGen r _ _ := hback.trans hab.to_reflTransGen
      exact (ih (hback.head hbc)).tail ⟨hbc, hcb⟩

end CLib
