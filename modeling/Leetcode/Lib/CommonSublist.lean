import Mathlib.Algebra.Order.Ring.Nat
import Mathlib.Data.List.Basic
import Mathlib.Order.Bounds.Basic

/-!
# Longest common sublists

`LongestCommon a b n` says that `n` is the greatest length of a common sublist of `a` and `b`.
The rules extend the two lists at their ends, as the usual table does: equal elements extend any
common sublist (`LongestCommon.concat_eq`), and of two different ones a common sublist has to
leave out one (`LongestCommon.concat_ne`).
-/

namespace CLib

variable {α : Type*} {a b c : List α} {x y : α} {m n : ℕ}

/-- A sublist leaves out the last element or ends with it. -/
theorem sublist_concat_iff :
    c.Sublist (a ++ [x]) ↔ c.Sublist a ∨ ∃ c', c = c' ++ [x] ∧ c'.Sublist a := by
  constructor
  · intro h
    obtain ⟨c₁, c₂, rfl, h₁, h₂⟩ := List.sublist_append_iff.1 h
    rcases List.sublist_cons_iff.1 h₂ with h₂ | ⟨r, rfl, hr⟩
    · rw [List.sublist_nil.1 h₂, List.append_nil]
      exact Or.inl h₁
    · rw [List.sublist_nil.1 hr]
      exact Or.inr ⟨c₁, rfl, h₁⟩
  · rintro (h | ⟨c', rfl, h⟩)
    · exact h.trans (List.sublist_append_left a [x])
    · exact h.append (List.Sublist.refl [x])

/-- The greatest length of a common sublist. -/
def LongestCommon (a b : List α) (n : ℕ) : Prop :=
  IsGreatest {l | ∃ c : List α, c.Sublist a ∧ c.Sublist b ∧ c.length = l} n

theorem LongestCommon.le (h : LongestCommon a b n) (ha : c.Sublist a) (hb : c.Sublist b) :
    c.length ≤ n := h.2 ⟨c, ha, hb, rfl⟩

theorem LongestCommon.le_length_left (h : LongestCommon a b n) : n ≤ a.length := by
  obtain ⟨c, hc, -, rfl⟩ := h.1
  exact hc.length_le

theorem longestCommon_nil_left (b : List α) : LongestCommon [] b 0 := by
  constructor
  · exact ⟨[], List.Sublist.refl [], List.nil_sublist b, rfl⟩
  · rintro l ⟨c, hc, -, rfl⟩
    rw [List.sublist_nil.1 hc, List.length_nil]

theorem longestCommon_nil_right (a : List α) : LongestCommon a [] 0 := by
  constructor
  · exact ⟨[], List.nil_sublist a, List.Sublist.refl [], rfl⟩
  · rintro l ⟨c, -, hc, rfl⟩
    rw [List.sublist_nil.1 hc, List.length_nil]

/-- An equal last element makes the greatest length one larger. -/
theorem LongestCommon.concat_eq (h : LongestCommon a b n) :
    LongestCommon (a ++ [x]) (b ++ [x]) (1 + n) := by
  constructor
  · obtain ⟨c, ha, hb, rfl⟩ := h.1
    refine ⟨c ++ [x], ha.append (List.Sublist.refl [x]), hb.append (List.Sublist.refl [x]), ?_⟩
    rw [List.length_append, List.length_singleton, Nat.add_comm]
  · rintro l ⟨c, ha, hb, rfl⟩
    -- Without the last element, if it has it, `c` is a common sublist of `a` and `b`.
    have hshorter : ∃ c' : List α, c'.Sublist a ∧ c'.Sublist b ∧ c.length ≤ 1 + c'.length := by
      rcases sublist_concat_iff.1 ha with ha' | ⟨c₁, rfl, ha'⟩
      · rcases sublist_concat_iff.1 hb with hb' | ⟨c₂, rfl, hb'⟩
        · exact ⟨c, ha', hb', Nat.le_add_left _ _⟩
        · refine ⟨c₂, (List.sublist_append_left c₂ [x]).trans ha', hb', ?_⟩
          rw [List.length_append, List.length_singleton, Nat.add_comm]
      · have hc₁ : c₁.Sublist b := by
          rcases sublist_concat_iff.1 hb with hb' | ⟨c₂, heq, hb'⟩
          · exact (List.sublist_append_left c₁ [x]).trans hb'
          · rwa [List.append_cancel_right heq]
        refine ⟨c₁, ha', hc₁, ?_⟩
        rw [List.length_append, List.length_singleton, Nat.add_comm]
    obtain ⟨c', ha', hb', hle⟩ := hshorter
    exact hle.trans (Nat.add_le_add_left (h.le ha' hb') 1)

/-- Of two different last elements a common sublist leaves out one. -/
theorem LongestCommon.concat_ne (hne : x ≠ y) (hleft : LongestCommon a (b ++ [y]) m)
    (hright : LongestCommon (a ++ [x]) b n) :
    LongestCommon (a ++ [x]) (b ++ [y]) (max m n) := by
  constructor
  · rcases le_total m n with hle | hle
    · rw [max_eq_right hle]
      obtain ⟨c, ha, hb, hlen⟩ := hright.1
      exact ⟨c, ha, hb.trans (List.sublist_append_left b [y]), hlen⟩
    · rw [max_eq_left hle]
      obtain ⟨c, ha, hb, hlen⟩ := hleft.1
      exact ⟨c, ha.trans (List.sublist_append_left a [x]), hb, hlen⟩
  · rintro l ⟨c, ha, hb, rfl⟩
    rcases sublist_concat_iff.1 ha with ha' | ⟨c₁, rfl, ha'⟩
    · exact (hleft.le ha' hb).trans (le_max_left m n)
    rcases sublist_concat_iff.1 hb with hb' | ⟨c₂, heq, hb'⟩
    · exact (hright.le ha hb').trans (le_max_right m n)
    · have hlast : x = y := List.singleton_inj.1 (List.append_inj_right' heq rfl)
      exact absurd hlast hne

end CLib
