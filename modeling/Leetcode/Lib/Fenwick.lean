import Mathlib.Algebra.BigOperators.Group.Finset.Basic
import Mathlib.Algebra.BigOperators.Intervals
import Mathlib.Data.Int.Bitwise
import Mathlib.Logic.Relation
import Mathlib.Order.Interval.Finset.Nat

/-!
# Fenwick trees

The entry `i` of a Fenwick tree holds the sum of the `low i` values up to `i`, where `low i` is the
lowest set bit of `i`.  A prefix sum is collected along `i, i - low i, ...`, and a change of the
value at `x` concerns the entries that cover `x`: those are `x`, and the ones that cover
`x + low x` (`covers_next`).

* `low_two_mul`, `low_two_mul_add_one` — the lowest set bit by the binary digits.
* `Descends` — the indices that a prefix sum is collected along.
* `Fenwick` — the entries of a tree; `Fenwick.sum_next` and `Fenwick.add` are the two operations.
-/

namespace CLib

/-! ## The lowest set bit -/

/-- The lowest set bit of a positive number. -/
def low (n : ℕ) : ℕ := n.ldiff (n - 1)

theorem low_two_mul {n : ℕ} (h : 0 < n) : low (2 * n) = 2 * low n := by
  have hpred : 2 * n - 1 = Nat.bit true (n - 1) := by
    rw [Nat.bit_val]
    simp only [Bool.toNat_true]
    omega
  have hdouble : 2 * n = Nat.bit false n := by simp [Nat.bit_val]
  rw [low, hpred, hdouble, Nat.ldiff_bit]
  simp [Nat.bit_val, low]

theorem low_two_mul_add_one (n : ℕ) : low (2 * n + 1) = 1 := by
  have hpred : 2 * n + 1 - 1 = Nat.bit false n := by simp [Nat.bit_val]
  have hodd : 2 * n + 1 = Nat.bit true n := by simp [Nat.bit_val]
  have hself : n.ldiff n = 0 := by
    refine Nat.eq_of_testBit_eq fun i => ?_
    rw [Nat.testBit_ldiff, Bool.and_not_self, Nat.zero_testBit]
  rw [low, hpred, hodd, Nat.ldiff_bit, hself]
  rfl

/-- The way a program computes it. -/
theorem land_neg {n : ℕ} (h : 0 < n) : Int.land n (-n) = low n := by
  obtain ⟨m, rfl⟩ : ∃ m, n = m + 1 := ⟨n - 1, by omega⟩
  rfl

theorem low_pos_le {n : ℕ} (h : 0 < n) : 0 < low n ∧ low n ≤ n := by
  induction n using Nat.strong_induction_on with
  | h n ih =>
      obtain ⟨m, rfl | rfl⟩ : ∃ m, n = 2 * m ∨ n = 2 * m + 1 := ⟨n / 2, by omega⟩
      · have hm := ih m (by omega) (by omega)
        rw [low_two_mul (by omega)]
        omega
      · rw [low_two_mul_add_one]
        omega

/-! ## Covering -/

/-- The entry `i` contains the value at `x`. -/
def Covers (i x : ℕ) : Prop := x ≤ i ∧ i < x + low i

instance (i x : ℕ) : Decidable (Covers i x) := inferInstanceAs (Decidable (_ ∧ _))

theorem covers_iff {i x : ℕ} (hi : 0 < i) : Covers i x ↔ x ∈ Finset.Ioc (i - low i) i := by
  obtain ⟨hpos, hle⟩ := low_pos_le hi
  rw [Finset.mem_Ioc, Covers]
  omega

theorem not_covers_zero {x : ℕ} (hx : 0 < x) : ¬Covers 0 x := fun h => Nat.not_le_of_gt hx h.1

/-- Besides `x` itself, the entries that cover `x` are those that cover `x + low x`. -/
theorem covers_next {x : ℕ} (hx : 0 < x) (i : ℕ) :
    Covers i x ↔ i = x ∨ Covers i (x + low x) := by
  induction x using Nat.strong_induction_on generalizing i with
  | h x ih =>
      rcases Nat.eq_zero_or_pos i with rfl | hi
      · have hnot := not_covers_zero hx
        have hnot' := not_covers_zero (Nat.add_pos_left hx (low x))
        simp only [hnot, hnot', or_false, false_iff]
        omega
      obtain ⟨a, rfl | rfl⟩ : ∃ a, x = 2 * a ∨ x = 2 * a + 1 := ⟨x / 2, by omega⟩
      · have ha : 0 < a := by omega
        have hxlow := low_two_mul ha
        obtain ⟨b, rfl | rfl⟩ : ∃ b, i = 2 * b ∨ i = 2 * b + 1 := ⟨i / 2, by omega⟩
        · -- Both are even: half of each.
          have hilow := low_two_mul (n := b) (by omega)
          have hhalf := ih a (by omega) ha b
          unfold Covers at hhalf ⊢
          omega
        · have hilow := low_two_mul_add_one b
          unfold Covers
          omega
      · have hxlow := low_two_mul_add_one a
        obtain ⟨b, rfl | rfl⟩ : ∃ b, i = 2 * b ∨ i = 2 * b + 1 := ⟨i / 2, by omega⟩
        · have hilow := low_two_mul (n := b) (by omega)
          unfold Covers
          omega
        · have hilow := low_two_mul_add_one b
          unfold Covers
          omega

/-! ## The way down -/

/-- A prefix sum up to `i` is collected along `j`. -/
def Descends : ℕ → ℕ → Prop := Relation.ReflTransGen fun n m => 0 < n ∧ m = n - low n

theorem Descends.next {i n : ℕ} (h : Descends i n) (hn : 0 < n) : Descends i (n - low n) :=
  h.tail ⟨hn, rfl⟩

theorem Descends.le {i n : ℕ} (h : Descends i n) : n ≤ i := by
  induction h with
  | refl => exact Nat.le_refl i
  | tail _ hstep ih =>
      rw [hstep.2]
      exact (Nat.sub_le _ _).trans ih

/-! ## Trees -/

variable {M : Type*} [AddCommMonoid M] {N : ℕ} {tree tree' a : ℕ → M}

/-- The entries up to `N` hold the sums of the values `a` that they cover. -/
def Fenwick (N : ℕ) (tree a : ℕ → M) : Prop :=
  ∀ i, 0 < i → i ≤ N → tree i = ∑ x ∈ Finset.Ioc (i - low i) i, a x

theorem fenwick_zero (N : ℕ) (h : ∀ i, 0 < i → i ≤ N → tree i = 0) : Fenwick N tree fun _ => 0 := by
  intro i hi hle
  rw [h i hi hle, Finset.sum_const_zero]

/-- The entry at `n` holds what comes next on the way down from `i`. -/
theorem Fenwick.sum_next (h : Fenwick N tree a) {n i : ℕ} (hn : 0 < n) (hni : n ≤ i) (hi : i ≤ N) :
    ∑ x ∈ Finset.Ioc n i, a x + tree n = ∑ x ∈ Finset.Ioc (n - low n) i, a x := by
  rw [h n hn (hni.trans hi), add_comm]
  exact Finset.sum_Ioc_consecutive a (Nat.sub_le _ _) hni

/-- A value is added to the entries that cover its place. -/
theorem Fenwick.add (h : Fenwick N tree a) {x : ℕ} (v : M)
    (hadd : ∀ i, 0 < i → i ≤ N → tree' i = tree i + if Covers i x then v else 0) :
    Fenwick N tree' (Function.update a x (a x + v)) := by
  intro i hi hle
  rw [hadd i hi hle, h i hi hle]
  by_cases hcovers : Covers i x
  · have hmem := (covers_iff hi).1 hcovers
    rw [if_pos hcovers, Finset.sum_update_of_mem hmem, ← Finset.add_sum_erase _ a hmem,
      Finset.sdiff_singleton_eq_erase]
    exact add_right_comm _ _ _
  · have hmem : x ∉ Finset.Ioc (i - low i) i := fun h => hcovers ((covers_iff hi).2 h)
    rw [if_neg hcovers, add_zero, Finset.sum_update_of_notMem hmem]

end CLib
