import Mathlib.Algebra.Order.Group.Abs
import Mathlib.Algebra.Order.Group.Int
import Mathlib.Algebra.Order.BigOperators.Group.List
import Leetcode.CreateSorted.Cost
import Leetcode.Lib.CInt

/-!
# `update` and `query` for any values

`createSortedArray` only counts; called with values of their own, `update` and `query` can leave
the range of `int`.  `SumsFit` says that they do not: all that they add up are sums of the values
at consecutive indices, in an entry of the array or on the way down of a query.
-/

namespace Leetcode
namespace CreateSorted

open CLib

variable {bit : Bit} {calls : List (ℤ × ℤ)} {n : ℕ}

theorem intResult_index (h : n ≤ 2 * MAX_VAL) : intResult n = some (n : ℤ) :=
  intResult_ok (by unfold FitsInt MAX_VAL at *; omega)

/-! ## The values of the calls -/

/-- What the calls add at the index `x`. -/
def valueAt (calls : List (ℤ × ℤ)) (x : ℕ) : ℤ :=
  ((calls.filter fun call => call.1 = (x : ℤ)).map Prod.snd).sum

/-- What they add at the indices behind `j` up to `i`. -/
def sumOver (calls : List (ℤ × ℤ)) (j i : ℤ) : ℤ :=
  ((calls.filter fun call => j < call.1 ∧ call.1 ≤ i).map Prod.snd).sum

/-- After each of the calls the entries of the array are `int`s. -/
def EntriesFit (calls : List (ℤ × ℤ)) : Prop :=
  ∀ done, done <+: calls → ∀ i : ℕ, 0 < i → i ≤ MAX_VAL → FitsInt (sumOver done (i - low i : ℕ) i)

/-- All sums that the calls and the queries behind them form are `int`s: the entries, and what a
query for `i` has added up when it comes to `j`. -/
structure SumsFit (calls : List (ℤ × ℤ)) : Prop where
  entries : EntriesFit calls
  queries : ∀ i j : ℕ, i ≤ MAX_VAL → Descends i j → FitsInt (sumOver calls j i)

theorem sum_valueAt (hindex : ∀ call ∈ calls, 1 ≤ call.1) (j i : ℕ) :
    ∑ x ∈ Finset.Ioc j i, valueAt calls x = sumOver calls j i := by
  induction calls with
  | nil => simp [valueAt, sumOver]
  | cons call calls ih =>
      obtain ⟨hcall, hcalls⟩ := List.forall_mem_cons.1 hindex
      obtain ⟨index, val⟩ := call
      obtain ⟨k, rfl⟩ : ∃ k : ℕ, index = k := ⟨index.toNat, by omega⟩
      have hcons : ∀ x : ℕ, valueAt ((k, val) :: calls) x =
          (if k = x then val else 0) + valueAt calls x := by
        intro x
        by_cases hx : k = x
        · simp [valueAt, hx]
        · simp [valueAt, hx]
      rw [Finset.sum_congr rfl fun x _ => hcons x, Finset.sum_add_distrib, ih hcalls,
        Finset.sum_ite_eq]
      by_cases hk : k ∈ Finset.Ioc j i
      · have hin := Finset.mem_Ioc.1 hk
        simp [sumOver, hin]
      · have hout : ¬(j < k ∧ k ≤ i) := fun h => hk (Finset.mem_Ioc.2 h)
        simp [sumOver, hout]

theorem valueAt_concat (calls : List (ℤ × ℤ)) (n : ℕ) (val : ℤ) :
    Function.update (valueAt calls) n (valueAt calls n + val) =
      valueAt (calls ++ [((n : ℤ), val)]) := by
  funext x
  by_cases hx : x = n
  · subst hx
    simp [valueAt]
  · have hne : ¬n = x := Ne.symm hx
    simp [valueAt, Function.update_of_ne hx, hne]

theorem abs_sumOver_le (calls : List (ℤ × ℤ)) (j i : ℤ) :
    |sumOver calls j i| ≤ (calls.map fun call => |call.2|).sum := by
  induction calls with
  | nil => simp [sumOver]
  | cons call calls ih =>
      rw [List.map_cons, List.sum_cons]
      by_cases hin : j < call.1 ∧ call.1 ≤ i
      · have hcons : sumOver (call :: calls) j i = call.2 + sumOver calls j i := by
          simp [sumOver, hin]
        rw [hcons]
        exact (abs_add_le _ _).trans (add_le_add_right ih _)
      · have hcons : sumOver (call :: calls) j i = sumOver calls j i := by
          simp [sumOver, hin]
        rw [hcons]
        exact ih.trans (le_add_of_nonneg_left (abs_nonneg _))

/-- The magnitudes of all values may fit together. -/
theorem sumsFit_of_small (h : (calls.map fun call => |call.2|).sum < 2 ^ 31) : SumsFit calls := by
  have hfit : ∀ done, done <+: calls → ∀ j i : ℤ, FitsInt (sumOver done j i) := by
    rintro done ⟨rest, rfl⟩ j i
    have hle := abs_le.1 (abs_sumOver_le done j i)
    have hrest : 0 ≤ (rest.map fun call => |call.2|).sum := List.sum_nonneg fun v hv => by
      obtain ⟨call, -, rfl⟩ := List.mem_map.1 hv
      exact abs_nonneg _
    rw [List.map_append, List.sum_append] at h
    unfold FitsInt
    omega
  exact ⟨fun done hdone i _ _ => hfit done hdone _ _,
    fun i j _ _ => hfit calls List.prefix_rfl _ _⟩

/-! ## Runs -/

theorem EntriesFit.of_append {more : List (ℤ × ℤ)} (h : EntriesFit (calls ++ more)) :
    EntriesFit calls :=
  fun done hdone => h done (hdone.trans (List.prefix_append calls more))

/-- One more call of `update`: what it writes are sums of the values with the new one. -/
theorem updateInt_ok {val : ℤ} (h : Fenwick MAX_VAL bit (valueAt calls)) (hn : 0 < n)
    (hindex : ∀ call ∈ calls ++ [((n : ℤ), val)], 1 ≤ call.1)
    (hfit : EntriesFit (calls ++ [((n : ℤ), val)])) :
    ∃ bit', updateInt val (MAX_VAL + 1) bit n = some bit' ∧
      Fenwick MAX_VAL bit' (valueAt (calls ++ [((n : ℤ), val)])) := by
  have hok := updateWith_ok (fun _ => intResult_index) h hn val
  rw [valueAt_concat] at hok
  refine hok fun i hi hle => intResult_ok ?_
  rw [sum_valueAt hindex]
  exact hfit _ List.prefix_rfl i hi hle

theorem updates_ok (hzero : ∀ i ≤ MAX_VAL, bit i = 0)
    (hindex : ∀ call ∈ calls, 1 ≤ call.1 ∧ call.1 ≤ MAX_VAL) (hfit : EntriesFit calls) :
    ∃ bit', updates bit calls = some bit' ∧ Fenwick MAX_VAL bit' (valueAt calls) := by
  induction calls using List.reverseRecOn with
  | nil => exact ⟨bit, rfl, fenwick_zero MAX_VAL fun i _ hi => hzero i hi⟩
  | append_singleton calls call ih =>
      obtain ⟨bit₁, hrun, htree⟩ :=
        ih (fun c hc => hindex c (List.mem_append_left _ hc)) hfit.of_append
      obtain ⟨index, val⟩ := call
      obtain ⟨hpos, -⟩ := hindex (index, val) (List.mem_append_right _ List.mem_cons_self)
      obtain ⟨n, rfl⟩ : ∃ n : ℕ, index = n := ⟨index.toNat, by omega⟩
      obtain ⟨bit', hupdate, htree'⟩ :=
        updateInt_ok htree (by omega) (fun c hc => (hindex c hc).1) hfit
      refine ⟨bit', ?_, htree'⟩
      rw [updates] at hrun ⊢
      rw [List.foldlM_append, hrun, Option.bind_eq_bind, Option.bind_some, List.foldlM_cons,
        hupdate]
      rfl

/-- After any calls of `update` on a zeroed array, a query returns the sum of the values up to
its index: no loop runs on, leaves the array or overflows. -/
theorem queryInt_exact (hzero : ∀ i ≤ MAX_VAL, bit i = 0)
    (hindex : ∀ call ∈ calls, 1 ≤ call.1 ∧ call.1 ≤ MAX_VAL) (hfit : SumsFit calls) :
    ∃ bit', updates bit calls = some bit' ∧ ∀ i : ℤ, 0 ≤ i → i ≤ MAX_VAL →
      queryInt bit' i = some ((calls.filter fun call => call.1 ≤ i).map Prod.snd).sum := by
  obtain ⟨bit', hrun, htree⟩ := updates_ok hzero hindex hfit.entries
  refine ⟨bit', hrun, fun i hi hle => ?_⟩
  obtain ⟨n, rfl⟩ := Int.eq_ofNat_of_zero_le hi
  have hn : n ≤ MAX_VAL := by omega
  have hpos : ∀ call ∈ calls, 1 ≤ call.1 := fun call hcall => (hindex call hcall).1
  have hsum : ∀ j, Descends n j → intResult (∑ x ∈ Finset.Ioc j n, valueAt calls x) =
      some (∑ x ∈ Finset.Ioc j n, valueAt calls x) := by
    intro j hj
    rw [sum_valueAt hpos]
    exact intResult_ok (hfit.queries n j hn hj)
  have hfilter : (calls.filter fun call => ((0 : ℕ) : ℤ) < call.1 ∧ call.1 ≤ (n : ℤ)) =
      calls.filter fun call => call.1 ≤ (n : ℤ) := by
    refine List.filter_congr fun call hcall => ?_
    have hcallpos := hpos call hcall
    rw [decide_eq_decide]
    omega
  rw [queryInt, queryWith_ok (fun _ => intResult_index) htree hn hsum, sum_valueAt hpos, sumOver,
    hfilter]

/-- Two values at one index, and the largest index. -/
theorem queryInt_exact_last :
    ∃ bit', updates (fun _ => 0) [(3, 5), (100000, -7), (3, 2)] = some bit' ∧
      ∀ i : ℤ, 0 ≤ i → i ≤ MAX_VAL → queryInt bit' i = some
        (([((3 : ℤ), (5 : ℤ)), (100000, -7), (3, 2)].filter fun call => call.1 ≤ i).map
          Prod.snd).sum :=
  queryInt_exact (fun _ _ => rfl) (by decide) (sumsFit_of_small (by decide))

end CreateSorted
end Leetcode
