import Mathlib.Data.Int.Order.Lemmas
import Leetcode.Duplicates.Model
import Leetcode.Lib.CInt

/-!
# When duplicates are found

`cmp` wraps, so it orders the values of an array only if they are close to each other:
`HalfRange` says that they are among `2 ^ 31` consecutive `int`s, where `INT_MIN` comes behind
`INT_MAX`.  For other arrays `qsort` promises nothing.

* `consistent_iff` — `cmp` orders the values of an array if and only if they are in such a range.
* `scan_ok` — the loop looks for equal neighbours.
* `containsDuplicate_right_iff` — for which arrays the result is right with every `qsort`.
-/

namespace Leetcode
namespace Duplicates

open CLib

/-- Two positions have the same value. -/
def TwoEqual (nums : List Int32) : Prop :=
  ∃ i j : Fin nums.length, i < j ∧ nums.get i = nums.get j

instance (nums : List Int32) : Decidable (TwoEqual nums) :=
  inferInstanceAs (Decidable (∃ _ _, _))

/-- The result says whether there are two equal values. -/
def Right (qsort : Qsort Int32) (nums : List Int32) : Prop :=
  ∃ found sorted, containsDuplicate qsort nums = some (found, sorted) ∧
    (found = true ↔ TwoEqual nums)

/-- `cmp` is antisymmetric and transitive on the values, and zero only for equal ones. -/
def CmpOrders (nums : List Int32) : Prop :=
  Consistent (fun a b => (cmp a b).toInt) nums ∧
    ∀ a ∈ nums, ∀ b ∈ nums, (cmp a b).toInt = 0 → a = b

/-- No value, counted from `c` on, is behind the first `2 ^ 31` ones. -/
def HalfRange (nums : List Int32) : Prop := ∃ c : Int32, ∀ x ∈ nums, 0 ≤ x - c

variable {nums l : List Int32} {a b c x y : Int32}

theorem twoEqual_iff : TwoEqual nums ↔ ¬nums.Nodup := by
  rw [List.Nodup, List.pairwise_iff_get]
  simp [TwoEqual]

/-! ## The comparator -/

theorem cmp_eq_zero (h : (cmp a b).toInt = 0) : a = b := by
  have hzero : a - b = 0 := Int32.toInt_inj.1 h
  grind

/-- Counted from `c`, the subtraction does not wrap. -/
theorem toInt_cmp (hx : 0 ≤ x - c) (hy : 0 ≤ y - c) :
    (cmp x y).toInt = (x - c).toInt - (y - c).toInt := by
  have hsub : x - y = (x - c) - (y - c) := by grind
  have hx' := Int32.le_iff_toInt_le.1 hx
  have hy' := Int32.le_iff_toInt_le.1 hy
  have hxlt := (x - c).toInt_lt
  have hylt := (y - c).toInt_lt
  rw [Int32.toInt_zero] at hx' hy'
  rw [cmp, hsub, Int32.toInt_sub]
  exact Int.bmod_eq_of_le (by omega) (by omega)

theorem consistent_iff :
    Consistent (fun a b => (cmp a b).toInt) nums ↔ HalfRange nums := by
  constructor
  · intro h
    by_cases hne : nums = []
    · exact ⟨0, by simp [hne]⟩
    · obtain ⟨c, hc, hleast⟩ := exists_least h hne
      refine ⟨c, fun x hx => Int32.le_iff_toInt_le.2 ?_⟩
      have hle := hleast x hx
      have hswap := h.antisymm c hc x hx
      rw [Int32.toInt_zero]
      show 0 ≤ (cmp x c).toInt
      rcases Int.lt_or_eq_of_le hle with hlt | heq
      · exact Int.le_of_lt (hswap.1 hlt)
      · rw [cmp_eq_zero heq]
        simp [cmp]
  · rintro ⟨c, hc⟩
    exact .of_sub (fun x => (x - c).toInt) fun x hx y hy => toInt_cmp (hc x hx) (hc y hy)

/-- Values whose differences do not overflow. -/
theorem halfRange_of_fits
    (h : ∀ x ∈ nums, ∀ y ∈ nums, FitsInt (x.toInt - y.toInt)) : HalfRange nums := by
  refine consistent_iff.1 (.of_sub Int32.toInt fun x hx y hy => ?_)
  obtain ⟨hlow, hhigh⟩ := h x hx y hy
  rw [cmp, Int32.toInt_sub]
  exact Int.bmod_eq_of_le (by omega) (by omega)

/-! ## The loop -/

theorem scan_ok (l : List Int32) {rounds i : ℕ} (h : i + 1 + rounds = l.length) :
    ∃ found, scan l rounds (i + 1) = some found ∧
      (found = true ↔ ¬(l.drop i).IsChain (· ≠ ·)) := by
  induction rounds generalizing i with
  | zero =>
      have hlast : l.drop i = [l[i]] := by
        rw [List.drop_eq_getElem_cons (by omega), List.drop_eq_nil_of_le (by omega)]
      exact ⟨false, rfl, by simp [hlast]⟩
  | succ rounds ih =>
      have hi : i < l.length := by omega
      have hi' : i + 1 < l.length := by omega
      have hprev : ((i + 1 : ℕ) : ℤ) - 1 = (i : ℕ) := by omega
      have hdrop : l.drop i = l[i] :: l[i + 1] :: l.drop (i + 2) := by
        rw [List.drop_eq_getElem_cons hi, List.drop_eq_getElem_cons hi']
      have hrest : l.drop (i + 1) = l[i + 1] :: l.drop (i + 2) := List.drop_eq_getElem_cons hi'
      rw [scan, load_natCast, List.getElem?_eq_getElem hi', Option.bind_some, hprev, load_natCast,
        List.getElem?_eq_getElem hi, Option.bind_some, hdrop, List.isChain_cons_cons, ← hrest]
      by_cases heq : l[i + 1] = l[i]
      · rw [if_pos heq]
        exact ⟨true, rfl, by simp [heq]⟩
      · obtain ⟨found, hscan, hfound⟩ := ih (i := i + 1) (by omega)
        refine ⟨found, by rw [if_neg heq, hscan], hfound.trans ?_⟩
        rw [and_iff_right (Ne.symm heq)]

/-- The result for an array that is rearranged into `l`. -/
theorem containsDuplicate_scan (qsort : Qsort Int32) (hlength : ¬nums.length ≤ 1) :
    ∃ found, containsDuplicate qsort nums =
        some (found, (qsort (fun a b => (cmp a b).toInt) nums).1) ∧
      (found = true ↔ ¬(qsort (fun a b => (cmp a b).toInt) nums).1.IsChain (· ≠ ·)) := by
  have hsame := (qsort (fun a b => (cmp a b).toInt) nums).2
  have hrounds : 0 + 1 + (nums.length - 1) =
      (qsort (fun a b => (cmp a b).toInt) nums).1.length := by
    omega
  obtain ⟨found, hscan, hfound⟩ := scan_ok _ hrounds
  refine ⟨found, ?_, hfound⟩
  rw [containsDuplicate, if_neg hlength]
  simp only [hscan, Option.map_some]

/-! ## Right and wrong results -/

theorem right_of_halfRange (h : HalfRange nums) {qsort : Qsort Int32} (hsorts : Sorts qsort) :
    Right qsort nums := by
  by_cases hlength : nums.length ≤ 1
  · refine ⟨false, nums, if_pos hlength, ?_⟩
    rw [twoEqual_iff]
    have hnodup : nums.Nodup := by
      match nums, hlength with
      | [], _ => exact List.nodup_nil
      | [a], _ => exact List.nodup_singleton a
    simp [hnodup]
  · obtain ⟨found, hresult, hfound⟩ := containsDuplicate_scan qsort hlength
    have hconsistent := consistent_iff.2 h
    obtain ⟨hperm, hsorted⟩ := hsorts _ nums hconsistent
    refine ⟨found, _, hresult, ?_⟩
    rw [hfound, twoEqual_iff, ← hperm.nodup_iff, isChain_iff_nodup
      (hconsistent.subset hperm.subset) (fun a b => cmp_eq_zero) hsorted]

/-- An array that is arranged the wrong way: with equal neighbours just when there are no two equal
values. -/
def misarranged (nums : List Int32) : { sorted : List Int32 // sorted.length = nums.length } :=
  if TwoEqual nums then
    ⟨(List.range nums.length).map fun i => if i % 2 = 0 then 0 else 1, by simp⟩
  else ⟨List.replicate nums.length 0, List.length_replicate⟩

theorem misarranged_isChain (hlength : ¬nums.length ≤ 1) :
    (misarranged nums).1.IsChain (· ≠ ·) ↔ TwoEqual nums := by
  rw [misarranged]
  by_cases htwo : TwoEqual nums
  · rw [if_pos htwo]
    refine iff_of_true (List.isChain_iff_getElem.2 fun i hi => ?_) htwo
    simp only [List.getElem_map, List.getElem_range]
    rcases Nat.mod_two_eq_zero_or_one i with heven | hodd
    · rw [if_pos heven, if_neg (by omega)]
      decide
    · rw [if_neg (by omega), if_pos (by omega)]
      decide
  · rw [if_neg htwo]
    refine iff_of_false (fun hchain => ?_) htwo
    obtain ⟨n, hn⟩ : ∃ n, nums.length = n + 2 := ⟨nums.length - 2, by omega⟩
    simp only [hn, List.replicate_succ] at hchain
    exact (List.isChain_cons_cons.1 hchain).1 rfl

theorem wrong_of_not_halfRange (h : ¬HalfRange nums) :
    ∃ qsort, Sorts qsort ∧ ¬Right qsort nums := by
  have hlength : ¬nums.length ≤ 1 := by
    intro hle
    apply h
    match nums, hle with
    | [], _ => exact ⟨0, by simp⟩
    | [a], _ => exact ⟨a, by simp⟩
  refine ⟨unlessConsistent misarranged, unless_sorts misarranged, ?_⟩
  rintro ⟨found, sorted, hresult, hright⟩
  obtain ⟨found', hresult', hfound⟩ := containsDuplicate_scan (unlessConsistent misarranged) hlength
  have hother : unlessConsistent misarranged (fun a b => (cmp a b).toInt) nums = misarranged nums :=
    if_neg fun hconsistent => h (consistent_iff.1 hconsistent)
  rw [hother, misarranged_isChain hlength] at hfound
  rw [hresult] at hresult'
  obtain rfl : found = found' := congrArg Prod.fst (Option.some.inj hresult')
  exact iff_not_self (hright.symm.trans hfound)

/-- `containsDuplicate` is right with every `qsort`, and `cmp` is an order on the array, if and only
if the values are in half of the range of `int`, counted around its end. -/
theorem containsDuplicate_right_iff (nums : List Int32) :
    ((∀ qsort, Sorts qsort → Right qsort nums) ↔ HalfRange nums) ∧
      (CmpOrders nums ↔ HalfRange nums) := by
  refine ⟨⟨fun hright => ?_, fun h qsort => right_of_halfRange h⟩, ?_⟩
  · by_contra h
    obtain ⟨qsort, hsorts, hwrong⟩ := wrong_of_not_halfRange h
    exact hwrong (hright qsort hsorts)
  · rw [CmpOrders, consistent_iff, and_iff_left]
    exact fun a _ b _ => cmp_eq_zero

/-- Merge sort leaves `INT_MIN` between two zeros, as `cmp` says that it is less than `0` and that
`0` is less than it. -/
theorem containsDuplicate_wraps :
    Sorts (mergeQsort : Qsort Int32) ∧
      containsDuplicate mergeQsort [0, Int32.minValue, 0] =
        some (false, [0, Int32.minValue, 0]) ∧
      TwoEqual [0, Int32.minValue, 0] ∧ cmp 0 Int32.minValue < 0 ∧ cmp Int32.minValue 0 < 0 := by
  refine ⟨mergeQsort_sorts, ?_, by decide, by decide, by decide⟩
  have hsorted : (mergeQsort (fun a b => (cmp a b).toInt) [0, Int32.minValue, 0]).1 =
      [0, Int32.minValue, 0] := by
    simp [mergeQsort, List.mergeSort, List.MergeSort.Internal.splitInTwo, cmp]
  rw [containsDuplicate, if_neg (by decide)]
  simp only [hsorted]
  decide

end Duplicates
end Leetcode
