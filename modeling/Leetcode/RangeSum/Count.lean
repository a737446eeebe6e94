import Leetcode.RangeSum.Merge

/-!
# `mergeCount` and what it returns to `countRangeSum`

Every call sorts its part of the array and counts the pairs in it.  The only thing that can go
wrong is the sum of the two bounds, an `int`: the last call that is cut in two is the one for the
last two entries, so the array must have at most `2 ^ 30` of them.

* `mergeCount_ok`, `mergeCount_overflow` — a call, with and without an overflow further down.
* `countRangeSum_exact_iff` — the count is right, and the calls sort, for arrays of fewer than
  `2 ^ 30` numbers and no others.
-/

namespace Leetcode
namespace RangeSum

open CLib

/-- Two values whose difference does not overflow. -/
def Small (x : ℤ) : Prop := -2 ^ 62 ≤ x ∧ x < 2 ^ 62

theorem longResult_sub {x y : ℤ} (hx : Small x) (hy : Small y) :
    longResult (y - x) = some (y - x) := by
  obtain ⟨hx, hx'⟩ := hx
  obtain ⟨hy, hy'⟩ := hy
  exact longResult_ok (by omega) (by omega)

/-! ## A call -/

/-- No call below this one adds bounds beyond the range of `int`. -/
def Room (left right : ℕ) : Prop := right - left ≤ 1 ∨ 2 * right ≤ 2 ^ 31 + 1

theorem bounds_add {left right : ℕ} (h : left + right < 2 ^ 31) :
    intResult (left + right) = some ((left : ℤ) + right) :=
  intResult_ok ⟨by omega, by omega⟩

/-- What a call leaves: the pairs of its part are counted, and that part is sorted. -/
def Sorts (lower upper : ℤ) (pre seg post : List ℤ) (result : Option (ℤ × List ℤ)) : Prop :=
  ∃ M : List ℤ, result = some ((pairs (inRange lower upper) seg : ℤ), pre ++ (M ++ post)) ∧
    M.Perm seg ∧ M.Pairwise (· ≤ ·)

theorem mergeCount_short (lower upper : ℤ) (fuel : ℕ) (pre seg post : List ℤ)
    (hshort : seg.length ≤ 1) :
    Sorts lower upper pre seg post (mergeCount lower upper (fuel + 1) (pre ++ (seg ++ post))
      pre.length (pre.length + seg.length)) := by
  refine ⟨seg, ?_, .refl _, ?_⟩
  · have hpairs : pairs (inRange lower upper) seg = 0 := by
      match seg with
      | [] => rfl
      | [x] => rfl
    rw [mergeCount, if_pos (by omega), hpairs]
    rfl
  · match seg with
    | [] => exact .nil
    | [x] => exact List.pairwise_singleton _ _

theorem mergeCount_ok {lower upper : ℤ} (hbounds : lower ≤ upper) (fuel : ℕ)
    (pre seg post : List ℤ) (hfuel : seg.length ≤ fuel + 1) (hsmall : ∀ x ∈ seg, Small x)
    (hroom : Room pre.length (pre.length + seg.length)) :
    Sorts lower upper pre seg post (mergeCount lower upper (fuel + 1) (pre ++ (seg ++ post))
      pre.length (pre.length + seg.length)) := by
  unfold Room at hroom
  induction fuel generalizing pre seg post with
  | zero => exact mergeCount_short lower upper 0 pre seg post hfuel
  | succ fuel ih =>
      by_cases hshort : seg.length ≤ 1
      · exact mergeCount_short lower upper _ pre seg post hshort
      -- The two halves, which the calls replace by sorted ones.
      obtain ⟨A, B, rfl, hA⟩ : ∃ A B, seg = A ++ B ∧ A.length = seg.length / 2 := by
        refine ⟨seg.take (seg.length / 2), seg.drop (seg.length / 2), ?_, ?_⟩
        · exact (List.take_append_drop _ _).symm
        · rw [List.length_take]
          omega
      rw [List.length_append] at hA hfuel hroom hshort
      obtain ⟨A', hfirst, hAperm, hAsorted⟩ := ih pre A (B ++ post) (by omega)
        (fun x hx => hsmall x (List.mem_append_left _ hx)) (by omega)
      obtain ⟨B', hsecond, hBperm, hBsorted⟩ := ih (pre ++ A') B post (by omega)
        (fun x hx => hsmall x (List.mem_append_right _ hx)) (by
          rw [List.length_append, hAperm.length_eq]
          omega)
      have hfit : ∀ x ∈ A', ∀ y ∈ B', longResult (y - x) = some (y - x) := fun x hx y hy =>
        longResult_sub (hsmall x (List.mem_append_left _ (hAperm.mem_iff.1 hx)))
          (hsmall y (List.mem_append_right _ (hBperm.mem_iff.1 hy)))
      obtain ⟨M, hmerge, hperm, hsorted⟩ := merge_ok hbounds pre A' B' post hfit hAsorted hBsorted
      rw [List.length_append, List.append_assoc, List.append_assoc, hAperm.length_eq] at hsecond
      rw [hAperm.length_eq, hBperm.length_eq] at hmerge
      refine ⟨M, ?_, hperm.trans (hAperm.append hBperm), hsorted⟩
      have hmid : ((pre.length : ℤ) + (pre.length + (A ++ B).length : ℕ)).toNat / 2 =
          pre.length + A.length := by
        rw [List.length_append]
        omega
      rw [mergeCount, if_neg (by rw [List.length_append]; omega),
        bounds_add (by rw [List.length_append]; omega), Option.bind_some]
      simp only [hmid]
      rw [List.append_assoc, hfirst, Option.bind_some, List.length_append, ← Nat.add_assoc,
        hsecond, Option.bind_some, hmerge, Option.map_some, pairs_append,
        cross_perm _ hAperm hBperm]
      simp only [Int.natCast_add]

/-- A call for at least two entries beyond the `2 ^ 30`th. -/
theorem mergeCount_overflow (lower upper : ℤ) (fuel : ℕ) (sums : List ℤ) {left right : ℕ}
    (hroom : ¬Room left right) : mergeCount lower upper fuel sums left right = none := by
  unfold Room at hroom
  induction fuel generalizing sums left right with
  | zero => rfl
  | succ fuel ih =>
      rw [mergeCount, if_neg (by omega)]
      by_cases hsum : left + right < 2 ^ 31
      · rw [bounds_add hsum, Option.bind_some]
        simp only []
        cases mergeCount lower upper fuel sums left (((left : ℤ) + right).toNat / 2) with
        | none => rfl
        | some first =>
            have hroom' : ¬(right - ((left : ℤ) + right).toNat / 2 ≤ 1 ∨
                2 * right ≤ 2 ^ 31 + 1) := by
              omega
            rw [Option.bind_some, ih first.2 hroom']
            rfl
      · have hover : intResult (left + right) = none := if_neg fun h => by
          have hhigh := h.2
          omega
        rw [hover]
        rfl

/-! ## The prefix sums -/

/-- `S[j]`: the sum of the first `j` numbers. -/
def sumTo (nums : List ℤ) (j : ℕ) : ℤ := (nums.take j).sum

/-- The sums do not overflow, as there are fewer than `2 ^ 31` numbers. -/
theorem prefixSums_ok {nums : List ℤ} (hint : ∀ x ∈ nums, FitsInt x) (sum : ℤ) (k : ℕ)
    (hlow : -2 ^ 31 * (k : ℤ) ≤ sum) (hhigh : sum ≤ 2 ^ 31 * (k : ℤ))
    (hlen : k + nums.length ≤ 2 ^ 31) :
    prefixSums sum nums =
      some ((List.range (nums.length + 1)).map fun j => sum + sumTo nums j) := by
  induction nums generalizing sum k with
  | nil => simp [prefixSums, sumTo]
  | cons x nums ih =>
      obtain ⟨⟨hx, hx'⟩, hint⟩ := List.forall_mem_cons.1 hint
      rw [List.length_cons] at hlen
      have hlong : longResult (sum + x) = some (sum + x) :=
        longResult_ok (by omega) (by omega)
      have hnext := ih hint (sum + x) (k + 1) (by omega) (by omega) (by omega)
      have htail : (fun j => sum + sumTo (x :: nums) j) ∘ Nat.succ =
          fun j => sum + x + sumTo nums j := by
        funext j
        simp [sumTo, Int.add_assoc]
      rw [prefixSums, hlong, Option.bind_some, hnext, Option.map_some, List.length_cons,
        List.range_succ_eq_map (n := nums.length + 1), List.map_cons, List.map_map, htail]
      simp [sumTo]

theorem small_sumTo {nums : List ℤ} (hint : ∀ x ∈ nums, FitsInt x) (hlen : nums.length < 2 ^ 30)
    (j : ℕ) : Small (sumTo nums j) := by
  have hbound : ∀ l : List ℤ, (∀ x ∈ l, FitsInt x) →
      -2 ^ 31 * (l.length : ℤ) ≤ l.sum ∧ l.sum ≤ 2 ^ 31 * (l.length : ℤ) := by
    intro l hl
    induction l with
    | nil => simp
    | cons x l ih =>
        obtain ⟨⟨hx, hx'⟩, hl⟩ := List.forall_mem_cons.1 hl
        obtain ⟨hlow, hhigh⟩ := ih hl
        rw [List.sum_cons, List.length_cons]
        constructor <;> omega
  obtain ⟨hlow, hhigh⟩ := hbound (nums.take j) fun x hx => hint x (List.mem_of_mem_take hx)
  have hle : (nums.take j).length ≤ nums.length := by simp
  unfold Small sumTo
  omega

/-! ## The count -/

/-- The number of pairs of indices whose prefix sums differ by something in the range. -/
def rangePairs (nums : List ℤ) (lower upper : ℤ) : ℕ :=
  ((Finset.range (nums.length + 1) ×ˢ Finset.range (nums.length + 1)).filter fun p =>
    p.1 < p.2 ∧ lower ≤ sumTo nums p.2 - sumTo nums p.1 ∧
      sumTo nums p.2 - sumTo nums p.1 ≤ upper).card

/-- The prefix sums in order. -/
def sumList (nums : List ℤ) : List ℤ := (List.range (nums.length + 1)).map (sumTo nums)

theorem rangePairs_eq (nums : List ℤ) (lower upper : ℤ) :
    pairs (inRange lower upper) (sumList nums) = rangePairs nums lower upper := by
  rw [sumList, pairs_map_range, pairSet, rangePairs]
  simp only [inRange, Bool.and_eq_true, decide_eq_true_eq]

/-- The value that `mergeCount` returns is right, and whatever the calls have made of the prefix
sums so far, each call sorts its part and leaves the rest alone. -/
structure ExactCount (nums : List ℤ) (lower upper : ℤ) : Prop where
  value : answer nums lower upper = some (rangePairs nums lower upper : ℤ)
  calls : ∀ sums : List ℤ, sums.Perm (sumList nums) → ∀ left right fuel : ℕ, left ≤ right →
    right ≤ sums.length → right - left ≤ fuel → 0 < fuel →
      ∃ (count : ℤ) (M : List ℤ), mergeCount lower upper fuel sums left right =
          some (count, sums.take left ++ (M ++ sums.drop right)) ∧
        M.Perm ((sums.take right).drop left) ∧ M.Pairwise (· ≤ ·)

theorem answer_eq {nums : List ℤ} (hint : ∀ x ∈ nums, FitsInt x) (lower upper : ℤ)
    (hlen : nums.length + 1 < 2 ^ 31) :
    answer nums lower upper =
      (mergeCount lower upper (nums.length + 1) (sumList nums) 0 (nums.length + 1)).map
        Prod.fst := by
  have hsize : intResult (nums.length + 1) = some ((nums.length : ℤ) + 1) :=
    intResult_ok ⟨by omega, by omega⟩
  have hsums := prefixSums_ok hint 0 0 (by simp) (by simp) (by omega)
  simp only [Int.zero_add] at hsums
  have hnat : ((nums.length : ℤ) + 1).toNat = nums.length + 1 := by omega
  rw [answer, hsize, Option.bind_some, hsums, Option.bind_some, hnat]
  rfl

/-- Each call, on what earlier calls have left. -/
theorem call_sorts {nums sums : List ℤ} (hint : ∀ x ∈ nums, FitsInt x) {lower upper : ℤ}
    (hbounds : lower ≤ upper) (hlen : nums.length < 2 ^ 30) (hperm : sums.Perm (sumList nums))
    {left right fuel : ℕ} (hle : left ≤ right) (hright : right ≤ sums.length)
    (hfuel : right - left ≤ fuel) (hpos : 0 < fuel) :
    Sorts lower upper (sums.take left) ((sums.take right).drop left) (sums.drop right)
      (mergeCount lower upper fuel sums left right) := by
  obtain ⟨fuel, rfl⟩ : ∃ n, fuel = n + 1 := ⟨fuel - 1, by omega⟩
  have hsize : sums.length = nums.length + 1 := by simp [hperm.length_eq, sumList]
  have hpre : (sums.take left).length = left := by
    rw [List.length_take]
    omega
  have hseg : ((sums.take right).drop left).length = right - left := by
    rw [List.length_drop, List.length_take]
    omega
  have hsmall : ∀ x ∈ (sums.take right).drop left, Small x := by
    intro x hx
    have hmem := hperm.mem_iff.1 (List.mem_of_mem_take (List.mem_of_mem_drop hx))
    obtain ⟨j, -, rfl⟩ := List.mem_map.1 hmem
    exact small_sumTo hint hlen j
  have hroom : Room (sums.take left).length
      ((sums.take left).length + ((sums.take right).drop left).length) := by
    rw [hpre, hseg]
    exact Or.inr (by omega)
  have hok := mergeCount_ok hbounds fuel (sums.take left) ((sums.take right).drop left)
    (sums.drop right) (by omega) hsmall hroom
  have harray : sums.take left ++ ((sums.take right).drop left ++ sums.drop right) = sums := by
    have hfront : (sums.take right).take left = sums.take left := by
      rw [List.take_take, min_eq_left hle]
    rw [← List.append_assoc, ← hfront, List.take_append_drop, List.take_append_drop]
  rw [harray, hpre, hseg, Nat.add_sub_cancel' hle] at hok
  exact hok

theorem exactCount_of_short {nums : List ℤ} (hint : ∀ x ∈ nums, FitsInt x) {lower upper : ℤ}
    (hbounds : lower ≤ upper) (hlen : nums.length < 2 ^ 30) : ExactCount nums lower upper where
  value := by
    have hsize : (sumList nums).length = nums.length + 1 := by simp [sumList]
    have hfuel : nums.length + 1 - 0 ≤ nums.length + 1 := Nat.sub_le _ _
    obtain ⟨M, hvalue, -, -⟩ := call_sorts hint hbounds hlen (.refl (sumList nums))
      (Nat.zero_le _) hsize.ge hfuel (Nat.succ_pos _)
    rw [answer_eq hint lower upper (by omega), hvalue, Option.map_some, List.drop_zero,
      ← hsize, List.take_length, rangePairs_eq]
  calls sums hperm left right fuel hle hright hfuel hpos := by
    obtain ⟨M, hvalue, hM, hsorted⟩ := call_sorts hint hbounds hlen hperm hle hright hfuel hpos
    exact ⟨_, M, hvalue, hM, hsorted⟩

/-- With `2 ^ 30` numbers or more, one of the calls overflows. -/
theorem answer_overflow {nums : List ℤ} (lower upper : ℤ) (hlen : 2 ^ 30 ≤ nums.length) :
    answer nums lower upper = none := by
  rw [answer, intResult]
  split
  · rw [Option.bind_some]
    cases prefixSums 0 nums with
    | none => rfl
    | some sums =>
        have hroom : ¬Room 0 ((nums.length : ℤ) + 1).toNat := by
          unfold Room
          omega
        rw [Option.bind_some, mergeCount_overflow _ _ _ _ hroom]
        rfl
  · rfl

/-- The count is exact, and every call sorts its part, if and only if there are fewer than `2 ^ 30`
numbers. -/
theorem countRangeSum_exact_iff (nums : List ℤ) (lower upper : ℤ) (hint : ∀ x ∈ nums, FitsInt x)
    (hbounds : lower ≤ upper) : ExactCount nums lower upper ↔ nums.length < 2 ^ 30 := by
  constructor
  · intro hexact
    by_contra hlen
    have hvalue := hexact.value
    rw [answer_overflow lower upper (not_lt.1 hlen)] at hvalue
    cases hvalue
  · exact exactCount_of_short hint hbounds

theorem countRangeSum_exact_iff_three :
    ExactCount [-2, 5, -1] (-2) 2 ↔ [(-2 : ℤ), 5, -1].length < 2 ^ 30 :=
  countRangeSum_exact_iff [-2, 5, -1] (-2) 2 (by simp [FitsInt]) (by decide)

/-- `2 ^ 30` zeros. -/
theorem countRangeSum_overflow :
    ¬∀ (nums : List ℤ) (lower upper : ℤ), nums.length < 2 ^ 31 → (∀ x ∈ nums, FitsInt x) →
      FitsInt lower → FitsInt upper → lower ≤ upper → ExactCount nums lower upper := by
  intro hall
  have hlen : (List.replicate (2 ^ 30) (0 : ℤ)).length = 2 ^ 30 := List.length_replicate
  have hzero : FitsInt 0 := ⟨by decide, by decide⟩
  have hint : ∀ x ∈ List.replicate (2 ^ 30) (0 : ℤ), FitsInt x := by
    intro x hx
    rw [List.eq_of_mem_replicate hx]
    exact hzero
  have hexact := hall (List.replicate (2 ^ 30) 0) 0 0 (by rw [hlen]; decide) hint hzero hzero le_rfl
  have hvalue := hexact.value
  rw [answer_overflow 0 0 hlen.ge] at hvalue
  cases hvalue

end RangeSum
end Leetcode
