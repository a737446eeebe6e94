import Leetcode.MedianFinder.Insert

/-!
# `kthSmallest` and `medianFinderFindMedian`

The tree lists the numbers in order and has the right sizes, so `kthSmallest` finds every
rank.  The median of an even number of numbers is half of the sum of the two in the middle,
and that sum is formed in `int`: it is the median exactly when it fits there.  All of this is
about fewer than `2 ^ 31` numbers, as an `int` counts them.
-/

namespace Leetcode
namespace MedianFinder

open CLib

/-- `kthSmallest` reads the sequence from its start. -/
theorem kthSmallest_ok {m : Mem Data} {par : Option Ref} {t : PtrTree Data} {fuel k : ℕ}
    (ht : m.Holds par t) (hsizes : t.Sized Data.nodes) (hfuel : t.height ≤ fuel)
    (hk : k < t.count) :
    kthSmallest m fuel t.ref (k + 1) = (t.inorderFrom Data.val .left)[k]? := by
  induction t generalizing par fuel k with
  | nil => exact absurd hk (Nat.not_lt_zero k)
  | node a d l r ihl ihr =>
      obtain ⟨ha, hl, hr⟩ := ht
      obtain ⟨hd, hlsizes, hrsizes⟩ := hsizes
      simp only [PtrTree.height] at hfuel
      simp only [PtrTree.count] at hk
      obtain ⟨fuel, rfl⟩ : ∃ n, fuel = n + 1 := ⟨fuel - 1, by omega⟩
      have hsize : (nodeSize m l.ref).toInt = l.count := by
        rw [nodeSize_of_holds hl, storedSize_eq hlsizes]
      have hlt : (PtrTree.node a d l r).count < 2 ^ 31 := count_lt ⟨hd, hlsizes, hrsizes⟩
      simp only [PtrTree.count] at hlt
      rw [PtrTree.node_eq_nodeAt .left, PtrTree.ref_nodeAt, kthSmallest, ha]
      simp only [hsize, Side.pick, Side.flip]
      rw [intResult_ok ⟨by omega, by omega⟩, Option.bind_some]
      rcases Nat.lt_trichotomy k l.count with hlt | rfl | hgt
      · rw [if_neg (by omega), if_pos (by omega), getElem?_inorderFrom_first hlt]
        exact ihl hl hlsizes (by omega) hlt
      · rw [if_pos rfl, getElem?_inorderFrom_root]
      · obtain ⟨j, rfl⟩ : ∃ j, k = l.count + 1 + j := ⟨k - (l.count + 1), by omega⟩
        have hrest : ((l.count + 1 + j : ℕ) : ℤ) + 1 - l.count - 1 = (j : ℕ) + 1 := by omega
        rw [if_neg (by omega), if_neg (by omega), getElem?_inorderFrom_second,
          intResult_ok ⟨by omega, by omega⟩, Option.bind_some,
          intResult_ok ⟨by omega, by omega⟩, Option.bind_some, hrest]
        exact ihr hr hrsizes (by omega) (by omega)

/-- The numbers in order. -/
abbrev sorted (nums : List Int) : List Int := nums.insertionSort (· ≤ ·)

/-- The heap after the additions, for the rank queries. -/
theorem kthSmallest_run {nums : List Int} (hroom : nums.length < 2 ^ 31) :
    ∃ h, Run medianFinderAddNum (fun _ _ => True) medianFinderCreate nums h ∧
      (nodeSize h.mem h.root).toInt = nums.length ∧
      ∀ k : ℕ, k < nums.length →
        kthSmallest h.mem h.fresh h.root (k + 1) = (sorted nums)[k]? := by
  obtain ⟨h, t, hrun, hs, hperm⟩ := addNum_run shows_init nums ((Nat.zero_add _).trans_lt hroom)
  have hnums : (t.inorder Data.val).Perm nums := by simpa [PtrTree.inorder] using hperm
  have hseq : t.inorder Data.val = sorted nums :=
    (hnums.trans (List.perm_insertionSort _ nums).symm).eq_of_pairwise' hs.sorted
      (List.pairwise_insertionSort _ nums)
  have hcount : t.count = nums.length := by rw [← length_inorder Data.val, hnums.length_eq]
  have hroot : h.root = t.ref := hs.at_root.root_eq
  have hheight : t.height ≤ h.fresh :=
    (height_le_length_refs t).trans (hs.at_root.length_refs_le hs.fresh)
  refine ⟨h, hrun, ?_, fun k hk => ?_⟩
  · rw [hroot, nodeSize_of_holds hs.at_root.tree, storedSize_eq hs.sized, hcount]
  · rw [hroot, kthSmallest_ok hs.at_root.tree hs.sized hheight (hcount ▸ hk), ← hseq]
    rfl

/-- After any additions that an `int` can count, `kthSmallest` returns the `k`-th element of the
sorted list of the numbers, for every `k` that there is. -/
theorem kthSmallest_exact (nums : List Int) (hroom : nums.length < 2 ^ 31) :
    ∃ h, Run medianFinderAddNum (fun _ _ => True) medianFinderCreate nums h ∧
      ∀ k : ℕ, 1 ≤ k → k ≤ nums.length →
        ∃ v, kthSmallest h.mem h.fresh h.root k = some v ∧ (sorted nums)[k - 1]? = some v := by
  obtain ⟨h, hrun, -, hkth⟩ := kthSmallest_run hroom
  refine ⟨h, hrun, fun k hk hle => ?_⟩
  obtain ⟨j, rfl⟩ : ∃ j, k = j + 1 := ⟨k - 1, by omega⟩
  have hlen : j < (sorted nums).length := by
    rw [List.length_insertionSort]
    exact hle
  refine ⟨(sorted nums)[j], ?_, List.getElem?_eq_getElem hlen⟩
  rw [← List.getElem?_eq_getElem hlen]
  exact hkth j hle

theorem kthSmallest_exact_four :
    ∃ h, Run medianFinderAddNum (fun _ _ => True) medianFinderCreate [5, -3, 5, 8] h ∧
      ∀ k : ℕ, 1 ≤ k → k ≤ [5, -3, 5, 8].length →
        ∃ v, kthSmallest h.mem h.fresh h.root k = some v ∧
          (sorted [5, -3, 5, 8])[k - 1]? = some v :=
  kthSmallest_exact [5, -3, 5, 8] (by decide)

/-! ## The median -/

/-- The element of the sorted list at a position, counted from 0. -/
def nth (nums : List Int) (i : ℕ) : Int := (sorted nums).getD i 0

/-- The true median: the middle element, or the mean of the two in the middle. -/
def median (nums : List Int) : ℚ :=
  if nums.length % 2 = 1 then nth nums (nums.length / 2)
  else ((nth nums (nums.length / 2 - 1) : ℚ) + nth nums (nums.length / 2)) / 2

/-- There is one middle element, or the sum of the two is an `int`. -/
def MiddlesFit (nums : List Int) : Prop :=
  nums.length % 2 = 1 ∨
    FitsInt (nth nums (nums.length / 2 - 1) + nth nums (nums.length / 2))

/-- What `medianFinderFindMedian` computes. -/
theorem findMedian_run {nums : List Int} (hne : nums ≠ []) (hroom : nums.length < 2 ^ 31) :
    ∃ h, Run medianFinderAddNum (fun _ _ => True) medianFinderCreate nums h ∧
      medianFinderFindMedian h =
        if nums.length % 2 = 1 then some (nth nums (nums.length / 2) : ℚ)
        else (intResult (nth nums (nums.length / 2 - 1) + nth nums (nums.length / 2))).map
          fun sum : Int => (sum : ℚ) / 2 := by
  obtain ⟨h, hrun, hsize, hkth⟩ := kthSmallest_run hroom
  have hpos : 0 < nums.length := List.length_pos_of_ne_nil hne
  have hnth : ∀ k : ℕ, k < nums.length →
      kthSmallest h.mem h.fresh h.root (k + 1) = some (nth nums k) := by
    intro k hk
    have hlen : k < (sorted nums).length := by rwa [List.length_insertionSort]
    rw [hkth k hk, nth, List.getD_eq_getElem?_getD, List.getElem?_eq_getElem hlen,
      Option.getD_some]
  have hhalf : ((nums.length : ℕ) : ℤ).tdiv 2 = (nums.length / 2 : ℕ) := rfl
  have hparity : ((nums.length : ℕ) : ℤ).tmod 2 = (nums.length % 2 : ℕ) := rfl
  refine ⟨h, hrun, ?_⟩
  simp only [medianFinderFindMedian, hsize, hhalf, hparity]
  rw [intResult_ok ⟨by omega, by omega⟩, Option.bind_some]
  by_cases hodd : nums.length % 2 = 1
  · rw [if_pos (by omega), if_pos hodd, hnth _ (by omega), Option.map_some]
  · have hlow : ((nums.length / 2 : ℕ) : ℤ) = ((nums.length / 2 - 1 : ℕ) : ℤ) + 1 := by omega
    rw [if_neg (by omega), if_neg hodd, hnth _ (by omega), hlow, hnth _ (by omega)]
    rfl

/-- The median is exact if and only if there are fewer than `2 ^ 31` numbers, so that they can be
added at all, and the two middle elements can be added in `int`, where there are two. -/
theorem findMedian_exact_iff (nums : List Int) (hne : nums ≠ []) :
    (∃ h, Run medianFinderAddNum (fun _ _ => True) medianFinderCreate nums h ∧
        medianFinderFindMedian h = some (median nums)) ↔
      nums.length < 2 ^ 31 ∧ MiddlesFit nums := by
  have hruns := addNum_runs_iff shows_init nums
  rw [PtrTree.count, Nat.zero_add] at hruns
  by_cases hroom : nums.length < 2 ^ 31
  · obtain ⟨h, hrun, hmedian⟩ := findMedian_run hne hroom
    have hexact : medianFinderFindMedian h = some (median nums) ↔ MiddlesFit nums := by
      rw [hmedian, median, MiddlesFit]
      by_cases hodd : nums.length % 2 = 1
      · simp [hodd]
      · rw [if_neg hodd, if_neg hodd, intResult]
        split
        · next hfit => simp [hodd, hfit]
        · next hfit => simp [hodd, hfit]
    refine ⟨?_, fun hfit => ⟨h, hrun, hexact.2 hfit.2⟩⟩
    rintro ⟨h', hrun', hmedian'⟩
    obtain rfl := hrun.end_unique hrun'
    exact ⟨hroom, hexact.1 hmedian'⟩
  · refine ⟨?_, fun hfit => absurd hfit.1 hroom⟩
    rintro ⟨h, hrun, -⟩
    exact absurd (hruns.1 ⟨h, hrun⟩) hroom

theorem findMedian_exact_iff_two :
    (∃ h, Run medianFinderAddNum (fun _ _ => True) medianFinderCreate [7, -2] h ∧
        medianFinderFindMedian h = some (median [7, -2])) ↔
      [7, -2].length < 2 ^ 31 ∧ MiddlesFit [7, -2] :=
  findMedian_exact_iff [7, -2] (by decide)

/-- The sum of the two middle elements is `2 ^ 32 - 2`. -/
theorem findMedian_overflow :
    ¬∀ nums : List Int, nums ≠ [] → (∀ x ∈ nums, FitsInt x) →
      ∀ h, Run medianFinderAddNum (fun _ _ => True) medianFinderCreate nums h →
        medianFinderFindMedian h = some (median nums) := by
  intro hall
  have hne : [(2147483647 : Int), 2147483647] ≠ [] := by decide
  obtain ⟨h, hrun, hmedian⟩ := findMedian_run hne (by decide)
  have hexact := hall _ hne (by decide) h hrun
  rw [hmedian] at hexact
  exact absurd (congrArg Option.isSome hexact) (by decide)

end MedianFinder
end Leetcode
