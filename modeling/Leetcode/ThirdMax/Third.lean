import Leetcode.Lib.Loop
import Leetcode.ThirdMax.Order

/-!
# `thirdMax`

`findKthLargest` finds its way by the sizes alone, so it does not matter how balanced the
tree is.  The tree of `thirdMax` has each value of the array once, in order.
-/

namespace Leetcode
namespace ThirdMax

open CLib

/-- `findKthLargest` reads the sequence from its end. -/
theorem findKthLargest_ok {m : Mem Data} {par : Option Ref} {t : PtrTree Data} {fuel k : ℕ}
    (ht : m.Holds par t) (hsizes : t.Sized Data.size) (hfuel : t.height ≤ fuel)
    (hk : k < t.count) :
    findKthLargest m fuel t.ref (k + 1) = (t.inorderFrom Data.value .right)[k]? := by
  induction t generalizing par fuel k with
  | nil => exact absurd hk (Nat.not_lt_zero k)
  | node a d l r ihl ihr =>
      obtain ⟨ha, hl, hr⟩ := ht
      obtain ⟨-, hlsizes, hrsizes⟩ := hsizes
      simp only [PtrTree.height] at hfuel
      simp only [PtrTree.count] at hk
      obtain ⟨fuel, rfl⟩ : ∃ n, fuel = n + 1 := ⟨fuel - 1, by omega⟩
      have hsize : getSize m r.ref = r.count := by rw [getSize_of_holds hr, storedSize_eq hrsizes]
      rw [PtrTree.node_eq_nodeAt .right, PtrTree.ref_nodeAt, findKthLargest, ha]
      simp only [hsize, Side.pick, Side.flip]
      rcases Nat.lt_trichotomy k r.count with hlt | rfl | hgt
      · rw [if_neg (by omega), if_pos (by omega), getElem?_inorderFrom_first hlt]
        exact ihr hr hrsizes (by omega) hlt
      · rw [if_pos rfl, getElem?_inorderFrom_root]
      · obtain ⟨j, rfl⟩ : ∃ j, k = r.count + 1 + j := ⟨k - (r.count + 1), by omega⟩
        have hrest : ((r.count + 1 + j : ℕ) : ℤ) + 1 - r.count - 1 = (j : ℕ) + 1 := by
          omega
        rw [if_neg (by omega), if_neg (by omega), getElem?_inorderFrom_second, hrest]
        exact ihl hl hlsizes (by omega) (by omega)

/-- The loop of `thirdMax`: every value of the array is in the tree. -/
theorem insertAll_ok {h : Heap} {t : PtrTree Data} (hs : Shows h t) (ht : Ranked t)
    (nums : List Int) :
    ∃ h' t', nums.foldlM insertValue h = some h' ∧ Shows h' t' ∧ Ranked t' ∧
      ∀ x, x ∈ t'.inorder Data.value ↔ x ∈ nums ∨ x ∈ t.inorder Data.value := by
  let I : List Int → Heap → Prop := fun done h =>
    ∃ t', Shows h t' ∧ Ranked t' ∧
      ∀ x, x ∈ t'.inorder Data.value ↔ x ∈ done ∨ x ∈ t.inorder Data.value
  have hstep : ∀ done h val, val ∈ nums → I done h →
      ∃ h', insertValue h val = some h' ∧ I (done ++ [val]) h' := by
    rintro done h val - ⟨t₁, hs₁, ht₁, hmem⟩
    obtain ⟨h', hinsert, hs'⟩ := insertValue_ok hs₁ val
    refine ⟨h', hinsert, _, hs', insertTree_ranked ht₁ h.fresh val, fun x => ?_⟩
    rw [mem_insertTree, hmem, List.mem_append, List.mem_singleton]
    tauto
  obtain ⟨h', hrun, t', hs', ht', hmem⟩ :=
    foldlM_ok nums (show I [] h from ⟨t, hs, ht, by simp⟩) hstep
  exact ⟨h', t', hrun, hs', ht', hmem⟩

/-- What `thirdMax` finds in the tree: the third value from the end, or the last. -/
theorem thirdMax_eq {nums : List Int} (hne : nums ≠ []) :
    ∃ l : List Int, l.Pairwise (· > ·) ∧ l.toFinset = nums.toFinset ∧
      thirdMax nums = if l.length < 3 then l[0]? else l[2]? := by
  obtain ⟨h, t, hrun, hs, ht, hmem⟩ := insertAll_ok shows_init ranked_nil nums
  have hroot := hs.at_root.root_eq
  have hheight : t.height ≤ h.fresh :=
    (height_le_length_refs t).trans (hs.at_root.length_refs_le hs.fresh)
  refine ⟨t.inorderFrom Data.value .right, ?_, ?_, ?_⟩
  · exact List.pairwise_reverse.2 ht.sorted
  · ext x
    simp [PtrTree.inorderFrom, Side.pick, hmem, PtrTree.inorder]
  · cases t with
    | nil =>
        obtain ⟨x, hx⟩ := List.exists_mem_of_ne_nil nums hne
        simpa [PtrTree.inorder] using (hmem x).2 (Or.inl hx)
    | node a d l r =>
        rw [plug, PtrTree.ref] at hroot
        have hdata : (h.mem a).data = d := by rw [hs.at_root.tree.1]
        have hfind : ∀ k : ℕ, k < (PtrTree.node a d l r).count →
            findKthLargest h.mem h.fresh (some a) (k + 1) =
              ((PtrTree.node a d l r).inorderFrom Data.value .right)[k]? := fun k hk =>
          findKthLargest_ok hs.at_root.tree ht.sizes hheight hk
        rw [thirdMax, hrun, Option.bind_some, hroot, Option.bind_some, length_inorderFrom]
        simp only [hdata, show d.size = (PtrTree.node a d l r).count from ht.sizes.1]
        by_cases hfew : (PtrTree.node a d l r).count < 3
        · rw [if_pos hfew, if_pos hfew]
          exact hfind 0 (Nat.succ_pos _)
        · rw [if_neg hfew, if_neg hfew]
          exact hfind 2 (by omega)

/-- `thirdMax` returns the value with exactly two different larger ones if there are three
different values, and the largest value otherwise. -/
theorem thirdMax_exact (nums : List Int) (hne : nums ≠ []) :
    ∃ v ∈ nums, thirdMax nums = some v ∧
      (3 ≤ nums.toFinset.card → (nums.toFinset.filter (v < ·)).card = 2) ∧
      (nums.toFinset.card < 3 → ∀ x ∈ nums, x ≤ v) := by
  obtain ⟨l, hsorted, hset, heq⟩ := thirdMax_eq hne
  have hcard : l.length = nums.toFinset.card := by
    rw [← hset, List.toFinset_card_of_nodup (hsorted.imp ne_of_gt)]
  have hmem : ∀ x, x ∈ l ↔ x ∈ nums := by
    intro x
    rw [← List.mem_toFinset, hset, List.mem_toFinset]
  by_cases hfew : l.length < 3
  · obtain ⟨x, hx⟩ := List.exists_mem_of_ne_nil nums hne
    have hpos : 0 < l.length := List.length_pos_of_mem ((hmem x).2 hx)
    rw [if_pos hfew] at heq
    refine ⟨l[0], (hmem _).1 (List.getElem_mem hpos), ?_, fun h => absurd h (by omega), ?_⟩
    · rw [heq, List.getElem?_eq_getElem hpos]
    · intro _ x hx
      -- Nothing is larger than the first element.
      have hnone := card_filter_lt hsorted (List.getElem?_eq_getElem hpos)
      rw [Finset.card_eq_zero, Finset.filter_eq_empty_iff] at hnone
      exact not_lt.1 (hnone (List.mem_toFinset.2 ((hmem x).2 hx)))
  · have hthree : 2 < l.length := by omega
    rw [if_neg hfew] at heq
    refine ⟨l[2], (hmem _).1 (List.getElem_mem hthree), ?_, fun _ => ?_, fun h => ?_⟩
    · rw [heq, List.getElem?_eq_getElem hthree]
    · rw [← hset]
      exact card_filter_lt hsorted (List.getElem?_eq_getElem hthree)
    · omega

theorem thirdMax_exact_duplicates :
    ∃ v ∈ [2, 2, 3, 1], thirdMax [2, 2, 3, 1] = some v ∧
      (3 ≤ [2, 2, 3, 1].toFinset.card → ([2, 2, 3, 1].toFinset.filter (v < ·)).card = 2) ∧
      ([2, 2, 3, 1].toFinset.card < 3 → ∀ x ∈ [2, 2, 3, 1], x ≤ v) :=
  thirdMax_exact [2, 2, 3, 1] (by decide)

end ThirdMax
end Leetcode
