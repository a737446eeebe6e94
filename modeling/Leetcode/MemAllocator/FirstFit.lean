import Mathlib.Order.Bounds.Basic
import Leetcode.MemAllocator.Model

/-!
# First fit

`allocatorAllocate` counts the free cells behind the last one in use.  In front of a cell
`i` no block that ends there or earlier is free (`Scanned`), so the first block that the loop
meets is the leftmost one (`findStart_least`, `allocate_cases`).
-/

namespace Leetcode
namespace MemAllocator

/-- The cells from `s` on are inside the array and free. -/
def FreeAt (obj : Allocator) (size s : ℤ) : Prop :=
  0 ≤ s ∧ s + size ≤ obj.size ∧ ∀ j, s ≤ j → j < s + size → obj.memory j = 0

/-- What the loop knows in front of the cell `i`: the `count` cells before it are the longest
free run that ends there, which is too short, and there is no free block further left. -/
structure Scanned (memory : ℤ → ℤ) (size i count : ℤ) : Prop where
  nonneg : 0 ≤ count
  inside : count ≤ i
  short : count < size
  free : ∀ j, i - count ≤ j → j < i → memory j = 0
  longest : count < i → memory (i - count - 1) ≠ 0
  missed : ∀ s, 0 ≤ s → s + size ≤ i → ∃ j, s ≤ j ∧ j < s + size ∧ memory j ≠ 0

variable {memory : ℤ → ℤ} {size i count : ℤ}

theorem scanned_init (hsize : 1 ≤ size) : Scanned memory size 0 0 where
  nonneg := le_rfl
  inside := le_rfl
  short := by omega
  free j hj hji := by omega
  longest h := absurd h (lt_irrefl 0)
  missed s hs hend := by omega

/-- A cell in use ends the run. -/
theorem scanned_used (h : Scanned memory size i count) (hi : memory i ≠ 0) :
    Scanned memory size (i + 1) 0 where
  nonneg := le_rfl
  inside := by
    have hinside := h.nonneg.trans h.inside
    omega
  short := h.nonneg.trans_lt h.short
  free j hj hji := by omega
  longest _ := by rwa [Int.sub_zero, Int.add_sub_cancel]
  missed s hs hend := by
    have hshort := h.nonneg.trans_lt h.short
    by_cases hlast : s + size ≤ i
    · exact h.missed s hs hlast
    · exact ⟨i, by omega, by omega, hi⟩

/-- A free cell makes the run longer. -/
theorem scanned_free (h : Scanned memory size i count) (hi : memory i = 0)
    (hne : count + 1 ≠ size) : Scanned memory size (i + 1) (count + 1) where
  nonneg := Int.le_add_one h.nonneg
  inside := Int.add_le_add_right h.inside 1
  short := by
    have hshort := h.short
    omega
  free j hj hji := by
    by_cases hji : j = i
    · rw [hji, hi]
    · exact h.free j (by omega) (by omega)
  longest hlt := by
    have hrun : i + 1 - (count + 1) - 1 = i - count - 1 := by omega
    rw [hrun]
    exact h.longest (by omega)
  missed s hs hend := by
    have hnonneg := h.nonneg
    have hshort := h.short
    by_cases hlast : s + size ≤ i
    · exact h.missed s hs hlast
    · -- A block that ends with this cell is longer than the run.
      exact ⟨i - count - 1, by omega, by omega, h.longest (by omega)⟩

/-- The loop finds the leftmost free block in front of its last cell, if there is one. -/
theorem findStart_least (rounds : ℕ) (h : Scanned memory size i count) :
    (∃ start, findStart memory size rounds i count = some start ∧
        IsLeast {s | FreeAt ⟨memory, i + rounds⟩ size s} start) ∨
      findStart memory size rounds i count = none ∧
        ∀ s, ¬FreeAt ⟨memory, i + rounds⟩ size s := by
  induction rounds generalizing i count with
  | zero =>
      refine Or.inr ⟨rfl, fun s hs => ?_⟩
      obtain ⟨hstart, hend, hfree⟩ := hs
      rw [Int.natCast_zero, Int.add_zero] at hend
      obtain ⟨j, hj, hjs, hused⟩ := h.missed s hstart hend
      exact hused (hfree j hj hjs)
  | succ rounds ih =>
      have hlimit : i + ((rounds + 1 : ℕ) : ℤ) = i + 1 + rounds := by
        omega
      rw [hlimit, findStart]
      by_cases hi : memory i = 0
      · rw [if_pos hi]
        by_cases hfound : count + 1 = size
        · rw [if_pos hfound]
          have hinside := h.inside
          refine Or.inl ⟨i - size + 1, rfl, ⟨by omega, ?_, fun j hj hji => ?_⟩, fun s hs => ?_⟩
          · show i - size + 1 + size ≤ i + 1 + (rounds : ℤ)
            omega
          · show memory j = 0
            by_cases hlast : j = i
            · rw [hlast, hi]
            · exact h.free j (by omega) (by omega)
          · -- Anything further left was missed.
            obtain ⟨hstart, -, hfree⟩ := hs
            by_contra hlt
            obtain ⟨j, hj, hjs, hused⟩ := h.missed s hstart (by omega)
            exact hused (hfree j hj hjs)
        · rw [if_neg hfound]
          exact ih (scanned_free h hi hfound)
      · have hshort := h.nonneg.trans_lt h.short
        rw [if_neg hi, if_neg hshort.ne]
        exact ih (scanned_used h hi)

/-- `allocatorAllocate` fills the leftmost free block, or does nothing when there is none. -/
theorem allocate_cases (obj : Allocator) {size : ℤ} (hsize : 1 ≤ size) (mID : ℤ) :
    (∃ start, IsLeast {s | FreeAt obj size s} start ∧
        allocatorAllocate obj size mID =
          (start, { obj with memory := fill mID size.toNat start obj.memory })) ∨
      (∀ s, ¬FreeAt obj size s) ∧ allocatorAllocate obj size mID = (-1, obj) := by
  -- An array of negative size is as empty as one of size 0.
  have hfreeAt : ∀ s, FreeAt obj size s ↔ FreeAt ⟨obj.memory, 0 + obj.size.toNat⟩ size s := by
    intro s
    refine and_congr_right fun hs => and_congr_left fun _ => ?_
    show s + size ≤ obj.size ↔ s + size ≤ 0 + (obj.size.toNat : ℤ)
    omega
  have hinit : Scanned obj.memory size 0 0 := scanned_init hsize
  unfold allocatorAllocate
  rcases findStart_least obj.size.toNat hinit with ⟨start, hfind, hleast⟩ | ⟨hfind, hnone⟩
  · left
    refine ⟨start, ?_, ?_⟩
    · simpa only [hfreeAt] using hleast
    · rw [hfind]
  · right
    refine ⟨fun s hs => hnone s ((hfreeAt s).1 hs), ?_⟩
    rw [hfind]

/-- `allocatorAllocate` takes the leftmost free block and writes its cells only, or leaves
everything as it is when there is none. -/
theorem allocate_first_fit (obj : Allocator) {size : ℤ} (hsize : 1 ≤ size) (mID : ℤ) :
    (∃ start, IsLeast {s | FreeAt obj size s} start ∧
        allocatorAllocate obj size mID =
          (start, { obj with memory := fun j =>
            if start ≤ j ∧ j < start + size then mID else obj.memory j })) ∨
      (∀ s, ¬FreeAt obj size s) ∧ allocatorAllocate obj size mID = (-1, obj) := by
  rcases allocate_cases obj hsize mID with ⟨start, hleast, heq⟩ | hnone
  · left
    have hcells : fill mID size.toNat start obj.memory =
        fun j => if start ≤ j ∧ j < start + size then mID else obj.memory j := by
      ext j
      rw [fill_apply, Int.toNat_of_nonneg (by omega)]
    refine ⟨start, hleast, ?_⟩
    rw [heq, hcells]
  · exact Or.inr hnone

/-- The run that ends with the last cell. -/
theorem allocate_first_fit_last_cells :
    (∃ start, IsLeast {s | FreeAt ⟨fun j => if j = 1 then 7 else 0, 4⟩ 2 s} start ∧
        allocatorAllocate ⟨fun j => if j = 1 then 7 else 0, 4⟩ 2 5 =
          (start, ⟨fun j => if start ≤ j ∧ j < start + 2 then 5 else if j = 1 then 7 else 0,
            4⟩)) ∨
      (∀ s, ¬FreeAt ⟨fun j => if j = 1 then 7 else 0, 4⟩ 2 s) ∧
        allocatorAllocate ⟨fun j => if j = 1 then 7 else 0, 4⟩ 2 5 =
          (-1, ⟨fun j => if j = 1 then 7 else 0, 4⟩) :=
  allocate_first_fit ⟨fun j => if j = 1 then 7 else 0, 4⟩ (by decide) 5

end MemAllocator
end Leetcode
