import Mathlib.Algebra.Order.Ring.Int
import Mathlib.Logic.Function.Basic

/-!
# `2502.c`: the allocator

The array `memory` is a function of the index; the model reads and writes only where the
source does.  `malloc` and `calloc` are taken to succeed.  A loop is given the number of
rounds that its condition allows.
-/

namespace Leetcode
namespace MemAllocator

/-- The fields of `Allocator`. -/
structure Allocator where
  memory : ℤ → ℤ
  size : ℤ

def allocatorCreate (n : ℕ) : Allocator where
  memory := fun _ => 0
  size := n

/-- The first loop of `allocatorAllocate` from the round `i` on: the start of the block. -/
def findStart (memory : ℤ → ℤ) (size : ℤ) : ℕ → ℤ → ℤ → Option ℤ
  | 0, _, _ => none
  | rounds + 1, i, count =>
      let count := if memory i = 0 then count + 1 else 0
      if count = size then some (i - size + 1)
      else findStart memory size rounds (i + 1) count

/-- The second loop, from the index `j` on. -/
def fill (mID : ℤ) : ℕ → ℤ → (ℤ → ℤ) → (ℤ → ℤ)
  | 0, _, memory => memory
  | rounds + 1, j, memory => fill mID rounds (j + 1) (Function.update memory j mID)

def allocatorAllocate (obj : Allocator) (size mID : ℤ) : ℤ × Allocator :=
  match findStart obj.memory size obj.size.toNat 0 0 with
  | some start => (start, { obj with memory := fill mID size.toNat start obj.memory })
  | none => (-1, obj)

/-- The loop of `allocatorFreeMemory` from the round `i` on. -/
def freeLoop (mID : ℤ) : ℕ → ℤ → ℤ → (ℤ → ℤ) → ℤ × (ℤ → ℤ)
  | 0, _, freed, memory => (freed, memory)
  | rounds + 1, i, freed, memory =>
      if memory i = mID then
        freeLoop mID rounds (i + 1) (freed + 1) (Function.update memory i 0)
      else freeLoop mID rounds (i + 1) freed memory

def allocatorFreeMemory (obj : Allocator) (mID : ℤ) : ℤ × Allocator :=
  let r := freeLoop mID obj.size.toNat 0 0 obj.memory
  (r.1, { obj with memory := r.2 })

inductive Call
  | allocate (size mID : ℤ)
  | freeMemory (mID : ℤ)
  deriving DecidableEq, Repr

/-- The constraints of the driver. -/
def Call.Valid : Call → Prop
  | .allocate size mID => 1 ≤ size ∧ 1 ≤ mID
  | .freeMemory mID => 1 ≤ mID

instance : DecidablePred Call.Valid
  | .allocate _ _ => inferInstanceAs (Decidable (_ ∧ _))
  | .freeMemory _ => inferInstanceAs (Decidable (_ ≤ _))

/-! ## The loops -/

/-- How many of the cells from `i` on pass a test. -/
def hits (p : ℤ → Bool) : ℕ → ℤ → ℤ
  | 0, _ => 0
  | rounds + 1, i => (if p i then 1 else 0) + hits p rounds (i + 1)

theorem hits_congr {p q : ℤ → Bool} {rounds : ℕ} {i : ℤ} (h : ∀ j, i ≤ j → p j = q j) :
    hits p rounds i = hits q rounds i := by
  induction rounds generalizing i with
  | zero => rfl
  | succ rounds ih =>
      have hrest : hits p rounds (i + 1) = hits q rounds (i + 1) := ih fun j hj => h j (by omega)
      rw [hits, hits, h i (by omega), hrest]

/-- Tests that never pass together. -/
theorem hits_or {p q : ℤ → Bool} (h : ∀ j, p j = true → q j = false) (rounds : ℕ) (i : ℤ) :
    hits (fun j => p j || q j) rounds i = hits p rounds i + hits q rounds i := by
  induction rounds generalizing i with
  | zero => rfl
  | succ rounds ih =>
      rw [hits, hits, hits, ih]
      cases hp : p i with
      | true =>
          rw [h i hp]
          simp only [Bool.or_false, if_true, Bool.false_eq_true, if_false]
          omega
      | false =>
          simp only [Bool.false_or, Bool.false_eq_true, if_false]
          omega

theorem hits_false (rounds : ℕ) (i : ℤ) : hits (fun _ => false) rounds i = 0 := by
  induction rounds generalizing i with
  | zero => rfl
  | succ rounds ih => simp [hits, ih]

/-- The cells of an interval. -/
theorem hits_interval (a b : ℤ) (rounds : ℕ) (i : ℤ) :
    hits (fun j => a ≤ j ∧ j < b) rounds i = max 0 (min b (i + rounds) - max a i) := by
  induction rounds generalizing i with
  | zero =>
      rw [hits]
      push_cast
      omega
  | succ rounds ih =>
      rw [hits, ih]
      simp only [decide_eq_true_eq]
      push_cast
      split <;> omega

theorem fill_apply (mID : ℤ) (rounds : ℕ) (start : ℤ) (memory : ℤ → ℤ) (j : ℤ) :
    fill mID rounds start memory j =
      if start ≤ j ∧ j < start + rounds then mID else memory j := by
  induction rounds generalizing start memory with
  | zero =>
      rw [fill, if_neg]
      push_cast
      omega
  | succ rounds ih =>
      rw [fill, ih]
      push_cast
      by_cases hj : j = start
      · subst hj
        rw [Function.update_self, if_neg (by omega), if_pos (by omega)]
      · rw [Function.update_of_ne hj]
        refine if_congr ?_ rfl rfl
        omega

theorem freeLoop_eq (mID : ℤ) (rounds : ℕ) (i freed : ℤ) (memory : ℤ → ℤ) :
    freeLoop mID rounds i freed memory =
      (freed + hits (fun j => memory j = mID) rounds i,
        fun j => if i ≤ j ∧ j < i + rounds ∧ memory j = mID then 0 else memory j) := by
  induction rounds generalizing i freed memory with
  | zero =>
      rw [freeLoop, hits]
      exact Prod.ext (by simp) (funext fun j => (if_neg (by omega)).symm)
  | succ rounds ih =>
      rw [freeLoop, hits]
      by_cases hi : memory i = mID
      · have hrest : hits (fun j => Function.update memory i 0 j = mID) rounds (i + 1) =
            hits (fun j => memory j = mID) rounds (i + 1) := by
          refine hits_congr fun j hj => ?_
          rw [Function.update_of_ne (by omega)]
        rw [if_pos hi, ih, hrest]
        refine Prod.ext (by simp [hi, add_assoc]) (funext fun j => ?_)
        push_cast
        by_cases hj : j = i
        · subst hj
          rw [Function.update_self, if_neg (by omega), if_pos (by omega)]
        · rw [Function.update_of_ne hj]
          refine if_congr ?_ rfl rfl
          omega
      · rw [if_neg hi, ih]
        refine Prod.ext (by simp [hi]) (funext fun j => ?_)
        push_cast
        by_cases hj : j = i
        · subst hj
          rw [if_neg (by omega), if_neg (by omega)]
        · refine if_congr ?_ rfl rfl
          omega

end MemAllocator
end Leetcode
