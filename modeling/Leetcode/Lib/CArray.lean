import Mathlib.Algebra.Order.Ring.Int
import Mathlib.Data.List.Basic

/-!
# Arrays with bounds

An array is a list, and an index is an integer.  `load` and `store` are `none` for an index that
is not inside of the array.

`segment a i j` is the part from `i` up to, but without, `j`.  A queue that takes up such a part
loses its first element when `i` goes up, loses its last one when `j` goes down, and gets a new
one when there is a store at `j` and `j` goes up.  `stacked a top` is the part that a stack takes
up, from its top down.
-/

namespace CLib

variable {α : Type*}

/-- The value of `a[i]`. -/
def load (a : List α) (i : ℤ) : Option α :=
  if 0 ≤ i then a[i.toNat]? else none

/-- `a[i] = x` -/
def store (a : List α) (i : ℤ) (x : α) : Option (List α) :=
  if 0 ≤ i ∧ i < a.length then some (a.set i.toNat x) else none

/-- The entries at `i`, …, `j - 1`. -/
def segment (a : List α) (i j : ℤ) : List α := (a.drop i.toNat).take (j - i).toNat

variable {a : List α} {i j : ℤ}

theorem load_natCast (a : List α) (n : ℕ) : load a n = a[n]? := if_pos (Int.natCast_nonneg n)

theorem load_getD (h : 0 ≤ i) (hlt : i < a.length) (d : α) :
    load a i = some (a.getD i.toNat d) := by
  have hin : i.toNat < a.length := by omega
  rw [load, if_pos h, List.getElem?_eq_getElem hin, List.getD, List.getElem?_eq_getElem hin,
    Option.getD_some]

theorem store_ok (h : 0 ≤ i) (hlt : i < a.length) (x : α) :
    store a i x = some (a.set i.toNat x) := if_pos ⟨h, hlt⟩

theorem mem_segment {k : ℤ} {x : α} (h : 0 ≤ i) (hik : i ≤ k) (hkj : k < j)
    (hload : load a k = some x) : x ∈ segment a i j := by
  rw [load, if_pos (h.trans hik)] at hload
  refine List.mem_of_getElem? (i := k.toNat - i.toNat) ?_
  have hindex : i.toNat + (k.toNat - i.toNat) = k.toNat := by omega
  rw [segment, List.getElem?_take_of_lt (by omega), List.getElem?_drop, hindex, hload]

/-- An empty part. -/
theorem segment_self (a : List α) (i : ℤ) : segment a i i = [] := by
  rw [segment, Int.sub_self]
  exact List.take_zero

theorem segment_eq_cons (h : 0 ≤ i) (hlt : i < j) (hlen : j ≤ a.length) :
    ∃ x, load a i = some x ∧ segment a i j = x :: segment a (i + 1) j := by
  obtain ⟨m, rfl⟩ := Int.eq_ofNat_of_zero_le h
  have hin : m < a.length := by omega
  have hsize : (j - m).toNat = (j - (m + 1)).toNat + 1 := by omega
  refine ⟨a[m], ?_, ?_⟩
  · rw [load_natCast, List.getElem?_eq_getElem hin]
  · rw [segment, Int.toNat_natCast, List.drop_eq_getElem_cons hin, hsize, List.take_succ_cons]
    rfl

theorem length_segment (h : 0 ≤ i) (hij : i ≤ j) (hlen : j ≤ a.length) :
    ((segment a i j).length : ℤ) = j - i := by
  rw [segment, List.length_take, List.length_drop]
  omega

theorem segment_append {k : ℤ} (h : 0 ≤ i) (hij : i ≤ j) (hjk : j ≤ k) :
    segment a i k = segment a i j ++ segment a j k := by
  have hsize : (k - i).toNat = (j - i).toNat + (k - j).toNat := by omega
  have hdrop : j.toNat = i.toNat + (j - i).toNat := by omega
  rw [segment, segment, segment, hsize, List.take_add, List.drop_drop, hdrop]

theorem segment_eq_concat (h : 0 ≤ i) (hlt : i < j) (hlen : j ≤ a.length) :
    ∃ x, load a (j - 1) = some x ∧ segment a i j = segment a i (j - 1) ++ [x] := by
  obtain ⟨m, rfl⟩ := Int.eq_ofNat_of_zero_le h
  obtain ⟨n, rfl⟩ : ∃ n : ℕ, j = (m + n : ℕ) + 1 := ⟨(j - m - 1).toNat, by omega⟩
  have hin : m + n < a.length := by omega
  have hsize : (((m + n : ℕ) : ℤ) + 1 - m).toNat = n + 1 := by omega
  have hsize' : (((m + n : ℕ) : ℤ) - m).toNat = n := by omega
  refine ⟨a[m + n], ?_, ?_⟩
  · rw [Int.add_sub_cancel, load_natCast, List.getElem?_eq_getElem hin]
  · rw [Int.add_sub_cancel, segment, segment, hsize, hsize', Int.toNat_natCast, List.take_add_one,
      List.getElem?_drop, List.getElem?_eq_getElem hin, Option.toList_some]

theorem segment_store (h : 0 ≤ i) (hle : i ≤ j) (hlen : j < a.length) (x : α) :
    segment (a.set j.toNat x) i (j + 1) = segment a i j ++ [x] := by
  have hset : ((a.set j.toNat x).length : ℤ) = a.length := by rw [List.length_set]
  obtain ⟨y, hload, hsegment⟩ :=
    segment_eq_concat (a := a.set j.toNat x) h (Int.lt_add_one_of_le hle) (by omega)
  rw [Int.add_sub_cancel] at hload hsegment
  have hin : j.toNat < a.length := by omega
  have hy : y = x := by
    rw [load, if_pos (h.trans hle), List.getElem?_set_self hin] at hload
    exact (Option.some.inj hload).symm
  -- The part in front of `j` does not see the store.
  have hfront : segment (a.set j.toNat x) i j = segment a i j := by
    rw [segment, List.drop_set, if_neg (by omega), List.take_set_of_le (by omega), segment]
  rw [hsegment, hfront, hy]

/-- The first part of an array. -/
theorem segment_zero (a : List α) (j : ℤ) : segment a 0 j = a.take j.toNat := by
  rw [segment, Int.toNat_zero, List.drop_zero, Int.sub_zero]

/-! ## Stacks -/

/-- The entries of a stack up to `top`, the last one first. -/
def stacked (a : List α) (top : ℤ) : List α := (segment a 0 (top + 1)).reverse

variable {top : ℤ}

theorem stacked_empty : stacked a (-1) = [] := by
  rw [stacked, neg_add_cancel, segment_self, List.reverse_nil]

theorem length_stacked (htop : -1 ≤ top) (hlen : top + 1 ≤ a.length) :
    ((stacked a top).length : ℤ) = top + 1 := by
  rw [stacked, List.length_reverse, length_segment le_rfl (by omega) hlen, Int.sub_zero]

/-- `stack[++top] = x` -/
theorem stacked_push (htop : -1 ≤ top) (hlt : top + 1 < a.length) (x : α) :
    store a (top + 1) x = some (a.set (top + 1).toNat x) ∧
      stacked (a.set (top + 1).toNat x) (top + 1) = x :: stacked a top := by
  have hindex : 0 ≤ top + 1 := by omega
  refine ⟨store_ok hindex hlt x, ?_⟩
  rw [stacked, segment_store le_rfl hindex hlt, List.reverse_concat, stacked]

/-- `stack[top]`, and the stack below it. -/
theorem stacked_top (htop : -1 ≤ top) (hne : top ≠ -1) (hlen : top + 1 ≤ a.length) :
    ∃ x, load a top = some x ∧ stacked a top = x :: stacked a (top - 1) := by
  obtain ⟨x, hload, hsegment⟩ := segment_eq_concat (i := 0) le_rfl (by omega) hlen
  rw [Int.add_sub_cancel] at hload hsegment
  refine ⟨x, hload, ?_⟩
  rw [stacked, hsegment, List.reverse_concat, stacked, Int.sub_add_cancel]

end CLib
