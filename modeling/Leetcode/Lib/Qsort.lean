import Mathlib.Data.Int.Notation
import Mathlib.Data.List.Chain
import Mathlib.Data.List.Nodup

/-!
# What `qsort` promises

A comparator returns a number, and the sign of the number is the order of its arguments.  `qsort`
promises an order of the array only if the comparator orders the elements of the array
(`Consistent`); `Sorts` is this promise.

* `exists_least` — a consistent comparator has a least element.
* `isChain_iff_nodup` — in a sorted array, equal elements are neighbours.
* `mergeQsort_sorts` — merge sort keeps the promise.
* `unless_sorts` — so does a `qsort` that returns anything where nothing is promised.
-/

namespace CLib

variable {α : Type*}

/-- The comparator orders the elements of the list. -/
structure Consistent (compar : α → α → ℤ) (l : List α) : Prop where
  antisymm : ∀ a ∈ l, ∀ b ∈ l, compar a b < 0 ↔ 0 < compar b a
  trans : ∀ a ∈ l, ∀ b ∈ l, ∀ c ∈ l, compar a b ≤ 0 → compar b c ≤ 0 → compar a c ≤ 0

/-- A function that rearranges an array in its place. -/
abbrev Qsort (α : Type*) :=
  (α → α → ℤ) → (base : List α) → { sorted : List α // sorted.length = base.length }

/-- It sorts every array that the comparator orders. -/
def Sorts (qsort : Qsort α) : Prop :=
  ∀ compar l, Consistent compar l →
    (qsort compar l).1.Perm l ∧ (qsort compar l).1.Pairwise fun a b => compar a b ≤ 0

variable {compar : α → α → ℤ} {l l' : List α} {a b : α}

theorem Consistent.total (h : Consistent compar l) (ha : a ∈ l) (hb : b ∈ l) :
    compar a b ≤ 0 ∨ compar b a ≤ 0 := by
  have hswap := h.antisymm b hb a ha
  omega

theorem Consistent.subset (h : Consistent compar l) (hsub : l' ⊆ l) : Consistent compar l' where
  antisymm := fun a ha b hb => h.antisymm a (hsub ha) b (hsub hb)
  trans := fun a ha b hb c hc => h.trans a (hsub ha) b (hsub hb) c (hsub hc)

/-- A comparator that subtracts. -/
theorem Consistent.of_sub (f : α → ℤ) (h : ∀ a ∈ l, ∀ b ∈ l, compar a b = f a - f b) :
    Consistent compar l where
  antisymm := fun a ha b hb => by
    have hab := h a ha b hb
    have hba := h b hb a ha
    omega
  trans := fun a ha b hb c hc hle hle' => by
    have hab := h a ha b hb
    have hbc := h b hb c hc
    have hac := h a ha c hc
    omega

/-- The neighbours in a sorted list are different only if all its elements are. -/
theorem isChain_iff_nodup (h : Consistent compar l) (hzero : ∀ a b, compar a b = 0 → a = b)
    (hsorted : l.Pairwise fun a b => compar a b ≤ 0) : l.IsChain (· ≠ ·) ↔ l.Nodup := by
  refine ⟨fun hchain => ?_, List.Pairwise.isChain⟩
  induction l with
  | nil => exact List.nodup_nil
  | cons a l ih =>
      have htail : l.Nodup :=
        ih (h.subset (List.subset_cons_self a l)) (List.pairwise_cons.1 hsorted).2
          hchain.tail
      refine List.nodup_cons.2 ⟨fun hmem => ?_, htail⟩
      cases l with
      | nil => cases hmem
      | cons b l =>
          obtain ⟨hab, -⟩ := List.isChain_cons_cons.1 hchain
          obtain ⟨hle, hrest⟩ := List.pairwise_cons.1 hsorted
          -- `a` would stand behind the greater `b`.
          have hle' : compar b a ≤ 0 := by
            rcases List.mem_cons.1 hmem with rfl | hmem
            · exact absurd rfl hab
            · exact (List.pairwise_cons.1 hrest).1 a hmem
          have hne : compar a b ≠ 0 := fun hz => hab (hzero a b hz)
          have hfirst := hle b List.mem_cons_self
          have hswap := h.antisymm a List.mem_cons_self b
            (List.mem_cons_of_mem a List.mem_cons_self)
          omega

/-! ## Sorting functions -/

/-- Merge sort. -/
def mergeQsort : Qsort α := fun compar l =>
  ⟨l.mergeSort fun a b => decide (compar a b ≤ 0), List.length_mergeSort l⟩

theorem mergeQsort_sorts : Sorts (mergeQsort : Qsort α) := by
  intro compar l h
  refine ⟨List.mergeSort_perm l _, ?_⟩
  -- On the elements of the list the comparator is an order.
  let le : { a // a ∈ l } → { a // a ∈ l } → Bool := fun a b => decide (compar a b ≤ 0)
  have htrans : ∀ a b c, le a b → le b c → le a c := fun a b c hab hbc =>
    decide_eq_true (h.trans a a.2 b b.2 c c.2 (of_decide_eq_true hab) (of_decide_eq_true hbc))
  have htotal : ∀ a b, le a b || le b a := fun a b => by
    have hor := h.total a.2 b.2
    simpa [le] using hor
  have hsorted := List.pairwise_mergeSort htrans htotal l.attach
  have hmap : (l.attach.mergeSort le).map Subtype.val =
      (l.attach.map Subtype.val).mergeSort fun a b => decide (compar a b ≤ 0) :=
    List.map_mergeSort fun _ _ _ _ => rfl
  rw [List.attach_map_subtype_val] at hmap
  show (l.mergeSort fun a b => decide (compar a b ≤ 0)).Pairwise _
  rw [← hmap, List.pairwise_map]
  exact hsorted.imp of_decide_eq_true

/-- The first element of the sorted list. -/
theorem exists_least (h : Consistent compar l) (hne : l ≠ []) :
    ∃ c ∈ l, ∀ a ∈ l, compar c a ≤ 0 := by
  obtain ⟨hperm, hsorted⟩ := mergeQsort_sorts compar l h
  cases hlist : (mergeQsort compar l).1 with
  | nil =>
      rw [hlist] at hperm
      exact absurd hperm.symm.eq_nil hne
  | cons c rest =>
      rw [hlist] at hperm hsorted
      have hc : c ∈ l := hperm.mem_iff.1 List.mem_cons_self
      refine ⟨c, hc, fun a ha => ?_⟩
      rcases List.mem_cons.1 (hperm.mem_iff.2 ha) with rfl | ha
      · have hself := h.antisymm a hc a hc
        omega
      · exact (List.pairwise_cons.1 hsorted).1 a ha

open Classical in
/-- Merge sort where an order is promised, and anything else elsewhere. -/
noncomputable def unlessConsistent
    (other : (l : List α) → { sorted : List α // sorted.length = l.length }) : Qsort α :=
  fun compar l => if Consistent compar l then mergeQsort compar l else other l

theorem unless_sorts (other : (l : List α) → { sorted : List α // sorted.length = l.length }) :
    Sorts (unlessConsistent other) := by
  intro compar l h
  rw [unlessConsistent, if_pos h]
  exact mergeQsort_sorts compar l h

end CLib
