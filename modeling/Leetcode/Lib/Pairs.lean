import Mathlib.Algebra.BigOperators.Group.Finset.Sigma
import Mathlib.Algebra.BigOperators.Group.List.Basic
import Mathlib.Algebra.GroupWithZero.Nat
import Mathlib.Data.List.Range

/-!
# Counting the pairs of a list that are in a relation

`pairs rel l` counts the pairs of an element and a later one.  A divide-and-conquer count cuts the
list in two: `pairs_append` leaves the pairs across the cut, and those do not depend on the order
on either side (`cross_perm`).  `pairs_map_range` is the count as a set of pairs of positions.
-/

namespace CLib

variable {α : Type*} (rel : α → α → Bool)

/-- The pairs of an element and a later one. -/
def pairs : List α → ℕ
  | [] => 0
  | x :: l => l.countP (rel x) + pairs l

/-- The pairs of an element of `l` and an element of `m`. -/
def cross (l m : List α) : ℕ := (l.map fun x => m.countP (rel x)).sum

@[simp] theorem cross_nil (m : List α) : cross rel [] m = 0 := rfl

theorem cross_cons (x : α) (l m : List α) :
    cross rel (x :: l) m = m.countP (rel x) + cross rel l m := by
  rw [cross, List.map_cons, List.sum_cons, cross]

theorem cross_append_left (l l' m : List α) :
    cross rel (l ++ l') m = cross rel l m + cross rel l' m := by
  rw [cross, List.map_append, List.sum_append, cross, cross]

theorem pairs_append (l m : List α) :
    pairs rel (l ++ m) = pairs rel l + pairs rel m + cross rel l m := by
  induction l with
  | nil => simp [pairs]
  | cons x l ih =>
      rw [List.cons_append, pairs, pairs, List.countP_append, ih, cross_cons]
      omega

/-- The order on either side of the cut does not matter. -/
theorem cross_perm {l l' m m' : List α} (hl : l.Perm l') (hm : m.Perm m') :
    cross rel l m = cross rel l' m' := by
  have hcount : (fun x => m.countP (rel x)) = fun x => m'.countP (rel x) := by
    funext x
    exact hm.countP_eq (rel x)
  rw [cross, cross, hcount]
  exact (hl.map _).sum_eq

/-- The elements that meet one of two nested bounds and not the other. -/
theorem countP_sub {p q : α → Bool} (h : ∀ x, q x = true → p x = true) (l : List α) :
    (l.countP fun x => p x && !q x) + l.countP q = l.countP p := by
  induction l with
  | nil => rfl
  | cons x l ih =>
      have hx := h x
      simp only [List.countP_cons]
      cases hp : p x <;> cases hq : q x <;> simp_all <;> omega

theorem cross_singleton (l : List α) (y : α) :
    cross rel l [y] = l.countP fun x => rel x y := by
  induction l with
  | nil => rfl
  | cons x l ih => rw [cross_cons, ih, List.countP_singleton, List.countP_cons, Nat.add_comm]

/-- A count along the first numbers, as a set of numbers. -/
theorem countP_range (p : ℕ → Bool) (n : ℕ) :
    (List.range n).countP p = ((Finset.range n).filter fun i => p i = true).card := by
  rw [List.countP_eq_length_filter, Finset.card, Finset.filter_val, Finset.range_val,
    Multiset.range, Multiset.filter_coe, Multiset.coe_card]
  simp only [Bool.decide_eq_true]

/-- The pairs of positions below `n`. -/
def pairSet (S : ℕ → α) (n : ℕ) : Finset (ℕ × ℕ) :=
  (Finset.range n ×ˢ Finset.range n).filter fun p => p.1 < p.2 ∧ rel (S p.1) (S p.2) = true

/-- One more position: the pairs that end there are new. -/
theorem pairSet_succ (S : ℕ → α) (n : ℕ) :
    pairSet rel S (n + 1) = pairSet rel S n ∪
      ((Finset.range n).filter fun i => rel (S i) (S n) = true).image fun i => (i, n) := by
  ext ⟨i, j⟩
  simp only [pairSet, Finset.mem_filter, Finset.mem_product, Finset.mem_range, Finset.mem_union,
    Finset.mem_image, Prod.mk.injEq]
  constructor
  · rintro ⟨⟨hi, hj⟩, hij, hrel⟩
    rcases Nat.lt_succ_iff_lt_or_eq.1 hj with hj | rfl
    · exact Or.inl ⟨⟨hij.trans hj, hj⟩, hij, hrel⟩
    · exact Or.inr ⟨i, ⟨hij, hrel⟩, rfl, rfl⟩
  · rintro (⟨⟨hi, hj⟩, hij, hrel⟩ | ⟨i, ⟨hi, hrel⟩, rfl, rfl⟩)
    · exact ⟨⟨Nat.lt_succ_of_lt hi, Nat.lt_succ_of_lt hj⟩, hij, hrel⟩
    · exact ⟨⟨Nat.lt_succ_of_lt hi, Nat.lt_succ_self n⟩, hi, hrel⟩

/-- The pairs as pairs of positions. -/
theorem pairs_map_range (S : ℕ → α) (n : ℕ) :
    pairs rel ((List.range n).map S) = (pairSet rel S n).card := by
  induction n with
  | zero => rfl
  | succ n ih =>
      have hdisjoint : Disjoint (pairSet rel S n)
          (((Finset.range n).filter fun i => rel (S i) (S n) = true).image fun i => (i, n)) := by
        refine Finset.disjoint_left.2 fun p hp hnew => ?_
        obtain ⟨i, -, rfl⟩ := Finset.mem_image.1 hnew
        simp [pairSet] at hp
      have hinj : Function.Injective fun i : ℕ => (i, n) := fun i j h => congrArg Prod.fst h
      rw [List.range_succ, List.map_append, pairs_append, ih, pairSet_succ,
        Finset.card_union_of_disjoint hdisjoint, Finset.card_image_of_injective _ hinj,
        List.map_singleton, cross_singleton, List.countP_map, countP_range]
      rfl

end CLib
