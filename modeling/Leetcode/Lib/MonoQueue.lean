import Mathlib.Algebra.Order.Ring.Int
import Mathlib.Data.List.Pairwise

/-!
# The queue of a sliding maximum

`Kept val lo hi q`: the queue `q` holds positions from `lo` up to, but without, `hi`, increasing
and with decreasing values.  `Covered val lo hi q P`: every position between `lo` and `hi` has in
`q` one that is not before it and not less, except for those that `P` is true of.

The window moves on when its first position leaves (`Kept.expire`, `Kept.stay`), and a position
enters behind all that are not greater (`Covered.drop`, `Kept.push`, `Covered.push`).  With
nothing excepted, the first position in the queue has the greatest value (`Covered.head_max`).
-/

namespace CLib

variable {α : Type*} [LinearOrder α] {val : ℤ → α} {lo lo' hi a : ℤ} {q : List ℤ} {P : ℤ → Prop}

/-- Positions in a window, increasing, with decreasing values. -/
structure Kept (val : ℤ → α) (lo hi : ℤ) (q : List ℤ) : Prop where
  inside : ∀ j ∈ q, lo ≤ j ∧ j < hi
  increasing : q.Pairwise (· < ·)
  decreasing : q.Pairwise fun i j => val j < val i

/-- Every position of the window is excepted, or the queue has a later one that is not less. -/
def Covered (val : ℤ → α) (lo hi : ℤ) (q : List ℤ) (P : ℤ → Prop) : Prop :=
  ∀ j, lo ≤ j → j < hi → P j ∨ ∃ j' ∈ q, j ≤ j' ∧ val j ≤ val j'

/-! ## The front -/

/-- The first position leaves the window and the queue. -/
theorem Kept.expire (h : Kept val lo hi (a :: q)) (hle : lo' ≤ lo + 1) : Kept val lo' hi q := by
  obtain ⟨hinside, hincreasing, hdecreasing⟩ := h
  obtain ⟨hfirst, hincreasing⟩ := List.pairwise_cons.1 hincreasing
  obtain ⟨-, hdecreasing⟩ := List.pairwise_cons.1 hdecreasing
  refine ⟨fun j hj => ?_, hincreasing, hdecreasing⟩
  have ha := (hinside a List.mem_cons_self).1
  have hj' := hfirst j hj
  exact ⟨by omega, (hinside j (List.mem_cons_of_mem a hj)).2⟩

theorem Covered.expire (h : Covered val lo hi (a :: q) P) (hlt : a < lo') (hle : lo ≤ lo') :
    Covered val lo' hi q P := by
  intro j hlo hhi
  rcases h j (hle.trans hlo) hhi with hP | ⟨j', hmem, hj', hval⟩
  · exact Or.inl hP
  rcases List.mem_cons.1 hmem with rfl | hmem
  · omega
  · exact Or.inr ⟨j', hmem, hj', hval⟩

/-- The first position in the queue is not the one that leaves the window. -/
theorem Kept.stay (h : Kept val lo hi q) (hfirst : ∀ a ∈ q.head?, lo' ≤ a) :
    Kept val lo' hi q := by
  refine ⟨fun j hj => ⟨?_, (h.inside j hj).2⟩, h.increasing, h.decreasing⟩
  cases q with
  | nil => cases hj
  | cons a q =>
      have ha : lo' ≤ a := hfirst a rfl
      rcases List.mem_cons.1 hj with rfl | hj
      · exact ha
      · exact ha.trans ((List.pairwise_cons.1 h.increasing).1 j hj).le

theorem Covered.mono {Q : ℤ → Prop} (h : Covered val lo hi q P) (hle : lo ≤ lo')
    (himp : ∀ j, P j → Q j) : Covered val lo' hi q Q := by
  intro j hlo hhi
  exact (h j (hle.trans hlo) hhi).imp (himp j) id

/-! ## The back -/

theorem Kept.drop (h : Kept val lo hi (q ++ [a])) : Kept val lo hi q :=
  ⟨fun j hj => h.inside j (List.mem_append_left _ hj), (List.pairwise_append.1 h.increasing).1,
    (List.pairwise_append.1 h.decreasing).1⟩

/-- A position leaves the queue that is not greater than one that will enter. -/
theorem Covered.drop {x : α} (h : Covered val lo hi (q ++ [a]) fun j => val j ≤ x)
    (ha : val a ≤ x) : Covered val lo hi q fun j => val j ≤ x := by
  intro j hlo hhi
  rcases h j hlo hhi with hP | ⟨j', hmem, hj', hval⟩
  · exact Or.inl hP
  rcases List.mem_append.1 hmem with hmem | hmem
  · exact Or.inr ⟨j', hmem, hj', hval⟩
  · rw [List.mem_singleton.1 hmem] at hval
    exact Or.inl (hval.trans ha)

/-- When the last value is greater than `x`, all are. -/
theorem Kept.greater {x : α} (h : Kept val lo hi (q ++ [a])) (ha : x < val a) :
    ∀ j ∈ q ++ [a], x < val j := by
  intro j hj
  rcases List.mem_append.1 hj with hj | hj
  · have hlast := (List.pairwise_append.1 h.decreasing).2.2 j hj a (List.mem_singleton_self a)
    exact ha.trans hlast
  · rwa [List.mem_singleton.1 hj]

/-- The next position enters. -/
theorem Kept.push (h : Kept val lo hi q) (hle : lo ≤ hi) (hgreater : ∀ j ∈ q, val hi < val j) :
    Kept val lo (hi + 1) (q ++ [hi]) := by
  obtain ⟨hinside, hincreasing, hdecreasing⟩ := h
  constructor
  · intro j hj
    rcases List.mem_append.1 hj with hj | hj
    · have hj' := hinside j hj
      omega
    · rw [List.mem_singleton.1 hj]
      omega
  · refine List.pairwise_append.2 ⟨hincreasing, List.pairwise_singleton _ _, ?_⟩
    intro j hj j' hj'
    rw [List.mem_singleton.1 hj']
    exact (hinside j hj).2
  · refine List.pairwise_append.2 ⟨hdecreasing, List.pairwise_singleton _ _, ?_⟩
    intro j hj j' hj'
    rw [List.mem_singleton.1 hj']
    exact hgreater j hj

theorem Covered.push (h : Covered val lo hi q fun j => val j ≤ val hi) :
    Covered val lo (hi + 1) (q ++ [hi]) fun _ => False := by
  have hnew : hi ∈ q ++ [hi] := List.mem_append_right q (List.mem_singleton_self hi)
  intro j hlo hhi
  rcases (Int.lt_add_one_iff.1 hhi).eq_or_lt with rfl | hlt
  · exact Or.inr ⟨j, hnew, le_rfl, le_rfl⟩
  rcases h j hlo hlt with hle | ⟨j', hmem, hj', hval⟩
  · exact Or.inr ⟨hi, hnew, hlt.le, hle⟩
  · exact Or.inr ⟨j', List.mem_append_left _ hmem, hj', hval⟩

/-! ## The maximum -/

/-- The first position in the queue has the greatest value of the window. -/
theorem Covered.head_max (h : Covered val lo hi (a :: q) fun _ => False)
    (hkept : Kept val lo hi (a :: q)) {j : ℤ} (hlo : lo ≤ j) (hhi : j < hi) : val j ≤ val a := by
  rcases h j hlo hhi with hfalse | ⟨j', hmem, -, hval⟩
  · exact hfalse.elim
  rcases List.mem_cons.1 hmem with rfl | hmem
  · exact hval
  · exact hval.trans ((List.pairwise_cons.1 hkept.decreasing).1 j' hmem).le

end CLib
