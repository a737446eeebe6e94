import Mathlib.Data.Finset.Card
import Mathlib.Data.List.Sort
import Leetcode.Lib.Inorder

/-!
# The element of a rank

A search by stored sizes compares a rank with the size of one subtree and goes on there or
in the other one.  `inorderFrom s` is the in-order sequence read from the side `s`, so the
subtree on that side comes first: the three lemmas on a node say which of its parts a rank
falls into.

In a strictly decreasing list the rank of an element is the number of larger elements.
-/

namespace CLib

variable {δ α : Type*} (f : δ → α)

/-- The in-order sequence, from its end on the side `s`. -/
def PtrTree.inorderFrom (s : Side) (t : PtrTree δ) : List α :=
  s.pick (t.inorder f) (t.inorder f).reverse

@[simp] theorem length_inorder (t : PtrTree δ) : (t.inorder f).length = t.count := by
  induction t with
  | nil => rfl
  | node a d l r ihl ihr =>
      rw [PtrTree.inorder, List.length_append, List.length_cons, ihl, ihr, PtrTree.count,
        Nat.add_assoc]

@[simp] theorem length_inorderFrom (s : Side) (t : PtrTree δ) :
    (t.inorderFrom f s).length = t.count := by
  cases s with
  | left => exact length_inorder f t
  | right => exact List.length_reverse.trans (length_inorder f t)

theorem inorderFrom_nodeAt (s : Side) (a : Ref) (d : δ) (t u : PtrTree δ) :
    (PtrTree.nodeAt s a d t u).inorderFrom f s =
      t.inorderFrom f s ++ f d :: u.inorderFrom f s := by
  cases s with
  | left => rfl
  | right => simp [PtrTree.nodeAt, PtrTree.inorderFrom, PtrTree.inorder, Side.pick]

section Node

variable {f} {s : Side} {a : Ref} {d : δ} {t u : PtrTree δ} {k : ℕ}

/-- A rank in the first subtree. -/
theorem getElem?_inorderFrom_first (h : k < t.count) :
    ((PtrTree.nodeAt s a d t u).inorderFrom f s)[k]? = (t.inorderFrom f s)[k]? := by
  rw [inorderFrom_nodeAt, List.getElem?_append_left]
  rwa [length_inorderFrom]

/-- The rank of the node itself. -/
theorem getElem?_inorderFrom_root :
    ((PtrTree.nodeAt s a d t u).inorderFrom f s)[t.count]? = some (f d) := by
  rw [inorderFrom_nodeAt, List.getElem?_append_right (length_inorderFrom f s t).le,
    length_inorderFrom, Nat.sub_self, List.getElem?_cons_zero]

/-- A rank in the other subtree. -/
theorem getElem?_inorderFrom_second :
    ((PtrTree.nodeAt s a d t u).inorderFrom f s)[t.count + 1 + k]? =
      (u.inorderFrom f s)[k]? := by
  have hle : (t.inorderFrom f s).length ≤ t.count + 1 + k := by
    rw [length_inorderFrom]
    omega
  have hsub : t.count + 1 + k - t.count = k + 1 := by omega
  rw [inorderFrom_nodeAt, List.getElem?_append_right hle, length_inorderFrom, hsub,
    List.getElem?_cons_succ]

end Node

/-! ## Ranks in a sorted list -/

variable [LinearOrder α]

theorem length_filter_lt {l : List α} {k : ℕ} {v : α} (h : l.Pairwise (· > ·))
    (hk : l[k]? = some v) : (l.filter (v < ·)).length = k := by
  induction l generalizing k with
  | nil => cases hk
  | cons x l ih =>
      obtain ⟨hx, hl⟩ := List.pairwise_cons.1 h
      cases k with
      | zero =>
          obtain rfl : x = v := Option.some.inj hk
          have hnone : (x :: l).filter (x < ·) = [] := by
            refine List.filter_eq_nil_iff.2 fun y hy => ?_
            rcases List.mem_cons.1 hy with rfl | hy
            · simp
            · simpa using (hx y hy).le
          rw [hnone, List.length_nil]
      | succ k =>
          have hv : v < x := hx v (List.mem_of_getElem? hk)
          rw [List.filter_cons_of_pos (by simpa using hv), List.length_cons, ih hl hk]

/-- Exactly `k` different elements are larger than the one of rank `k`. -/
theorem card_filter_lt {l : List α} {k : ℕ} {v : α} (h : l.Pairwise (· > ·))
    (hk : l[k]? = some v) : (l.toFinset.filter (v < ·)).card = k := by
  have hnodup : l.Nodup := h.imp ne_of_gt
  have heq : l.toFinset.filter (v < ·) = (l.filter (v < ·)).toFinset := by
    ext x
    simp
  rw [heq, List.toFinset_card_of_nodup (hnodup.filter _), length_filter_lt h hk]

end CLib
