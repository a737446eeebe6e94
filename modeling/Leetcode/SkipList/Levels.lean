import Leetcode.SkipList.Refine

/-!
# The representation of a skip list

The operations keep more than the multiset: the chain of every level is the part of the one
below it that is high enough.  `Represents` says this of the links alone, without the search.

An operation that read an entry of `update` which it has not assigned would be undefined, so
that a run comes to its end means that there was none.
-/

namespace Leetcode
namespace SkipList

open CLib

/-- The nodes of the list are `nodes`, in the order of level `0`. -/
structure Represents (obj : Skiplist) (nodes : List Ref) : Prop where
  chain_zero : Chain (obj.forward 0) (obj.forward 0 obj.head) nodes
  chain : ∀ i < MAX_LEVEL, Chain (obj.forward i) (obj.forward i obj.head)
    (nodes.filter fun a => i < obj.height a)
  sorted : ∀ i < MAX_LEVEL,
    ((nodes.filter fun a => i < obj.height a).map obj.val).Pairwise (· ≤ ·)
  above : ∀ i < MAX_LEVEL, obj.level ≤ i → obj.forward i obj.head = none
  top : obj.level = 1 ∨ obj.forward (obj.level - 1) obj.head ≠ none

variable {obj : Skiplist} {l : List Ref} {i : ℕ}

/-- The first node of a level. -/
theorem Valid.forward_head (h : Valid obj l) (hi : i < MAX_LEVEL) :
    obj.forward i obj.head = (onLevel obj i l).head? :=
  chain_head (h.chain i hi).2

theorem Valid.represents (h : Valid obj l) : Represents obj l where
  chain_zero := h.chain_zero.2
  chain := fun i hi => (h.chain i hi).2
  sorted := fun i _ => by
    have hsub : (onLevel obj i l).Sublist l := List.filter_sublist
    exact h.sorted.sublist (hsub.map obj.val)
  above := fun i hi hlevel => by
    rw [h.forward_head hi, h.onLevel_top hlevel, List.head?_nil]
  top := by
    have hpos := h.level_pos
    have hle := h.level_le
    refine h.top.imp_right ?_
    rintro ⟨a, ha, hheight⟩ hnone
    rw [h.forward_head (by omega), List.head?_eq_none_iff] at hnone
    have hmem : a ∈ onLevel obj (obj.level - 1) l := mem_onLevel.2 ⟨ha, by omega⟩
    rw [hnone] at hmem
    cases hmem

/-- Whatever is added and erased, and whatever levels `randomLevel` returns, no call is
undefined, every level is the chain of the nodes that are high enough, and no level above the
highest one in use has nodes. -/
theorem skiplist_represents (calls : List (Request × Level)) :
    ∃ answered obj nodes, Trace step skiplistCreate calls answered obj ∧ Represents obj nodes ∧
      ∀ x, (nodes.map obj.val).count x =
        outcome Counts.step (fun _ => 0) (calls.map Prod.fst) x := by
  obtain ⟨obj, l, htrace, h, hcounts⟩ := run_ok calls
  exact ⟨_, obj, l, htrace, h.represents, fun x => congrFun hcounts x⟩

end SkipList
end Leetcode
