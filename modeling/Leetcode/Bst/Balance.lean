import Leetcode.Bst.Memory

/-!
# `1382.c`: the nodes in memory

`balanceBST` on the nodes that are allocated.  On a tree of such nodes it does what it does on a
heap where every node may be accessed (`balanceBST_eq`): it reads the nodes of the tree, and the
array holds no others.
-/

namespace Leetcode
namespace Bst

open CLib
open Rebalance (Holds middle)

namespace Memory

/-- `inorder(root, arr, index)`: the array, and what `index` points to. -/
def inorder (m : Memory) :
    ℕ → Option Ref → List (Option Ref) → ℤ → Option (List (Option Ref) × ℤ)
  | 0, _, _, _ => none
  | _ + 1, none, arr, index => some (arr, index)
  | fuel + 1, some root, arr, index =>
      (m.read root).bind fun node =>
        (m.inorder fuel node.left arr index).bind fun (arr, index) =>
          (store arr index (some root)).bind fun arr => m.inorder fuel node.right arr (index + 1)

/-- `buildBalanced(arr, start, end)`: the memory, and the root. -/
def buildBalanced (arr : List (Option Ref)) :
    ℕ → Memory → ℤ → ℤ → Option (Memory × Option Ref)
  | 0, _, _, _ => none
  | fuel + 1, m, start, last =>
      if start > last then some (m, none)
      else
        let mid := middle start last
        (load arr mid).bind fun p =>
          (buildBalanced arr fuel m start (mid - 1)).bind fun (m, left) => p.bind fun root =>
            (m.setLeft root left).bind fun m =>
              (buildBalanced arr fuel m (mid + 1) last).bind fun (m, right) =>
                (m.setRight root right).map fun m => (m, some root)

/-- `balanceBST(root)`: the memory afterwards, and the root. -/
def balanceBST (junk : ℕ → Option Ref) (m : Memory) (root : Option Ref) :
    Option (Memory × Option Ref) :=
  (m.inorder 10001 root ((List.range 10000).map junk) 0).bind fun (arr, index) =>
    buildBalanced arr 10001 m 0 (index - 1)

end Memory

variable {m : Memory} {p : Option Ref} {t : BinaryTree Ref} {arr : List (Option Ref)}

theorem inorder_eq (h : Holds m.heap p t) (hnodes : ∀ a ∈ inorder t, a ∈ m.nodes) (fuel : ℕ)
    (arr : List (Option Ref)) (index : ℤ) :
    m.inorder fuel p arr index = Rebalance.inorder m.heap fuel p arr index := by
  induction fuel generalizing p t arr index with
  | zero => rfl
  | succ fuel ih =>
      cases t with
      | nil =>
          obtain rfl : p = none := h
          rfl
      | node a l r =>
          obtain ⟨rfl, hl, hr⟩ := h
          have hleft := ih hl fun b hb => hnodes b (mem_inorder_node.2 (.inl hb))
          have hright := ih hr fun b hb => hnodes b (mem_inorder_node.2 (.inr (.inr hb)))
          simp only [Memory.inorder, Rebalance.inorder, hleft, hright, Option.bind_some,
            read_ok (hnodes a (mem_inorder_node.2 (.inr (.inl rfl))))]

/-- Where the array has allocated nodes, these are read and written. -/
theorem buildBalanced_eq {fuel : ℕ} {start last : ℤ}
    (harr : ∀ k a, start ≤ k → k ≤ last → load arr k = some (some a) → a ∈ m.nodes) :
    Memory.buildBalanced arr fuel m start last =
      (Rebalance.buildBalanced arr fuel m.heap start last).map fun r =>
        ({ m with heap := r.1 }, r.2) := by
  induction fuel generalizing m start last with
  | zero => rfl
  | succ fuel ih =>
      rw [Memory.buildBalanced, Rebalance.buildBalanced]
      by_cases hempty : start > last
      · rw [if_pos hempty, if_pos hempty]
        rfl
      · obtain ⟨hlow, hhigh, -⟩ := Rebalance.middle_spec (not_lt.1 hempty)
        rw [if_neg hempty, if_neg hempty]
        dsimp only
        generalize middle start last = mid at hlow hhigh
        cases hload : load arr mid with
        | none => rfl
        | some p =>
            rw [Option.bind_some, Option.bind_some, ih fun k a hk hle => harr k a hk (by omega)]
            cases Rebalance.buildBalanced arr fuel m.heap start (mid - 1) with
            | none => rfl
            | some r =>
                cases p with
                | none => rfl
                | some root =>
                    have hroot : root ∈ m.nodes := harr mid root hlow hhigh hload
                    have hleft : Memory.setLeft { m with heap := r.1 } root r.2 =
                        some { m with heap := r.1.setLeft root r.2 } :=
                      setLeft_ok (m := { m with heap := r.1 }) hroot r.2
                    have hlater : ∀ k a, mid + 1 ≤ k → k ≤ last →
                        load arr k = some (some a) → a ∈ m.nodes :=
                      fun k a hk => harr k a (by omega)
                    have hrest := ih (m := { m with heap := r.1.setLeft root r.2 }) hlater
                    simp only [Option.map_some, Option.bind_some, hleft, hrest]
                    cases Rebalance.buildBalanced arr fuel (r.1.setLeft root r.2) (mid + 1) last
                    with
                    | none => rfl
                    | some r' =>
                        have hright : Memory.setRight { m with heap := r'.1 } root r'.2 =
                            some { m with heap := r'.1.setRight root r'.2 } :=
                          setRight_ok (m := { m with heap := r'.1 }) hroot r'.2
                        simp only [Option.map_some, Option.bind_some, hright]

/-- `balanceBST` accesses allocated nodes only. -/
theorem balanceBST_eq (junk : ℕ → Option Ref) (h : Holds m.heap p t)
    (hnodes : ∀ a ∈ inorder t, a ∈ m.nodes) (hsize : t.numNodes ≤ 10000) :
    Memory.balanceBST junk m p = (Rebalance.balanceBST junk m.heap p).map fun r =>
      ({ m with heap := r.1 }, r.2) := by
  have hroom : (0 : ℤ) + t.numNodes ≤ ((List.range 10000).map junk).length := by
    rw [List.length_map, List.length_range]
    omega
  obtain ⟨arr, hflat, -, hsegment⟩ :=
    Rebalance.inorder_ok h (by omega : t.numNodes < 10001) le_rfl hroom
  rw [segment_self, List.nil_append] at hsegment
  rw [Memory.balanceBST, Rebalance.balanceBST, inorder_eq h hnodes, hflat, Option.bind_some]
  refine buildBalanced_eq fun k a hk hle hload => hnodes a ?_
  have hmem := mem_segment le_rfl hk (Int.lt_of_le_sub_one hle) hload
  rw [hsegment] at hmem
  simpa using hmem

end Bst
end Leetcode
