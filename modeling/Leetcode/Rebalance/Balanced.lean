import Leetcode.Lib.BalancedTree
import Leetcode.Lib.CInt
import Leetcode.Lib.SearchTree
import Leetcode.Rebalance.Model

/-!
# The rebalanced tree

* `Holds` — the nodes at a pointer form a tree of addresses.
* `inorder_ok` — the array gets the addresses in order.
* `buildBalanced_ok` — a range of the array becomes a tree, and only its nodes are written to.
* `balanceBST_ok`, `balanceBST_exact` — the tree that `balanceBST` returns.
-/

namespace Leetcode
namespace Rebalance

open CLib

/-- The nodes at the pointer form the tree of addresses. -/
def Holds (m : Heap) : Option Ref → BinaryTree Ref → Prop
  | p, .nil => p = none
  | p, .node a l r => p = some a ∧ Holds m (m a).left l ∧ Holds m (m a).right r

/-- The heaps differ in the links of the given nodes at most. -/
structure Relinked (nodes : List Ref) (m m' : Heap) : Prop where
  val : ∀ a, (m' a).val = (m a).val
  frame : ∀ a, a ∉ nodes → m' a = m a

variable {m m' m₁ m₂ : Heap} {p : Option Ref} {t : BinaryTree Ref} {nodes nodes' : List Ref}
  {a : Ref}

/-! ## The heap -/

theorem Holds.congr (h : Holds m p t) (hsame : ∀ a ∈ CLib.inorder t, m' a = m a) :
    Holds m' p t := by
  induction t generalizing p with
  | nil => exact h
  | node a l r ihl ihr =>
      obtain ⟨rfl, hl, hr⟩ := h
      have ha : m' a = m a := hsame a (mem_inorder_node.2 (Or.inr (Or.inl rfl)))
      have hleft : ∀ b ∈ CLib.inorder l, m' b = m b := fun b hb =>
        hsame b (mem_inorder_node.2 (Or.inl hb))
      have hright : ∀ b ∈ CLib.inorder r, m' b = m b := fun b hb =>
        hsame b (mem_inorder_node.2 (Or.inr (Or.inr hb)))
      rw [← ha] at hl hr
      exact ⟨rfl, ihl hl hleft, ihr hr hright⟩

/-- A tree does not see what happens to other nodes. -/
theorem Holds.relinked (h : Holds m p t) (hrelinked : Relinked nodes m m')
    (hdisjoint : ∀ a ∈ CLib.inorder t, a ∉ nodes) : Holds m' p t :=
  h.congr fun a ha => hrelinked.frame a (hdisjoint a ha)

theorem Relinked.refl (nodes : List Ref) (m : Heap) : Relinked nodes m m :=
  ⟨fun _ => rfl, fun _ _ => rfl⟩

theorem Relinked.trans (h₁ : Relinked nodes m m₁) (h₂ : Relinked nodes m₁ m₂) :
    Relinked nodes m m₂ where
  val a := (h₂.val a).trans (h₁.val a)
  frame a ha := (h₂.frame a ha).trans (h₁.frame a ha)

theorem Relinked.mono (h : Relinked nodes m m') (hsub : ∀ a ∈ nodes, a ∈ nodes') :
    Relinked nodes' m m' where
  val := h.val
  frame a ha := h.frame a fun hmem => ha (hsub a hmem)

theorem relinked_update {node : TreeNode} (hval : node.val = (m a).val) :
    Relinked [a] m (Function.update m a node) where
  val b := by
    by_cases hb : b = a
    · subst hb
      rw [Function.update_self, hval]
    · rw [Function.update_of_ne hb]
  frame b hb := Function.update_of_ne (fun heq => hb (List.mem_singleton.2 heq)) _ _

theorem relinked_setLeft (m : Heap) (a : Ref) (p : Option Ref) : Relinked [a] m (m.setLeft a p) :=
  relinked_update rfl

theorem relinked_setRight (m : Heap) (a : Ref) (p : Option Ref) :
    Relinked [a] m (m.setRight a p) := relinked_update rfl

/-! ## Flattening -/

/-- `inorder` appends the nodes of the tree to the array. -/
theorem inorder_ok {fuel : ℕ} {arr : List (Option Ref)} {index : ℤ} (h : Holds m p t)
    (hfuel : t.numNodes < fuel) (hindex : 0 ≤ index) (hroom : index + t.numNodes ≤ arr.length) :
    ∃ arr', inorder m fuel p arr index = some (arr', index + t.numNodes) ∧
      arr'.length = arr.length ∧
      segment arr' 0 (index + t.numNodes) = segment arr 0 index ++ (CLib.inorder t).map some := by
  induction t generalizing fuel p arr index with
  | nil =>
      obtain rfl : p = none := h
      obtain ⟨fuel, rfl⟩ : ∃ k, fuel = k + 1 := ⟨fuel - 1, by omega⟩
      refine ⟨arr, ?_, rfl, ?_⟩
      · rw [inorder, BinaryTree.numNodes, Int.natCast_zero, Int.add_zero]
      · rw [BinaryTree.numNodes, Int.natCast_zero, Int.add_zero, CLib.inorder, List.map_nil,
          List.append_nil]
  | node a l r ihl ihr =>
      obtain ⟨rfl, hl, hr⟩ := h
      obtain ⟨fuel, rfl⟩ : ∃ k, fuel = k + 1 := ⟨fuel - 1, by omega⟩
      rw [BinaryTree.numNodes] at hfuel hroom
      push_cast at hroom
      have hfuel₁ : l.numNodes < fuel := by omega
      have hfuel₂ : r.numNodes < fuel := by omega
      have hroom₁ : index + l.numNodes ≤ arr.length := by omega
      obtain ⟨arr₁, hrun₁, hlength₁, hsegment₁⟩ := ihl hl hfuel₁ hindex hroom₁
      have hindex₁ : 0 ≤ index + l.numNodes := by omega
      have hlt : index + l.numNodes < arr₁.length := by omega
      have hroom₂ : index + l.numNodes + 1 + r.numNodes ≤
          (arr₁.set (index + l.numNodes).toNat (some a)).length := by
        rw [List.length_set]
        omega
      obtain ⟨arr₂, hrun₂, hlength₂, hsegment₂⟩ := ihr hr hfuel₂ (by omega) hroom₂
      have htotal : index + ((BinaryTree.node a l r).numNodes : ℤ) =
          index + l.numNodes + 1 + r.numNodes := by
        rw [BinaryTree.numNodes]
        push_cast
        omega
      refine ⟨arr₂, ?_, ?_, ?_⟩
      · rw [inorder, hrun₁, Option.bind_some]
        show (store arr₁ (index + l.numNodes) (some a)).bind _ = _
        rw [store_ok hindex₁ hlt, Option.bind_some, hrun₂, htotal]
      · rw [hlength₂, List.length_set, hlength₁]
      · rw [htotal, hsegment₂, segment_store le_rfl hindex₁ hlt, hsegment₁, CLib.inorder,
          List.map_append, List.map_cons, List.append_assoc, List.append_assoc,
          List.singleton_append]

/-! ## Building -/

theorem middle_spec {start last : ℤ} (h : start ≤ last) :
    start ≤ middle start last ∧ middle start last ≤ last ∧
      middle start last - start ≤ last - middle start last ∧
      last - middle start last ≤ middle start last - start + 1 := by
  rw [middle, Int.tdiv_eq_ediv_of_nonneg (by omega)]
  omega

section Join

variable {root : Ref} {p₁ p₂ : Option Ref} {t₁ t₂ : BinaryTree Ref} {l₁ l₂ : List Ref}

/-- What is written once the left tree is there. -/
theorem relinked_join (hrelinked : Relinked l₂ (m₁.setLeft root p₁) m₂) (p₂ : Option Ref) :
    Relinked (root :: l₂) m₁ (m₂.setRight root p₂) := by
  have hroot : ∀ a ∈ [root], a ∈ root :: l₂ := by
    intro a ha
    rw [List.mem_singleton.1 ha]
    exact List.mem_cons_self
  have hleft := (relinked_setLeft m₁ root p₁).mono hroot
  have hmiddle := hrelinked.mono fun a ha => List.mem_cons_of_mem root ha
  have hright := (relinked_setRight m₂ root p₂).mono hroot
  exact (hleft.trans hmiddle).trans hright

/-- The node in the middle gets the two trees that were built. -/
theorem Holds.join (h₁ : Holds m₁ p₁ t₁) (ht₁ : CLib.inorder t₁ = l₁)
    (hrelinked : Relinked l₂ (m₁.setLeft root p₁) m₂) (h₂ : Holds m₂ p₂ t₂)
    (ht₂ : CLib.inorder t₂ = l₂) (hnodup : (l₁ ++ root :: l₂).Nodup) :
    Holds (m₂.setRight root p₂) (some root) (.node root t₁ t₂) := by
  obtain ⟨-, hnodup₂, hdisjoint⟩ := List.nodup_append.1 hnodup
  have hroot : root ∉ l₂ := (List.nodup_cons.1 hnodup₂).1
  have hnode : m₂.setRight root p₂ root = ⟨(m₁ root).val, p₁, p₂⟩ := by
    rw [Heap.setRight, Function.update_self, hrelinked.frame root hroot, Heap.setLeft,
      Function.update_self]
  have hleft : Holds (m₂.setRight root p₂) p₁ t₁ := by
    refine h₁.relinked (relinked_join hrelinked p₂) fun a ha hmem => ?_
    rw [ht₁] at ha
    exact hdisjoint a ha a hmem rfl
  have hright : Holds (m₂.setRight root p₂) p₂ t₂ := by
    refine h₂.relinked (relinked_setRight m₂ root p₂) fun a ha hmem => hroot ?_
    rw [ht₂] at ha
    rwa [← List.mem_singleton.1 hmem]
  rw [Holds, hnode]
  exact ⟨rfl, hleft, hright⟩

end Join

/-- A range of the array is the part in front of one of its nodes, the node and the part behind
it. -/
theorem range_split {arr : List (Option Ref)} {start mid last : ℤ} (hstart : 0 ≤ start)
    (hlow : start ≤ mid) (hhigh : mid ≤ last) (hlen : last + 1 ≤ arr.length)
    (hnodes : segment arr start (last + 1) = nodes.map some) :
    ∃ l₁ root l₂, nodes = l₁ ++ root :: l₂ ∧ load arr mid = some (some root) ∧
      segment arr start (mid - 1 + 1) = l₁.map some ∧ (l₁.length : ℤ) = mid - start ∧
      segment arr (mid + 1) (last + 1) = l₂.map some ∧ (l₂.length : ℤ) = last - mid := by
  obtain ⟨x, hload, hbehind⟩ :=
    segment_eq_cons (hstart.trans hlow) (Int.lt_add_one_of_le hhigh) hlen
  have hlength₁ := length_segment (a := arr) hstart hlow (by omega)
  have hlength₂ := length_segment (a := arr) (i := mid + 1) (j := last + 1) (by omega)
    (by omega) hlen
  rw [segment_append hstart hlow (by omega), hbehind] at hnodes
  obtain ⟨l₁, rest, rfl, hl₁, hrest⟩ := List.append_eq_map_iff.1 hnodes
  obtain ⟨root, l₂, rfl, rfl, hl₂⟩ := List.map_eq_cons_iff.1 hrest
  rw [← hl₁, List.length_map] at hlength₁
  rw [← hl₂, List.length_map] at hlength₂
  refine ⟨l₁, root, l₂, rfl, hload, ?_, hlength₁, hl₂.symm, by omega⟩
  rw [Int.sub_add_cancel, hl₁]

/-- `buildBalanced` makes a balanced tree of the nodes in a range of the array, and writes to
these nodes only. -/
theorem buildBalanced_ok {fuel : ℕ} {arr : List (Option Ref)} {start last : ℤ} (m : Heap)
    (hstart : 0 ≤ start) (hlast : start ≤ last + 1) (hlen : last + 1 ≤ arr.length)
    (hnodes : segment arr start (last + 1) = nodes.map some) (hnodup : nodes.Nodup)
    (hfuel : nodes.length < fuel) :
    ∃ m' p t, buildBalanced arr fuel m start last = some (m', p) ∧ Holds m' p t ∧
      CLib.inorder t = nodes ∧ SizeBalanced t ∧ Relinked nodes m m' := by
  induction fuel generalizing m start last nodes with
  | zero => exact absurd hfuel (Nat.not_lt_zero _)
  | succ fuel ih =>
      rw [buildBalanced]
      by_cases hempty : start > last
      · obtain rfl : start = last + 1 := by omega
        rw [segment_self] at hnodes
        obtain rfl := List.map_eq_nil_iff.1 hnodes.symm
        exact ⟨m, none, .nil, if_pos hempty, rfl, rfl, trivial, .refl [] m⟩
      · rw [if_neg hempty]
        obtain ⟨hlow, hhigh, hsmaller, hlarger⟩ := middle_spec (not_lt.1 hempty)
        generalize middle start last = mid at hlow hhigh hsmaller hlarger
        obtain ⟨l₁, root, l₂, rfl, hload, hfront, hlength₁, hbehind, hlength₂⟩ :=
          range_split hstart hlow hhigh hlen hnodes
        have hsize : (l₁ ++ root :: l₂).length = l₁.length + (l₂.length + 1) :=
          List.length_append
        obtain ⟨hnodup₁, hnodup₂, -⟩ := List.nodup_append.1 hnodup
        obtain ⟨m₁, p₁, t₁, hbuild₁, hholds₁, ht₁, hbalanced₁, hrelinked₁⟩ :=
          ih m hstart (by omega) (by omega) hfront hnodup₁ (by omega)
        obtain ⟨m₂, p₂, t₂, hbuild₂, hholds₂, ht₂, hbalanced₂, hrelinked₂⟩ :=
          ih (m₁.setLeft root p₁) (by omega) (by omega) hlen hbehind
            (List.nodup_cons.1 hnodup₂).2 (by omega)
        rw [← ht₁, inorder_length] at hlength₁
        rw [← ht₂, inorder_length] at hlength₂
        refine ⟨m₂.setRight root p₂, some root, .node root t₁ t₂, ?_,
          hholds₁.join ht₁ hrelinked₂ hholds₂ ht₂ hnodup, ?_,
          sizeBalanced_node hbalanced₁ hbalanced₂ (by omega) (by omega), ?_⟩
        · simp only [hload, hbuild₁, hbuild₂, Option.bind_some, Option.map_some]
        · rw [CLib.inorder, ht₁, ht₂]
        · -- First the nodes in front of the middle, then the middle and the nodes behind it.
          have hfirst := hrelinked₁.mono fun a ha => List.mem_append_left (root :: l₂) ha
          have hsecond := (relinked_join hrelinked₂ p₂).mono fun a ha =>
            List.mem_append_right l₁ ha
          exact hfirst.trans hsecond

/-- Both steps of `balanceBST`, for a tree that fits into the array. -/
theorem balanceBST_ok (junk : ℕ → Option Ref) (h : Holds m p t) (hnodup : (CLib.inorder t).Nodup)
    (hsize : t.numNodes ≤ 10000) :
    ∃ m' p' t', balanceBST junk m p = some (m', p') ∧ Holds m' p' t' ∧
      CLib.inorder t' = CLib.inorder t ∧ SizeBalanced t' ∧ Relinked (CLib.inorder t) m m' := by
  have hroom : (0 : ℤ) + t.numNodes ≤ ((List.range 10000).map junk).length := by
    rw [List.length_map, List.length_range]
    omega
  obtain ⟨arr, hrun, hlength, hsegment⟩ := inorder_ok h (by omega : t.numNodes < 10001) le_rfl hroom
  rw [List.length_map, List.length_range] at hlength
  rw [segment_self, List.nil_append] at hsegment
  have hnodes : segment arr 0 (0 + (t.numNodes : ℤ) - 1 + 1) = (CLib.inorder t).map some := by
    rw [Int.sub_add_cancel, hsegment]
  have hfuel : (CLib.inorder t).length < 10001 := by
    rw [inorder_length]
    omega
  obtain ⟨m', p', t', hbuild, hholds, ht', hbalanced, hrelinked⟩ :=
    buildBalanced_ok m le_rfl (by omega) (by omega) hnodes hnodup hfuel
  refine ⟨m', p', t', ?_, hholds, ht', hbalanced, hrelinked⟩
  rw [balanceBST, hrun]
  exact hbuild

/-- `balanceBST` rebuilds the tree from its own nodes in the same order, so it stays a search tree;
the sides of every node differ by one level at most, and the tree has as few levels as have room
for the nodes. -/
theorem balanceBST_exact (junk : ℕ → Option Ref) (h : Holds m p t)
    (hnodup : (CLib.inorder t).Nodup) (hsize : t.numNodes ≤ 10000) :
    ∃ m' p' t', balanceBST junk m p = some (m', p') ∧ Holds m' p' t' ∧
      CLib.inorder t' = CLib.inorder t ∧ (∀ a, (m' a).val = (m a).val) ∧
      (∀ a, a ∉ CLib.inorder t → m' a = m a) ∧
      (SearchTree (fun a b => (m a).val < (m b).val) t →
        SearchTree (fun a b => (m' a).val < (m' b).val) t') ∧
      HeightBalanced t' ∧ IsLeast {h | t.numNodes ≤ 2 ^ h - 1} t'.height := by
  obtain ⟨m', p', t', hrun, hholds, ht', hbalanced, hrelinked⟩ := balanceBST_ok junk h hnodup hsize
  have hnumNodes : t'.numNodes = t.numNodes := by
    rw [← inorder_length, ht', inorder_length]
  refine ⟨m', p', t', hrun, hholds, ht', hrelinked.val, hrelinked.frame, fun hsearch => ?_,
    heightBalanced hbalanced, ?_⟩
  · have htrans : IsTrans Ref fun a b => (m a).val < (m b).val := ⟨fun _ _ _ => lt_trans⟩
    simp only [hrelinked.val]
    rw [searchTree_iff, ht']
    exact (searchTree_iff t).1 hsearch
  · rw [← hnumNodes]
    exact height_least hbalanced

/-- A path to the right of three nodes. -/
def path : Heap := fun a => ⟨Int32.ofNat a, none, if a = 2 then none else some (a + 1)⟩

theorem balanceBST_exact_path :
    ∃ m' p' t', balanceBST (fun _ => none) path (some 0) = some (m', p') ∧ Holds m' p' t' ∧
      CLib.inorder t' = CLib.inorder (.node 0 .nil (.node 1 .nil (.node 2 .nil .nil))) ∧
      (∀ a, (m' a).val = (path a).val) ∧
      (∀ a, a ∉ CLib.inorder (.node 0 .nil (.node 1 .nil (.node 2 .nil .nil))) →
        m' a = path a) ∧
      (SearchTree (fun a b => (path a).val < (path b).val)
          (.node 0 .nil (.node 1 .nil (.node 2 .nil .nil))) →
        SearchTree (fun a b => (m' a).val < (m' b).val) t') ∧
      HeightBalanced t' ∧
      IsLeast {h | (BinaryTree.node 0 .nil (.node 1 .nil (.node 2 .nil .nil))).numNodes ≤ 2 ^ h - 1}
        t'.height :=
  balanceBST_exact (fun _ => none) ⟨rfl, rfl, rfl, rfl, rfl, rfl, rfl⟩ (by decide) (by decide)

end Rebalance
end Leetcode
