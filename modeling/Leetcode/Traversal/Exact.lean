import Leetcode.Lib.SearchTree
import Leetcode.Traversal.Model

/-!
# What `inorderTraversal` writes

What is left to do is the tree below `root` and then, for every node on the stack from the top
down, the node itself and its right subtree (`pending`).  With what is in `result` this is the
whole in-order sequence at every time (`Inv`), so neither array gets more entries than the tree
has nodes.
-/

namespace Leetcode
namespace Traversal

open CLib

/-- A node on the stack stands for itself and for what is on its right. -/
def fromNode : TreeNode → List Int32
  | .nil => []
  | .node val _ right => val :: inorder right

/-- What the nodes on the stack stand for. -/
def pending (stack : List TreeNode) (top : ℤ) : List Int32 := (stacked stack top).flatMap fromNode

/-- A stack inside of its array, without null pointers. -/
structure StackOk (stack : List TreeNode) (top : ℤ) : Prop where
  top_ge : -1 ≤ top
  top_lt : top < stack.length
  nodes : ∀ t ∈ stacked stack top, t ≠ .nil

/-- The state in front of a round. -/
structure Inv (t : TreeNode) (s : State) : Prop where
  stack_ok : StackOk s.stack s.top
  stack_length : s.stack.length = 100
  result_length : s.result.length = 100
  returnSize_nonneg : 0 ≤ s.returnSize
  returnSize_le : s.returnSize ≤ 100
  sequence : segment s.result 0 s.returnSize ++ (inorder s.root ++ pending s.stack s.top) =
    inorder t

variable {stack : List TreeNode} {top : ℤ} {t : TreeNode} {s : State}

theorem length_le_flatMap {nodes : List TreeNode} (h : ∀ t ∈ nodes, t ≠ .nil) :
    nodes.length ≤ (nodes.flatMap fromNode).length := by
  induction nodes with
  | nil => exact le_rfl
  | cons t nodes ih =>
      have hrest := ih fun u hu => h u (List.mem_cons_of_mem _ hu)
      cases t with
      | nil => exact absurd rfl (h .nil List.mem_cons_self)
      | node val left right =>
          rw [List.flatMap_cons, List.length_append, fromNode, List.length_cons, List.length_cons]
          omega

/-- Every node on the stack is still to be written. -/
theorem StackOk.depth_le (h : StackOk stack top) : top + 1 ≤ (pending stack top).length := by
  rw [← length_stacked h.top_ge (Int.add_one_le_of_lt h.top_lt)]
  exact Int.ofNat_le.2 (length_le_flatMap h.nodes)

/-- `root = stack[top--]` -/
theorem StackOk.pop (h : StackOk stack top) (hne : top ≠ -1) :
    ∃ val left right, load stack top = some (.node val left right) ∧
      pending stack top = val :: (inorder right ++ pending stack (top - 1)) ∧
      StackOk stack (top - 1) := by
  have hge := h.top_ge
  have hlt := h.top_lt
  obtain ⟨node, hload, hstacked⟩ := stacked_top hge hne (Int.add_one_le_of_lt hlt)
  have hnodes := h.nodes
  rw [hstacked] at hnodes
  cases node with
  | nil => exact absurd rfl (hnodes .nil List.mem_cons_self)
  | node val left right =>
      refine ⟨val, left, right, hload, ?_, by omega, by omega, fun u hu => ?_⟩
      · rw [pending, hstacked]
        rfl
      · exact hnodes u (List.mem_cons_of_mem _ hu)

/-- `stack[++top] = root` -/
theorem StackOk.push (h : StackOk stack top) (hlt : top + 1 < stack.length) (val : Int32)
    (left right : TreeNode) :
    ∃ stack', store stack (top + 1) (.node val left right) = some stack' ∧
      stack'.length = stack.length ∧ StackOk stack' (top + 1) ∧
      pending stack' (top + 1) = val :: (inorder right ++ pending stack top) := by
  obtain ⟨hstore, hstacked⟩ := stacked_push h.top_ge hlt (.node val left right)
  have hlength : (stack.set (top + 1).toNat (.node val left right)).length = stack.length :=
    List.length_set
  refine ⟨_, hstore, hlength, ⟨Int.le_add_one h.top_ge, by rwa [hlength], ?_⟩, ?_⟩
  · rw [hstacked]
    intro u hu
    rcases List.mem_cons.1 hu with rfl | hu
    · intro hnil
      cases hnil
    · exact h.nodes u hu
  · rw [pending, hstacked]
    rfl

/-- The inner loop has room for the nodes that it pushes, and changes nothing of what is left to
do. -/
theorem pushLeft_ok (root : TreeNode) (h : StackOk stack top)
    (hroom : top + 1 + root.numNodes ≤ stack.length) :
    ∃ stack' top', pushLeft root stack top = some (stack', top') ∧ StackOk stack' top' ∧
      stack'.length = stack.length ∧
      pending stack' top' = inorder root ++ pending stack top := by
  induction root generalizing stack top with
  | nil => exact ⟨stack, top, rfl, h, rfl, rfl⟩
  | node val left right ihl _ =>
      rw [BinaryTree.numNodes] at hroom
      push_cast at hroom
      obtain ⟨stack₁, hstore, hlength₁, hpushed, hpending₁⟩ := h.push (by omega) val left right
      have hleft : top + 1 + 1 + left.numNodes ≤ stack₁.length := by omega
      obtain ⟨stack', top', hpush, hok, hlength, hpending⟩ := ihl hpushed hleft
      refine ⟨stack', top', ?_, hok, hlength.trans hlength₁, ?_⟩
      · rw [pushLeft, hstore]
        exact hpush
      · rw [hpending, hpending₁, inorder, List.append_assoc, List.cons_append]

theorem inv_start (junk : ℕ → Int32) (junkStack : ℕ → TreeNode) (t : TreeNode) :
    Inv t (start junk junkStack t) where
  stack_ok := ⟨le_rfl, by simp [start], by simp [start, stacked_empty]⟩
  stack_length := by simp [start]
  result_length := by simp [start]
  returnSize_nonneg := le_rfl
  returnSize_le := by simp [start]
  sequence := by simp [start, pending, stacked_empty, segment_self]

/-- What is written and what is left are the nodes of the tree. -/
theorem Inv.count (h : Inv t s) :
    s.returnSize + s.root.numNodes + (pending s.stack s.top).length = t.numNodes := by
  have hlength := congrArg List.length h.sequence
  rw [List.length_append, List.length_append, segment_zero, List.length_take, h.result_length,
    inorder_length, inorder_length] at hlength
  have hnonneg := h.returnSize_nonneg
  have hle := h.returnSize_le
  omega

/-- A round writes the next value. -/
theorem inv_round (ht : t.numNodes ≤ 100) (h : Inv t s) (hs : ¬s.Finished) :
    ∃ s', round s = some s' ∧ Inv t s' ∧ s'.returnSize = s.returnSize + 1 := by
  have hcount := h.count
  have hnonneg := h.returnSize_nonneg
  have hdepth := h.stack_ok.depth_le
  have hroom : s.top + 1 + s.root.numNodes ≤ s.stack.length := by
    rw [h.stack_length]
    omega
  obtain ⟨stack, top, hpush, hok, hlength, hpending⟩ := pushLeft_ok s.root h.stack_ok hroom
  have hsize := congrArg List.length hpending
  rw [List.length_append, inorder_length] at hsize
  -- The stack is not empty: `root` was a node, or the stack had one.
  have hne : top ≠ -1 := by
    rintro rfl
    rw [pending, stacked_empty, List.flatMap_nil, List.length_nil] at hsize
    refine hs ⟨?_, ?_⟩
    · cases hroot : s.root with
      | nil => rfl
      | node val left right =>
          rw [hroot, BinaryTree.numNodes] at hsize
          omega
    · have htop := h.stack_ok.top_ge
      omega
  obtain ⟨val, left, right, hload, hfirst, hpop⟩ := hok.pop hne
  rw [hpending] at hfirst
  have hwritten := congrArg List.length hfirst
  rw [List.length_append, inorder_length, List.length_cons] at hwritten
  have hlt : s.returnSize < s.result.length := by
    rw [h.result_length]
    omega
  refine ⟨⟨right, stack, top - 1, s.result.set s.returnSize.toNat val, s.returnSize + 1⟩,
    ?_, ⟨hpop, ?_, ?_, ?_, ?_, ?_⟩, rfl⟩
  · rw [round, hpush, Option.bind_some]
    simp only [hload, Option.bind_some, store_ok hnonneg hlt, Option.map_some]
  · exact hlength.trans h.stack_length
  · exact List.length_set.trans h.result_length
  · exact Int.le_add_one hnonneg
  · rw [h.result_length] at hlt
    exact hlt
  · rw [segment_store le_rfl hnonneg hlt, List.append_assoc, List.singleton_append, ← hfirst]
    exact h.sequence

/-- The traversal stays inside of its arrays, and writes the in-order sequence. -/
theorem inorderTraversal_exact (junk : ℕ → Int32) (junkStack : ℕ → TreeNode) {root : TreeNode}
    (hroot : root.numNodes ≤ 100) :
    ∃ result, inorderTraversal junk junkStack root =
        some (result, ((inorder root).length : ℤ)) ∧
      result.take (inorder root).length = inorder root ∧ result.length = 100 := by
  have hstay : ∀ s, State.Finished s → step s = some s := fun s hs => if_pos hs
  have hstep : ∀ s, Inv root s → s.Finished ∨ ∃ s', step s = some s' ∧ Inv root s' ∧
      (100 - s'.returnSize).toNat < (100 - s.returnSize).toNat := by
    intro s h
    by_cases hs : s.Finished
    · exact Or.inl hs
    · obtain ⟨s', hround, h', hwritten⟩ := inv_round hroot h hs
      have hle := h'.returnSize_le
      refine Or.inr ⟨s', ?_, h', ?_⟩
      · rw [step, if_neg hs, hround]
      · omega
  have hinit := inv_start junk junkStack root
  have hmeasure : (100 - (start junk junkStack root).returnSize).toNat < 101 :=
    Nat.lt_succ_self 100
  obtain ⟨s, hrun, h, hfinished⟩ := steps_halt hstay hstep 101 hinit hmeasure
  -- Nothing is left, so everything is in the array.
  have hsequence := h.sequence
  have hcount := h.count
  rw [hfinished.1, hfinished.2, pending, stacked_empty, List.flatMap_nil] at hsequence hcount
  rw [segment_zero, inorder, List.append_nil, List.append_nil] at hsequence
  have hsize : s.returnSize = ((inorder root).length : ℤ) := by
    rw [inorder_length, ← hcount]
    simp
  refine ⟨s.result, ?_, ?_, h.result_length⟩
  · rw [inorderTraversal, hrun, Option.bind_some, if_pos hfinished, hsize]
  · rwa [hsize, Int.toNat_natCast] at hsequence

/-- A left path and a right child. -/
theorem inorderTraversal_exact_zigzag :
    ∃ result, inorderTraversal (fun _ => 7) (fun _ => .nil)
          (.node 3 (.node 1 .nil (.node 2 .nil .nil)) .nil) =
        some (result,
          ((inorder (.node 3 (.node 1 .nil (.node (2 : Int32) .nil .nil)) .nil)).length : ℤ)) ∧
      result.take (inorder (.node 3 (.node 1 .nil (.node (2 : Int32) .nil .nil)) .nil)).length =
        inorder (.node 3 (.node 1 .nil (.node 2 .nil .nil)) .nil) ∧
      result.length = 100 :=
  inorderTraversal_exact (fun _ => 7) (fun _ => .nil) (by decide)

end Traversal
end Leetcode
