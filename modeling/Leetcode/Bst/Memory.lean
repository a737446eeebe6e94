import Leetcode.Bst.Delete
import Leetcode.Lib.Heap
import Leetcode.Rebalance.Balanced

/-!
# `450.c`, `700.c` and `98.c`: the nodes in memory

The three functions on the nodes of `1382.c`, where each node that is read, written or freed must
be allocated.  `values` forgets the nodes of a tree.

* `Memory.deleteNode_ok` — a deletion on the nodes of any tree does what `deleteNode` does on
  its values, and frees one node at most, which no link of the tree refers to any more.
* `Memory.searchBST_ok`, `Memory.helper_ok` — the two functions that write nothing.
-/

namespace Leetcode
namespace Bst

open CLib
open Rebalance (Heap Holds)

/-- The nodes, and which of them are allocated. -/
structure Memory where
  heap : Heap
  nodes : Finset Ref

namespace Memory

/-- A node that is read. -/
def read (m : Memory) (a : Ref) : Option Rebalance.TreeNode :=
  if a ∈ m.nodes then some (m.heap a) else none

def write (m : Memory) (a : Ref) (node : Rebalance.TreeNode) : Option Memory :=
  if a ∈ m.nodes then some { m with heap := Function.update m.heap a node } else none

/-- `node->val = val` -/
def setVal (m : Memory) (a : Ref) (val : Int32) : Option Memory :=
  (m.read a).bind fun node => m.write a { node with val := val }

/-- `node->left = p` -/
def setLeft (m : Memory) (a : Ref) (p : Option Ref) : Option Memory :=
  (m.read a).bind fun node => m.write a { node with left := p }

/-- `node->right = p` -/
def setRight (m : Memory) (a : Ref) (p : Option Ref) : Option Memory :=
  (m.read a).bind fun node => m.write a { node with right := p }

/-- `free(node)` -/
def free (m : Memory) (a : Ref) : Option Memory :=
  (CLib.free m.nodes a).map fun nodes => { m with nodes := nodes }

/-- `findMin(node)` -/
def findMin (m : Memory) : ℕ → Option Ref → Option (Option Ref)
  | _, none => some none
  | 0, some _ => none
  | fuel + 1, some a =>
      (m.read a).bind fun node =>
        if node.left = none then some (some a) else m.findMin fuel node.left

/-- `deleteNode(root, key)` -/
def deleteNode (m : Memory) : ℕ → Option Ref → Int32 → Option (Memory × Option Ref)
  | _, none, _ => some (m, none)
  | 0, some _, _ => none
  | fuel + 1, some root, key =>
      (m.read root).bind fun node =>
        if key < node.val then
          (m.deleteNode fuel node.left key).bind fun (m, left) =>
            (m.setLeft root left).map fun m => (m, some root)
        else if key > node.val then
          (m.deleteNode fuel node.right key).bind fun (m, right) =>
            (m.setRight root right).map fun m => (m, some root)
        else if node.left = none then (m.free root).map fun m => (m, node.right)
        else if node.right = none then (m.free root).map fun m => (m, node.left)
        else
          (m.findMin fuel node.right).bind fun temp => temp.bind fun temp =>
            (m.read temp).bind fun least => (m.setVal root least.val).bind fun m =>
              (m.read root).bind fun node => (m.read temp).bind fun least =>
                (m.deleteNode fuel node.right least.val).bind fun (m, right) =>
                  (m.setRight root right).map fun m => (m, some root)

/-- `searchBST(root, val)` -/
def searchBST (m : Memory) : ℕ → Option Ref → Int32 → Option (Option Ref)
  | _, none, _ => some none
  | 0, some _, _ => none
  | fuel + 1, some root, val =>
      (m.read root).bind fun node =>
        if node.val = val then some (some root)
        else if val < node.val then m.searchBST fuel node.left val
        else m.searchBST fuel node.right val

/-- `helper(node, min, max)` -/
def helper (m : Memory) : ℕ → Option Ref → Int64 → Int64 → Option Bool
  | _, none, _, _ => some true
  | 0, some _, _, _ => none
  | fuel + 1, some a, min, max =>
      (m.read a).bind fun node =>
        if node.val.toInt64 ≤ min ∨ node.val.toInt64 ≥ max then some false
        else
          (m.helper fuel node.left min node.val.toInt64).bind fun left =>
            if left then m.helper fuel node.right node.val.toInt64 max else some false

/-- `isValidBST(root)` -/
def isValidBST (m : Memory) (fuel : ℕ) (root : Option Ref) : Option Bool :=
  m.helper fuel root Int64.minValue Int64.maxValue

end Memory

/-- The values of the nodes of a tree. -/
def values (heap : Heap) : BinaryTree Ref → TreeNode := BinaryTree.map fun a => (heap a).val

variable {m m' m₁ : Memory} {heap heap' : Heap} {p p' : Option Ref} {t t' l r : BinaryTree Ref}
  {root a : Ref} {gone : List Ref} {fuel : ℕ}

/-! ## Trees and their values -/

theorem values_node : values heap (.node a l r) =
    .node (heap a).val (values heap l) (values heap r) := rfl

theorem values_congr (hsame : ∀ a ∈ inorder t, heap' a = heap a) :
    values heap' t = values heap t := by
  induction t with
  | nil => rfl
  | node a l r ihl ihr =>
      rw [values_node, values_node, hsame a (mem_inorder_node.2 (.inr (.inl rfl))),
        ihl fun b hb => hsame b (mem_inorder_node.2 (.inl hb)),
        ihr fun b hb => hsame b (mem_inorder_node.2 (.inr (.inr hb)))]

theorem inorder_values (heap : Heap) (t : BinaryTree Ref) :
    inorder (values heap t) = (inorder t).map fun a => (heap a).val := by
  induction t with
  | nil => rfl
  | node a l r ihl ihr =>
      rw [values_node, inorder, ihl, ihr, inorder, List.map_append, List.map_cons]

theorem values_eq_nil : values heap t = .nil ↔ t = .nil := by
  cases t with
  | nil => exact iff_of_true rfl rfl
  | node a l r =>
      constructor
      · intro h
        cases h
      · intro h
        cases h

theorem holds_eq_none (h : Holds heap p t) : p = none ↔ t = .nil := by
  cases t with
  | nil => exact iff_of_true h rfl
  | node a l r =>
      obtain ⟨rfl, -, -⟩ := h
      constructor
      · intro h
        cases h
      · intro h
        cases h

/-! ## Reading and writing -/

theorem read_ok (ha : a ∈ m.nodes) : m.read a = some (m.heap a) := if_pos ha

theorem setVal_ok (ha : a ∈ m.nodes) (val : Int32) : m.setVal a val =
    some { m with heap := Function.update m.heap a { m.heap a with val := val } } := by
  rw [Memory.setVal, read_ok ha, Option.bind_some, Memory.write, if_pos ha]

theorem setLeft_ok (ha : a ∈ m.nodes) (p : Option Ref) : m.setLeft a p =
    some { m with heap := Function.update m.heap a { m.heap a with left := p } } := by
  rw [Memory.setLeft, read_ok ha, Option.bind_some, Memory.write, if_pos ha]

theorem setRight_ok (ha : a ∈ m.nodes) (p : Option Ref) : m.setRight a p =
    some { m with heap := Function.update m.heap a { m.heap a with right := p } } := by
  rw [Memory.setRight, read_ok ha, Option.bind_some, Memory.write, if_pos ha]

theorem memory_free_ok (ha : a ∈ m.nodes) :
    m.free a = some { m with nodes := m.nodes.erase a } := by
  rw [Memory.free, free_ok ha, Option.map_some]

/-- A write to the root of a tree. -/
theorem holds_update_root {node : Rebalance.TreeNode} (hl : Holds heap node.left l)
    (hr : Holds heap node.right r) (hleft : root ∉ inorder l) (hright : root ∉ inorder r) :
    Holds (Function.update heap root node) (some root) (.node root l r) := by
  refine ⟨rfl, ?_, ?_⟩ <;> rw [Function.update_self]
  · exact hl.congr fun b hb => Function.update_of_ne (ne_of_mem_of_not_mem hb hleft) _ _
  · exact hr.congr fun b hb => Function.update_of_ne (ne_of_mem_of_not_mem hb hright) _ _

theorem values_update_root {node : Rebalance.TreeNode} (hleft : root ∉ inorder l)
    (hright : root ∉ inorder r) : values (Function.update heap root node) (.node root l r) =
      .node node.val (values heap l) (values heap r) := by
  rw [values_node, Function.update_self,
    values_congr fun b hb => Function.update_of_ne (ne_of_mem_of_not_mem hb hleft) _ _,
    values_congr fun b hb => Function.update_of_ne (ne_of_mem_of_not_mem hb hright) _ _]

/-! ## Deletion -/

/-- The tree `t'` has the nodes of `t` without those of `gone`, which have been freed, and nothing
outside of `t` has been touched. -/
structure Deleted (m m' : Memory) (t t' : BinaryTree Ref) (gone : List Ref) : Prop where
  frame : ∀ a, a ∉ inorder t → m'.heap a = m.heap a
  perm : (gone ++ inorder t').Perm (inorder t)
  nodes : m'.nodes = m.nodes \ gone.toFinset
  at_most_one : gone.length ≤ 1

/-- `findMin` finds the node with the value that it finds in the values. -/
theorem findMin_node (h : Holds m.heap p t) (hnodes : ∀ a ∈ inorder t, a ∈ m.nodes) (ht : t ≠ .nil)
    (hfuel : t.numNodes ≤ fuel) :
    ∃ a left right, m.findMin fuel p = some (some a) ∧ a ∈ inorder t ∧
      findMin (values m.heap t) = .node (m.heap a).val left right := by
  induction t generalizing fuel p with
  | nil => exact absurd rfl ht
  | node a l r ihl _ =>
      obtain ⟨rfl, hl, -⟩ := h
      rw [BinaryTree.numNodes] at hfuel
      obtain ⟨fuel, rfl⟩ : ∃ k, fuel = k + 1 := ⟨fuel - 1, by omega⟩
      have ha : a ∈ inorder (.node a l r) := mem_inorder_node.2 (.inr (.inl rfl))
      rw [Memory.findMin, read_ok (hnodes a ha), Option.bind_some, values_node, findMin]
      by_cases hnil : l = .nil
      · rw [if_pos ((holds_eq_none hl).2 hnil), if_pos (values_eq_nil.2 hnil)]
        exact ⟨a, _, _, rfl, ha, rfl⟩
      · rw [if_neg (mt (holds_eq_none hl).1 hnil), if_neg (mt values_eq_nil.1 hnil)]
        have hfuel' : l.numNodes ≤ fuel := by omega
        obtain ⟨b, left, right, hfind, hb, hmin⟩ := ihl hl
          (fun b hb => hnodes b (mem_inorder_node.2 (.inl hb))) hnil hfuel'
        exact ⟨b, left, right, hfind, mem_inorder_node.2 (.inl hb), hmin⟩

/-- A node outside of the tree stays as it is. -/
theorem Deleted.outside (h : Deleted m m' t t' gone) (ha : a ∉ inorder t) (hnode : a ∈ m.nodes) :
    a ∈ m'.nodes ∧ m'.heap a = m.heap a ∧ a ∉ inorder t' := by
  refine ⟨?_, h.frame a ha, fun hmem => ha (h.perm.subset (List.mem_append_right _ hmem))⟩
  rw [h.nodes, Finset.mem_sdiff, List.mem_toFinset]
  exact ⟨hnode, fun hmem => ha (h.perm.subset (List.mem_append_left _ hmem))⟩

theorem node_disjoint (hnodup : (inorder (.node root l r)).Nodup) :
    root ∉ inorder l ∧ root ∉ inorder r ∧ ∀ a ∈ inorder l, a ∉ inorder r := by
  obtain ⟨-, hright, hdisjoint⟩ := List.nodup_append.1 hnodup
  refine ⟨fun hmem => hdisjoint root hmem root List.mem_cons_self rfl,
    (List.nodup_cons.1 hright).1, fun a ha hmem => ?_⟩
  exact hdisjoint a ha a (List.mem_cons_of_mem _ hmem) rfl

/-- `root->left` is set to what is left of the left subtree. -/
theorem Deleted.setLeft (h : Deleted m m₁ l t' gone)
    (hholds : Holds m.heap (some root) (.node root l r))
    (hnodup : (inorder (.node root l r)).Nodup) (hroot : root ∈ m.nodes)
    (hholds' : Holds m₁.heap p' t') :
    ∃ m', m₁.setLeft root p' = some m' ∧ Holds m'.heap (some root) (.node root t' r) ∧
      Deleted m m' (.node root l r) (.node root t' r) gone ∧
      values m'.heap (.node root t' r) =
        .node (m.heap root).val (values m₁.heap t') (values m.heap r) := by
  obtain ⟨-, -, hr⟩ := hholds
  obtain ⟨hout, hright, hdisjoint⟩ := node_disjoint hnodup
  obtain ⟨hnode, hheap, hout'⟩ := h.outside hout hroot
  have hsame : ∀ a ∈ inorder r, m₁.heap a = m.heap a := fun a ha =>
    h.frame a fun hmem => hdisjoint a hmem ha
  have hr' : Holds m₁.heap (m₁.heap root).right r := by
    rw [hheap]
    exact hr.congr hsame
  refine ⟨_, setLeft_ok hnode p', holds_update_root hholds' hr' hout' hright,
    ⟨fun a ha => ?_, ?_, h.nodes, h.at_most_one⟩, ?_⟩
  · rw [mem_inorder_node, not_or, not_or] at ha
    exact (Function.update_of_ne ha.2.1 _ _).trans (h.frame a ha.1)
  · rw [inorder, inorder, ← List.append_assoc]
    exact h.perm.append_right _
  · refine (values_update_root hout' hright).trans ?_
    rw [hheap, values_congr hsame]

/-- `root->right` is set to what is left of the right subtree. -/
theorem Deleted.setRight (h : Deleted m m₁ r t' gone)
    (hholds : Holds m.heap (some root) (.node root l r))
    (hnodup : (inorder (.node root l r)).Nodup) (hroot : root ∈ m.nodes)
    (hholds' : Holds m₁.heap p' t') :
    ∃ m', m₁.setRight root p' = some m' ∧ Holds m'.heap (some root) (.node root l t') ∧
      Deleted m m' (.node root l r) (.node root l t') gone ∧
      values m'.heap (.node root l t') =
        .node (m.heap root).val (values m.heap l) (values m₁.heap t') := by
  obtain ⟨-, hl, -⟩ := hholds
  obtain ⟨hleft, hout, hdisjoint⟩ := node_disjoint hnodup
  obtain ⟨hnode, hheap, hout'⟩ := h.outside hout hroot
  have hsame : ∀ a ∈ inorder l, m₁.heap a = m.heap a := fun a ha =>
    h.frame a fun hmem => hdisjoint a ha hmem
  have hl' : Holds m₁.heap (m₁.heap root).left l := by
    rw [hheap]
    exact hl.congr hsame
  refine ⟨_, setRight_ok hnode p', holds_update_root hl' hholds' hleft hout',
    ⟨fun a ha => ?_, ?_, h.nodes, h.at_most_one⟩, ?_⟩
  · rw [mem_inorder_node, not_or, not_or] at ha
    exact (Function.update_of_ne ha.2.1 _ _).trans (h.frame a ha.2.2)
  · rw [inorder, inorder]
    refine (List.perm_append_comm_assoc ..).trans (List.Perm.append_left _ ?_)
    exact List.perm_middle.trans (h.perm.cons root)
  · refine (values_update_root hleft hout').trans ?_
    rw [hheap, values_congr hsame]

/-- The value of a node has been replaced before. -/
theorem Deleted.of_setVal {val : Int32}
    (h : Deleted { m with heap := Function.update m.heap root { m.heap root with val := val } } m'
      (.node root l r) t' gone) : Deleted m m' (.node root l r) t' gone where
  frame a ha := by
    rw [mem_inorder_node, not_or, not_or] at ha
    rw [h.frame a (by rw [mem_inorder_node, not_or, not_or]; exact ha)]
    exact Function.update_of_ne ha.2.1 _ _
  perm := h.perm
  nodes := h.nodes
  at_most_one := h.at_most_one

/-- The root is freed, and one of its subtrees is empty. -/
theorem deleted_root (hempty : inorder l ++ inorder r = inorder t') :
    Deleted m { m with nodes := m.nodes.erase root } (.node root l r) t' [root] where
  frame _ _ := rfl
  perm := by
    rw [← hempty, inorder]
    show (root :: (inorder l ++ inorder r)).Perm _
    exact List.perm_middle.symm
  nodes := by rw [List.toFinset_cons, List.toFinset_nil, insert_empty_eq, Finset.erase_eq]
  at_most_one := Nat.le_refl 1

/-- `deleteNode` does to the nodes of a tree what it does to the values. -/
theorem deleteNode_ok (h : Holds m.heap p t) (hnodup : (inorder t).Nodup)
    (hnodes : ∀ a ∈ inorder t, a ∈ m.nodes) (hfuel : t.numNodes ≤ fuel) (key : Int32) :
    ∃ m' p' t' gone, m.deleteNode fuel p key = some (m', p') ∧ Holds m'.heap p' t' ∧
      Deleted m m' t t' gone ∧
      deleteNode (values m.heap t) key = some (values m'.heap t') := by
  induction t generalizing fuel m p key with
  | nil =>
      obtain rfl : p = none := h
      refine ⟨m, none, .nil, [], by rw [Memory.deleteNode], rfl, ?_, rfl⟩
      exact ⟨fun _ _ => rfl, .refl _, by simp, by simp⟩
  | node root l r ihl ihr =>
      obtain ⟨rfl, hl, hr⟩ := id h
      obtain ⟨hleft, hright, -⟩ := node_disjoint hnodup
      obtain ⟨hnodup_l, hnodup_r, -⟩ := List.nodup_append.1 hnodup
      have hmem_l : ∀ a ∈ inorder l, a ∈ m.nodes := fun a ha =>
        hnodes a (mem_inorder_node.2 (.inl ha))
      have hmem_r : ∀ a ∈ inorder r, a ∈ m.nodes := fun a ha =>
        hnodes a (mem_inorder_node.2 (.inr (.inr ha)))
      have hroot : root ∈ m.nodes := hnodes root (mem_inorder_node.2 (.inr (.inl rfl)))
      rw [BinaryTree.numNodes] at hfuel
      obtain ⟨fuel, rfl⟩ : ∃ k, fuel = k + 1 := ⟨fuel - 1, by omega⟩
      have hfuel_l : l.numNodes ≤ fuel := by omega
      have hfuel_r : r.numNodes ≤ fuel := by omega
      rw [Memory.deleteNode, read_ok hroot, Option.bind_some, values_node, deleteNode]
      by_cases hlt : key < (m.heap root).val
      · obtain ⟨m₁, p₁, l', gone, hrun, hholds, hdeleted, hvalues⟩ :=
          ihl hl hnodup_l hmem_l hfuel_l key
        obtain ⟨m', hset, hholds', hdeleted', hvalues'⟩ :=
          hdeleted.setLeft h hnodup hroot hholds
        refine ⟨m', some root, _, gone, ?_, hholds', hdeleted', ?_⟩
        · simp only [if_pos hlt, hrun, hset, Option.bind_some, Option.map_some]
        · rw [if_pos hlt, hvalues, Option.map_some, hvalues']
      rw [if_neg hlt, if_neg hlt]
      by_cases hgt : key > (m.heap root).val
      · obtain ⟨m₁, p₁, r', gone, hrun, hholds, hdeleted, hvalues⟩ :=
          ihr hr (List.nodup_cons.1 hnodup_r).2 hmem_r hfuel_r key
        obtain ⟨m', hset, hholds', hdeleted', hvalues'⟩ :=
          hdeleted.setRight h hnodup hroot hholds
        refine ⟨m', some root, _, gone, ?_, hholds', hdeleted', ?_⟩
        · simp only [if_pos hgt, hrun, hset, Option.bind_some, Option.map_some]
        · rw [if_pos hgt, hvalues, Option.map_some, hvalues']
      rw [if_neg hgt, if_neg hgt]
      by_cases hnil_l : l = .nil
      · subst hnil_l
        refine ⟨{ m with nodes := m.nodes.erase root }, (m.heap root).right, r, [root], ?_, hr,
          deleted_root rfl, ?_⟩
        · rw [if_pos ((holds_eq_none hl).2 rfl), memory_free_ok hroot, Option.map_some]
        · rw [if_pos (values_eq_nil.2 rfl)]
      rw [if_neg (mt (holds_eq_none hl).1 hnil_l), if_neg (mt values_eq_nil.1 hnil_l)]
      by_cases hnil_r : r = .nil
      · subst hnil_r
        refine ⟨{ m with nodes := m.nodes.erase root }, (m.heap root).left, l, [root], ?_, hl,
          deleted_root (List.append_nil _), ?_⟩
        · rw [if_pos ((holds_eq_none hr).2 rfl), memory_free_ok hroot, Option.map_some]
        · rw [if_pos (values_eq_nil.2 rfl)]
      rw [if_neg (mt (holds_eq_none hr).1 hnil_r), if_neg (mt values_eq_nil.1 hnil_r)]
      -- The root gets the least value on the right, and the node that had it is freed there.
      obtain ⟨temp, left, right, hfind, htemp, hmin⟩ := findMin_node hr hmem_r hnil_r hfuel_r
      obtain ⟨m₀, hm₀⟩ : ∃ m₀, m₀ = { m with
        heap := Function.update m.heap root { m.heap root with val := (m.heap temp).val } } :=
        ⟨_, rfl⟩
      have hself : m₀.heap root = { m.heap root with val := (m.heap temp).val } := by
        rw [hm₀]
        exact Function.update_self ..
      have hothers : ∀ a, a ≠ root → m₀.heap a = m.heap a := by
        intro a ha
        rw [hm₀]
        exact Function.update_of_ne ha _ _
      have hnodes₀ : m₀.nodes = m.nodes := by rw [hm₀]
      have hholds₀ : Holds m₀.heap (some root) (.node root l r) := by
        rw [hm₀]
        exact holds_update_root hl hr hleft hright
      have hr₀ : Holds m₀.heap (m.heap root).right r :=
        hr.congr fun a ha => hothers a (ne_of_mem_of_not_mem ha hright)
      have hvalues_l : values m₀.heap l = values m.heap l :=
        values_congr fun a ha => hothers a (ne_of_mem_of_not_mem ha hleft)
      have hvalues_r : values m₀.heap r = values m.heap r :=
        values_congr fun a ha => hothers a (ne_of_mem_of_not_mem ha hright)
      obtain ⟨m₁, p₁, r', gone, hrun, hholds, hdeleted, hvalues⟩ :=
        ihr hr₀ (List.nodup_cons.1 hnodup_r).2 (hnodes₀ ▸ hmem_r) hfuel_r (m.heap temp).val
      obtain ⟨m', hset, hholds', hdeleted', hvalues'⟩ :=
        hdeleted.setRight hholds₀ hnodup (hnodes₀ ▸ hroot) hholds
      refine ⟨m', some root, _, gone, ?_, hholds', (hm₀ ▸ hdeleted').of_setVal, ?_⟩
      · have hread_root : m₀.read root = some (m₀.heap root) := read_ok (hnodes₀ ▸ hroot)
        have hread_temp : m₀.read temp = some (m.heap temp) := by
          rw [read_ok (hnodes₀ ▸ hmem_r temp htemp),
            hothers temp (ne_of_mem_of_not_mem htemp hright)]
        simp only [hfind, read_ok (hmem_r temp htemp), setVal_ok hroot, ← hm₀, hread_root, hself,
          hread_temp, hrun, hset, Option.bind_some, Option.map_some]
      · rw [hvalues_r] at hvalues
        rw [hself, hvalues_l] at hvalues'
        rw [hmin]
        simp only [hvalues, hvalues', Option.map_some]

/-! ## Search and validation -/

/-- `searchBST` finds the node of the subtree that it finds in the values. -/
theorem searchBST_ok (h : Holds m.heap p t) (hnodes : ∀ a ∈ inorder t, a ∈ m.nodes)
    (hfuel : t.numNodes ≤ fuel) (val : Int32) :
    ∃ p' t', m.searchBST fuel p val = some p' ∧ Holds m.heap p' t' ∧
      searchBST (values m.heap t) val = values m.heap t' := by
  induction t generalizing fuel p with
  | nil =>
      obtain rfl : p = none := h
      exact ⟨none, .nil, by rw [Memory.searchBST], rfl, rfl⟩
  | node root l r ihl ihr =>
      obtain ⟨rfl, hl, hr⟩ := id h
      rw [BinaryTree.numNodes] at hfuel
      obtain ⟨fuel, rfl⟩ : ∃ k, fuel = k + 1 := ⟨fuel - 1, by omega⟩
      have hfuel_l : l.numNodes ≤ fuel := by omega
      have hfuel_r : r.numNodes ≤ fuel := by omega
      rw [Memory.searchBST, read_ok (hnodes root (mem_inorder_node.2 (.inr (.inl rfl)))),
        Option.bind_some, values_node, searchBST]
      by_cases heq : (m.heap root).val = val
      · rw [if_pos heq, if_pos heq]
        exact ⟨some root, .node root l r, rfl, h, rfl⟩
      rw [if_neg heq, if_neg heq]
      by_cases hlt : val < (m.heap root).val
      · rw [if_pos hlt, if_pos hlt]
        exact ihl hl (fun a ha => hnodes a (mem_inorder_node.2 (.inl ha))) hfuel_l
      · rw [if_neg hlt, if_neg hlt]
        exact ihr hr (fun a ha => hnodes a (mem_inorder_node.2 (.inr (.inr ha)))) hfuel_r

theorem helper_ok (h : Holds m.heap p t) (hnodes : ∀ a ∈ inorder t, a ∈ m.nodes)
    (hfuel : t.numNodes ≤ fuel) (min max : Int64) :
    m.helper fuel p min max = some (helper (values m.heap t) min max) := by
  induction t generalizing fuel p min max with
  | nil =>
      obtain rfl : p = none := h
      rw [Memory.helper]
      rfl
  | node a l r ihl ihr =>
      obtain ⟨rfl, hl, hr⟩ := h
      rw [BinaryTree.numNodes] at hfuel
      obtain ⟨fuel, rfl⟩ : ∃ k, fuel = k + 1 := ⟨fuel - 1, by omega⟩
      have hfuel_l : l.numNodes ≤ fuel := by omega
      have hfuel_r : r.numNodes ≤ fuel := by omega
      have hleft := ihl hl (fun b hb => hnodes b (mem_inorder_node.2 (.inl hb))) hfuel_l min
        (m.heap a).val.toInt64
      have hright := ihr hr (fun b hb => hnodes b (mem_inorder_node.2 (.inr (.inr hb)))) hfuel_r
        (m.heap a).val.toInt64 max
      rw [Memory.helper, read_ok (hnodes a (mem_inorder_node.2 (.inr (.inl rfl)))),
        Option.bind_some, values_node, helper]
      by_cases hout : (m.heap a).val.toInt64 ≤ min ∨ (m.heap a).val.toInt64 ≥ max
      · rw [if_pos hout, if_pos hout]
      · rw [if_neg hout, if_neg hout, hleft, hright, Option.bind_some]
        cases helper (values m.heap l) min (m.heap a).val.toInt64 <;> rfl

end Bst
end Leetcode
