import Mathlib.Data.Finset.Card
import Leetcode.Bst.Balance
import Leetcode.Lib.Trace

/-!
# A search tree under many calls

`deleteNode`, `balanceBST`, `searchBST` and `isValidBST` on one tree in memory, in any order, are
the operations of a finite set of keys.  The recursion is never deeper than there are allocated
nodes.

* `Stores` — the invariant: the tree is a search tree over the keys, and its nodes are the
  allocated ones.
* `StoresIn.delete`, `StoresIn.balance`, `StoresIn.lookup`, `StoresIn.validate` — what one call
  does.
* `calls_refine` — what all calls together do.
-/

namespace Leetcode
namespace Bst

open CLib
open Rebalance (Heap Holds)

/-- The memory, and the pointer to the root. -/
structure State where
  memory : Memory
  root : Option Ref

/-- A call; `junk` is what the array of `balanceBST` holds before it is written. -/
inductive Call
  | deleteNode (key : Int32)
  | balanceBST (junk : ℕ → Option Ref)
  | searchBST (val : Int32)
  | isValidBST

/-- What a call returns besides a root: the value of the node that has been found, or whether the
tree is valid. -/
inductive Answer
  | done
  | found (val : Option Int32)
  | valid (b : Bool)
  deriving DecidableEq, Repr

/-- A call on the tree. -/
def step (s : State) : Call → Option (State × Answer)
  | .deleteNode key =>
      (s.memory.deleteNode s.memory.nodes.card s.root key).map fun r => (⟨r.1, r.2⟩, .done)
  | .balanceBST junk =>
      (Memory.balanceBST junk s.memory s.root).map fun r => (⟨r.1, r.2⟩, .done)
  | .searchBST val =>
      (s.memory.searchBST s.memory.nodes.card s.root val).map fun p =>
        (s, .found (p.map fun a => (s.memory.heap a).val))
  | .isValidBST =>
      (s.memory.isValidBST s.memory.nodes.card s.root).map fun b => (s, .valid b)

/-- The same call on a set of keys. -/
def spec (keys : Finset Int32) : Call → Finset Int32 × Answer
  | .deleteNode key => (keys.erase key, .done)
  | .balanceBST _ => (keys, .done)
  | .searchBST val => (keys, .found (if val ∈ keys then some val else none))
  | .isValidBST => (keys, .valid true)

/-- The tree at the root is a search tree over the keys, it has the allocated nodes, and it is
small enough for the array of `balanceBST`. -/
structure StoresIn (s : State) (t : BinaryTree Ref) (keys : Finset Int32) : Prop where
  holds : Holds s.memory.heap s.root t
  nodup : (inorder t).Nodup
  nodes : s.memory.nodes = (inorder t).toFinset
  size : t.numNodes ≤ 10000
  search : SearchTree (· < ·) (values s.memory.heap t)
  keys : (inorder (values s.memory.heap t)).toFinset = keys

def Stores (s : State) (keys : Finset Int32) : Prop := ∃ t, StoresIn s t keys

variable {s : State} {t : BinaryTree Ref} {keys : Finset Int32}

/-! ## The invariant -/

theorem StoresIn.allocated (h : StoresIn s t keys) : ∀ a ∈ inorder t, a ∈ s.memory.nodes := by
  intro a ha
  rw [h.nodes, List.mem_toFinset]
  exact ha

theorem StoresIn.card (h : StoresIn s t keys) : s.memory.nodes.card = t.numNodes := by
  rw [h.nodes, List.toFinset_card_of_nodup h.nodup, inorder_length]

theorem StoresIn.nodup_values (h : StoresIn s t keys) :
    (inorder (values s.memory.heap t)).Nodup :=
  ((searchTree_iff _).1 h.search).imp ne_of_lt

/-- There is a node for each key. -/
theorem StoresIn.card_eq (h : StoresIn s t keys) : s.memory.nodes.card = keys.card := by
  rw [← h.keys, List.toFinset_card_of_nodup h.nodup_values, inorder_values, List.length_map,
    h.card, inorder_length]

/-- After a deletion the allocated nodes are those of the new tree again. -/
theorem Deleted.nodes_eq {m m' : Memory} {t' : BinaryTree Ref} {gone : List Ref}
    (h : Deleted m m' t t' gone) (hnodup : (gone ++ inorder t').Nodup)
    (hnodes : m.nodes = (inorder t).toFinset) : m'.nodes = (inorder t').toFinset := by
  have hdisjoint := (List.nodup_append.1 hnodup).2.2
  ext a
  rw [h.nodes, hnodes, ← List.toFinset_eq_of_perm _ _ h.perm, Finset.mem_sdiff, List.mem_toFinset,
    List.mem_toFinset, List.mem_toFinset, List.mem_append]
  constructor
  · rintro ⟨hmem | hmem, hgone⟩
    · exact absurd hmem hgone
    · exact hmem
  · intro hmem
    exact ⟨.inr hmem, fun hgone => hdisjoint a hgone a hmem rfl⟩

theorem StoresIn.delete (h : StoresIn s t keys) (key : Int32) :
    ∃ s' t', step s (.deleteNode key) = some (s', .done) ∧ StoresIn s' t' (keys.erase key) := by
  obtain ⟨m', p', t', gone, hrun, hholds, hdeleted, hvalues⟩ :=
    deleteNode_ok h.holds h.nodup h.allocated h.card.ge key
  obtain ⟨u, hdelete, hinorder⟩ := deleteNode_inorder h.search key
  obtain rfl : u = values m'.heap t' := Option.some.inj (hdelete.symm.trans hvalues)
  have hnodup : (gone ++ inorder t').Nodup := hdeleted.perm.nodup_iff.2 h.nodup
  refine ⟨⟨m', p'⟩, t', by simp only [step, hrun, Option.map_some], hholds,
    (List.nodup_append.1 hnodup).2.1, hdeleted.nodes_eq hnodup h.nodes, ?_, ?_, ?_⟩
  · have hlen := hdeleted.perm.length_eq
    rw [List.length_append, inorder_length, inorder_length] at hlen
    exact (Nat.le_of_add_left_le hlen.le).trans h.size
  · rw [searchTree_iff, hinorder]
    exact ((searchTree_iff _).1 h.search).sublist List.erase_sublist
  · ext q
    rw [hinorder, List.mem_toFinset, h.nodup_values.mem_erase_iff, Finset.mem_erase, ← h.keys,
      List.mem_toFinset]

/-- `balanceBST` keeps the nodes and their values in their order. -/
theorem StoresIn.balance (h : StoresIn s t keys) (junk : ℕ → Option Ref) :
    ∃ s' t', step s (.balanceBST junk) = some (s', .done) ∧ StoresIn s' t' keys ∧
      SizeBalanced t' := by
  obtain ⟨heap, p, t', hrebuilt, hholds, ht', hbalanced, hrelinked⟩ :=
    Rebalance.balanceBST_ok junk h.holds h.nodup h.size
  have hrun : Memory.balanceBST junk s.memory s.root =
      some ({ s.memory with heap := heap }, p) := by
    rw [balanceBST_eq junk h.holds h.allocated h.size, hrebuilt, Option.map_some]
  have hvalues : inorder (values heap t') = inorder (values s.memory.heap t) := by
    rw [inorder_values, inorder_values, ht']
    exact List.map_congr_left fun a _ => hrelinked.val a
  refine ⟨⟨{ s.memory with heap := heap }, p⟩, t', by simp only [step, hrun, Option.map_some],
    ⟨hholds, ?_, ?_, ?_, ?_, ?_⟩, hbalanced⟩
  · rw [ht']
    exact h.nodup
  · rw [ht']
    exact h.nodes
  · rw [← inorder_length, ht', inorder_length]
    exact h.size
  · rw [searchTree_iff, hvalues]
    exact (searchTree_iff _).1 h.search
  · rw [hvalues]
    exact h.keys

/-- A node that is found has the value that is searched for. -/
theorem searchBST_val {u left right : TreeNode} {val v : Int32}
    (h : searchBST u val = .node v left right) : v = val := by
  induction u with
  | nil => cases h
  | node w l r ihl ihr =>
      rw [searchBST] at h
      split at h
      · next heq =>
          cases h
          exact heq
      · split at h
        · exact ihl h
        · exact ihr h

theorem StoresIn.lookup (h : StoresIn s t keys) (val : Int32) :
    step s (.searchBST val) = some (s, .found (if val ∈ keys then some val else none)) := by
  obtain ⟨p, found, hrun, hholds, hvalues⟩ := searchBST_ok h.holds h.allocated h.card.ge val
  have hmem : val ∈ keys ↔ Finds (values s.memory.heap t) val := by
    rw [searchBST_iff h.search, ← h.keys, List.mem_toFinset]
  rw [Finds, hvalues] at hmem
  simp only [step, hrun, Option.map_some]
  cases found with
  | nil =>
      obtain rfl : p = none := hholds
      have hnone : val ∉ keys := by
        rw [hmem]
        rintro ⟨left, right, hnode⟩
        cases hnode
      rw [if_neg hnone]
      rfl
  | node a l r =>
      obtain ⟨rfl, -, -⟩ := hholds
      obtain rfl : (s.memory.heap a).val = val := searchBST_val hvalues
      rw [if_pos (hmem.2 ⟨_, _, rfl⟩)]
      rfl

theorem StoresIn.validate (h : StoresIn s t keys) :
    step s .isValidBST = some (s, .valid true) := by
  have hrun := helper_ok h.holds h.allocated h.card.ge Int64.minValue Int64.maxValue
  have hvalid := (isValidBST_iff (values s.memory.heap t)).2 h.search
  rw [isValidBST] at hvalid
  simp only [step, Memory.isValidBST, hrun, hvalid, Option.map_some]

/-! ## The session -/

theorem Stores.step (h : Stores s keys) (call : Call) :
    ∃ s', step s call = some (s', (spec keys call).2) ∧ Stores s' (spec keys call).1 := by
  obtain ⟨t, ht⟩ := h
  cases call with
  | deleteNode key =>
      obtain ⟨s', t', hstep, h'⟩ := ht.delete key
      exact ⟨s', hstep, t', h'⟩
  | balanceBST junk =>
      obtain ⟨s', t', hstep, h', -⟩ := ht.balance junk
      exact ⟨s', hstep, t', h'⟩
  | searchBST val => exact ⟨s, ht.lookup val, t, ht⟩
  | isValidBST => exact ⟨s, ht.validate, t, ht⟩

/-- Any calls on a search tree in memory whose nodes are the allocated ones, 10000 at most, read,
write and free allocated nodes only, return what the same calls on the set of its keys return,
and leave as many nodes allocated as there are keys left. -/
theorem calls_refine (h : Stores s keys) (calls : List Call) :
    ∃ s', Trace Bst.step s calls (answers spec keys calls) s' ∧
      Stores s' (outcome spec keys calls) ∧
      s'.memory.nodes.card = (outcome spec keys calls).card := by
  obtain ⟨s', htrace, h'⟩ := Trace.of_simulation Bst.step spec Stores (fun _ => True)
    (fun s keys call hR _ => hR.step call) h fun _ _ => trivial
  obtain ⟨t', ht'⟩ := id h'
  exact ⟨s', htrace, h', ht'.card_eq⟩

/-- A root with two children. -/
def three : Heap := fun a =>
  if a = 0 then ⟨2, some 1, some 2⟩ else if a = 1 then ⟨1, none, none⟩ else ⟨3, none, none⟩

theorem stores_three : Stores ⟨⟨three, {0, 1, 2}⟩, some 0⟩ {1, 2, 3} :=
  ⟨.node 0 (.node 1 .nil .nil) (.node 2 .nil .nil), ⟨rfl, ⟨rfl, rfl, rfl⟩, rfl, rfl, rfl⟩,
    by decide, by decide, by decide, (searchTree_iff _).2 (by decide), by decide⟩

theorem calls_refine_three :
    ∃ s', Trace Bst.step ⟨⟨three, {0, 1, 2}⟩, some 0⟩
        [.deleteNode 2, .searchBST 2, .balanceBST fun _ => none, .searchBST 3]
        [.done, .found none, .done, .found (some 3)] s' ∧ Stores s' {1, 3} ∧
      s'.memory.nodes.card = 2 :=
  calls_refine stores_three [.deleteNode 2, .searchBST 2, .balanceBST fun _ => none, .searchBST 3]

end Bst
end Leetcode
