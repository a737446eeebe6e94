import Mathlib.Data.Finset.Card
import Leetcode.Lib.Heap
import Leetcode.Lib.Run
import Leetcode.MedianFinder.Insert

/-!
# The nodes of a `MedianFinder` in memory

`insertRBT` allocates a node for every number, and `freeRBT` frees the two subtrees of a node
before the node itself.

* `Owned` — the invariant: the allocated nodes are those of the tree.
* `NoDangling` — no link of an allocated node refers to a node that is not allocated.
* `medianFinder_frees` — a number has one node, and `freeRBT` frees every node once.
-/

namespace Leetcode
namespace MedianFinder

open CLib

/-- A `MedianFinder` with the nodes that are allocated. -/
structure Memory where
  heap : Heap
  nodes : Finset Ref

def createMemory : Memory := ⟨medianFinderCreate, ∅⟩

def addMemory (m : Memory) (num : Int) : Option Memory :=
  (medianFinderAddNum m.heap num).map fun heap => ⟨heap, insert m.heap.fresh m.nodes⟩

/-- `freeRBT(node)`. -/
def freeRBT (m : Mem Data) : ℕ → Option Ref → Finset Ref → Option (Finset Ref) := freeTree m

/-- `medianFinderFree(obj)`: the nodes that are left. -/
def medianFinderFree (m : Memory) : Option (Finset Ref) :=
  freeRBT m.heap.mem m.heap.fresh m.heap.root m.nodes

/-- The root is allocated, and so is what the allocated nodes link to. -/
structure NoDangling (m : Memory) : Prop where
  root : ∀ a ∈ m.heap.root, a ∈ m.nodes
  left : ∀ b ∈ m.nodes, ∀ a ∈ (m.heap.mem b).left, a ∈ m.nodes
  right : ∀ b ∈ m.nodes, ∀ a ∈ (m.heap.mem b).right, a ∈ m.nodes
  parent : ∀ b ∈ m.nodes, ∀ a ∈ (m.heap.mem b).parent, a ∈ m.nodes

/-! ## The invariant -/

/-- The allocated nodes are those of the tree. -/
structure Owned (m : Memory) (t : PtrTree Data) : Prop where
  shows_tree : Shows m.heap t
  nodes : m.nodes = t.refs.toFinset

variable {m : Memory} {t : PtrTree Data}

theorem owned_create : Owned createMemory .nil := ⟨shows_init, rfl⟩

theorem Owned.mem_iff (h : Owned m t) {a : Ref} : a ∈ m.nodes ↔ a ∈ t.refs := by
  rw [h.nodes, List.mem_toFinset]

/-- A tree has a reference for each value. -/
theorem length_refs (val : Data → Int) (t : PtrTree Data) :
    t.refs.length = (t.inorder val).length := by
  induction t with
  | nil => rfl
  | node a d l r ihl ihr =>
      simp only [PtrTree.refs, PtrTree.inorder, List.length_cons, List.length_append, ihl, ihr]
      omega

/-- An insertion adds the new node and loses none. -/
theorem refs_insertTree {z : Ref} {val : Int} (hnodup : (insertTree z val t).refs.Nodup) :
    (insertTree z val t).refs.Perm (z :: t.refs) := by
  have hsub : (insertTree z val t).refs ⊆ z :: t.refs := fun b hb =>
    List.mem_cons.2 (mem_refs_insertTree hb)
  refine (List.subperm_of_subset hnodup hsub).perm_of_length_le ?_
  rw [List.length_cons, length_refs Data.val, length_refs Data.val,
    (insertTree_perm z val t).length_eq, List.length_cons]

theorem Owned.add (h : Owned m t) (hroom : t.count + 1 < 2 ^ 31) (num : Int) :
    ∃ m', addMemory m num = some m' ∧ Owned m' (insertTree m.heap.fresh num t) := by
  obtain ⟨h', hadd, hs⟩ := insertRBT_ok h.shows_tree hroom num
  have hnodup := (List.nodup_append.1 hs.at_root.nodup).1
  refine ⟨⟨h', insert m.heap.fresh m.nodes⟩, ?_, hs, ?_⟩
  · rw [addMemory, medianFinderAddNum, hadd]
    rfl
  · rw [List.toFinset_eq_of_perm _ _ (refs_insertTree hnodup), List.toFinset_cons, h.nodes]

/-! ## What follows from it -/

/-- The cells of a tree link to its nodes and to its parent. -/
theorem links_of_holds {mem : Mem Data} {par : Option Ref} (h : mem.Holds par t) {a b : Ref}
    (hb : b ∈ t.refs) :
    (a ∈ (mem b).left → a ∈ t.refs) ∧ (a ∈ (mem b).right → a ∈ t.refs) ∧
      (a ∈ (mem b).parent → a ∈ t.refs ∨ a ∈ par) := by
  induction t generalizing par with
  | nil => cases hb
  | node c d l r ihl ihr =>
      obtain ⟨hcell, hl, hr⟩ := h
      have hleft : ∀ {x}, x ∈ l.refs → x ∈ (PtrTree.node c d l r).refs := fun hx =>
        List.mem_cons_of_mem _ (List.mem_append_left _ hx)
      have hright : ∀ {x}, x ∈ r.refs → x ∈ (PtrTree.node c d l r).refs := fun hx =>
        List.mem_cons_of_mem _ (List.mem_append_right _ hx)
      have hself : ∀ {x}, x ∈ some c → x ∈ (PtrTree.node c d l r).refs := by
        rintro x ⟨⟩
        exact List.mem_cons_self
      rcases List.mem_cons.1 hb with rfl | hrest
      · rw [hcell]
        exact ⟨fun ha => hleft (PtrTree.mem_refs_of_ref ha),
          fun ha => hright (PtrTree.mem_refs_of_ref ha), Or.inr⟩
      · rcases List.mem_append.1 hrest with hbl | hbr
        · obtain ⟨h₁, h₂, h₃⟩ := ihl hl hbl
          exact ⟨fun ha => hleft (h₁ ha), fun ha => hleft (h₂ ha),
            fun ha => .inl ((h₃ ha).elim hleft hself)⟩
        · obtain ⟨h₁, h₂, h₃⟩ := ihr hr hbr
          exact ⟨fun ha => hright (h₁ ha), fun ha => hright (h₂ ha),
            fun ha => .inl ((h₃ ha).elim hright hself)⟩

theorem Owned.noDangling (h : Owned m t) : NoDangling m where
  root a ha := by
    rw [h.shows_tree.at_root.root_eq] at ha
    exact h.mem_iff.2 (PtrTree.mem_refs_of_ref ha)
  left b hb a ha :=
    h.mem_iff.2 ((links_of_holds h.shows_tree.at_root.tree (h.mem_iff.1 hb)).1 ha)
  right b hb a ha :=
    h.mem_iff.2 ((links_of_holds h.shows_tree.at_root.tree (h.mem_iff.1 hb)).2.1 ha)
  parent b hb a ha := by
    rcases (links_of_holds h.shows_tree.at_root.tree (h.mem_iff.1 hb)).2.2 ha with hin | habove
    · exact h.mem_iff.2 hin
    · cases habove

theorem Owned.free (h : Owned m t) : medianFinderFree m = some ∅ := by
  have hat := h.shows_tree.at_root
  rw [medianFinderFree, freeRBT, hat.root_eq]
  show freeTree m.heap.mem m.heap.fresh t.ref m.nodes = _
  rw [freeTree_ok hat.tree (List.nodup_append.1 hat.nodup).1 (fun a ha => h.mem_iff.2 ha)
    (hat.length_refs_le h.shows_tree.fresh), h.nodes, Finset.sdiff_self]

theorem Owned.card (h : Owned m t) : m.nodes.card = (t.inorder Data.val).length := by
  rw [h.nodes, List.toFinset_card_of_nodup (List.nodup_append.1 h.shows_tree.at_root.nodup).1,
    length_refs Data.val]

theorem Owned.run (h : Owned m t) (nums : List Int) (hroom : t.count + nums.length < 2 ^ 31) :
    ∃ m' t', Run addMemory (fun m _ => NoDangling m) m nums m' ∧ Owned m' t' ∧
      m'.nodes.card = m.nodes.card + nums.length := by
  induction nums generalizing m t with
  | nil => exact ⟨m, t, .nil m, h, rfl⟩
  | cons num nums ih =>
      rw [List.length_cons] at hroom
      obtain ⟨m₁, hstep, h₁⟩ := h.add (by omega) num
      obtain ⟨m', t', hrun, h', hcard⟩ := ih h₁ (by
        rw [count_insertTree]
        omega)
      refine ⟨m', t', .cons h.noDangling hstep hrun, h', ?_⟩
      rw [hcard, h₁.card, (insertTree_perm m.heap.fresh num t).length_eq, List.length_cons, h.card,
        List.length_cons]
      omega

/-- After any additions that an `int` can count, as many nodes are allocated as numbers have been
added, none of them links to a node that is not allocated, and `medianFinderFree` frees every node
once and reads none that it has freed. -/
theorem medianFinder_frees (nums : List Int) (hroom : nums.length < 2 ^ 31) :
    ∃ m, Run addMemory (fun m _ => NoDangling m) createMemory nums m ∧ NoDangling m ∧
      m.nodes.card = nums.length ∧ medianFinderFree m = some ∅ := by
  obtain ⟨m, t, hrun, h, hcard⟩ := owned_create.run nums ((Nat.zero_add _).trans_lt hroom)
  exact ⟨m, hrun, h.noDangling, hcard.trans (Nat.zero_add _), h.free⟩

theorem medianFinder_frees_three :
    ∃ m, Run addMemory (fun m _ => NoDangling m) createMemory [2, 7, 2] m ∧ NoDangling m ∧
      m.nodes.card = 3 ∧ medianFinderFree m = some ∅ :=
  medianFinder_frees [2, 7, 2] (by decide)

end MedianFinder
end Leetcode
