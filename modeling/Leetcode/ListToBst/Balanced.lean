import Leetcode.Lib.BalancedTree
import Leetcode.Lib.Chain
import Leetcode.Lib.CInt
import Leetcode.Lib.SearchTree
import Leetcode.ListToBst.Model

/-!
# The tree of a list

`buildTree` works on the part of the list from `start` up to `end`, which may be a node in the
middle of the list.  The fast pointer makes two moves for every move of the slow one, so it comes
to the end of the part, or to its last node, when the slow one has half of the part behind it
(`race_ok`).  The two halves are shorter, and differ by one node at most (`buildTree_ok`).
-/

namespace Leetcode
namespace ListToBst

open CLib

/-- The links of the list. -/
def next (m : Heap) (a : Ref) : Option Ref := (m a).next

/-- The nodes of `l` lead from `p` to `q`, and `q` is not one of them. -/
structure Part (m : Heap) (p : Option Ref) (l : List Ref) (q : Option Ref) : Prop where
  seg : Seg (next m) p l q
  before : ∀ a ∈ l, some a ≠ q

variable {m : Heap} {p q slow fast start last : Option Ref} {a : Ref} {l l₁ l₂ : List Ref}

theorem Part.cons (h : Part m p (a :: l) q) : p = some a ∧ some a ≠ q ∧ Part m (next m a) l q := by
  obtain ⟨⟨hp, hl⟩, hbefore⟩ := h
  obtain ⟨ha, hl'⟩ := List.forall_mem_cons.1 hbefore
  exact ⟨hp, ha, hl, hl'⟩

/-- A part whose end is a node behind it. -/
theorem Part.split (h : Part m p (l₁ ++ a :: l₂) q) (hnodup : (l₁ ++ a :: l₂).Nodup) :
    Part m p l₁ (some a) ∧ Part m (next m a) l₂ q := by
  obtain ⟨r, hl₁, rfl, hl₂⟩ := seg_append.1 h.seg
  obtain ⟨-, -, hdisjoint⟩ := List.nodup_append.1 hnodup
  constructor
  · refine ⟨hl₁, fun b hb heq => ?_⟩
    exact hdisjoint b hb a List.mem_cons_self (Option.some.inj heq)
  · exact ⟨hl₂, fun b hb =>
      h.before b (List.mem_append_right _ (List.mem_cons_of_mem _ hb))⟩

/-- The loop stops when the slow pointer has made half of the moves. -/
theorem race_ok {fuel : ℕ} (hfast : Part m fast l last) (hslow : Seg (next m) slow (l₁ ++ l₂) last)
    (hhalf : l₁.length = l.length / 2) (hfuel : l₁.length < fuel) :
    ∃ r, race m last fuel slow fast = some r ∧ Seg (next m) slow l₁ r ∧
      Seg (next m) r l₂ last := by
  obtain ⟨fuel, rfl⟩ : ∃ k, fuel = k + 1 := ⟨fuel - 1, by omega⟩
  rw [race]
  induction l₁ generalizing l slow fast fuel with
  | nil =>
      match l, hfast with
      | [], hfast =>
          have hend : fast = last := hfast.seg
          exact ⟨slow, if_pos hend, rfl, hslow⟩
      | [a], hfast =>
          obtain ⟨rfl, hne, hrest⟩ := hfast.cons
          have hend : (m a).next = last := hrest.seg
          refine ⟨slow, ?_, rfl, hslow⟩
          rw [if_neg hne, Option.bind_some, if_pos hend]
      | a :: b :: l, hfast =>
          simp only [List.length_nil, List.length_cons] at hhalf
          omega
  | cons s l₁ ih =>
      match l, hfast with
      | [], _ => simp at hhalf
      | [a], _ => simp at hhalf
      | a :: b :: l, hfast =>
          obtain ⟨rfl, hne, hrest⟩ := hfast.cons
          obtain ⟨hb, hne', hrest'⟩ := hrest.cons
          obtain ⟨rfl, hslow'⟩ := hslow
          simp only [List.length_cons] at hhalf hfuel
          obtain ⟨fuel, rfl⟩ : ∃ k, fuel = k + 1 := ⟨fuel - 1, by omega⟩
          obtain ⟨r, hrace, hl₁, hl₂⟩ := ih hrest' hslow' (by omega) fuel (by omega)
          have hlink : (m a).next = some b := hb
          refine ⟨r, ?_, ⟨rfl, hl₁⟩, hl₂⟩
          rw [if_neg hne, Option.bind_some, hlink, if_neg hne', Option.bind_some, Option.bind_some,
            race]
          exact hrace

/-- A node in the middle of the list. -/
theorem exists_middle (h : l ≠ []) : ∃ l₁ a l₂, l = l₁ ++ a :: l₂ ∧ l₁.length = l.length / 2 := by
  have hpos : 0 < l.length := List.length_pos_of_ne_nil h
  have hmid : l.length / 2 < l.length := by omega
  refine ⟨l.take (l.length / 2), l[l.length / 2], l.drop (l.length / 2 + 1), ?_, ?_⟩
  · rw [← List.drop_eq_getElem_cons hmid, List.take_append_drop]
  · rw [List.length_take]
    omega

/-- The tree of a part of the list. -/
theorem buildTree_ok {fuel : ℕ} (h : Part m start l last) (hnodup : l.Nodup)
    (hfuel : l.length < fuel) :
    ∃ t, buildTree m fuel start last = some t ∧
      inorder t = l.map (fun a => (m a).val) ∧ SizeBalanced t := by
  induction fuel generalizing start last l with
  | zero => exact absurd hfuel (Nat.not_lt_zero _)
  | succ fuel ih =>
      rw [buildTree]
      by_cases hl : l = []
      · subst hl
        exact ⟨.nil, if_pos h.seg, rfl, trivial⟩
      · obtain ⟨l₁, s, l₂, rfl, hhalf⟩ := exists_middle hl
        have hne : start ≠ last := by
          cases l₁ with
          | nil =>
              obtain ⟨rfl, hne, -⟩ := h.cons
              exact hne
          | cons a l₁ =>
              obtain ⟨rfl, hne, -⟩ := h.cons
              exact hne
        have hlength : (l₁ ++ s :: l₂).length = l₁.length + (l₂.length + 1) := List.length_append
        obtain ⟨r, hrace, hl₁, rfl, -⟩ := race_ok h h.seg hhalf (by omega : l₁.length < fuel + 1)
        obtain ⟨hleft, hright⟩ := h.split hnodup
        obtain ⟨hnodup₁, hnodup₂, -⟩ := List.nodup_append.1 hnodup
        obtain ⟨left, hbuild₁, hinorder₁, hbalanced₁⟩ := ih hleft hnodup₁ (by omega)
        obtain ⟨right, hbuild₂, hinorder₂, hbalanced₂⟩ :=
          ih hright (List.nodup_cons.1 hnodup₂).2 (by omega)
        have hsize₁ := congrArg List.length hinorder₁
        have hsize₂ := congrArg List.length hinorder₂
        rw [inorder_length, List.length_map] at hsize₁ hsize₂
        refine ⟨.node (m s).val left right, ?_, ?_,
          sizeBalanced_node hbalanced₁ hbalanced₂ (by omega) (by omega)⟩
        · have hlink : (m s).next = next m s := rfl
          rw [if_neg hne, hrace, Option.bind_some, Option.bind_some, hbuild₁, Option.bind_some,
            hlink, hbuild₂, Option.map_some]
        · rw [inorder, hinorder₁, hinorder₂, List.map_append, List.map_cons]

/-- Every list that ends gives a balanced tree with the values of the list, which is a search tree
when the list is sorted. -/
theorem sortedListToBST_exact {head : Option Ref} (hlist : Chain (next m) head l) {fuel : ℕ}
    (hfuel : l.length < fuel) :
    ∃ t, sortedListToBST m fuel head = some t ∧ inorder t = l.map (fun a => (m a).val) ∧
      ((l.map fun a => (m a).val).Pairwise (· ≤ ·) → SearchTree (· ≤ ·) t) ∧
      HeightBalanced t := by
  have hpart : Part m head l none := ⟨hlist, fun a _ => Option.some_ne_none a⟩
  obtain ⟨t, hbuild, hinorder, hbalanced⟩ := buildTree_ok hpart (chain_nodup hlist) hfuel
  refine ⟨t, hbuild, hinorder, fun hsorted => ?_, heightBalanced hbalanced⟩
  rw [searchTree_iff, hinorder]
  exact hsorted

/-- A list of four nodes. -/
theorem sortedListToBST_exact_four :
    ∃ t, sortedListToBST (fun a => ⟨Int32.ofNat a, if a = 3 then none else some (a + 1)⟩) 5
          (some 0) = some t ∧
      inorder t = [0, 1, 2, 3].map Int32.ofNat ∧
      (([0, 1, 2, 3].map Int32.ofNat).Pairwise (· ≤ ·) → SearchTree (· ≤ ·) t) ∧
      HeightBalanced t :=
  sortedListToBST_exact (m := fun a => ⟨Int32.ofNat a, if a = 3 then none else some (a + 1)⟩)
    (l := [0, 1, 2, 3]) ⟨rfl, rfl, rfl, rfl, rfl⟩ (by decide)

example : sortedListToBST (fun a => ⟨Int32.ofNat a, if a = 2 then none else some (a + 1)⟩) 4
    (some 0) = some (.node 1 (.node 0 .nil .nil) (.node 2 .nil .nil)) := by decide

end ListToBst
end Leetcode
