import Mathlib.Data.Finset.Basic
import Mathlib.Data.Finset.Lattice.Lemmas
import Leetcode.Lib.Chain
import Leetcode.Lib.PtrTree

/-!
# Allocated nodes

`nodes` is the set of the nodes that are allocated and not freed; a node that is allocated gets
a name that has not been used before.  To free a node that is not in the set, or to read one
for the next link, is undefined (`none`).

* `freeChain`, `freeTree` — the loop that frees the nodes of a list, and the recursion that
  frees those of a tree.
* `freeChain_ok`, `freeTree_ok` — they free the nodes of the list or of the tree, each of them
  once, and read none of them after that.
-/

namespace CLib

variable {α : Type*}

section Chains

variable {next : α → Option α} {p : Option α} {l : List α} {a b : α}

/-- A link along a chain stays in it. -/
theorem mem_of_link (h : Chain next p l) (hb : b ∈ l) (ha : a ∈ next b) : a ∈ l := by
  obtain ⟨l₁, l₂, rfl⟩ := List.append_of_mem hb
  rw [chain_link h] at ha
  exact List.mem_append_right _ (List.mem_cons_of_mem _ (List.mem_of_head? ha))

theorem mem_of_start (h : Chain next p l) (ha : a ∈ p) : a ∈ l := by
  rw [chain_head h] at ha
  exact List.mem_of_head? ha

end Chains

variable [DecidableEq α]

/-- `free(a)`. -/
def free (nodes : Finset α) (a : α) : Option (Finset α) :=
  if a ∈ nodes then some (nodes.erase a) else none

/-- `while (node) { tmp = node; node = node->next; free(tmp); }`, with a bound on the number of
rounds. -/
def freeChain (next : α → Option α) : ℕ → Option α → Finset α → Option (Finset α)
  | _, none, nodes => some nodes
  | 0, some _, _ => none
  | fuel + 1, some a, nodes =>
      if a ∈ nodes then (free nodes a).bind (freeChain next fuel (next a)) else none

theorem free_ok {nodes : Finset α} {a : α} (h : a ∈ nodes) : free nodes a = some (nodes.erase a) :=
  if_pos h

theorem freeChain_ok {next : α → Option α} {p : Option α} {l : List α} {nodes : Finset α}
    (h : Chain next p l) (hnodes : ∀ a ∈ l, a ∈ nodes) {fuel : ℕ} (hfuel : l.length ≤ fuel) :
    freeChain next fuel p nodes = some (nodes \ l.toFinset) := by
  induction l generalizing p nodes fuel with
  | nil =>
      obtain rfl : p = none := h
      rw [freeChain, List.toFinset_nil, Finset.sdiff_empty]
  | cons a l ih =>
      have hnotin := (List.nodup_cons.1 (chain_nodup h)).1
      obtain ⟨rfl, hl⟩ := h
      rw [List.length_cons] at hfuel
      obtain ⟨fuel, rfl⟩ : ∃ k, fuel = k + 1 := ⟨fuel - 1, by omega⟩
      have ha := hnodes a List.mem_cons_self
      rw [freeChain, if_pos ha, free_ok ha, Option.bind_some, ih hl _ (by omega),
        List.toFinset_cons, Finset.sdiff_insert, Finset.erase_sdiff_comm]
      intro b hb
      refine Finset.mem_erase.2 ⟨?_, hnodes b (List.mem_cons_of_mem _ hb)⟩
      rintro rfl
      exact hnotin hb

section Trees

variable {δ : Type*}

/-- `free_tree(node)`: the two children before the node, with a bound on the depth. -/
def freeTree (m : Mem δ) : ℕ → Option Ref → Finset Ref → Option (Finset Ref)
  | _, none, nodes => some nodes
  | 0, some _, _ => none
  | fuel + 1, some a, nodes =>
      if a ∈ nodes then
        (freeTree m fuel (m a).left nodes).bind fun nodes =>
          if a ∈ nodes then
            (freeTree m fuel (m a).right nodes).bind fun nodes => free nodes a
          else none
      else none

theorem freeTree_ok {m : Mem δ} {par : Option Ref} {t : PtrTree δ} {nodes : Finset Ref}
    (h : m.Holds par t) (hnodup : t.refs.Nodup) (hnodes : ∀ a ∈ t.refs, a ∈ nodes) {fuel : ℕ}
    (hfuel : t.refs.length ≤ fuel) :
    freeTree m fuel t.ref nodes = some (nodes \ t.refs.toFinset) := by
  induction t generalizing par nodes fuel with
  | nil => rw [PtrTree.ref, PtrTree.refs, freeTree, List.toFinset_nil, Finset.sdiff_empty]
  | node a d l r ihl ihr =>
      obtain ⟨hcell, hl, hr⟩ := h
      obtain ⟨hnotin, hrest⟩ := List.nodup_cons.1 hnodup
      obtain ⟨hleft, hright, hdisjoint⟩ := List.nodup_append.1 hrest
      rw [PtrTree.refs, List.length_cons, List.length_append] at hfuel
      obtain ⟨fuel, rfl⟩ : ∃ k, fuel = k + 1 := ⟨fuel - 1, by omega⟩
      have ha := hnodes a List.mem_cons_self
      have hal : a ∉ l.refs := fun hmem => hnotin (List.mem_append_left _ hmem)
      have har : a ∉ r.refs := fun hmem => hnotin (List.mem_append_right _ hmem)
      have hmem : ∀ b ∈ l.refs ++ r.refs, b ∈ nodes := fun b hb =>
        hnodes b (List.mem_cons_of_mem _ hb)
      have hfirst : freeTree m fuel l.ref nodes = some (nodes \ l.refs.toFinset) :=
        ihl hl hleft (fun b hb => hmem b (List.mem_append_left _ hb)) (by omega)
      have hstill : a ∈ nodes \ l.refs.toFinset :=
        Finset.mem_sdiff.2 ⟨ha, fun hin => hal (List.mem_toFinset.1 hin)⟩
      have hsecond : freeTree m fuel r.ref (nodes \ l.refs.toFinset) =
          some ((nodes \ l.refs.toFinset) \ r.refs.toFinset) := by
        refine ihr hr hright (fun b hb => ?_) (by omega)
        refine Finset.mem_sdiff.2 ⟨hmem b (List.mem_append_right _ hb), fun hin => ?_⟩
        exact hdisjoint b (List.mem_toFinset.1 hin) b hb rfl
      have hlast : a ∈ (nodes \ l.refs.toFinset) \ r.refs.toFinset :=
        Finset.mem_sdiff.2 ⟨hstill, fun hin => har (List.mem_toFinset.1 hin)⟩
      rw [PtrTree.ref, freeTree, if_pos ha, hcell, hfirst, Option.bind_some, if_pos hstill,
        hsecond, Option.bind_some, free_ok hlast, PtrTree.refs, List.toFinset_cons,
        List.toFinset_append, Finset.sdiff_insert, sdiff_sdiff_left,
        Finset.sup_eq_union]

end Trees

end CLib
