import Mathlib.Data.List.Perm.Subperm
import Mathlib.Data.List.Nodup
import Mathlib.Logic.Function.Basic

/-!
# Chains of linked nodes

`next` gives the link of every node.  `Seg next p l q` says that the nodes of `l` lead
from the pointer `p` to the pointer `q`, and a `Chain` is a segment that ends with a
null pointer.

* `chain_unique`, `chain_nodup` — a pointer heads one chain at most, without repetition.
* `findNode_chain`, `findPrev_chain` — the loops that search a chain.
* `chain_splice` — writing one link cuts a chain and continues it with another one; this
  is both an insertion (`chain_insert`) and a removal (`chain_remove`).
-/

namespace CLib

variable {α : Type*}

/-- The nodes of the list lead from `p` to `q`. -/
def Seg (next : α → Option α) : Option α → List α → Option α → Prop
  | p, [], q => p = q
  | p, a :: l, q => p = some a ∧ Seg next (next a) l q

/-- The nodes reached from `p`. -/
abbrev Chain (next : α → Option α) (p : Option α) (l : List α) : Prop := Seg next p l none

variable {next next' : α → Option α} {p q r : Option α} {a b : α} {l l₁ l₂ : List α}

theorem seg_append :
    Seg next p (l₁ ++ l₂) q ↔ ∃ r, Seg next p l₁ r ∧ Seg next r l₂ q := by
  induction l₁ generalizing p with
  | nil => simp [Seg]
  | cons a l₁ ih => simp [Seg, ih, and_assoc]

/-- Only the links of the nodes in the list matter. -/
theorem Seg.congr (h : Seg next p l q) (hsame : ∀ a ∈ l, next' a = next a) :
    Seg next' p l q := by
  induction l generalizing p with
  | nil => exact h
  | cons a l ih =>
      obtain ⟨hp, hl⟩ := h
      refine ⟨hp, ?_⟩
      rw [hsame a List.mem_cons_self]
      exact ih hl fun b hb => hsame b (List.mem_cons_of_mem _ hb)

/-- A write to a node outside. -/
theorem Seg.update [DecidableEq α] (h : Seg next p l q) (ha : a ∉ l) (v : Option α) :
    Seg (Function.update next a v) p l q := by
  refine h.congr fun b hb => Function.update_of_ne ?_ _ _
  rintro rfl
  exact ha hb

theorem chain_head (h : Chain next p l) : p = l.head? := by
  cases l with
  | nil => exact h
  | cons a l => exact h.1

theorem chain_unique (h₁ : Chain next p l₁) (h₂ : Chain next p l₂) : l₁ = l₂ := by
  induction l₁ generalizing p l₂ with
  | nil =>
      cases l₂ with
      | nil => rfl
      | cons b l₂ => cases h₁.symm.trans h₂.1
  | cons a l₁ ih =>
      cases l₂ with
      | nil => cases h₁.1.symm.trans h₂
      | cons b l₂ =>
          cases h₁.1.symm.trans h₂.1
          rw [ih h₁.2 h₂.2]

/-- The second part of a chain is a chain. -/
theorem chain_suffix (h : Chain next p (l₁ ++ l₂)) : Chain next l₂.head? l₂ := by
  obtain ⟨r, -, hr⟩ := seg_append.1 h
  rw [← chain_head hr]
  exact hr

/-- What stands behind a node. -/
theorem chain_behind_node (h : Chain next p (l₁ ++ a :: l₂)) : Chain next (next a) l₂ := by
  obtain ⟨r, -, -, hr⟩ := seg_append.1 h
  exact hr

theorem chain_link (h : Chain next p (l₁ ++ a :: l₂)) : next a = l₂.head? :=
  chain_head (chain_behind_node h)

/-- Behind the last node of a part. -/
theorem chain_behind {u : α} (h : Chain next p (l₁ ++ l₂)) (hu : l₁.getLast? = some u) :
    next u = l₂.head? := by
  obtain ⟨s, rfl⟩ := List.getLast?_eq_some_iff.1 hu
  rw [List.append_assoc] at h
  exact chain_link h

/-- A chain does not come back to a node, or it would not end. -/
theorem chain_nodup (h : Chain next p l) : l.Nodup := by
  induction l generalizing p with
  | nil => exact List.nodup_nil
  | cons a l ih =>
      obtain ⟨rfl, hl⟩ := h
      refine List.nodup_cons.2 ⟨fun ha => ?_, ih hl⟩
      obtain ⟨l₁, l₂, rfl⟩ := List.append_of_mem ha
      have hsuffix := chain_suffix hl
      have hwhole : Chain next (some a) (a :: (l₁ ++ a :: l₂)) := ⟨rfl, hl⟩
      have hlen := congrArg List.length (chain_unique hwhole hsuffix)
      simp only [List.length_cons, List.length_append] at hlen
      omega

theorem chain_disjoint (h : Chain next p (l₁ ++ l₂)) : ∀ b ∈ l₁, b ∉ l₂ := by
  intro b hb hmem
  exact (List.nodup_append.1 (chain_nodup h)).2.2 b hb b hmem rfl

/-- A chain of natural numbers below a bound. -/
theorem chain_length_le {next : ℕ → Option ℕ} {p : Option ℕ} {l : List ℕ} {n : ℕ}
    (h : Chain next p l) (hlt : ∀ a ∈ l, a < n) : l.length ≤ n := by
  have hsub := List.subperm_of_subset (chain_nodup h) fun a ha => List.mem_range.2 (hlt a ha)
  simpa using hsub.length_le

/-- What is left without one node. -/
theorem mem_without (h : (l₁ ++ a :: l₂).Nodup) :
    b ∈ l₁ ++ l₂ ↔ b ∈ l₁ ++ a :: l₂ ∧ b ≠ a := by
  obtain ⟨-, hright, hdisjoint⟩ := List.nodup_append.1 h
  obtain ⟨hright, -⟩ := List.nodup_cons.1 hright
  have hleft : a ∉ l₁ := fun ha => hdisjoint a ha a List.mem_cons_self rfl
  by_cases hb : b = a
  · subst hb
    simp [hleft, hright]
  · simp [hb]

/-! ## Writing a link -/

section Relink

variable [DecidableEq α]

/-- Let the node `b` link to `v`, or the start of the chain if there is no such node:
the links and the start afterwards. -/
def relink (next : α → Option α) (p b v : Option α) : (α → Option α) × Option α :=
  match b with
  | none => (next, v)
  | some b => (Function.update next b v, p)

theorem relink_other (next : α → Option α) (p v : Option α) {b : Option α} (ha : b ≠ some a) :
    (relink next p b v).1 a = next a := by
  cases b with
  | none => rfl
  | some b => exact Function.update_of_ne (fun hab => ha (by rw [hab])) _ _

theorem Seg.relink (h : Seg next p l q) (hnodup : l.Nodup) (v : Option α) :
    Seg (relink next p l.getLast? v).1 (relink next p l.getLast? v).2 l v := by
  rcases List.eq_nil_or_concat l with rfl | ⟨l, b, rfl⟩
  · rfl
  · rw [List.concat_eq_append] at h hnodup ⊢
    obtain ⟨r, hl, rfl, -⟩ := seg_append.1 h
    have hb : b ∉ l := fun hb => (List.nodup_append.1 hnodup).2.2 b hb b List.mem_cons_self rfl
    rw [List.getLast?_concat]
    refine seg_append.2 ⟨some b, hl.update hb v, rfl, ?_⟩
    exact Function.update_self ..

/-- One write replaces everything behind `l₁` by the chain `l₂`. -/
theorem Seg.splice {v : Option α} (h : Seg next p l₁ q) (hnodup : l₁.Nodup)
    (hv : Seg next v l₂ r) (hlast : ∀ b ∈ l₁.getLast?, b ∉ l₂) :
    Seg (CLib.relink next p l₁.getLast? v).1 (CLib.relink next p l₁.getLast? v).2
      (l₁ ++ l₂) r := by
  refine seg_append.2 ⟨v, h.relink hnodup v, hv.congr fun a ha => ?_⟩
  exact relink_other next p v fun hb => hlast a hb ha

/-- Removing what stands between two parts of a chain. -/
theorem chain_splice {v : Option α} {mid : List α} (h : Chain next p (l₁ ++ mid))
    (hv : Chain next v l₂) (hlast : ∀ b ∈ l₁, b ∉ l₂) :
    Chain (CLib.relink next p l₁.getLast? v).1 (CLib.relink next p l₁.getLast? v).2
      (l₁ ++ l₂) := by
  obtain ⟨q, hl, -⟩ := seg_append.1 h
  exact hl.splice (List.nodup_append.1 (chain_nodup h)).1 hv fun b hb =>
    hlast b (List.mem_of_getLast? hb)

/-- The links when `n` has been put behind `u`. -/
def linkBehind (next : α → Option α) (n u : α) : α → Option α :=
  Function.update (Function.update next n (next u)) u (some n)

/-- The links when the node `a` behind `u` has been taken out. -/
def unlinkBehind (next : α → Option α) (a u : α) : α → Option α :=
  Function.update next u (next a)

theorem chain_insert {u n : α} (h : Chain next p (l₁ ++ l₂)) (hu : l₁.getLast? = some u)
    (hn : n ∉ l₁ ++ l₂) : Chain (linkBehind next n u) p (l₁ ++ n :: l₂) := by
  have hnext := chain_behind h hu
  have hnew : Chain (Function.update next n l₂.head?) (some n) (n :: l₂) := by
    refine ⟨rfl, ?_⟩
    rw [Function.update_self]
    exact (chain_suffix h).update (fun hmem => hn (List.mem_append_right _ hmem)) _
  have hdisjoint : ∀ b ∈ l₁, b ∉ n :: l₂ := by
    intro b hb hmem
    rcases List.mem_cons.1 hmem with rfl | hmem
    · exact hn (List.mem_append_left _ hb)
    · exact chain_disjoint h b hb hmem
  have hspliced := chain_splice (h.update hn l₂.head?) hnew hdisjoint
  rw [hu] at hspliced
  rw [linkBehind, hnext]
  exact hspliced

theorem chain_remove {u : α} (h : Chain next p (l₁ ++ a :: l₂)) (hu : l₁.getLast? = some u) :
    Chain (unlinkBehind next a u) p (l₁ ++ l₂) := by
  have hspliced := chain_splice h (chain_behind_node h) fun b hb hmem =>
    chain_disjoint h b hb (List.mem_cons_of_mem _ hmem)
  rwa [hu] at hspliced

end Relink

/-! ## Searching -/

/-- `while (node) { if (test) return node; node = node->next; }`, with a bound on the
number of rounds. -/
def findNode (next : α → Option α) (test : α → Bool) : ℕ → Option α → Option (Option α)
  | _, none => some none
  | 0, some _ => none
  | fuel + 1, some a =>
      if test a then some (some a) else findNode next test fuel (next a)

/-- The loop that also keeps the node in front, `prev`. -/
def findPrev (next : α → Option α) (test : α → Bool) :
    ℕ → Option α → Option α → Option (Option (α × Option α))
  | _, none, _ => some none
  | 0, some _, _ => none
  | fuel + 1, some a, prev =>
      if test a then some (some (a, prev)) else findPrev next test fuel (next a) (some a)

theorem findNode_chain (test : α → Bool) (h : Chain next p l) {fuel : ℕ}
    (hfuel : l.length ≤ fuel) : findNode next test fuel p = some (l.find? test) := by
  induction l generalizing p fuel with
  | nil =>
      obtain rfl : p = none := h
      rw [findNode, List.find?_nil]
  | cons a l ih =>
      obtain ⟨rfl, hl⟩ := h
      rw [List.length_cons] at hfuel
      obtain ⟨fuel, rfl⟩ : ∃ k, fuel = k + 1 := ⟨fuel - 1, by omega⟩
      rw [findNode, List.find?_cons]
      cases ha : test a with
      | true => rfl
      | false => exact ih hl (by omega)

/-- The first node that passes the test, with the one in front of it. -/
theorem findPrev_chain {test : α → Bool} (h : Chain next p (l₁ ++ a :: l₂))
    (hl : ∀ b ∈ l₁, test b = false) (ha : test a = true) {fuel : ℕ}
    (hfuel : (l₁ ++ a :: l₂).length ≤ fuel) (prev : Option α) :
    findPrev next test fuel p prev = some (some (a, l₁.getLast?.or prev)) := by
  induction l₁ generalizing p fuel prev with
  | nil =>
      obtain ⟨rfl, -⟩ := h
      rw [List.nil_append, List.length_cons] at hfuel
      obtain ⟨fuel, rfl⟩ : ∃ k, fuel = k + 1 := ⟨fuel - 1, by omega⟩
      rw [findPrev, if_pos ha]
      rfl
  | cons b l₁ ih =>
      obtain ⟨rfl, hrest⟩ := h
      rw [List.cons_append, List.length_cons] at hfuel
      obtain ⟨fuel, rfl⟩ : ∃ k, fuel = k + 1 := ⟨fuel - 1, by omega⟩
      have hb := hl b List.mem_cons_self
      have hlength : (l₁ ++ a :: l₂).length ≤ fuel := by omega
      have hround := ih hrest (fun d hd => hl d (List.mem_cons_of_mem _ hd)) hlength (some b)
      rw [findPrev, hb, if_neg Bool.false_ne_true, hround, List.getLast?_cons]
      cases l₁.getLast? <;> rfl

theorem findPrev_none {test : α → Bool} (h : Chain next p l) (hl : ∀ b ∈ l, test b = false)
    {fuel : ℕ} (hfuel : l.length ≤ fuel) (prev : Option α) :
    findPrev next test fuel p prev = some none := by
  induction l generalizing p fuel prev with
  | nil =>
      obtain rfl : p = none := h
      rw [findPrev]
  | cons b l ih =>
      obtain ⟨rfl, hrest⟩ := h
      rw [List.length_cons] at hfuel
      obtain ⟨fuel, rfl⟩ : ∃ k, fuel = k + 1 := ⟨fuel - 1, by omega⟩
      rw [findPrev, hl b List.mem_cons_self, if_neg Bool.false_ne_true]
      exact ih hrest (fun d hd => hl d (List.mem_cons_of_mem _ hd)) (by omega) _

/-- A search for what only one element has. -/
theorem find?_eq_some_of_unique {test : α → Bool} (ha : a ∈ l) (htest : test a = true)
    (hunique : ∀ b ∈ l, test b = true → b = a) : l.find? test = some a := by
  cases hfind : l.find? test with
  | none => exact absurd htest (List.find?_eq_none.1 hfind a ha)
  | some b => rw [hunique b (List.mem_of_find?_eq_some hfind) (List.find?_some hfind)]

end CLib
