import Leetcode.Lib.Chain

/-!
# Walks along links

`walk next k p` is the pointer `k` links behind `p`, and a null pointer behind the end.

* `walk_add` — a walk in two parts.
* `walk_chain` — on a chain the walk gives its nodes.
* `exists_chain_iff` — the walk comes to a null pointer exactly if there is a chain.
-/

namespace CLib

variable {α : Type*} {next : α → Option α} {p : Option α} {l : List α}

def walk (next : α → Option α) : ℕ → Option α → Option α
  | 0, p => p
  | k + 1, p => walk next k (p.bind next)

@[simp] theorem walk_none (next : α → Option α) (k : ℕ) : walk next k none = none := by
  induction k with
  | zero => rfl
  | succ k ih => exact ih

theorem walk_add (next : α → Option α) (j k : ℕ) (p : Option α) :
    walk next (j + k) p = walk next k (walk next j p) := by
  induction j generalizing p with
  | zero => rw [Nat.zero_add, walk]
  | succ j ih => rw [Nat.succ_add, walk, ih, walk]

/-- One more link. -/
theorem walk_succ (next : α → Option α) (k : ℕ) (p : Option α) :
    walk next (k + 1) p = (walk next k p).bind next := by
  rw [walk_add, walk, walk]

theorem walk_chain (h : Chain next p l) (k : ℕ) : walk next k p = l[k]? := by
  induction k generalizing p l with
  | zero => rw [walk, chain_head h, List.head?_eq_getElem?]
  | succ k ih =>
      cases l with
      | nil =>
          obtain rfl : p = none := h
          exact walk_none next (k + 1)
      | cons a l =>
          obtain ⟨rfl, hl⟩ := h
          rw [walk, Option.bind_some, ih hl, List.getElem?_cons_succ]

theorem exists_chain_iff : (∃ l, Chain next p l) ↔ ∃ k, walk next k p = none := by
  constructor
  · rintro ⟨l, hl⟩
    exact ⟨l.length, by rw [walk_chain hl, List.getElem?_eq_none (Nat.le_refl _)]⟩
  · rintro ⟨k, hk⟩
    induction k generalizing p with
    | zero => exact ⟨[], hk⟩
    | succ k ih =>
        cases p with
        | none => exact ⟨[], rfl⟩
        | some a =>
            obtain ⟨l, hl⟩ := ih hk
            exact ⟨a :: l, rfl, hl⟩

end CLib
