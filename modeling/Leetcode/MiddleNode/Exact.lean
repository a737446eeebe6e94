import Leetcode.Lib.Walk
import Leetcode.MiddleNode.Model

/-!
# What `middleNode` returns

Behind `k` rounds the slow pointer has made `k` moves and the fast one twice as many
(`race_succ`), so the slow pointer is a null pointer only if the fast one is.
-/

namespace Leetcode
namespace MiddleNode

open CLib
open ListToBst (Heap)

/-- The links of the list. -/
def next (m : Heap) (a : Ref) : Option Ref := (m a).next

variable {m : Heap} {head : Option Ref} {l : List Ref} {k rounds : ℕ}

/-- One round, for pointers that have made `k` moves and twice as many. -/
theorem race_succ (m : Heap) (head : Option Ref) (k rounds : ℕ) :
    race m (rounds + 1) (walk (next m) k head) (walk (next m) (2 * k) head) =
      if walk (next m) (2 * k + 1) head = none then .returned (walk (next m) k head)
      else race m rounds (walk (next m) (k + 1) head) (walk (next m) (2 * (k + 1)) head) := by
  have hdouble : walk (next m) (2 * k) head = walk (next m) k (walk (next m) k head) := by
    rw [Nat.two_mul, walk_add]
  rw [Nat.mul_succ, walk_succ _ (2 * k + 1), walk_succ _ (2 * k), walk_succ _ k]
  cases hfast : walk (next m) (2 * k) head with
  | none => rw [race, Option.bind_none, if_pos rfl]
  | some f =>
      rw [race, Option.bind_some, show next m f = (m f).next from rfl]
      cases hlink : (m f).next with
      | none => rw [if_pos rfl]
      | some f' =>
          rw [if_neg (Option.some_ne_none f')]
          cases hslow : walk (next m) k head with
          | none =>
              rw [hdouble, hslow, walk_none] at hfast
              cases hfast
          | some s => rfl

theorem race_ne_null (m : Heap) (head : Option Ref) (k rounds : ℕ) :
    race m rounds (walk (next m) k head) (walk (next m) (2 * k) head) ≠ .nullDereference := by
  induction rounds generalizing k with
  | zero => simp [race]
  | succ rounds ih =>
      rw [race_succ]
      split
      · simp
      · exact ih (k + 1)

/-- A loop that ends has found the end of the list. -/
theorem walk_of_returned {r : Option Ref}
    (h : race m rounds (walk (next m) k head) (walk (next m) (2 * k) head) = .returned r) :
    ∃ j, walk (next m) j head = none := by
  induction rounds generalizing k with
  | zero => simp [race] at h
  | succ rounds ih =>
      rw [race_succ] at h
      split at h
      · next hend => exact ⟨_, hend⟩
      · exact ih h

theorem race_chain (hlist : Chain (next m) head l) (hk : k ≤ l.length / 2)
    (hrounds : l.length / 2 < k + rounds) :
    race m rounds (walk (next m) k head) (walk (next m) (2 * k) head) =
      .returned l[l.length / 2]? := by
  induction rounds generalizing k with
  | zero => omega
  | succ rounds ih =>
      rw [race_succ, walk_chain hlist, walk_chain hlist]
      split
      · next hend =>
          rw [List.getElem?_eq_none_iff] at hend
          rw [show k = l.length / 2 by omega]
      · next hmore =>
          rw [List.getElem?_eq_none_iff] at hmore
          exact ih (by omega) (by omega)

/-- Whatever the links are, `middleNode` never follows a null pointer; it returns exactly if the
list ends, and then, after half as many rounds as there are nodes, with the node in the middle,
the second one of two. -/
theorem middleNode_exact (m : Heap) (head : Option Ref) :
    (∀ rounds, middleNode m rounds head ≠ .nullDereference) ∧
      ((∃ rounds r, middleNode m rounds head = .returned r) ↔ ∃ l, Chain (next m) head l) ∧
      ∀ l, Chain (next m) head l → ∀ rounds, l.length / 2 < rounds →
        middleNode m rounds head = .returned l[l.length / 2]? := by
  have hmiddle : ∀ l, Chain (next m) head l → ∀ rounds, l.length / 2 < rounds →
      middleNode m rounds head = .returned l[l.length / 2]? := by
    intro l hlist rounds hrounds
    rw [← Nat.zero_add rounds] at hrounds
    exact race_chain hlist (Nat.zero_le _) hrounds
  refine ⟨fun rounds => race_ne_null m head 0 rounds, ⟨?_, ?_⟩, hmiddle⟩
  · rintro ⟨rounds, r, hreturned⟩
    rw [exists_chain_iff]
    have hrace : race m rounds (walk (next m) 0 head) (walk (next m) (2 * 0) head) =
        .returned r := hreturned
    exact walk_of_returned hrace
  · rintro ⟨l, hlist⟩
    exact ⟨_, _, hmiddle l hlist _ (Nat.lt_succ_self _)⟩

/-- A list of four nodes. -/
theorem middleNode_exact_four :
    middleNode (fun a => ⟨0, if a = 3 then none else some (a + 1)⟩) 3 (some 0) =
      .returned (some 2) :=
  (middleNode_exact (fun a => ⟨0, if a = 3 then none else some (a + 1)⟩) (some 0)).2.2
    [0, 1, 2, 3] ⟨rfl, rfl, rfl, rfl, rfl⟩ 3 (by decide)

end MiddleNode
end Leetcode
