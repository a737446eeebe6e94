import Mathlib.Data.Nat.ModEq
import Mathlib.Logic.Function.Basic

/-!
# Ring buffers

`ring buffer size head count` lists the elements that a ring buffer holds, from the
index `head` on: `ring_push` writes behind the last one and `ring_pop` takes the first
one.
-/

namespace CLib

variable {α : Type*}

/-- The `count` elements from the index `head` on. -/
def ring (buffer : ℕ → α) (size head count : ℕ) : List α :=
  (List.range count).map fun i => buffer ((head + i) % size)

variable {buffer : ℕ → α} {size head count : ℕ}

@[simp] theorem length_ring : (ring buffer size head count).length = count := by
  simp [ring]

/-- The index behind the last element is none of theirs. -/
theorem ring_index_ne {i : ℕ} (hi : i < count) (hcount : count < size) :
    (head + i) % size ≠ (head + count) % size := by
  intro heq
  have hmod : i ≡ count [MOD size] := Nat.ModEq.add_left_cancel' head heq
  rw [Nat.ModEq, Nat.mod_eq_of_lt hcount, Nat.mod_eq_of_lt (hi.trans hcount)] at hmod
  omega

theorem ring_push (hcount : count < size) (x : α) :
    ring (Function.update buffer ((head + count) % size) x) size head (count + 1) =
      ring buffer size head count ++ [x] := by
  unfold ring
  rw [List.range_succ, List.map_append, List.map_singleton, Function.update_self]
  refine congrArg (· ++ [x]) (List.map_congr_left fun i hi => ?_)
  exact Function.update_of_ne (ring_index_ne (List.mem_range.1 hi) hcount) _ _

theorem ring_pop (hhead : head < size) :
    ring buffer size head (count + 1) =
      buffer head :: ring buffer size ((head + 1) % size) count := by
  unfold ring
  rw [List.range_succ_eq_map, List.map_cons, List.map_map, Nat.add_zero, Nat.mod_eq_of_lt hhead]
  refine congrArg (buffer head :: ·) (List.map_congr_left fun i _ => ?_)
  rw [Function.comp_apply, Nat.mod_add_mod, Nat.succ_eq_add_one, Nat.add_assoc, Nat.add_comm 1]

end CLib
