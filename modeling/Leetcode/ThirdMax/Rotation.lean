import Leetcode.Lib.Rotation
import Leetcode.ThirdMax.Order

/-!
# The rotations of `414.c` on any tree

`leftRotate` and `rightRotate` are written twice in the source, with one write more in the first.
Both are the rotation of a tree with right sizes.
-/

namespace Leetcode
namespace ThirdMax

open CLib

/-- The fields besides the size. -/
def Data.keep (d : Data) : Int × Color := (d.value, d.color)

theorem resizes : Resizes Data.size Data.keep fun m a => some (updateSize m (some a)) where
  at_upd := fun h ht hu _ => by
    refine ⟨_, _, rfl, at_updateSize h, ?_, rfl⟩
    rw [storedSize_eq ht, storedSize_eq hu]
  other := fun {m _ _ _} h hne => by
    cases h
    exact Mem.setData_of_ne m hne _
  keep_eq := fun {m _ a} h b => by
    cases h
    by_cases hb : b = a
    · rw [hb, updateSize, Mem.setData_self]
      rfl
    · rw [updateSize, Mem.setData_of_ne m hb]
  ext := fun {d d'} _ hsize hkeep => by
    obtain ⟨hvalue, hcolor⟩ := Prod.mk.inj hkeep
    cases d
    cases d'
    exact Data.mk.injEq .. ▸ ⟨hvalue, hcolor, hsize⟩

/-- The rotation towards a side. -/
def rotate : Side → Heap → Ref → Heap
  | .left, h, x => leftRotate h (some x)
  | .right, h, x => rightRotate h (some x)

variable {h : Heap} {s : Side} {x y : Ref}

theorem rotate_eq (hy : (h.mem x).child s.flip = some y) :
    some (rotate s h x) =
      (h.mem.turn (fun m a => some (updateSize m (some a))) h.root s x y).map fun turned =>
        { h with mem := turned.1, root := turned.2 } := by
  cases s with
  | left => exact congrArg some (leftRotate_eq hy)
  | right => exact congrArg some (rightRotate_eq hy)

theorem rotate_undone (s : Side) :
    Undone Heap.mem Heap.root Data.size Data.keep (fun h x => some (rotate s h x))
      (fun h x => some (rotate s.flip h x)) s.flip := by
  intro h t x y hat hsized hx hy
  obtain ⟨m', root', hturn, hturned, hchild, hback⟩ := turn_undone resizes hat hsized hx hy
  have hflip : s.flip.flip = s := by cases s <;> rfl
  have hrotate := rotate_eq hy
  rw [hturn, Option.map_some] at hrotate
  refine ⟨{ h with mem := m', root := root' }, hrotate, hturned, ?_⟩
  refine (rotate_eq (y := x) (by rw [hflip]; exact hchild)).trans ?_
  simp only [hback, Option.map_some]

end ThirdMax
end Leetcode
