import Leetcode.MedianFinder.Rotation
import Leetcode.ThirdMax.Rotation

/-!
# Rotations, in both programs

`295.c` returns the new root and `414.c` writes it through a pointer; the trees are the same.
-/

namespace Leetcode

open CLib

/-- A rotation of a tree with right links and sizes keeps the nodes in their order, their values
and colours and all sizes, changes the root if it is at the root, and is undone, cell by cell, by
the other rotation. -/
theorem rotations_undone :
    (Undone MedianFinder.Heap.mem MedianFinder.Heap.root MedianFinder.Data.nodes
        MedianFinder.Data.keep MedianFinder.leftRotate MedianFinder.rightRotate .right ∧
      Undone MedianFinder.Heap.mem MedianFinder.Heap.root MedianFinder.Data.nodes
        MedianFinder.Data.keep MedianFinder.rightRotate MedianFinder.leftRotate .left) ∧
    Undone ThirdMax.Heap.mem ThirdMax.Heap.root ThirdMax.Data.size ThirdMax.Data.keep
        (fun h x => some (ThirdMax.leftRotate h (some x)))
        (fun h x => some (ThirdMax.rightRotate h (some x))) .right ∧
      Undone ThirdMax.Heap.mem ThirdMax.Heap.root ThirdMax.Data.size ThirdMax.Data.keep
        (fun h x => some (ThirdMax.rightRotate h (some x)))
        (fun h x => some (ThirdMax.leftRotate h (some x))) .left :=
  ⟨⟨MedianFinder.rotate_undone .left, MedianFinder.rotate_undone .right⟩,
    ThirdMax.rotate_undone .left, ThirdMax.rotate_undone .right⟩

/-- A rotation below the root, with a middle subtree. -/
theorem rotations_undone_below :
    let h : MedianFinder.Heap :=
      { mem := ⟨fun
          | 0 => ⟨⟨9, .BLACK, 4⟩, some 1, none, none⟩
          | 1 => ⟨⟨1, .BLACK, 3⟩, none, some 2, some 0⟩
          | 2 => ⟨⟨5, .RED, 2⟩, some 3, none, some 1⟩
          | _ => ⟨⟨3, .BLACK, 1⟩, none, none, some 2⟩⟩
        root := some 0
        fresh := 4 }
    let t : PtrTree MedianFinder.Data :=
      .node 0 ⟨9, .BLACK, 4⟩
        (.node 1 ⟨1, .BLACK, 3⟩ .nil
          (.node 2 ⟨5, .RED, 2⟩ (.node 3 ⟨3, .BLACK, 1⟩ .nil .nil) .nil)) .nil
    ∃ h', MedianFinder.leftRotate h 1 = some h' ∧
      Turned MedianFinder.Data.nodes MedianFinder.Data.keep 1 2 t h.mem h.root h'.mem h'.root ∧
      MedianFinder.rightRotate h' 2 = some h := by
  intro h t
  have hat : h.mem.At h.root [] t :=
    ⟨trivial, ⟨rfl, ⟨rfl, trivial, ⟨rfl, ⟨rfl, trivial, trivial⟩, trivial⟩⟩, trivial⟩,
      by decide, rfl⟩
  have hsized : t.Sized MedianFinder.Data.nodes :=
    ⟨rfl, ⟨rfl, trivial, rfl, ⟨rfl, trivial, trivial⟩, trivial⟩, trivial⟩
  exact rotations_undone.1.1 h t 1 2 hat hsized (by decide) rfl

end Leetcode
