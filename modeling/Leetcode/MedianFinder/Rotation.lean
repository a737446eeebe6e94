import Leetcode.Lib.Rotation
import Leetcode.MedianFinder.Refine

/-!
# The rotations of `295.c` on any tree

The insertion rotates below a red node only; here the tree is any one with right sizes.
-/

namespace Leetcode
namespace MedianFinder

open CLib

/-- The fields besides the size. -/
def Data.keep (d : Data) : Int × Color := (d.val, d.color)

theorem updateSize_cases {m m' : Mem Data} {a : Ref} (h : updateSize m a = some m') :
    ∃ size, m' = m.modify a fun d => { d with size := size } := by
  obtain ⟨_, -, h⟩ := Option.bind_eq_some_iff.1 h
  obtain ⟨size, -, h⟩ := Option.map_eq_some_iff.1 h
  exact ⟨size, h.symm⟩

theorem resizes : Resizes Data.nodes Data.keep updateSize where
  at_upd := fun {_ _ _ s a d _ _ d₀} h ht hu hle => by
    have hfit := hle.trans_lt d₀.nodes_lt
    obtain ⟨m', hm', hat⟩ := updateSize_ok h ht hu hfit
    exact ⟨m', _, hm', hat, (sized_nodeAt.1 (sized_resized s a d ht hu hfit)).1, rfl⟩
  other := fun h hne => by
    obtain ⟨size, rfl⟩ := updateSize_cases h
    exact Mem.setData_of_ne _ hne _
  keep_eq := fun {m _ a} h b => by
    obtain ⟨size, rfl⟩ := updateSize_cases h
    by_cases hb : b = a
    · rw [hb, Mem.modify, Mem.setData_self]
      rfl
    · rw [Mem.modify, Mem.setData_of_ne m hb]
  ext := fun {d d'} hpos hsize hkeep => by
    obtain ⟨hval, hcolor⟩ := Prod.mk.inj hkeep
    have hint : d.size = d'.size := by
      apply Int32.toInt_inj.1
      rw [Data.nodes] at hpos
      rw [Data.nodes, Data.nodes] at hsize
      omega
    cases d
    cases d'
    exact Data.mk.injEq .. ▸ ⟨hval, hcolor, hint⟩

variable {h : Heap} {s : Side} {x y : Ref}

theorem rotate_eq (hy : (h.mem x).child s.flip = some y) :
    rotate s h x = (h.mem.turn updateSize h.root s x y).map fun turned =>
      { h with mem := turned.1, root := turned.2 } := by
  rw [rotate, hy, Mem.turn, Option.map_bind]
  simp only [Function.comp_def, Option.map_map]
  rfl

theorem rotate_undone (s : Side) :
    Undone Heap.mem Heap.root Data.nodes Data.keep (rotate s) (rotate s.flip) s.flip := by
  intro h t x y hat hsized hx hy
  obtain ⟨m', root', hturn, hturned, hchild, hback⟩ := turn_undone resizes hat hsized hx hy
  have hflip : s.flip.flip = s := by cases s <;> rfl
  refine ⟨{ h with mem := m', root := root' }, ?_, hturned, ?_⟩
  · rw [rotate_eq hy, hturn, Option.map_some]
  · rw [rotate_eq (y := x) (by rw [hflip]; exact hchild)]
    simp only [hback, Option.map_some]

end MedianFinder
end Leetcode
