import Leetcode.MedianFinder.Fix

/-!
# The loop of `insertFixup` on the heap

Each round of the loop is one case of `fixUp`: the lemmas below follow the heap
through the writes of a round, and `fixupLoop_ok` is the loop.  A round that rotates is
the last one, since it leaves a black node above `z`.
-/

namespace Leetcode
namespace MedianFinder

open CLib

section Reads

variable {m : Mem Data} {root : Option Ref} {p : TreePath Data} {f g : Frame Data} {s : Side}
  {a : Ref} {d : Data} {t u : PtrTree Data}

theorem nodeSize_of_holds {par : Option Ref} (h : m.Holds par t) :
    nodeSize m t.ref = storedSize t := by
  cases t with
  | nil => rfl
  | node a d l r =>
      change (m a).data.size = d.size
      rw [h.1]

theorem isRed_of_holds {par : Option Ref} (h : m.Holds par t) :
    isRed m t.ref = t.rootRed Data.isRed := by
  cases t with
  | nil => rfl
  | node a d l r =>
      change decide ((m a).data.color = .RED) = d.isRed
      rw [h.1]
      rfl

theorem isRed_above (hat : m.At root (f :: p) t) : isRed m (some f.ref) = f.data.isRed := by
  change decide ((m f.ref).data.color = .RED) = f.data.isRed
  rw [hat.path.1, data_cellAt]
  rfl

theorem isRed_sibling (hat : m.At root (f :: g :: p) t) :
    isRed m g.sibling.ref = g.sibling.rootRed Data.isRed :=
  isRed_of_holds (at_up.1 hat).path.2.1

/-- The uncle. -/
theorem child_flip (hat : m.At root (f :: g :: p) t) :
    (m g.ref).child g.side.flip = g.sibling.ref := by
  rw [(at_up.1 hat).path.1]
  cases g.side <;> rfl

theorem parent_above (hat : m.At root (f :: g :: p) t) : (m f.ref).parent = some g.ref := by
  rw [hat.path.1, parent_cellAt]
  rfl

/-- A node above two subtrees with right sizes, where the sum of these is an `int`. -/
theorem updateSize_ok (h : m.At root p (.nodeAt s a d t u)) (ht : t.Sized Data.nodes)
    (hu : u.Sized Data.nodes) (hfit : t.count + u.count + 1 < 2 ^ 31) :
    ∃ m', updateSize m a = some m' ∧ m'.At root p (resized s a d t u) := by
  obtain ⟨hcell, hmt, hmu⟩ := holds_nodeAt.1 h.tree
  refine ⟨_, ?_, at_modify h fun d => { d with size := 1 + storedSize t + storedSize u }⟩
  rw [updateSize, hcell]
  cases s with
  | left =>
      obtain ⟨hone, hsum, -⟩ := addInt_sizes ht hu hfit
      simp only [cellAt, nodeSize_of_holds hmt, nodeSize_of_holds hmu, hone, hsum,
        Option.bind_some, Option.map_some]
  | right =>
      obtain ⟨hone, hsum, -⟩ := addInt_sizes hu ht (by omega)
      have hcomm : 1 + storedSize u + storedSize t = 1 + storedSize t + storedSize u := by
        rw [Int32.add_assoc, Int32.add_comm (storedSize u), ← Int32.add_assoc]
      simp only [cellAt, nodeSize_of_holds hmt, nodeSize_of_holds hmu, hone, hsum, hcomm,
        Option.bind_some, Option.map_some]

end Reads

/-! ## Rotations -/

variable {h : Heap} {p : TreePath Data} {f g : Frame Data} {z : Ref} {t : PtrTree Data}

theorem rotate_ok {s : Side} {x y : Ref} {dx dy : Data} {l mid r : PtrTree Data}
    (hat : h.mem.At h.root p (.nodeAt s x dx l (.nodeAt s y dy mid r)))
    (hl : l.Sized Data.nodes) (hmid : mid.Sized Data.nodes) (hr : r.Sized Data.nodes)
    (hfit : l.count + mid.count + 1 + r.count + 1 < 2 ^ 31) :
    ∃ h', rotate s h x = some h' ∧ h'.mem.At h'.root p (rotated s x y dx dy l mid r) ∧
      h'.fresh = h.fresh := by
  have hy : (h.mem x).child s.flip = some y := by
    rw [hat.cell]
    cases s <;> rfl
  have hlow : (resized s x dx l mid).Sized Data.nodes := sized_resized _ _ _ hl hmid (by omega)
  have hcount := count_resized s x dx l mid
  obtain ⟨m₁, hx, hat₁⟩ := updateSize_ok ((at_child s).1 (at_rotate hat)) hl hmid (by omega)
  obtain ⟨m₂, hyd, hat₂⟩ := updateSize_ok ((at_child s).2 hat₁) hlow hr (by omega)
  refine ⟨{ h with mem := m₂, root := (h.mem.rotate h.root s x y).2 }, ?_, hat₂, rfl⟩
  rw [rotate, hy]
  change ((updateSize (h.mem.rotate h.root s x y).1 x).bind fun m =>
    (updateSize m y).map fun m => { h with mem := m, root := (h.mem.rotate h.root s x y).2 }) = _
  rw [hx, Option.bind_some, hyd, Option.map_some]

/-! ## Rounds -/

/-- The loop stops at the root. -/
theorem fixupLoop_root (hat : h.mem.At h.root [] t) (hz : t.ref = some z) (fuel : ℕ) :
    fixupLoop (fuel + 1) h z = some h := by
  rw [fixupLoop, hat.parent_eq hz]
  rfl

/-- The loop stops below a black node. -/
theorem fixupLoop_black (hat : h.mem.At h.root (f :: p) t) (hz : t.ref = some z)
    (hf : f.data.isRed = false) (fuel : ℕ) : fixupLoop (fuel + 1) h z = some h := by
  have hblack : isRed h.mem (some f.ref) = false := by rw [isRed_above hat, hf]
  rw [fixupLoop, hat.parent_eq hz]
  simp [top, hblack]

/-- A round is the half of the loop for the side of the parent. -/
theorem fixupLoop_step (hat : h.mem.At h.root (f :: g :: p) t) (hz : t.ref = some z)
    (hf : f.data.isRed = true) (fuel : ℕ) :
    fixupLoop (fuel + 1) h z =
      (fixHalf g.side h z f.ref g.ref).bind fun next => fixupLoop fuel next.1 next.2 := by
  have hred : isRed h.mem (some f.ref) = true := by rw [isRed_above hat, hf]
  have hleft : (h.mem g.ref).left = some f.ref ↔ g.side = .left :=
    (at_up.1 hat).child_eq_iff (s := .left) (PtrTree.ref_nodeAt ..)
  rw [fixupLoop, hat.parent_eq hz]
  simp only [top, hred, if_true, parent_above hat, Option.bind_some]
  cases hside : g.side with
  | left => rw [if_pos (hleft.2 hside)]
  | right =>
      have hne : ¬(h.mem g.ref).left = some f.ref := by
        rw [hleft, hside]
        simp
      rw [if_neg hne]

/-- A red uncle: both are painted black, and the grandparent is the next `z`. -/
theorem fixHalf_recolour (hat : h.mem.At h.root (f :: g :: p) t)
    (hgr : g.sibling.rootRed Data.isRed = true) :
    ∃ h', fixHalf g.side h z f.ref g.ref = some (h', g.ref) ∧ h'.fresh = h.fresh ∧
      h'.mem.At h'.root p (Frame.fill
        { g with data := g.data.paint .RED, sibling := g.sibling.mapRoot (Data.paint .BLACK) }
        (Frame.fill { f with data := f.data.paint .BLACK } t)) := by
  obtain ⟨b, hb⟩ := exists_ref_of_rootRed hgr
  have huncle : (h.mem g.ref).child g.side.flip = some b := (child_flip hat).trans hb
  have hbred : isRed h.mem (some b) = true := by rw [← hb, isRed_sibling hat, hgr]
  have hpainted := at_modify_grandparent
    (at_modify_uncle (at_modify_parent hat (Data.paint .BLACK)) hb (Data.paint .BLACK))
    (Data.paint .RED)
  refine ⟨{ h with
      mem := setColor (setColor (setColor h.mem f.ref .BLACK) b .BLACK) g.ref .RED },
    ?_, rfl, at_up.1 (at_up.1 hpainted)⟩
  simp only [fixHalf, huncle, hbred]

/-- Without a red uncle the round turns `z` to the outside and rotates. -/
theorem fixHalf_rotates (hat : h.mem.At h.root (f :: g :: p) t)
    (hgb : g.sibling.rootRed Data.isRed = false) :
    fixHalf g.side h z f.ref g.ref =
      (if (h.mem f.ref).child g.side.flip = some z then
          (rotate g.side h f.ref).map fun h => (h, f.ref)
        else some (h, z)).bind fun turned =>
        (turned.1.mem turned.2).parent.bind fun parent =>
          let m := setColor turned.1.mem parent .BLACK
          let m := setColor m g.ref .RED
          (rotate g.side.flip { turned.1 with mem := m } g.ref).map fun h => (h, turned.2) := by
  have hblack : isRed h.mem ((h.mem g.ref).child g.side.flip) = false := by
    rw [child_flip hat, isRed_sibling hat, hgb]
  simp only [fixHalf, hblack]
  cases (h.mem g.ref).child g.side.flip <;> rfl

/-- Painting and the rotation at the grandparent, with `z` on the outside. -/
theorem rotate_outer (hat : h.mem.At h.root (f :: g :: p) t) (hside : f.side = g.side)
    (ht : t.Sized Data.nodes) (hf : f.sibling.Sized Data.nodes) (hg : g.sibling.Sized Data.nodes)
    (hfit : t.count + f.sibling.count + 1 + g.sibling.count + 1 < 2 ^ 31) :
    ∃ h', rotate g.side.flip
        { h with mem := setColor (setColor h.mem f.ref .BLACK) g.ref .RED } g.ref = some h' ∧
      h'.mem.At h'.root p (outer g.side f g t) ∧ h'.fresh = h.fresh := by
  have hpainted := at_up.1 (at_up.1 (at_modify_grandparent
    (at_modify_parent hat (Data.paint .BLACK)) (Data.paint .RED)))
  rw [Frame.fill, Frame.fill, hside, ← PtrTree.nodeAt_flip g.side,
    ← PtrTree.nodeAt_flip g.side] at hpainted
  exact rotate_ok (h := { h with mem := setColor (setColor h.mem f.ref .BLACK) g.ref .RED })
    hpainted hg hf ht (by omega)

theorem fixHalf_outer (hat : h.mem.At h.root (f :: g :: p) t) (hz : t.ref = some z)
    (hgb : g.sibling.rootRed Data.isRed = false) (hside : f.side = g.side)
    (ht : t.Sized Data.nodes) (hp : SizedPath Data.nodes (f :: g :: p) t.count) :
    ∃ h', fixHalf g.side h z f.ref g.ref = some (h', z) ∧
      h'.mem.At h'.root p (outer g.side f g t) ∧ h'.fresh = h.fresh := by
  have hne : (h.mem f.ref).child g.side.flip ≠ some z := by
    intro hchild
    have hflip := (hat.child_eq_iff hz).1 hchild
    rw [hside] at hflip
    cases hg : g.side <;> rw [hg] at hflip <;> cases hflip
  obtain ⟨-, hfsib, hgsize, hgsib, -⟩ := hp
  obtain ⟨h', hrotate, hat', hfresh⟩ :=
    rotate_outer hat hside ht hfsib hgsib (hgsize ▸ g.data.nodes_lt)
  refine ⟨h', ?_, hat', hfresh⟩
  rw [fixHalf_rotates hat hgb, if_neg hne, Option.bind_some, hat.parent_eq hz]
  simp only [top, Option.bind_some, hrotate, Option.map_some]

/-- The first rotation makes `z` the parent, with its former parent on the outside. -/
theorem fixHalf_inner {dz : Data} {l r : PtrTree Data}
    (hat : h.mem.At h.root (f :: g :: p) (.nodeAt g.side z dz l r))
    (hgb : g.sibling.rootRed Data.isRed = false) (hside : f.side = g.side.flip)
    (ht : (PtrTree.nodeAt g.side z dz l r).Sized Data.nodes)
    (hp : SizedPath Data.nodes (f :: g :: p) (PtrTree.nodeAt g.side z dz l r).count) :
    ∃ h', fixHalf g.side h z f.ref g.ref = some (h', f.ref) ∧
      h'.mem.At h'.root p (inner g.side f g z dz l r) ∧ h'.fresh = h.fresh := by
  have hchild : (h.mem f.ref).child g.side.flip = some z :=
    (hat.child_eq_iff (PtrTree.ref_nodeAt ..)).2 hside
  have hbelow := at_up.1 hat
  rw [Frame.fill, hside, PtrTree.nodeAt_flip] at hbelow
  obtain ⟨-, hl, hr⟩ := sized_nodeAt.1 ht
  obtain ⟨-, hfsib, hgsize, hgsib, -⟩ := hp
  have hfit := hgsize ▸ g.data.nodes_lt
  rw [count_nodeAt] at hfit
  obtain ⟨h₁, hturn, hat₁, hfresh₁⟩ := rotate_ok hbelow hfsib hl hr (by omega)
  have hat₂ := (at_child g.side).1 hat₁
  have hparent : (h₁.mem f.ref).parent = some z := hat₂.parent_eq (PtrTree.ref_nodeAt ..)
  obtain ⟨h', hrotate, hat', hfresh⟩ := rotate_outer hat₂ rfl
    (sized_resized _ _ _ hfsib hl (by omega)) hr hgsib (by
      rw [count_resized]
      simp only []
      omega)
  refine ⟨h', ?_, hat', hfresh.trans hfresh₁⟩
  rw [fixHalf_rotates hat hgb, if_pos hchild, hturn]
  simp only [Option.map_some, Option.bind_some, hparent, hrotate]

/-- After a rotation `z` is below a black node, and the loop stops. -/
theorem fixupLoop_outer {s : Side} (hat : h.mem.At h.root p (outer s f g t)) (hz : t.ref = some z)
    (fuel : ℕ) : fixupLoop (fuel + 1) h z = some h := by
  have hbelow := (at_other_child s.flip).1 hat
  exact fixupLoop_black hbelow hz rfl fuel

/-- The loop computes `fixUp`, in at most as many rounds as the path is long. -/
theorem fixupLoop_ok (p : TreePath Data) (t : PtrTree Data) (h : Heap) (z : Ref) (fuel : ℕ)
    (hat : h.mem.At h.root p t) (hz : t.ref = some z) (hroot : RootBlack p)
    (ht : t.Sized Data.nodes) (hp : SizedPath Data.nodes p t.count) (hfuel : p.length + 1 ≤ fuel) :
    ∃ h', fixupLoop fuel h z = some h' ∧ h'.mem.At h'.root [] (fixUp p t) ∧
      h'.fresh = h.fresh := by
  obtain ⟨fuel, rfl⟩ := Nat.exists_eq_add_of_le' (Nat.one_le_of_lt hfuel)
  fun_induction fixUp p t generalizing h z fuel with
  | case1 t => exact ⟨h, fixupLoop_root hat hz fuel, hat, rfl⟩
  | case2 f t => exact ⟨h, fixupLoop_black hat hz hroot fuel, at_up.1 hat, rfl⟩
  | case3 f g p t hf hgr ih =>
      obtain ⟨h₁, hround, hfresh₁, hat₁⟩ := fixHalf_recolour (z := z) hat hgr
      simp only [List.length_cons] at hfuel
      obtain ⟨fuel, rfl⟩ : ∃ k, fuel = k + 1 := ⟨fuel - 1, by omega⟩
      obtain ⟨ht', hp'⟩ := sized_recolour ht hp
      obtain ⟨h', hloop, hat', hfresh'⟩ := ih h₁ g.ref hat₁ (PtrTree.ref_nodeAt ..)
        (rootBlack_tail hroot) ht' hp' fuel (by omega)
      refine ⟨h', ?_, hat', hfresh'.trans hfresh₁⟩
      rw [fixupLoop_step hat hz hf, hround]
      exact hloop
  | case4 f g p t hf hgr hside =>
      have hgb := Bool.eq_false_iff.2 hgr
      obtain ⟨h₁, hround, hat₁, hfresh₁⟩ := fixHalf_outer hat hz hgb hside ht hp
      simp only [List.length_cons] at hfuel
      obtain ⟨fuel, rfl⟩ : ∃ k, fuel = k + 1 := ⟨fuel - 1, by omega⟩
      refine ⟨h₁, ?_, at_plug.1 hat₁, hfresh₁⟩
      rw [fixupLoop_step hat hz hf, hround]
      exact fixupLoop_outer hat₁ hz fuel
  | case5 f g p hf hgr hside => cases hz
  | case6 f g p hf hgr hside z' dz a b =>
      cases hz
      have hgb := Bool.eq_false_iff.2 hgr
      have hflip := Side.eq_flip_of_ne hside
      have hfocus := hat
      rw [PtrTree.node_eq_nodeAt g.side] at hfocus ht hp
      obtain ⟨h₁, hround, hat₁, hfresh₁⟩ := fixHalf_inner hfocus hgb hflip ht hp
      simp only [List.length_cons] at hfuel
      obtain ⟨fuel, rfl⟩ : ∃ k, fuel = k + 1 := ⟨fuel - 1, by omega⟩
      refine ⟨h₁, ?_, at_plug.1 hat₁, hfresh₁⟩
      rw [fixupLoop_step hat rfl hf, hround]
      exact fixupLoop_outer hat₁ (PtrTree.ref_nodeAt ..) fuel
  -- The parent is black.
  | case7 f g p t hf =>
      have hblack := Bool.eq_false_iff.2 hf
      exact ⟨h, fixupLoop_black hat hz hblack fuel, at_plug.1 (at_up.1 (at_up.1 hat)), rfl⟩

end MedianFinder
end Leetcode
