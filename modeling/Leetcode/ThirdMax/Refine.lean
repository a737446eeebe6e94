import Leetcode.ThirdMax.Fix

/-!
# The loop of `fixInsert` on the heap

Each round of the loop is one case of `fixUp`: the lemmas below follow the heap
through the writes of a round, and `fixLoop_ok` is the loop.
-/

namespace Leetcode
namespace ThirdMax

open CLib

variable {m : Mem Data} {root : Option Ref} {p : TreePath Data} {s : Side} {a : Ref} {d : Data}
  {t u : PtrTree Data}

theorem getSize_of_holds {par : Option Ref} (h : m.Holds par t) :
    getSize m t.ref = storedSize t := by
  cases t with
  | nil => rfl
  | node a d l r =>
      change (m a).data.size = d.size
      rw [h.1]

theorem isRed_of_holds {par : Option Ref} (h : m.Holds par t) :
    isRed m t.ref = t.rootRed Data.isRed := by
  cases t with
  | nil => rfl
  | node a d l r =>
      change decide ((m a).data.color = .red) = d.isRed
      rw [h.1]
      rfl

theorem at_updateSize (h : m.At root p (.nodeAt s a d t u)) :
    (updateSize m (some a)).At root p (sized s a d t u) := by
  obtain ⟨hcell, ht, hu⟩ := holds_nodeAt.1 h.tree
  have hsize : getSize m (m a).left + getSize m (m a).right = storedSize t + storedSize u := by
    rw [hcell, ← getSize_of_holds ht, ← getSize_of_holds hu]
    cases s with
    | left => rfl
    | right => exact Nat.add_comm _ _
  change (m.setData a { (m a).data with
    size := getSize m (m a).left + getSize m (m a).right + 1 }).At root p (sized s a d t u)
  rw [hsize, hcell, data_cellAt]
  exact at_setData h _

/-! ## Rotations -/

theorem adopt_adopt (m : Mem Data) (b q : Option Ref) : (m.adopt b q).adopt b q = m.adopt b q := by
  cases b with
  | none => rfl
  | some b => simp [Mem.adopt, Mem.setParent, Mem.set]

theorem left_adopt (m : Mem Data) (b q : Option Ref) (c : Ref) :
    ((m.adopt b q) c).left = (m c).left := by
  cases b with
  | none => rfl
  | some b =>
      by_cases hc : c = b
      · subst hc
        simp [Mem.adopt]
      · simp [Mem.adopt, hc]

/-- The sizes after a rotation. -/
theorem at_rotate_sized {h : Heap} {x y : Ref} {dx dy : Data} {l mid r : PtrTree Data}
    (hat : h.mem.At h.root p (.nodeAt s x dx l (.nodeAt s y dy mid r))) :
    (updateSize (updateSize (h.mem.rotate h.root s x y).1 (some x)) (some y)).At
      (h.mem.rotate h.root s x y).2 p (rotated s x y dx dy l mid r) := by
  have hx := at_updateSize ((at_child s).1 (at_rotate hat))
  exact at_updateSize ((at_child s).2 hx)

theorem leftRotate_eq {h : Heap} {x y : Ref} (hy : (h.mem x).right = some y) :
    leftRotate h (some x) = { h with
      mem := updateSize (updateSize (h.mem.rotate h.root .left x y).1 (some x)) (some y)
      root := (h.mem.rotate h.root .left x y).2 } := by
  simp only [leftRotate, hy, left_adopt, adopt_adopt]
  rfl

theorem rightRotate_eq {h : Heap} {x y : Ref} (hy : (h.mem x).left = some y) :
    rightRotate h (some x) = { h with
      mem := updateSize (updateSize (h.mem.rotate h.root .right x y).1 (some x)) (some y)
      root := (h.mem.rotate h.root .right x y).2 } := by
  simp only [rightRotate, hy]
  rfl

theorem leftRotate_ok {h : Heap} {x y : Ref} {dx dy : Data} {l mid r : PtrTree Data}
    (hat : h.mem.At h.root p (.nodeAt .left x dx l (.nodeAt .left y dy mid r))) :
    (leftRotate h (some x)).mem.At (leftRotate h (some x)).root p
        (rotated .left x y dx dy l mid r) ∧ (leftRotate h (some x)).fresh = h.fresh := by
  have hy : (h.mem x).right = some y := by
    rw [hat.cell]
    rfl
  rw [leftRotate_eq hy]
  exact ⟨at_rotate_sized hat, rfl⟩

theorem rightRotate_ok {h : Heap} {x y : Ref} {dx dy : Data} {l mid r : PtrTree Data}
    (hat : h.mem.At h.root p (.nodeAt .right x dx l (.nodeAt .right y dy mid r))) :
    (rightRotate h (some x)).mem.At (rightRotate h (some x)).root p
        (rotated .right x y dx dy l mid r) ∧ (rightRotate h (some x)).fresh = h.fresh := by
  have hy : (h.mem x).left = some y := by
    rw [hat.cell]
    rfl
  rw [rightRotate_eq hy]
  exact ⟨at_rotate_sized hat, rfl⟩

/-! ## Painting -/

/-- Painting the parent of the focused node. -/
theorem at_setColor_parent {f : Frame Data} (h : m.At root (f :: p) t) (c : Color) :
    (setColor m f.ref c).At root ({ f with data := f.data.paint c } :: p) t :=
  at_modify_parent h (Data.paint c)

theorem at_setColor_grandparent {f g : Frame Data} (h : m.At root (f :: g :: p) t) (c : Color) :
    (setColor m g.ref c).At root (f :: { g with data := g.data.paint c } :: p) t :=
  at_modify_grandparent h (Data.paint c)

theorem paintRoot_eq (c : Color) (t : PtrTree Data) : paintRoot c t = t.mapRoot (Data.paint c) := by
  cases t <;> rfl

/-- Painting the uncle. -/
theorem at_setColor_uncle {f g : Frame Data} {b : Ref} (h : m.At root (f :: g :: p) t)
    (hb : g.sibling.ref = some b) (c : Color) :
    (setColor m b c).At root (f :: { g with sibling := paintRoot c g.sibling } :: p) t := by
  rw [paintRoot_eq]
  exact at_modify_uncle h hb (Data.paint c)

/-! ## Rounds -/

/-- One round of the loop leads to a heap with the new `z` at the root of `t`. -/
def Round (h : Heap) (z : Ref) (p : TreePath Data) (t : PtrTree Data) : Prop :=
  ∃ h' z', (∀ fuel, fixLoop (fuel + 1) h z = fixLoop fuel h' z') ∧
    h'.mem.At h'.root p t ∧ t.ref = some z' ∧ h'.fresh = h.fresh

/-- The same for the heap and the `z` that the body of the loop leaves. -/
def Leads (h : Heap) (next : Heap × Ref) (p : TreePath Data) (t : PtrTree Data) : Prop :=
  next.1.mem.At next.1.root p t ∧ t.ref = some next.2 ∧ next.1.fresh = h.fresh

theorem Leads.round {h : Heap} {z : Ref} {next : Heap × Ref} (hl : Leads h next p t)
    (hloop : ∀ fuel, fixLoop (fuel + 1) h z = fixLoop fuel next.1 next.2) : Round h z p t :=
  ⟨next.1, next.2, hloop, hl⟩

section Rounds

variable {h : Heap} {f g : Frame Data} {z : Ref}

theorem isRed_above (hat : m.At root (f :: p) t) : isRed m (some f.ref) = f.data.isRed := by
  change decide ((m f.ref).data.color = .red) = f.data.isRed
  rw [hat.path.1, data_cellAt]
  rfl

/-- The loop stops at a black parent. -/
theorem fixLoop_stop (hat : h.mem.At h.root (f :: p) t) (hz : t.ref = some z)
    (hf : f.data.isRed = false) (fuel : ℕ) : fixLoop (fuel + 1) h z = some h := by
  have hblack : isRed h.mem (some f.ref) = false := by rw [isRed_above hat, hf]
  rw [fixLoop, if_neg (hat.root_ne hz), hat.parent_eq hz]
  simp [top, hblack]

/-- A round in the first half. -/
theorem fixLoop_left (hat : h.mem.At h.root (f :: g :: p) t) (hz : t.ref = some z)
    (hf : f.data.isRed = true) (hg : g.side = .left) (fuel : ℕ) :
    fixLoop (fuel + 1) h z =
      fixLoop fuel (fixLeft h z f.ref g.ref).1 (fixLeft h z f.ref g.ref).2 := by
  have hred : isRed h.mem (some f.ref) = true := by rw [isRed_above hat, hf]
  have hparent : (h.mem f.ref).parent = some g.ref := by rw [hat.path.1, parent_cellAt]; rfl
  have hleft : (h.mem g.ref).left = some f.ref :=
    ((at_up.1 hat).child_eq_iff (PtrTree.ref_nodeAt ..)).2 hg
  rw [fixLoop, if_neg (hat.root_ne hz), hat.parent_eq hz]
  simp [top, hred, hparent, hleft]

/-- A round in the second half. -/
theorem fixLoop_right (hat : h.mem.At h.root (f :: g :: p) t) (hz : t.ref = some z)
    (hf : f.data.isRed = true) (hg : g.side = .right) (fuel : ℕ) :
    fixLoop (fuel + 1) h z =
      (fixRight h z f.ref (some g.ref)).bind fun next => fixLoop fuel next.1 next.2 := by
  have hred : isRed h.mem (some f.ref) = true := by rw [isRed_above hat, hf]
  have hparent : (h.mem f.ref).parent = some g.ref := by rw [hat.path.1, parent_cellAt]; rfl
  have hleft : (h.mem g.ref).left ≠ some f.ref := by
    intro hleft
    have hside := ((at_up.1 hat).child_eq_iff (s := .left) (PtrTree.ref_nodeAt ..)).1 hleft
    rw [hg] at hside
    cases hside
  rw [fixLoop, if_neg (hat.root_ne hz), hat.parent_eq hz]
  simp [top, hred, hparent, hleft]

/-- The uncle in the first half. -/
theorem right_of_left (hat : m.At root (f :: g :: p) t) (hg : g.side = .left) :
    (m g.ref).right = g.sibling.ref := by
  rw [(at_up.1 hat).path.1, hg]
  rfl

theorem isRed_sibling (hat : m.At root (f :: g :: p) t) :
    isRed m g.sibling.ref = g.sibling.rootRed Data.isRed :=
  isRed_of_holds (at_up.1 hat).path.2.1

theorem fixLeft_recolours (hat : h.mem.At h.root (f :: g :: p) t) (hg : g.side = .left)
    (hgr : g.sibling.rootRed Data.isRed = true) :
    Leads h (fixLeft h z f.ref g.ref) p (Frame.fill
      { g with data := g.data.paint .red, sibling := paintRoot .black g.sibling }
      (Frame.fill { f with data := f.data.paint .black } t)) := by
  obtain ⟨b, hb⟩ := exists_ref_of_rootRed hgr
  have hright : (h.mem g.ref).right = some b := (right_of_left hat hg).trans hb
  have hbred : isRed h.mem (some b) = true := by rw [← hb, isRed_sibling hat, hgr]
  have hpainted := at_setColor_grandparent
    (at_setColor_uncle (at_setColor_parent hat .black) hb .black) .red
  have hfix : fixLeft h z f.ref g.ref =
      ({ h with mem := setColor (setColor (setColor h.mem f.ref .black) b .black) g.ref .red },
        g.ref) := by
    simp only [fixLeft, hright, hbred]
  rw [hfix]
  exact ⟨at_up.1 (at_up.1 hpainted), PtrTree.ref_nodeAt .., rfl⟩

theorem round_recolour (hat : h.mem.At h.root (f :: g :: p) t) (hz : t.ref = some z)
    (hf : f.data.isRed = true) (hg : g.side = .left)
    (hgr : g.sibling.rootRed Data.isRed = true) :
    Round h z p (Frame.fill
      { g with data := g.data.paint .red, sibling := paintRoot .black g.sibling }
      (Frame.fill { f with data := f.data.paint .black } t)) :=
  (fixLeft_recolours hat hg hgr).round (fixLoop_left hat hz hf hg)

/-- The uncle that the second half reads is the parent. -/
theorem right_of_right (hat : h.mem.At h.root (f :: g :: p) t) (hg : g.side = .right) :
    (h.mem g.ref).right = some f.ref :=
  ((at_up.1 hat).child_eq_iff (PtrTree.ref_nodeAt ..)).2 hg

/-- So the second half recolours. -/
theorem fixRight_recolours (hat : h.mem.At h.root (f :: g :: p) t) (hf : f.data.isRed = true)
    (hg : g.side = .right) :
    ∃ next, fixRight h z f.ref (some g.ref) = some next ∧
      Leads h next p (Frame.fill { g with data := g.data.paint .red }
        (Frame.fill { f with data := f.data.paint .black } t)) := by
  have hright := right_of_right hat hg
  have hred : isRed h.mem (some f.ref) = true := by rw [isRed_above hat, hf]
  have hpainted := at_setColor_grandparent
    (at_setColor_parent (at_setColor_parent hat .black) .black) .red
  have hfix : fixRight h z f.ref (some g.ref) = some
      ({ h with mem := setColor (setColor (setColor h.mem f.ref .black) f.ref .black) g.ref .red },
        g.ref) := by
    simp only [fixRight, Option.bind_some, hright, hred, Option.map_some]
  exact ⟨_, hfix, at_up.1 (at_up.1 hpainted), PtrTree.ref_nodeAt .., rfl⟩

theorem round_mirrored (hat : h.mem.At h.root (f :: g :: p) t) (hz : t.ref = some z)
    (hf : f.data.isRed = true) (hg : g.side = .right) :
    Round h z p (Frame.fill { g with data := g.data.paint .red }
      (Frame.fill { f with data := f.data.paint .black } t)) := by
  obtain ⟨next, hfix, hleads⟩ := fixRight_recolours (z := z) hat hf hg
  refine hleads.round fun fuel => ?_
  rw [fixLoop_right hat hz hf hg, hfix]
  rfl

/-- Without a red uncle the first half rotates. -/
theorem fixLeft_rotates (hat : h.mem.At h.root (f :: g :: p) t) (hg : g.side = .left)
    (hgb : g.sibling.rootRed Data.isRed = false) :
    fixLeft h z f.ref g.ref =
      if (h.mem f.ref).right = some z then (leftRotate h (some f.ref), f.ref)
      else
        let m := setColor h.mem f.ref .black
        let m := setColor m g.ref .red
        (rightRotate { h with mem := m } (some g.ref), z) := by
  have hblack : isRed h.mem (h.mem g.ref).right = false := by
    rw [right_of_left hat hg, isRed_sibling hat, hgb]
  simp only [fixLeft, hblack]
  cases (h.mem g.ref).right <;> rfl

/-- `z` is the left child, so the code rotates at the grandparent at once. -/
theorem fixLeft_outer (hat : h.mem.At h.root (f :: g :: p) t) (hz : t.ref = some z)
    (hfs : f.side = .left) (hg : g.side = .left)
    (hgb : g.sibling.rootRed Data.isRed = false) :
    ∃ f' : Frame Data, Leads h (fixLeft h z f.ref g.ref) (f' :: p) t ∧ f'.data.isRed = false ∧
      f'.fill t = outer f g t := by
  have hright : (h.mem f.ref).right ≠ some z := by
    intro hright
    have hside := (hat.child_eq_iff (s := .right) hz).1 hright
    rw [hfs] at hside
    cases hside
  have hpainted := at_up.1 (at_up.1 (at_setColor_grandparent (at_setColor_parent hat .black) .red))
  rw [Frame.fill, Frame.fill, hfs, hg] at hpainted
  obtain ⟨hrotated, hfresh⟩ := rightRotate_ok
    (h := { h with mem := setColor (setColor h.mem f.ref .black) g.ref .red }) hpainted
  rw [fixLeft_rotates hat hg hgb, if_neg hright]
  exact ⟨_, ⟨(at_other_child .right).1 hrotated, hz, hfresh⟩, rfl, rfl⟩

theorem round_outer (hat : h.mem.At h.root (f :: g :: p) t) (hz : t.ref = some z)
    (hf : f.data.isRed = true) (hfs : f.side = .left) (hg : g.side = .left)
    (hgb : g.sibling.rootRed Data.isRed = false) :
    ∃ f' : Frame Data, Round h z (f' :: p) t ∧ f'.data.isRed = false ∧
      f'.fill t = outer f g t := by
  obtain ⟨f', hleads, hblack, hfill⟩ := fixLeft_outer hat hz hfs hg hgb
  exact ⟨f', hleads.round (fixLoop_left hat hz hf hg), hblack, hfill⟩

/-- `z` is the right child: the parent becomes the new `z`, below it. -/
theorem fixLeft_inner {dz : Data} {l r : PtrTree Data}
    (hat : h.mem.At h.root (f :: g :: p) (.node z dz l r)) (hfs : f.side = .right)
    (hg : g.side = .left) (hgb : g.sibling.rootRed Data.isRed = false) :
    let t := sized .left f.ref f.data f.sibling l
    Leads h (fixLeft h z f.ref g.ref)
      (⟨z, { dz with size := storedSize t + storedSize r + 1 }, .left, r⟩ :: g :: p) t := by
  have hright : (h.mem f.ref).right = some z := (hat.child_eq_iff (s := .right) rfl).2 hfs
  have hbelow := at_up.1 hat
  rw [Frame.fill, hfs] at hbelow
  change h.mem.At h.root (g :: p)
    (.nodeAt .left f.ref f.data f.sibling (.nodeAt .left z dz l r)) at hbelow
  obtain ⟨hrotated, hfresh⟩ := leftRotate_ok hbelow
  rw [fixLeft_rotates hat hg hgb, if_pos hright]
  exact ⟨(at_child .left).1 hrotated, PtrTree.ref_nodeAt .., hfresh⟩

theorem round_inner {dz : Data} {l r : PtrTree Data}
    (hat : h.mem.At h.root (f :: g :: p) (.node z dz l r))
    (hf : f.data.isRed = true) (hfs : f.side = .right) (hg : g.side = .left)
    (hgb : g.sibling.rootRed Data.isRed = false) :
    let t := sized .left f.ref f.data f.sibling l
    Round h z (⟨z, { dz with size := storedSize t + storedSize r + 1 }, .left, r⟩ :: g :: p) t :=
  (fixLeft_inner hat hfs hg hgb).round (fixLoop_left hat rfl hf hg)

/-- After the outer rotation the loop stops. -/
theorem fixLoop_outer (hat : h.mem.At h.root (f :: g :: p) t) (hz : t.ref = some z)
    (hf : f.data.isRed = true) (hfs : f.side = .left) (hg : g.side = .left)
    (hgb : g.sibling.rootRed Data.isRed = false) (fuel : ℕ) :
    ∃ h', fixLoop (fuel + 2) h z = some h' ∧ h'.mem.At h'.root [] (plug p (outer f g t)) ∧
      h'.fresh = h.fresh := by
  obtain ⟨f', ⟨h', z', hround, hat', hz', hfresh⟩, hblack, hfill⟩ :=
    round_outer hat hz hf hfs hg hgb
  refine ⟨h', (hround (fuel + 1)).trans (fixLoop_stop hat' hz' hblack fuel), ?_, hfresh⟩
  rw [← hfill]
  exact at_plug.1 (at_up.1 hat')

/-- The loop computes `fixUp`, in at most as many rounds as the path is long. -/
theorem fixLoop_ok (p : TreePath Data) (t : PtrTree Data) (h : Heap) (z : Ref) (fuel : ℕ)
    (hat : h.mem.At h.root p t) (hz : t.ref = some z) (htred : t.rootRed Data.isRed = true)
    (hroot : RootBlack p) (hfuel : p.length + 1 ≤ fuel) :
    ∃ h', fixLoop fuel h z = some h' ∧ h'.mem.At h'.root [] (fixUp p t) ∧ h'.fresh = h.fresh := by
  obtain ⟨fuel, rfl⟩ := Nat.exists_eq_add_of_le' (Nat.one_le_of_lt hfuel)
  fun_induction fixUp p t generalizing h z fuel with
  -- `z` is the root.
  | case1 t =>
      refine ⟨h, ?_, hat, rfl⟩
      rw [fixLoop, if_pos (hat.root_eq.trans hz)]
  | case2 f t => exact ⟨h, fixLoop_stop hat hz hroot fuel, at_up.1 hat, rfl⟩
  | case3 f g p t hf hside hgr ih =>
      obtain ⟨h₁, z₁, hround, hat₁, hz₁, hfresh₁⟩ := round_recolour hat hz hf hside hgr
      simp only [List.length_cons] at hfuel
      obtain ⟨fuel, rfl⟩ : ∃ k, fuel = k + 1 := ⟨fuel - 1, by omega⟩
      obtain ⟨h', hloop, hat', hfresh'⟩ :=
        ih h₁ z₁ hat₁ hz₁ (rootRed_fill _ _) (rootBlack_tail hroot) fuel (by omega)
      exact ⟨h', (hround _).trans hloop, hat', hfresh'.trans hfresh₁⟩
  | case4 f g p hf hside hgr z dz l r hfside =>
      -- The inner rotation makes the parent the new `z`, below the red node `z` was.
      cases hz
      have hgb := Bool.eq_false_iff.2 hgr
      obtain ⟨h₁, z₁, hround, hat₁, hz₁, hfresh₁⟩ := round_inner hat hf hfside hside hgb
      simp only [List.length_cons] at hfuel
      obtain ⟨fuel, rfl⟩ : ∃ k, fuel = k + 2 := ⟨fuel - 2, by omega⟩
      obtain ⟨h', hloop, hat', hfresh'⟩ := fixLoop_outer hat₁ hz₁ htred rfl hside hgb fuel
      exact ⟨h', (hround _).trans hloop, hat', hfresh'.trans hfresh₁⟩
  | case5 f g p hf hside hgr t hne =>
      have hfs : f.side = .left := by
        cases hfs : f.side with
        | left => rfl
        | right =>
            cases t with
            | nil => cases hz
            | node a d l r => exact absurd rfl (hne a d l r hfs)
      simp only [List.length_cons] at hfuel
      obtain ⟨fuel, rfl⟩ : ∃ k, fuel = k + 1 := ⟨fuel - 1, by omega⟩
      exact fixLoop_outer hat hz hf hfs hside (Bool.eq_false_iff.2 hgr) fuel
  | case6 f g p t hf hside ih =>
      obtain ⟨h₁, z₁, hround, hat₁, hz₁, hfresh₁⟩ := round_mirrored hat hz hf hside
      simp only [List.length_cons] at hfuel
      obtain ⟨fuel, rfl⟩ : ∃ k, fuel = k + 1 := ⟨fuel - 1, by omega⟩
      obtain ⟨h', hloop, hat', hfresh'⟩ :=
        ih h₁ z₁ hat₁ hz₁ (rootRed_fill _ _) (rootBlack_tail hroot) fuel (by omega)
      exact ⟨h', (hround _).trans hloop, hat', hfresh'.trans hfresh₁⟩
  -- The parent is black.
  | case7 f g p t hf =>
      have hblack : f.data.isRed = false := Bool.eq_false_iff.2 hf
      exact ⟨h, fixLoop_stop hat hz hblack fuel, at_plug.1 (at_up.1 (at_up.1 hat)), rfl⟩

end Rounds

end ThirdMax
end Leetcode
