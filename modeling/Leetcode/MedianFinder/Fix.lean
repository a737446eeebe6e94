import Leetcode.Lib.Inorder
import Leetcode.MedianFinder.Model

/-!
# What `insertFixup` does to a tree

The loop walks up the path above the new node, two frames a round.  `fixUp` is the
loop on trees.

* `fixUp_balanced` — the tree is balanced afterwards.
* `fixUp_inorder`, `fixUp_sized` — the in-order sequence stays, and the sizes stay
  right.
-/

namespace Leetcode
namespace MedianFinder

open CLib

/-- The colour of a node. -/
def Data.isRed (d : Data) : Bool := d.color = .RED

/-- The size field as a number of nodes, none for a negative one. -/
def Data.nodes (d : Data) : ℕ := d.size.toInt.toNat

/-- Paint a node. -/
def Data.paint (c : Color) (d : Data) : Data := { d with color := c }

/-- The size field of the root. -/
def storedSize : PtrTree Data → Int32
  | .nil => 0
  | .node _ d _ _ => d.size

/-- A node whose size field has been updated. -/
def resized (s : Side) (a : Ref) (d : Data) (t u : PtrTree Data) : PtrTree Data :=
  .nodeAt s a { d with size := 1 + storedSize t + storedSize u } t u

/-- The tree that a rotation towards `s` makes of `x` with the children `l` and `y`,
where `y` has the children `mid` and `r`. -/
def rotated (s : Side) (x y : Ref) (dx dy : Data) (l mid r : PtrTree Data) : PtrTree Data :=
  resized s y dy (resized s x dx l mid) r

/-- The second rotation: `f` is the `s` child of `g`, and `t` that of `f`. -/
def outer (s : Side) (f g : Frame Data) (t : PtrTree Data) : PtrTree Data :=
  rotated s.flip g.ref f.ref (g.data.paint .RED) (f.data.paint .BLACK) g.sibling f.sibling t

/-- Both rotations, if `z` is the other child of `f`: the first one puts `z` in the
place of `f`. -/
def inner (s : Side) (f g : Frame Data) (z : Ref) (dz : Data) (l r : PtrTree Data) :
    PtrTree Data :=
  let t := resized s f.ref f.data f.sibling l
  outer s ⟨z, { dz with size := 1 + storedSize t + storedSize r }, s, r⟩ g t

/-- The loop of `insertFixup`, for the red node at the root of the subtree. -/
def fixUp : TreePath Data → PtrTree Data → PtrTree Data
  | [], t => t
  | [f], t => f.fill t
  | f :: g :: p, t =>
      if f.data.isRed then
        if g.sibling.rootRed Data.isRed then
          fixUp p (Frame.fill
            { g with data := g.data.paint .RED, sibling := g.sibling.mapRoot (Data.paint .BLACK) }
            (Frame.fill { f with data := f.data.paint .BLACK } t))
        else if f.side = g.side then plug p (outer g.side f g t)
        else
          match t with
          | .nil => plug p (g.fill (f.fill .nil))
          | .node z dz a b =>
              plug p (inner g.side f g z dz (g.side.pick a b) (g.side.flip.pick a b))
      else plug p (g.fill (f.fill t))

theorem Side.eq_flip_of_ne {s s' : Side} (h : s ≠ s') : s = s'.flip := by
  cases s <;> cases s' <;> first | rfl | exact absurd rfl h

/-! ## Balance -/

abbrev Bal (t : PtrTree Data) (n : ℕ) : Prop := t.Balanced Data.isRed n

/-- Painting a red root black makes the tree higher by one black node. -/
theorem balanced_mapRoot {t : PtrTree Data} {n : ℕ} (h : Bal t n)
    (hred : t.rootRed Data.isRed = true) : Bal (t.mapRoot (Data.paint .BLACK)) (n + 1) := by
  cases t with
  | nil => cases hred
  | node a d l r =>
      obtain ⟨hl, hr, -, -⟩ := balanced_of_red (s := .left) h hred
      exact balanced_black (s := .left) rfl hl hr

@[simp] theorem rootRed_mapRoot_black (t : PtrTree Data) :
    (t.mapRoot (Data.paint .BLACK)).rootRed Data.isRed = false := by
  cases t <;> rfl

@[simp] theorem rootRed_resized (s : Side) (a : Ref) (d : Data) (t u : PtrTree Data) :
    (resized s a d t u).rootRed Data.isRed = d.isRed := by
  cases s <;> rfl

/-- The outer rotation moves one black node from the grandparent to the parent. -/
theorem balanced_outer {s : Side} {f g : Frame Data} {t : PtrTree Data} {n : ℕ} (ht : Bal t n)
    (hf : Bal f.sibling n) (hg : Bal g.sibling n) (hfb : f.sibling.rootRed Data.isRed = false)
    (hgb : g.sibling.rootRed Data.isRed = false) : Bal (outer s f g t) (n + 1) := by
  unfold outer rotated resized
  exact balanced_black rfl (balanced_red rfl hg hf hgb hfb) ht

theorem rootRed_outer (s : Side) (f g : Frame Data) (t : PtrTree Data) :
    (outer s f g t).rootRed Data.isRed = false := by
  unfold outer rotated
  exact rootRed_resized ..

theorem balanced_inner {s : Side} {f g : Frame Data} {z : Ref} {dz : Data} {l r : PtrTree Data}
    {n : ℕ} (hfred : f.data.isRed = true) (hzred : dz.isRed = true)
    (hz : Bal (.nodeAt s z dz l r) n) (hf : Bal f.sibling n) (hg : Bal g.sibling n)
    (hfb : f.sibling.rootRed Data.isRed = false) (hgb : g.sibling.rootRed Data.isRed = false) :
    Bal (inner s f g z dz l r) (n + 1) := by
  obtain ⟨hl, hr, hlb, hrb⟩ := balanced_of_red hz hzred
  apply balanced_outer _ hr hg hrb hgb
  exact balanced_red hfred hf hl hfb hlb

/-- One recolouring round. -/
theorem balanced_recolour {f g : Frame Data} {t : PtrTree Data} {n : ℕ} (ht : Bal t n)
    (hf : Bal f.sibling n) (hg : Bal g.sibling n) (hgr : g.sibling.rootRed Data.isRed = true) :
    Bal (Frame.fill
      { g with data := g.data.paint .RED, sibling := g.sibling.mapRoot (Data.paint .BLACK) }
      (Frame.fill { f with data := f.data.paint .BLACK } t)) (n + 1) :=
  balanced_red rfl (balanced_black rfl ht hf) (balanced_mapRoot hg hgr) (rootRed_fill _ _)
    (rootRed_mapRoot_black _)

/-- The path ends at a black root. -/
def RootBlack : TreePath Data → Prop
  | [] => True
  | [f] => f.data.isRed = false
  | _ :: p => RootBlack p

theorem rootBlack_tail {f g : Frame Data} {p : TreePath Data} (h : RootBlack (f :: g :: p)) :
    RootBlack p := by
  cases p with
  | nil => trivial
  | cons f' p => exact h

theorem rootBlack_of_plug {p : TreePath Data} {t : PtrTree Data}
    (h : (plug p t).rootRed Data.isRed = false) : RootBlack p := by
  induction p generalizing t with
  | nil => trivial
  | cons f p ih =>
      cases p with
      | nil => exact (rootRed_fill f t).symm.trans h
      | cons g p => exact ih h

/-- The loop leaves a balanced tree: the only violation is between `t` and its parent. -/
theorem fixUp_balanced (p : TreePath Data) (t : PtrTree Data) (n : ℕ) (ht : Bal t n)
    (htred : t.rootRed Data.isRed = true) (hp : Fits Data.isRed p n) (hroot : RootBlack p) :
    ∃ m, Bal (fixUp p t) m := by
  fun_induction fixUp p t generalizing n with
  | case1 t => exact ⟨n, ht⟩
  | case2 f t =>
      have hf : f.data.isRed = false := hroot
      have htop : topRed Data.isRed [f] = true → t.rootRed Data.isRed = false := by
        simp [topRed, hf]
      exact (balanced_plug_iff (p := [f])).2 ⟨n, ht, hp, htop⟩
  | case3 f g p t hf hgr ih =>
      -- Red uncle: the grandparent is red now, with the same black height above it.
      obtain ⟨hfbal, -, -, hgbal, hrest⟩ := fits_red_parent hp hf
      exact ih (n + 1) (balanced_recolour ht hfbal hgbal hgr) (rootRed_fill _ _) hrest
        (rootBlack_tail hroot)
  | case4 f g p t hf hgr hside =>
      obtain ⟨hfbal, hfb, -, hgbal, hrest⟩ := fits_red_parent hp hf
      have hgb := Bool.eq_false_iff.2 hgr
      exact balanced_plug (balanced_outer ht hfbal hgbal hfb hgb) hrest (rootRed_outer _ _ _ _)
  | case5 f g p hf hgr hside => cases htred
  | case6 f g p hf hgr hside z dz a b =>
      obtain ⟨hfbal, hfb, -, hgbal, hrest⟩ := fits_red_parent hp hf
      have hgb := Bool.eq_false_iff.2 hgr
      rw [PtrTree.node_eq_nodeAt g.side] at ht
      exact balanced_plug (balanced_inner hf htred ht hfbal hgbal hfb hgb) hrest
        (rootRed_outer _ _ _ _)
  | case7 f g p t hf =>
      have htop : topRed Data.isRed (f :: g :: p) = true → t.rootRed Data.isRed = false := by
        intro h
        exact absurd h hf
      exact (balanced_plug_iff (p := f :: g :: p)).2 ⟨n, ht, hp, htop⟩

/-! ## The in-order sequence -/

theorem inorder_resized (s : Side) (a : Ref) (d d' : Data) (t u : PtrTree Data)
    (hd : d.val = d'.val) :
    (resized s a d t u).inorder Data.val = (PtrTree.nodeAt s a d' t u).inorder Data.val :=
  inorder_nodeAt_congr hd rfl rfl

/-- A rotation with its new sizes keeps the sequence. -/
theorem inorder_rotated {s : Side} {x y : Ref} {dx dy dx' dy' : Data} {l mid r : PtrTree Data}
    (hx : dx.val = dx'.val) (hy : dy.val = dy'.val) :
    (rotated s x y dx dy l mid r).inorder Data.val =
      (PtrTree.nodeAt s x dx' l (.nodeAt s y dy' mid r)).inorder Data.val := by
  rw [← inorder_rotate]
  exact inorder_nodeAt_congr hy (inorder_resized s x dx dx' l mid hx) rfl

theorem inorder_outer {s : Side} {f g : Frame Data} (hf : f.side = s) (hg : g.side = s)
    (t : PtrTree Data) :
    (outer s f g t).inorder Data.val = (g.fill (f.fill t)).inorder Data.val := by
  have hgval : (g.data.paint .RED).val = g.data.val := rfl
  have hfval : (f.data.paint .BLACK).val = f.data.val := rfl
  refine (inorder_rotated hgval hfval).trans ?_
  rw [PtrTree.nodeAt_flip, PtrTree.nodeAt_flip, Frame.fill, Frame.fill, hf, hg]

theorem inorder_inner {s : Side} {f g : Frame Data} (hf : f.side = s.flip) (hg : g.side = s)
    (z : Ref) (dz : Data) (l r : PtrTree Data) :
    (inner s f g z dz l r).inorder Data.val =
      (g.fill (f.fill (.nodeAt s z dz l r))).inorder Data.val := by
  refine (inorder_outer (s := s) rfl hg _).trans (inorder_fill_congr rfl rfl ?_ rfl)
  have hfill : f.fill (.nodeAt s z dz l r) =
      .nodeAt s f.ref f.data f.sibling (.nodeAt s z dz l r) := by
    rw [Frame.fill, hf, PtrTree.nodeAt_flip]
  rw [hfill]
  exact inorder_rotated rfl rfl

/-- The loop keeps the sequence of the whole tree. -/
theorem fixUp_inorder (p : TreePath Data) (t : PtrTree Data) :
    (fixUp p t).inorder Data.val = (plug p t).inorder Data.val := by
  fun_induction fixUp p t with
  | case1 t => rfl
  | case2 f t => rfl
  | case3 f g p t hf hgr ih =>
      rw [ih]
      apply inorder_plug_congr
      exact inorder_fill_congr rfl rfl (inorder_fill_congr rfl rfl rfl rfl)
        (inorder_mapRoot (φ := Data.paint .BLACK) (fun _ => rfl) g.sibling)
  | case4 f g p t hf hgr hside => exact inorder_plug_congr (inorder_outer hside rfl t)
  | case5 f g p hf hgr hside => rfl
  | case6 f g p hf hgr hside z dz a b =>
      have hflip := Side.eq_flip_of_ne hside
      rw [PtrTree.node_eq_nodeAt g.side z dz a b]
      exact inorder_plug_congr (inorder_inner hflip rfl z dz _ _)
  | case7 f g p t hf => rfl

/-! ## Sizes -/

theorem Data.nodes_lt (d : Data) : d.nodes < 2 ^ 31 := by
  have hlt := d.size.toInt_lt
  rw [Data.nodes]
  omega

theorem Data.toInt_size {d : Data} {n : ℕ} (h : d.nodes = n + 1) : d.size.toInt = n + 1 := by
  rw [Data.nodes] at h
  omega

theorem storedSize_eq {t : PtrTree Data} (h : t.Sized Data.nodes) :
    (storedSize t).toInt = t.count := by
  cases t with
  | nil => rfl
  | node a d l r => exact_mod_cast Data.toInt_size h.1

/-- Right sizes of two subtrees are added in `int`, if the sum is one. -/
theorem addInt_sizes {t u : PtrTree Data} (ht : t.Sized Data.nodes) (hu : u.Sized Data.nodes)
    (hfit : t.count + u.count + 1 < 2 ^ 31) :
    addInt 1 (storedSize t) = some (1 + storedSize t) ∧
      addInt (1 + storedSize t) (storedSize u) = some (1 + storedSize t + storedSize u) ∧
      (1 + storedSize t + storedSize u).toInt = t.count + u.count + 1 := by
  have htsize := storedSize_eq ht
  have husize := storedSize_eq hu
  have hone : FitsInt (Int32.toInt 1 + (storedSize t).toInt) := by
    rw [htsize, Int32.toInt_one]
    constructor <;> omega
  have hsum : (1 + storedSize t).toInt = 1 + t.count := by
    rw [toInt_add hone, htsize, Int32.toInt_one]
  have hall : FitsInt ((1 + storedSize t).toInt + (storedSize u).toInt) := by
    rw [hsum, husize]
    constructor <;> omega
  refine ⟨addInt_ok hone, addInt_ok hall, ?_⟩
  rw [toInt_add hall, hsum, husize]
  omega

theorem sized_resized (s : Side) (a : Ref) (d : Data) {t u : PtrTree Data}
    (ht : t.Sized Data.nodes) (hu : u.Sized Data.nodes) (hfit : t.count + u.count + 1 < 2 ^ 31) :
    (resized s a d t u).Sized Data.nodes := by
  obtain ⟨-, -, hsum⟩ := addInt_sizes ht hu hfit
  refine sized_nodeAt.2 ⟨?_, ht, hu⟩
  simp only [Data.nodes, hsum]
  omega

theorem count_resized (s : Side) (a : Ref) (d : Data) (t u : PtrTree Data) :
    (resized s a d t u).count = t.count + u.count + 1 :=
  count_nodeAt ..

theorem sized_outer (s : Side) {f g : Frame Data} {t : PtrTree Data}
    (hf : f.sibling.Sized Data.nodes) (hg : g.sibling.Sized Data.nodes) (ht : t.Sized Data.nodes)
    (hfit : t.count + f.sibling.count + 1 + g.sibling.count + 1 < 2 ^ 31) :
    (outer s f g t).Sized Data.nodes := by
  refine sized_resized _ _ _ (sized_resized _ _ _ hg hf (by omega)) ht ?_
  rw [count_resized]
  omega

theorem count_outer (s : Side) (f g : Frame Data) (t : PtrTree Data) :
    (outer s f g t).count = t.count + f.sibling.count + 1 + g.sibling.count + 1 := by
  rw [outer, rotated, count_resized, count_resized]
  omega

theorem sized_inner {s : Side} {f g : Frame Data} {z : Ref} {dz : Data} {l r : PtrTree Data}
    (hf : f.sibling.Sized Data.nodes) (hg : g.sibling.Sized Data.nodes)
    (hl : l.Sized Data.nodes) (hr : r.Sized Data.nodes)
    (hfit : l.count + r.count + 1 + f.sibling.count + 1 + g.sibling.count + 1 < 2 ^ 31) :
    (inner s f g z dz l r).Sized Data.nodes := by
  refine sized_outer _ hr hg (sized_resized _ _ _ hf hl (by omega)) ?_
  rw [count_resized]
  simp only []
  omega

theorem count_inner (s : Side) (f g : Frame Data) (z : Ref) (dz : Data) (l r : PtrTree Data) :
    (inner s f g z dz l r).count =
      l.count + r.count + 1 + f.sibling.count + 1 + g.sibling.count + 1 := by
  rw [inner, count_outer, count_resized]
  simp only []
  omega

/-- One recolouring round. -/
theorem sized_recolour {f g : Frame Data} {p : TreePath Data} {t : PtrTree Data}
    (ht : t.Sized Data.nodes) (hp : SizedPath Data.nodes (f :: g :: p) t.count) :
    let u := Frame.fill
      { g with data := g.data.paint .RED, sibling := g.sibling.mapRoot (Data.paint .BLACK) }
      (Frame.fill { f with data := f.data.paint .BLACK } t)
    u.Sized Data.nodes ∧ SizedPath Data.nodes p u.count := by
  obtain ⟨hfsize, hfsib, hgsize, hgsib, hrest⟩ := hp
  refine ⟨sized_nodeAt.2 ⟨?_, sized_nodeAt.2 ⟨hfsize, ht, hfsib⟩, ?_⟩, ?_⟩
  · rw [count_mapRoot]
    exact hgsize.trans (by simp [Frame.fill])
  · exact (sized_mapRoot (φ := Data.paint .BLACK) fun _ => rfl).2 hgsib
  · simpa [Frame.fill] using hrest

/-- The loop keeps the sizes right. -/
theorem fixUp_sized (p : TreePath Data) (t : PtrTree Data) (ht : t.Sized Data.nodes)
    (hp : SizedPath Data.nodes p t.count) : (fixUp p t).Sized Data.nodes := by
  fun_induction fixUp p t with
  | case1 t => exact ht
  | case2 f t => exact (sized_plug (p := [f])).2 ⟨ht, hp⟩
  | case3 f g p t hf hgr ih =>
      obtain ⟨ht', hp'⟩ := sized_recolour ht hp
      exact ih ht' hp'
  | case4 f g p t hf hgr hside =>
      obtain ⟨-, hfsib, hgsize, hgsib, hrest⟩ := hp
      refine sized_plug.2 ⟨sized_outer _ hfsib hgsib ht (hgsize ▸ g.data.nodes_lt), ?_⟩
      rw [count_outer]
      exact hrest
  | case5 f g p hf hgr hside => exact (sized_plug (p := f :: g :: p)).2 ⟨ht, hp⟩
  | case6 f g p hf hgr hside z dz a b =>
      obtain ⟨-, hfsib, hgsize, hgsib, hrest⟩ := hp
      rw [PtrTree.node_eq_nodeAt g.side] at ht hgsize hrest
      rw [count_nodeAt] at hgsize hrest
      obtain ⟨-, hl, hr⟩ := sized_nodeAt.1 ht
      refine sized_plug.2 ⟨sized_inner hfsib hgsib hl hr (hgsize ▸ g.data.nodes_lt), ?_⟩
      rw [count_inner]
      exact hrest
  | case7 f g p t hf => exact (sized_plug (p := f :: g :: p)).2 ⟨ht, hp⟩

end MedianFinder
end Leetcode
