import Leetcode.Lib.RedBlack
import Leetcode.ThirdMax.Model

/-!
# What `fixInsert` does to a tree

The loop walks up the path above the new node, two frames a round.  `fixUp` is
the loop on trees: the first half recolours or rotates, the second half takes
`grandParent->right`, which is `parent` itself, for the uncle and so always
recolours.  `Mirrored` says that the second half is reached.

* `fixUp_balanced` — without the second half the tree becomes balanced again.
* `fixUp_mirrored` — with it the paths have different numbers of black nodes.
-/

namespace Leetcode
namespace ThirdMax

open CLib

/-- The colour of a node. -/
def Data.isRed (d : Data) : Bool := d.color = .red

/-- Paint a node. -/
def Data.paint (c : Color) (d : Data) : Data := { d with color := c }

/-- Paint the root. -/
def paintRoot (c : Color) : PtrTree Data → PtrTree Data
  | .nil => .nil
  | .node a d l r => .node a (d.paint c) l r

/-- The size field of the root. -/
def storedSize : PtrTree Data → ℕ
  | .nil => 0
  | .node _ d _ _ => d.size

/-- A node whose size field has been updated. -/
def sized (s : Side) (a : Ref) (d : Data) (t u : PtrTree Data) : PtrTree Data :=
  .nodeAt s a { d with size := storedSize t + storedSize u + 1 } t u

/-- The tree that `leftRotate` (towards `left`) or `rightRotate` makes of
`x` with the children `l` and `y`, where `y` has the children `mid` and `r`. -/
def rotated (s : Side) (x y : Ref) (dx dy : Data) (l mid r : PtrTree Data) : PtrTree Data :=
  sized s y dy (sized s x dx l mid) r

/-- The last step of the first half: `f` is the left child of `g`, and `t` the left
child of `f`. -/
def outer (f g : Frame Data) (t : PtrTree Data) : PtrTree Data :=
  rotated .right g.ref f.ref (g.data.paint .red) (f.data.paint .black) g.sibling f.sibling t

/-- The step before it, if `z` is the right child of `f`: a left rotation at `f`
puts `z` in its place. -/
def inner (f g : Frame Data) (z : Ref) (dz : Data) (l r : PtrTree Data) : PtrTree Data :=
  let t := sized .left f.ref f.data f.sibling l
  outer ⟨z, { dz with size := storedSize t + storedSize r + 1 }, .left, r⟩ g t

/-- The loop of `fixInsert`, for the red node at the root of the subtree. -/
def fixUp : TreePath Data → PtrTree Data → PtrTree Data
  | [], t => t
  | [f], t => f.fill t
  | f :: g :: p, t =>
      if f.data.isRed then
        match g.side with
        | .left =>
            if g.sibling.rootRed Data.isRed then
              fixUp p (Frame.fill
                { g with data := g.data.paint .red, sibling := paintRoot .black g.sibling }
                (Frame.fill { f with data := f.data.paint .black } t))
            else
              match f.side, t with
              | .right, .node z dz l r => plug p (inner f g z dz l r)
              | _, t => plug p (outer f g t)
        | .right =>
            fixUp p (Frame.fill { g with data := g.data.paint .red }
              (Frame.fill { f with data := f.data.paint .black } t))
      else plug p (g.fill (f.fill t))

/-- The loop reaches its second half. -/
def Mirrored : TreePath Data → Prop
  | [] | [_] => False
  | f :: g :: p => f.data.isRed = true ∧
      (g.side = .right ∨ (g.sibling.rootRed Data.isRed = true ∧ Mirrored p))

instance decidableMirrored : ∀ p, Decidable (Mirrored p)
  | [] | [_] => inferInstanceAs (Decidable False)
  | _ :: _ :: p =>
      have := decidableMirrored p
      inferInstanceAs (Decidable (_ ∧ (_ ∨ (_ ∧ _))))

/-! ## Balance -/

abbrev Bal (t : PtrTree Data) (n : ℕ) : Prop := t.Balanced Data.isRed n

@[simp] theorem rootRed_sized (s : Side) (a : Ref) (d : Data) (t u : PtrTree Data) :
    (sized s a d t u).rootRed Data.isRed = d.isRed := by
  cases s <;> rfl

/-- Painting a red root black makes the tree higher by one black node. -/
theorem balanced_paintRoot {t : PtrTree Data} {n : ℕ} (h : Bal t n)
    (hred : t.rootRed Data.isRed = true) : Bal (paintRoot .black t) (n + 1) := by
  cases t with
  | nil => cases hred
  | node a d l r =>
      obtain ⟨hl, hr, -, -⟩ := balanced_of_red (s := .left) h hred
      exact balanced_black (s := .left) rfl hl hr

@[simp] theorem rootRed_paintRoot_black (t : PtrTree Data) :
    (paintRoot .black t).rootRed Data.isRed = false := by
  cases t <;> rfl

/-- The outer rotation moves one black node from the grandparent to the parent. -/
theorem balanced_outer {f g : Frame Data} {t : PtrTree Data} {n : ℕ} (ht : Bal t n)
    (hf : Bal f.sibling n) (hg : Bal g.sibling n) (hfb : f.sibling.rootRed Data.isRed = false)
    (hgb : g.sibling.rootRed Data.isRed = false) : Bal (outer f g t) (n + 1) := by
  unfold outer rotated sized
  exact balanced_black rfl (balanced_red rfl hg hf hgb hfb) ht

theorem rootRed_outer (f g : Frame Data) (t : PtrTree Data) :
    (outer f g t).rootRed Data.isRed = false := by
  unfold outer rotated
  exact rootRed_sized ..

theorem balanced_inner {f g : Frame Data} {z : Ref} {dz : Data} {l r : PtrTree Data} {n : ℕ}
    (hfred : f.data.isRed = true) (hzred : dz.isRed = true) (hz : Bal (.node z dz l r) n)
    (hf : Bal f.sibling n) (hg : Bal g.sibling n) (hfb : f.sibling.rootRed Data.isRed = false)
    (hgb : g.sibling.rootRed Data.isRed = false) : Bal (inner f g z dz l r) (n + 1) := by
  obtain ⟨hl, hr, hlb, hrb⟩ := balanced_of_red (s := .left) hz hzred
  apply balanced_outer _ hr hg hrb hgb
  exact balanced_red hfred hf hl hfb hlb

/-- One recolouring round of the first half. -/
theorem balanced_recolour {f g : Frame Data} {t : PtrTree Data} {n : ℕ} (ht : Bal t n)
    (hf : Bal f.sibling n) (hg : Bal g.sibling n) (hgr : g.sibling.rootRed Data.isRed = true) :
    Bal (Frame.fill { g with data := g.data.paint .red, sibling := paintRoot .black g.sibling }
      (Frame.fill { f with data := f.data.paint .black } t)) (n + 1) :=
  balanced_red rfl (balanced_black rfl ht hf) (balanced_paintRoot hg hgr) (rootRed_fill _ _)
    (rootRed_paintRoot_black _)

/-- The path ends at a black root. -/
def RootBlack : TreePath Data → Prop
  | [] => True
  | [f] => f.data.isRed = false
  | _ :: p => RootBlack p

theorem rootBlack_tail {f g : Frame Data} {p : TreePath Data} (h : RootBlack (f :: g :: p)) :
    RootBlack p := by
  cases p with
  | nil => trivial
  | cons f' p => exact h

/-- What the loop finds above a red node whose parent is red. -/
structure RedParent (f g : Frame Data) (p : TreePath Data) (n : ℕ) : Prop where
  parent : Bal f.sibling n
  parent_black : f.sibling.rootRed Data.isRed = false
  grandparent_black : g.data.isRed = false
  uncle : Bal g.sibling n
  rest : Fits Data.isRed p (n + 1)

theorem redParent_of_fits {f g : Frame Data} {p : TreePath Data} {n : ℕ}
    (h : Fits Data.isRed (f :: g :: p) n) (hf : f.data.isRed = true) : RedParent f g p n := by
  obtain ⟨hfbal, hfb, hgb, hgbal, hrest⟩ := fits_red_parent h hf
  exact ⟨hfbal, hfb, hgb, hgbal, hrest⟩

/-- Without the second half the loop leaves a balanced tree. -/
theorem fixUp_balanced (p : TreePath Data) (t : PtrTree Data) (n : ℕ) (ht : Bal t n)
    (htred : t.rootRed Data.isRed = true) (hp : Fits Data.isRed p n) (hroot : RootBlack p)
    (hm : ¬Mirrored p) : ∃ m, Bal (fixUp p t) m := by
  fun_induction fixUp p t generalizing n with
  | case1 t => exact ⟨n, ht⟩
  | case2 f t =>
      have hf : f.data.isRed = false := hroot
      have htop : topRed Data.isRed [f] = true → t.rootRed Data.isRed = false := by
        simp [topRed, hf]
      exact (balanced_plug_iff (p := [f])).2 ⟨n, ht, hp, htop⟩
  -- Red uncle: the grandparent is red now, with the same black height above it.
  | case3 f g p t hf hside hgr ih =>
      have hr := redParent_of_fits hp hf
      refine ih (n + 1) (balanced_recolour ht hr.parent hr.uncle hgr) ?_ hr.rest ?_ ?_
      · exact rootRed_fill _ _
      · exact rootBlack_tail hroot
      · intro hm'
        exact hm ⟨hf, Or.inr ⟨hgr, hm'⟩⟩
  -- Black uncle: the rotation leaves a black root, so the loop stops.
  | case4 f g p hf hside hgr z dz l r hfside =>
      have hr := redParent_of_fits hp hf
      have hgb := Bool.eq_false_iff.2 hgr
      exact balanced_plug (balanced_inner hf htred ht hr.parent hr.uncle hr.parent_black hgb)
        hr.rest (rootRed_outer _ _ _)
  | case5 f g p hf hside hgr t hne =>
      have hr := redParent_of_fits hp hf
      have hgb := Bool.eq_false_iff.2 hgr
      exact balanced_plug (balanced_outer ht hr.parent hr.uncle hr.parent_black hgb) hr.rest
        (rootRed_outer _ _ _)
  -- The second half is excluded.
  | case6 f g p t hf hside ih => exact absurd ⟨hf, Or.inl hside⟩ hm
  | case7 f g p t hf =>
      have htop : topRed Data.isRed (f :: g :: p) = true → t.rootRed Data.isRed = false := by
        intro h
        exact absurd h hf
      exact (balanced_plug_iff (p := f :: g :: p)).2 ⟨n, ht, hp, htop⟩

/-! ## Imbalance -/

/-- The paths of the tree have the same number of black nodes. -/
def EvenBlack (t : PtrTree Data) : Prop := ∃ n, t.BlackHeight Data.isRed n

theorem blackHeight_nodeAt {s : Side} {a : Ref} {d : Data} {t u : PtrTree Data} {n : ℕ}
    (h : (PtrTree.nodeAt s a d t u).BlackHeight Data.isRed n) :
    ∃ k, t.BlackHeight Data.isRed k ∧ u.BlackHeight Data.isRed k ∧
      n = k + blackUnit Data.isRed d := by
  cases s with
  | left => exact blackHeight_node.1 h
  | right =>
      obtain ⟨k, hu, ht, hn⟩ := blackHeight_node.1 h
      exact ⟨k, ht, hu, hn⟩

theorem EvenBlack.of_fill {f : Frame Data} {t : PtrTree Data} (h : EvenBlack (f.fill t)) :
    EvenBlack t := by
  obtain ⟨n, hn⟩ := h
  obtain ⟨k, ht, -⟩ := blackHeight_nodeAt hn
  exact ⟨k, ht⟩

theorem EvenBlack.of_plug {p : TreePath Data} {t : PtrTree Data} (h : EvenBlack (plug p t)) :
    EvenBlack t := by
  induction p generalizing t with
  | nil => exact h
  | cons f p ih => exact (ih h).of_fill

theorem EvenBlack.of_outer {f g : Frame Data} {t : PtrTree Data}
    (h : EvenBlack (outer f g t)) : EvenBlack t := by
  unfold outer rotated sized at h
  obtain ⟨n, hn⟩ := h
  obtain ⟨k, -, ht, -⟩ := blackHeight_nodeAt hn
  exact ⟨k, ht⟩

/-- The rotations part the children of `z`, but leave both below red nodes of one
black height. -/
theorem EvenBlack.of_inner {f g : Frame Data} {z : Ref} {dz : Data} {l r : PtrTree Data}
    (hf : f.data.isRed = true) (h : EvenBlack (inner f g z dz l r)) :
    EvenBlack (.node z dz l r) := by
  unfold inner outer rotated sized at h
  obtain ⟨n, hn⟩ := h
  obtain ⟨k, hgr, hfl, -⟩ := blackHeight_nodeAt hn
  obtain ⟨k₁, -, hr, hk₁⟩ := blackHeight_nodeAt hgr
  obtain ⟨k₂, -, hl, hk₂⟩ := blackHeight_nodeAt hfl
  have hsame : k₁ = k₂ := by
    have hunit₁ : k = k₁ := hk₁
    have hunit₂ : blackUnit Data.isRed { f.data with
        size := storedSize f.sibling + storedSize l + 1 } = 0 := if_pos hf
    rw [hunit₂] at hk₂
    exact hunit₁.symm.trans hk₂
  subst hsame
  exact ⟨_, blackHeight_node.2 ⟨k₁, hl, hr, rfl⟩⟩

/-- A subtree that is not even stays so in whatever the loop does above it. -/
theorem EvenBlack.of_fixUp {p : TreePath Data} {t : PtrTree Data} (h : EvenBlack (fixUp p t)) :
    EvenBlack t := by
  fun_induction fixUp p t with
  | case1 t => exact h
  | case2 f t => exact h.of_fill
  | case3 f g p t hf hside hgr ih => exact (ih h).of_fill.of_fill
  | case4 f g p hf hside hgr z dz l r hfside => exact h.of_plug.of_inner hf
  | case5 f g p hf hside hgr t hne => exact h.of_plug.of_outer
  | case6 f g p t hf hside ih => exact (ih h).of_fill.of_fill
  | case7 f g p t hf => exact h.of_plug.of_fill.of_fill

/-- One round of the second half leaves the grandparent with a black child more on
one side than on the other. -/
theorem not_evenBlack_mirrored {f g : Frame Data} {t : PtrTree Data} {n : ℕ} (ht : Bal t n)
    (hg : Bal g.sibling n) :
    ¬EvenBlack (Frame.fill { g with data := g.data.paint .red }
      (Frame.fill { f with data := f.data.paint .black } t)) := by
  rintro ⟨m, hm⟩
  obtain ⟨k, hinner, hsib, -⟩ := blackHeight_nodeAt hm
  obtain ⟨k', ht', -, hk⟩ := blackHeight_nodeAt hinner
  have hkn : k = n := blackHeight_unique hsib hg.black_height
  have hkn' : k' = n := blackHeight_unique ht' ht.black_height
  have hunit : blackUnit Data.isRed (f.data.paint .black) = 1 := rfl
  rw [hunit] at hk
  omega

/-- Once the loop reaches its second half, the tree is no longer balanced. -/
theorem fixUp_mirrored (p : TreePath Data) (t : PtrTree Data) (n : ℕ) (ht : Bal t n)
    (hp : Fits Data.isRed p n) (hm : Mirrored p) : ¬EvenBlack (fixUp p t) := by
  fun_induction fixUp p t generalizing n with
  | case1 t => exact absurd hm id
  | case2 f t => exact absurd hm id
  | case3 f g p t hf hside hgr ih =>
      have hr := redParent_of_fits hp hf
      obtain ⟨-, hright | ⟨-, hm'⟩⟩ := hm
      · rw [hside] at hright
        cases hright
      · exact ih (n + 1) (balanced_recolour ht hr.parent hr.uncle hgr) hr.rest hm'
  | case4 f g p hf hside hgr z dz l r hfside =>
      obtain ⟨-, hright | ⟨hgr', -⟩⟩ := hm
      · rw [hside] at hright
        cases hright
      · exact absurd hgr' hgr
  | case5 f g p hf hside hgr t hne =>
      obtain ⟨-, hright | ⟨hgr', -⟩⟩ := hm
      · rw [hside] at hright
        cases hright
      · exact absurd hgr' hgr
  -- The second half: what the loop does further up cannot repair it.
  | case6 f g p t hf hside ih =>
      have hr := redParent_of_fits hp hf
      intro heven
      exact not_evenBlack_mirrored ht hr.uncle heven.of_fixUp
  | case7 f g p t hf => exact absurd hm.1 hf

end ThirdMax
end Leetcode
