import Leetcode.Lib.RedBlack

/-!
# The in-order sequence of a linked tree, and stored subtree sizes

`f` reads off a payload what the sequence lists.  A path splits the sequence of the
whole tree into what stands before the hole and what stands after it
(`inorder_plug`), and a rotation keeps the sequence (`inorder_rotate`).

`PtrTree.Sized` says that every payload stores the number of nodes of its subtree.
-/

namespace CLib

variable {δ α : Type*}

/-! ## Sides -/

/-- The one of two things that is on the side `s`. -/
def Side.pick (s : Side) (a b : α) : α :=
  match s with
  | .left => a
  | .right => b

theorem PtrTree.node_eq_nodeAt (s : Side) (a : Ref) (d : δ) (l r : PtrTree δ) :
    PtrTree.node a d l r = .nodeAt s a d (s.pick l r) (s.flip.pick l r) := by
  cases s <;> rfl

/-! ## The sequence -/

variable (f : δ → α)

def PtrTree.inorder : PtrTree δ → List α
  | .nil => []
  | .node _ d l r => l.inorder ++ f d :: r.inorder

/-- What stands before the hole. -/
def before : TreePath δ → List α
  | [] => []
  | fr :: p =>
      match fr.side with
      | .left => before p
      | .right => before p ++ (fr.sibling.inorder f ++ [f fr.data])

/-- What stands after the hole. -/
def after : TreePath δ → List α
  | [] => []
  | fr :: p =>
      match fr.side with
      | .left => f fr.data :: (fr.sibling.inorder f ++ after p)
      | .right => after p

theorem inorder_plug (p : TreePath δ) (t : PtrTree δ) :
    (plug p t).inorder f = before f p ++ (t.inorder f ++ after f p) := by
  induction p generalizing t with
  | nil => simp [plug, before, after]
  | cons fr p ih =>
      rw [plug, ih, Frame.fill, before, after]
      cases fr.side <;> simp [PtrTree.nodeAt, PtrTree.inorder]

variable {f}

theorem inorder_plug_congr {p : TreePath δ} {t u : PtrTree δ} (h : t.inorder f = u.inorder f) :
    (plug p t).inorder f = (plug p u).inorder f := by
  rw [inorder_plug, inorder_plug, h]

theorem inorder_nodeAt_congr {s : Side} {a : Ref} {d d' : δ} {t t' u u' : PtrTree δ}
    (hd : f d = f d') (ht : t.inorder f = t'.inorder f) (hu : u.inorder f = u'.inorder f) :
    (PtrTree.nodeAt s a d t u).inorder f = (PtrTree.nodeAt s a d' t' u').inorder f := by
  cases s <;> simp [PtrTree.nodeAt, PtrTree.inorder, hd, ht, hu]

theorem inorder_fill_congr {fr fr' : Frame δ} {t t' : PtrTree δ} (hside : fr.side = fr'.side)
    (hd : f fr.data = f fr'.data) (ht : t.inorder f = t'.inorder f)
    (hsib : fr.sibling.inorder f = fr'.sibling.inorder f) :
    (fr.fill t).inorder f = (fr'.fill t').inorder f := by
  rw [Frame.fill, Frame.fill, hside]
  cases fr'.side <;> simp [PtrTree.nodeAt, PtrTree.inorder, hd, ht, hsib]

theorem inorder_mapRoot {φ : δ → δ} (hφ : ∀ d, f (φ d) = f d) (t : PtrTree δ) :
    (t.mapRoot φ).inorder f = t.inorder f := by
  cases t with
  | nil => rfl
  | node a d l r => rw [PtrTree.mapRoot, PtrTree.inorder, PtrTree.inorder, hφ]

/-- A rotation keeps the sequence. -/
theorem inorder_rotate (s : Side) (x y : Ref) (dx dy : δ) (l mid r : PtrTree δ) :
    (PtrTree.nodeAt s y dy (.nodeAt s x dx l mid) r).inorder f =
      (PtrTree.nodeAt s x dx l (.nodeAt s y dy mid r)).inorder f := by
  cases s <;> simp [PtrTree.nodeAt, PtrTree.inorder]

/-! ## Sizes -/

variable (size : δ → ℕ)

/-- Every payload stores the number of nodes of its subtree. -/
def PtrTree.Sized : PtrTree δ → Prop
  | .nil => True
  | .node _ d l r => size d = l.count + r.count + 1 ∧ l.Sized ∧ r.Sized

/-- The same for what is above and beside a hole with `n` nodes. -/
def SizedPath : TreePath δ → ℕ → Prop
  | [], _ => True
  | fr :: p, n => size fr.data = n + fr.sibling.count + 1 ∧ fr.sibling.Sized size ∧
      SizedPath p (n + fr.sibling.count + 1)

variable {size}

@[simp] theorem count_nodeAt (s : Side) (a : Ref) (d : δ) (t u : PtrTree δ) :
    (PtrTree.nodeAt s a d t u).count = t.count + u.count + 1 := by
  cases s with
  | left => rfl
  | right => rw [PtrTree.nodeAt, PtrTree.count, Nat.add_comm u.count]

theorem sized_nodeAt {s : Side} {a : Ref} {d : δ} {t u : PtrTree δ} :
    (PtrTree.nodeAt s a d t u).Sized size ↔
      size d = t.count + u.count + 1 ∧ t.Sized size ∧ u.Sized size := by
  cases s with
  | left => exact Iff.rfl
  | right =>
      rw [PtrTree.nodeAt, PtrTree.Sized, Nat.add_comm u.count]
      exact and_congr_right' And.comm

theorem sized_mapRoot {φ : δ → δ} (hφ : ∀ d, size (φ d) = size d) {t : PtrTree δ} :
    (t.mapRoot φ).Sized size ↔ t.Sized size := by
  cases t with
  | nil => exact Iff.rfl
  | node a d l r => rw [PtrTree.mapRoot, PtrTree.Sized, PtrTree.Sized, hφ]

@[simp] theorem count_mapRoot (φ : δ → δ) (t : PtrTree δ) : (t.mapRoot φ).count = t.count := by
  cases t <;> rfl

/-- The sizes of a tree are right exactly when they are in a subtree and above it. -/
theorem sized_plug {p : TreePath δ} {t : PtrTree δ} :
    (plug p t).Sized size ↔ t.Sized size ∧ SizedPath size p t.count := by
  induction p generalizing t with
  | nil => simp [plug, SizedPath]
  | cons fr p ih =>
      rw [plug, ih, Frame.fill, sized_nodeAt, count_nodeAt, SizedPath]
      tauto

end CLib
