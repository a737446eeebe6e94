import Mathlib.Data.List.Perm.Basic
import Mathlib.Data.List.Nodup
import Mathlib.Logic.Function.Basic

/-!
# Binary trees in linked memory, with parent links

A memory maps references to cells with a left, a right and a parent link.  A
tree lists the references and payloads of its nodes, so it fixes the contents of
all its cells.

* `Mem.Holds` — the memory holds a tree below a parent.
* `Mem.At` — the memory holds a whole tree, seen from one subtree: the subtree
  and the path of frames above it.  `at_up` moves the point of view to the parent.
* `at_setData`, `at_rotate` — what a write to the payload and a rotation do.

A rotation and its mirror image are one definition over the `Side`.
-/

namespace CLib

variable {δ : Type*}

abbrev Ref := ℕ

/-- A node in memory. -/
structure Cell (δ : Type*) where
  data : δ
  left : Option Ref
  right : Option Ref
  parent : Option Ref

structure Mem (δ : Type*) where
  cell : Ref → Cell δ

instance : CoeFun (Mem δ) fun _ => Ref → Cell δ := ⟨Mem.cell⟩

inductive Side
  | left
  | right
  deriving DecidableEq, Repr

def Side.flip : Side → Side
  | .left => .right
  | .right => .left

/-! ## Cells -/

/-- A cell with the child `c` on the side `s` and `o` on the other. -/
def cellAt (s : Side) (d : δ) (c o par : Option Ref) : Cell δ :=
  match s with
  | .left => ⟨d, c, o, par⟩
  | .right => ⟨d, o, c, par⟩

def Cell.child (x : Cell δ) : Side → Option Ref
  | .left => x.left
  | .right => x.right

def Cell.setChild (x : Cell δ) (s : Side) (c : Option Ref) : Cell δ :=
  match s with
  | .left => { x with left := c }
  | .right => { x with right := c }

@[simp] theorem data_cellAt (s : Side) (d : δ) (c o par : Option Ref) :
    (cellAt s d c o par).data = d := by cases s <;> rfl

@[simp] theorem parent_cellAt (s : Side) (d : δ) (c o par : Option Ref) :
    (cellAt s d c o par).parent = par := by cases s <;> rfl

@[simp] theorem child_cellAt (s : Side) (d : δ) (c o par : Option Ref) :
    (cellAt s d c o par).child s = c := by cases s <;> rfl

@[simp] theorem setChild_cellAt (s : Side) (d : δ) (c o par v : Option Ref) :
    (cellAt s d c o par).setChild s v = cellAt s d v o par := by cases s <;> rfl

@[simp] theorem setChild_flip_cellAt (s : Side) (d : δ) (c o par v : Option Ref) :
    (cellAt s d c o par).setChild s.flip v = cellAt s d c v par := by cases s <;> rfl

theorem setParent_cellAt (s : Side) (d : δ) (c o par v : Option Ref) :
    { cellAt s d c o par with parent := v } = cellAt s d c o v := by cases s <;> rfl

theorem setData_cellAt (s : Side) (d d' : δ) (c o par : Option Ref) :
    { cellAt s d c o par with data := d' } = cellAt s d' c o par := by cases s <;> rfl

/-! ## Writes -/

namespace Mem

/-- Write a whole cell. -/
def set (m : Mem δ) (a : Ref) (x : Cell δ) : Mem δ :=
  ⟨Function.update m.cell a x⟩

def setData (m : Mem δ) (a : Ref) (d : δ) : Mem δ :=
  m.set a { m a with data := d }

def setChild (m : Mem δ) (s : Side) (a : Ref) (c : Option Ref) : Mem δ :=
  m.set a ((m a).setChild s c)

def setParent (m : Mem δ) (a : Ref) (p : Option Ref) : Mem δ :=
  m.set a { m a with parent := p }

/-- `if (b != NULL) b->parent = p`. -/
def adopt (m : Mem δ) (b p : Option Ref) : Mem δ :=
  match b with
  | some b => m.setParent b p
  | none => m

variable (m : Mem δ) {a b : Ref}

@[simp] theorem set_self (x : Cell δ) : m.set a x a = x := by
  simp [set]

@[simp] theorem set_of_ne (h : b ≠ a) (x : Cell δ) : m.set a x b = m b := by
  simp [set, h]

@[simp] theorem setData_self (d : δ) : m.setData a d a = { m a with data := d } := by
  simp [setData]

@[simp] theorem setData_of_ne (h : b ≠ a) (d : δ) : m.setData a d b = m b := by
  simp [setData, h]

@[simp] theorem setChild_self (s : Side) (c : Option Ref) :
    m.setChild s a c a = (m a).setChild s c := by
  simp [setChild]

@[simp] theorem setChild_of_ne (h : b ≠ a) (s : Side) (c : Option Ref) :
    m.setChild s a c b = m b := by
  simp [setChild, h]

@[simp] theorem setParent_self (p : Option Ref) :
    m.setParent a p a = { m a with parent := p } := by
  simp [setParent]

@[simp] theorem setParent_of_ne (h : b ≠ a) (p : Option Ref) : m.setParent a p b = m b := by
  simp [setParent, h]

@[simp] theorem adopt_of_ne {c : Option Ref} (h : c ≠ some b) (p : Option Ref) :
    m.adopt c p b = m b := by
  cases c with
  | none => rfl
  | some c => exact setParent_of_ne m (fun hb => h (by rw [hb])) p

end Mem

/-! ## Trees -/

inductive PtrTree (δ : Type*)
  | nil
  | node (ref : Ref) (data : δ) (left right : PtrTree δ)

/-- The node with the subtree `t` on the side `s` and `u` on the other. -/
def PtrTree.nodeAt (s : Side) (a : Ref) (d : δ) (t u : PtrTree δ) : PtrTree δ :=
  match s with
  | .left => .node a d t u
  | .right => .node a d u t

/-- The reference to a tree. -/
def PtrTree.ref : PtrTree δ → Option Ref
  | .nil => none
  | .node a _ _ _ => some a

/-- The references of all nodes. -/
def PtrTree.refs : PtrTree δ → List Ref
  | .nil => []
  | .node a _ l r => a :: (l.refs ++ r.refs)

@[simp] theorem PtrTree.ref_nodeAt (s : Side) (a : Ref) (d : δ) (t u : PtrTree δ) :
    (PtrTree.nodeAt s a d t u).ref = some a := by cases s <;> rfl

theorem PtrTree.refs_nodeAt (s : Side) (a : Ref) (d : δ) (t u : PtrTree δ) :
    (PtrTree.nodeAt s a d t u).refs.Perm (a :: (t.refs ++ u.refs)) := by
  cases s with
  | left => exact .refl _
  | right => exact List.perm_append_comm.cons a

@[simp] theorem PtrTree.mem_refs_nodeAt {s : Side} {a b : Ref} {d : δ} {t u : PtrTree δ} :
    b ∈ (PtrTree.nodeAt s a d t u).refs ↔ b = a ∨ b ∈ t.refs ∨ b ∈ u.refs := by
  rw [(PtrTree.refs_nodeAt s a d t u).mem_iff, List.mem_cons, List.mem_append]

theorem PtrTree.mem_refs_of_ref {t : PtrTree δ} {a : Ref} (h : t.ref = some a) : a ∈ t.refs := by
  cases t with
  | nil => cases h
  | node b d l r =>
      cases h
      exact List.mem_cons_self

/-- The memory holds the tree, with `par` as the parent of its root. -/
def Mem.Holds (m : Mem δ) : Option Ref → PtrTree δ → Prop
  | _, .nil => True
  | par, .node a d l r =>
      m a = ⟨d, l.ref, r.ref, par⟩ ∧ m.Holds (some a) l ∧ m.Holds (some a) r

theorem holds_nodeAt {m : Mem δ} {par : Option Ref} {s : Side} {a : Ref} {d : δ} {t u : PtrTree δ} :
    m.Holds par (.nodeAt s a d t u) ↔
      m a = cellAt s d t.ref u.ref par ∧ m.Holds (some a) t ∧ m.Holds (some a) u := by
  cases s with
  | left => exact Iff.rfl
  | right => exact and_congr_right' And.comm

/-- Only the cells of the tree matter. -/
theorem Mem.Holds.congr {m m' : Mem δ} {par : Option Ref} {t : PtrTree δ} (h : m.Holds par t)
    (hsame : ∀ a ∈ t.refs, m' a = m a) : m'.Holds par t := by
  induction t generalizing par with
  | nil => trivial
  | node a d l r ihl ihr =>
      obtain ⟨ha, hl, hr⟩ := h
      refine ⟨(hsame a List.mem_cons_self).trans ha, ihl hl fun b hb => ?_, ihr hr fun b hb => ?_⟩
      · exact hsame b (List.mem_cons_of_mem _ (List.mem_append_left _ hb))
      · exact hsame b (List.mem_cons_of_mem _ (List.mem_append_right _ hb))

/-- A new parent for the root. -/
theorem Mem.Holds.adopt {m : Mem δ} {par : Option Ref} {t : PtrTree δ} (h : m.Holds par t)
    (hnodup : t.refs.Nodup) (p : Option Ref) : (m.adopt t.ref p).Holds p t := by
  cases t with
  | nil => trivial
  | node a d l r =>
      obtain ⟨ha, hl, hr⟩ := h
      obtain ⟨hnotin, -⟩ := List.nodup_cons.1 hnodup
      have hother : ∀ b ∈ l.refs ++ r.refs, m.setParent a p b = m b := by
        intro b hb
        apply Mem.setParent_of_ne
        rintro rfl
        exact hnotin hb
      refine ⟨?_, hl.congr fun b hb => ?_, hr.congr fun b hb => ?_⟩
      · change m.setParent a p a = _
        rw [Mem.setParent_self, ha]
      · exact hother b (List.mem_append_left _ hb)
      · exact hother b (List.mem_append_right _ hb)

/-! ## Paths -/

/-- A node above a hole, with the side the hole is on and the other subtree. -/
structure Frame (δ : Type*) where
  ref : Ref
  data : δ
  side : Side
  sibling : PtrTree δ

/-- The way from a hole up to the root. -/
abbrev TreePath (δ : Type*) := List (Frame δ)

def Frame.fill (f : Frame δ) (t : PtrTree δ) : PtrTree δ :=
  .nodeAt f.side f.ref f.data t f.sibling

/-- The whole tree. -/
def plug : TreePath δ → PtrTree δ → PtrTree δ
  | [], t => t
  | f :: p, t => plug p (f.fill t)

/-- The root of the whole tree depends on the root of the subtree only. -/
theorem ref_plug {p : TreePath δ} {t u : PtrTree δ} (h : t.ref = u.ref) :
    (plug p t).ref = (plug p u).ref := by
  induction p generalizing t u with
  | nil => exact h
  | cons f p ih =>
      apply ih
      rw [Frame.fill, Frame.fill, PtrTree.ref_nodeAt, PtrTree.ref_nodeAt]

/-- The parent of the hole. -/
def top : TreePath δ → Option Ref
  | [] => none
  | f :: _ => some f.ref

def pathRefs : TreePath δ → List Ref
  | [] => []
  | f :: p => f.ref :: (f.sibling.refs ++ pathRefs p)

theorem mem_pathRefs_of_top {p : TreePath δ} {a : Ref} (h : top p = some a) : a ∈ pathRefs p := by
  cases p with
  | nil => cases h
  | cons f p =>
      cases h
      exact List.mem_cons_self

/-- The memory holds the path, with `hole` as the reference to the subtree. -/
def Mem.HoldsPath (m : Mem δ) : TreePath δ → Option Ref → Prop
  | [], _ => True
  | f :: p, hole => m f.ref = cellAt f.side f.data hole f.sibling.ref (top p) ∧
      m.Holds (some f.ref) f.sibling ∧ m.HoldsPath p (some f.ref)

theorem Mem.HoldsPath.congr {m m' : Mem δ} {p : TreePath δ} {hole : Option Ref}
    (h : m.HoldsPath p hole) (hsame : ∀ a ∈ pathRefs p, m' a = m a) : m'.HoldsPath p hole := by
  induction p generalizing hole with
  | nil => trivial
  | cons f p ih =>
      obtain ⟨hf, hsib, hp⟩ := h
      refine ⟨(hsame _ List.mem_cons_self).trans hf, hsib.congr fun b hb => ?_,
        ih hp fun b hb => ?_⟩
      · exact hsame b (List.mem_cons_of_mem _ (List.mem_append_left _ hb))
      · exact hsame b (List.mem_cons_of_mem _ (List.mem_append_right _ hb))

/-- The memory holds the tree `plug p t`, and `root` refers to it. -/
structure Mem.At (m : Mem δ) (root : Option Ref) (p : TreePath δ) (t : PtrTree δ) : Prop where
  path : m.HoldsPath p t.ref
  tree : m.Holds (top p) t
  nodup : (t.refs ++ pathRefs p).Nodup
  root_eq : root = (plug p t).ref

/-- A tree with references below `n` has at most `n` nodes. -/
theorem Mem.At.length_refs_le {m : Mem δ} {root : Option Ref} {p : TreePath δ} {t : PtrTree δ}
    {n : ℕ} (h : m.At root p t) (hlt : ∀ a ∈ t.refs, a < n) : t.refs.length ≤ n := by
  have hnodup : t.refs.Nodup := (List.nodup_append.1 h.nodup).1
  have hsub := List.subperm_of_subset hnodup fun a ha => List.mem_range.2 (hlt a ha)
  simpa using hsub.length_le

theorem refs_fill (f : Frame δ) (p : TreePath δ) (t : PtrTree δ) :
    (t.refs ++ pathRefs (f :: p)).Perm ((f.fill t).refs ++ pathRefs p) := by
  have hmiddle : (t.refs ++ f.ref :: (f.sibling.refs ++ pathRefs p)).Perm
      (f.ref :: (t.refs ++ (f.sibling.refs ++ pathRefs p))) := List.perm_middle
  refine hmiddle.trans ?_
  rw [← List.append_assoc]
  exact ((PtrTree.refs_nodeAt f.side f.ref f.data t f.sibling).append_right (pathRefs p)).symm

/-- The same memory, seen from the parent. -/
theorem at_up {m : Mem δ} {root : Option Ref} {f : Frame δ} {p : TreePath δ} {t : PtrTree δ} :
    m.At root (f :: p) t ↔ m.At root p (f.fill t) := by
  have htree : m.Holds (top p) (f.fill t) ↔
      m f.ref = cellAt f.side f.data t.ref f.sibling.ref (top p) ∧
        m.Holds (some f.ref) t ∧ m.Holds (some f.ref) f.sibling := holds_nodeAt
  have href : (f.fill t).ref = some f.ref := PtrTree.ref_nodeAt ..
  constructor
  · rintro ⟨⟨hf, hsib, hp⟩, ht, hnodup, hroot⟩
    refine ⟨?_, htree.2 ⟨hf, ht, hsib⟩, (refs_fill f p t).nodup_iff.1 hnodup, hroot⟩
    rw [href]
    exact hp
  · rintro ⟨hp, ht, hnodup, hroot⟩
    obtain ⟨hf, ht, hsib⟩ := htree.1 ht
    refine ⟨⟨hf, hsib, ?_⟩, ht, (refs_fill f p t).nodup_iff.2 hnodup, hroot⟩
    rw [href] at hp
    exact hp

/-- Going up to the root. -/
theorem at_plug {m : Mem δ} {root : Option Ref} {p : TreePath δ} {t : PtrTree δ} :
    m.At root p t ↔ m.At root [] (plug p t) := by
  induction p generalizing t with
  | nil => exact Iff.rfl
  | cons f p ih => exact at_up.trans ih

/-- Only the cells of the whole tree matter. -/
theorem Mem.At.congr {m m' : Mem δ} {root : Option Ref} {p : TreePath δ} {t : PtrTree δ}
    (h : m.At root p t) (hsame : ∀ a ∈ t.refs ++ pathRefs p, m' a = m a) : m'.At root p t where
  path := h.path.congr fun a ha => hsame a (List.mem_append_right _ ha)
  tree := h.tree.congr fun a ha => hsame a (List.mem_append_left _ ha)
  nodup := h.nodup
  root_eq := h.root_eq

/-- A write to the payload of the focused node. -/
theorem at_setData {m : Mem δ} {root : Option Ref} {p : TreePath δ} {s : Side} {a : Ref} {d : δ}
    {t u : PtrTree δ} (h : m.At root p (.nodeAt s a d t u)) (d' : δ) :
    (m.setData a d').At root p (.nodeAt s a d' t u) := by
  obtain ⟨hp, ht, hnodup, hroot⟩ := h
  have hrefs : ((PtrTree.nodeAt s a d t u).refs ++ pathRefs p).Perm
      (a :: (t.refs ++ u.refs ++ pathRefs p)) :=
    (PtrTree.refs_nodeAt s a d t u).append_right _
  obtain ⟨hnotin, -⟩ := List.nodup_cons.1 (hrefs.nodup_iff.1 hnodup)
  have hother : ∀ b ∈ t.refs ++ u.refs ++ pathRefs p, m.setData a d' b = m b := by
    intro b hb
    apply Mem.setData_of_ne
    rintro rfl
    exact hnotin hb
  obtain ⟨ha, ht', hu'⟩ := holds_nodeAt.1 ht
  refine ⟨?_, holds_nodeAt.2 ⟨?_, ht'.congr fun b hb => ?_, hu'.congr fun b hb => ?_⟩, ?_, ?_⟩
  · rw [PtrTree.ref_nodeAt] at hp ⊢
    exact hp.congr fun b hb => hother b (List.mem_append_right _ hb)
  · rw [Mem.setData_self, ha, setData_cellAt]
  · exact hother b (List.mem_append_left _ (List.mem_append_left _ hb))
  · exact hother b (List.mem_append_left _ (List.mem_append_right _ hb))
  · have hrefs' : ((PtrTree.nodeAt s a d' t u).refs ++ pathRefs p).Perm
        (a :: (t.refs ++ u.refs ++ pathRefs p)) :=
      (PtrTree.refs_nodeAt s a d' t u).append_right _
    exact hrefs'.nodup_iff.2 (hrefs.nodup_iff.1 hnodup)
  · rw [hroot]
    apply ref_plug
    rw [PtrTree.ref_nodeAt, PtrTree.ref_nodeAt]

/-! ## Looking around -/

section Links

variable {m : Mem δ} {root : Option Ref} {f : Frame δ} {p : TreePath δ} {s : Side} {a z : Ref}
  {d : δ} {t u : PtrTree δ}

/-- The cell of the focused node. -/
theorem Mem.At.cell (h : m.At root p (.nodeAt s a d t u)) :
    m a = cellAt s d t.ref u.ref (top p) :=
  (holds_nodeAt.1 h.tree).1

theorem Mem.At.parent_eq (h : m.At root p t) (hz : t.ref = some z) : (m z).parent = top p := by
  cases t with
  | nil => cases hz
  | node a d l r =>
      cases hz
      rw [h.tree.1]

/-- The side of the focused node shows in the links of its parent. -/
theorem Mem.At.child_eq_iff (h : m.At root (f :: p) t) (hz : t.ref = some z) :
    (m f.ref).child s = some z ↔ f.side = s := by
  have hsib : f.sibling.ref ≠ some z := by
    intro hsib
    have hzp : z ∈ pathRefs (f :: p) :=
      List.mem_cons_of_mem _ (List.mem_append_left _ (PtrTree.mem_refs_of_ref hsib))
    exact (List.nodup_append.1 h.nodup).2.2 z (PtrTree.mem_refs_of_ref hz) z hzp rfl
  rw [h.path.1, hz]
  cases hf : f.side <;> cases s <;> simp [cellAt, Cell.child, hsib]

theorem ref_plug_cons (f : Frame δ) (p : TreePath δ) (t : PtrTree δ) :
    ∃ a ∈ pathRefs (f :: p), (plug (f :: p) t).ref = some a := by
  induction p generalizing f t with
  | nil => exact ⟨f.ref, List.mem_cons_self, PtrTree.ref_nodeAt ..⟩
  | cons g p ih =>
      obtain ⟨a, ha, href⟩ := ih g (f.fill t)
      exact ⟨a, List.mem_cons_of_mem _ (List.mem_append_right _ ha), href⟩

/-- A node with a parent is not the root. -/
theorem Mem.At.root_ne (h : m.At root (f :: p) t) (hz : t.ref = some z) : root ≠ some z := by
  obtain ⟨a, ha, href⟩ := ref_plug_cons f p t
  rw [h.root_eq, href]
  rintro ⟨⟩
  exact (List.nodup_append.1 h.nodup).2.2 z (PtrTree.mem_refs_of_ref hz) z ha rfl

theorem PtrTree.nodeAt_flip (s : Side) (a : Ref) (d : δ) (t u : PtrTree δ) :
    PtrTree.nodeAt s.flip a d u t = PtrTree.nodeAt s a d t u := by
  cases s <;> rfl

/-- From a node to its child on either side. -/
theorem at_child (s : Side) :
    m.At root p (.nodeAt s a d t u) ↔ m.At root (⟨a, d, s, u⟩ :: p) t :=
  (at_up (f := ⟨a, d, s, u⟩)).symm

theorem at_other_child (s : Side) :
    m.At root p (.nodeAt s a d t u) ↔ m.At root (⟨a, d, s.flip, t⟩ :: p) u := by
  rw [← PtrTree.nodeAt_flip]
  exact at_child s.flip

end Links

/-! ## Changing payloads -/

/-- Change the payload of a node. -/
def Mem.modify (m : Mem δ) (a : Ref) (φ : δ → δ) : Mem δ :=
  m.setData a (φ (m a).data)

/-- Change the payload of the root. -/
def PtrTree.mapRoot (φ : δ → δ) : PtrTree δ → PtrTree δ
  | .nil => .nil
  | .node a d l r => .node a (φ d) l r

@[simp] theorem PtrTree.refs_mapRoot (φ : δ → δ) (t : PtrTree δ) : (t.mapRoot φ).refs = t.refs := by
  cases t <;> rfl

section Modify

variable {m : Mem δ} {root : Option Ref} {f g : Frame δ} {p : TreePath δ} {t : PtrTree δ}

theorem at_modify {s : Side} {a : Ref} {d : δ} {u : PtrTree δ} (h : m.At root p (.nodeAt s a d t u))
    (φ : δ → δ) : (m.modify a φ).At root p (.nodeAt s a (φ d) t u) := by
  unfold Mem.modify
  rw [h.cell, data_cellAt]
  exact at_setData h _

theorem at_modify_parent (h : m.At root (f :: p) t) (φ : δ → δ) :
    (m.modify f.ref φ).At root ({ f with data := φ f.data } :: p) t :=
  at_up.2 (at_modify (at_up.1 h) φ)

theorem at_modify_grandparent (h : m.At root (f :: g :: p) t) (φ : δ → δ) :
    (m.modify g.ref φ).At root (f :: { g with data := φ g.data } :: p) t :=
  at_up.2 (at_modify_parent (at_up.1 h) φ)

/-- The node beside the parent. -/
theorem at_modify_uncle {b : Ref} (h : m.At root (f :: g :: p) t) (hb : g.sibling.ref = some b)
    (φ : δ → δ) :
    (m.modify b φ).At root (f :: { g with sibling := g.sibling.mapRoot φ } :: p) t := by
  obtain ⟨a, d, s, sib⟩ := g
  cases sib with
  | nil => cases hb
  | node b' d' l r =>
      cases hb
      have hsib := (at_other_child s).1 (at_up.1 (at_up.1 h))
      exact at_up.2 (at_up.2 ((at_other_child s).2 (at_modify (s := .left) hsib φ)))

theorem at_modify_root {r : Ref} (h : m.At root [] t) (hr : t.ref = some r) (φ : δ → δ) :
    (m.modify r φ).At root [] (t.mapRoot φ) := by
  cases t with
  | nil => cases hr
  | node a d l u =>
      cases hr
      exact at_modify (s := .left) h φ

end Modify

/-! ## New nodes -/

/-- The place of the path in the whole tree. -/
theorem refs_plug (p : TreePath δ) (t : PtrTree δ) :
    (t.refs ++ pathRefs p).Perm (plug p t).refs := by
  induction p generalizing t with
  | nil => rw [pathRefs, List.append_nil, plug]
  | cons f p ih => exact (refs_fill f p t).trans (ih (f.fill t))

theorem mem_refs_plug {p : TreePath δ} {t : PtrTree δ} {b : Ref} :
    b ∈ (plug p t).refs ↔ b ∈ t.refs ∨ b ∈ pathRefs p := by
  rw [← (refs_plug p t).mem_iff, List.mem_append]

theorem length_le_pathRefs (p : TreePath δ) : p.length ≤ (pathRefs p).length := by
  induction p with
  | nil => exact Nat.le_refl 0
  | cons f p ih =>
      simp only [pathRefs, List.length_cons, List.length_append]
      omega

/-- A memory holds at most one tree at a reference. -/
theorem Mem.Holds.unique {m : Mem δ} {par par' : Option Ref} {t u : PtrTree δ} (ht : m.Holds par t)
    (hu : m.Holds par' u) (href : t.ref = u.ref) : t = u := by
  induction t generalizing par par' u with
  | nil =>
      cases u with
      | nil => rfl
      | node b d l r => cases href
  | node a d l r ihl ihr =>
      cases u with
      | nil => cases href
      | node b d' l' r' =>
          obtain ⟨ha, hl, hr⟩ := ht
          obtain ⟨hb, hl', hr'⟩ := hu
          cases href
          obtain ⟨rfl, hll, hrr, -⟩ := Cell.mk.inj (ha.symm.trans hb)
          rw [ihl hl hl' hll, ihr hr hr' hrr]

/-- A tree of one node. -/
def PtrTree.leaf (a : Ref) (d : δ) : PtrTree δ := .node a d .nil .nil

theorem at_leaf (m : Mem δ) (z : Ref) (d : δ) :
    (m.set z ⟨d, none, none, none⟩).At (some z) [] (.leaf z d) :=
  ⟨trivial, ⟨m.set_self _, trivial, trivial⟩, List.nodup_singleton z, rfl⟩

/-- A new node in the place of a missing child. -/
theorem at_attach {m : Mem δ} {root : Option Ref} {f : Frame δ} {p : TreePath δ} {z : Ref}
    (h : m.At root (f :: p) .nil) (hz : z ∉ pathRefs (f :: p)) (d : δ) :
    ((m.set z ⟨d, none, none, some f.ref⟩).setChild f.side f.ref (some z)).At root (f :: p)
      (.leaf z d) := by
  obtain ⟨⟨hf, hsib, hp⟩, -, hnodup, hroot⟩ := h
  obtain ⟨hnotin, -⟩ := List.nodup_cons.1 hnodup
  have hfz : f.ref ≠ z := fun hfz => hz (hfz ▸ List.mem_cons_self)
  have hother : ∀ b ∈ f.sibling.refs ++ pathRefs p,
      ((m.set z ⟨d, none, none, some f.ref⟩).setChild f.side f.ref (some z)) b = m b := by
    intro b hb
    have hbf : b ≠ f.ref := fun hbf => hnotin (hbf ▸ hb)
    have hbz : b ≠ z := fun hbz => hz (hbz ▸ List.mem_cons_of_mem _ hb)
    rw [Mem.setChild_of_ne _ hbf, Mem.set_of_ne _ hbz]
  refine ⟨⟨?_, hsib.congr fun b hb => ?_, hp.congr fun b hb => ?_⟩, ⟨?_, trivial, trivial⟩, ?_, ?_⟩
  · rw [Mem.setChild_self, Mem.set_of_ne _ hfz, hf, setChild_cellAt]
    rfl
  · exact hother b (List.mem_append_left _ hb)
  · exact hother b (List.mem_append_right _ hb)
  · rw [Mem.setChild_of_ne _ (Ne.symm hfz), Mem.set_self]
    rfl
  · exact List.nodup_cons.2 ⟨hz, hnodup⟩
  · rw [hroot]
    apply ref_plug (p := p)
    rw [Frame.fill, Frame.fill, PtrTree.ref_nodeAt, PtrTree.ref_nodeAt]

/-! ## Rotations -/

/-- Make `y` the child of `par` where `x` was, or the root. -/
def Mem.relink (m : Mem δ) (root par : Option Ref) (x y : Ref) : Mem δ × Option Ref :=
  match par with
  | none => (m, some y)
  | some p =>
      if (m p).left = some x then (m.setChild .left p (some y), root)
      else (m.setChild .right p (some y), root)

/-- The middle subtree moves from `y` to `x`, and `y` gets the parent of `x`. -/
def Mem.rehang (m : Mem δ) (s : Side) (x y : Ref) : Mem δ :=
  let m := m.setChild s.flip x ((m y).child s)
  let m := m.adopt ((m y).child s) (some x)
  m.setParent y (m x).parent

/-- The rotation at `x` towards the side `s`, with `y` the child of `x` on the
other side. -/
def Mem.rotate (m : Mem δ) (root : Option Ref) (s : Side) (x y : Ref) : Mem δ × Option Ref :=
  let m := m.rehang s x y
  let linked := m.relink root (m x).parent x y
  ((linked.1.setChild s y (some x)).setParent x (some y), linked.2)

theorem relink_of_ne (m : Mem δ) (root : Option Ref) {par : Option Ref} {b : Ref}
    (h : par ≠ some b) (x y : Ref) : (m.relink root par x y).1 b = m b := by
  cases par with
  | none => rfl
  | some p =>
      have hb : b ≠ p := fun hb => h (by rw [hb])
      simp only [Mem.relink]
      split
      · exact Mem.setChild_of_ne m hb .left _
      · exact Mem.setChild_of_ne m hb .right _

/-- Relinking replaces the subtree at the end of the path. -/
theorem holdsPath_relink {m : Mem δ} (root : Option Ref) {p : TreePath δ} {x : Ref} (y : Ref)
    (h : m.HoldsPath p (some x)) (hnodup : (pathRefs p).Nodup) (hx : x ∉ pathRefs p) :
    (m.relink root (top p) x y).1.HoldsPath p (some y) := by
  cases p with
  | nil => trivial
  | cons f p =>
      obtain ⟨hf, hsib, hp⟩ := h
      obtain ⟨hnotin, -⟩ := List.nodup_cons.1 hnodup
      have hother : ∀ b ∈ f.sibling.refs ++ pathRefs p,
          (m.relink root (some f.ref) x y).1 b = m b := by
        intro b hb
        apply relink_of_ne
        rintro ⟨⟩
        exact hnotin hb
      refine ⟨?_, hsib.congr fun b hb => ?_, hp.congr fun b hb => ?_⟩
      · -- `x` is the child on the side of the hole, and not the other child.
        rw [show top (f :: p) = some f.ref from rfl]
        cases hside : f.side with
        | left =>
            rw [hside] at hf
            simp [Mem.relink, hf, cellAt, Cell.setChild]
        | right =>
            rw [hside] at hf
            have hne : f.sibling.ref ≠ some x := by
              intro hsx
              apply hx
              have hmem := PtrTree.mem_refs_of_ref hsx
              exact List.mem_cons_of_mem _ (List.mem_append_left _ hmem)
            simp [Mem.relink, hf, cellAt, Cell.setChild, hne]
      · exact hother b (List.mem_append_left _ hb)
      · exact hother b (List.mem_append_right _ hb)

theorem relink_root (m : Mem δ) {root : Option Ref} {p : TreePath δ} {t u : PtrTree δ} {x y : Ref}
    (h : root = (plug p t).ref) (hu : u.ref = some y) :
    (m.relink root (top p) x y).2 = (plug p u).ref := by
  cases p with
  | nil => exact hu.symm
  | cons f p =>
      have hsame : (plug (f :: p) t).ref = (plug (f :: p) u).ref := by
        apply ref_plug (p := p)
        rw [Frame.fill, Frame.fill, PtrTree.ref_nodeAt, PtrTree.ref_nodeAt]
      simp only [Mem.relink, top]
      split
      · exact h.trans hsame
      · exact h.trans hsame

section Rehang

variable {m : Mem δ} {s : Side} {x y : Ref} {dx dy : δ} {lo c ro par : Option Ref}

theorem rehang_eq (hxy : x ≠ y) (hmx : m x = cellAt s dx lo (some y) par)
    (hmy : m y = cellAt s dy c ro (some x)) (hcx : c ≠ some x) :
    m.rehang s x y = ((m.setChild s.flip x c).adopt c (some x)).setParent y par := by
  have h₁y : (m.setChild s.flip x c) y = cellAt s dy c ro (some x) := by
    rw [Mem.setChild_of_ne _ (Ne.symm hxy), hmy]
  have h₂x : ((m.setChild s.flip x c).adopt c (some x)) x = cellAt s dx lo c par := by
    rw [Mem.adopt_of_ne _ hcx, Mem.setChild_self, hmx, setChild_flip_cellAt]
  simp only [Mem.rehang, hmy, child_cellAt, h₁y, h₂x, parent_cellAt]

/-- The cells of `x` and `y`, and the cells that stay. -/
theorem rehang_cells (hxy : x ≠ y) (hmx : m x = cellAt s dx lo (some y) par)
    (hmy : m y = cellAt s dy c ro (some x)) (hcx : c ≠ some x) (hcy : c ≠ some y) :
    m.rehang s x y x = cellAt s dx lo c par ∧ m.rehang s x y y = cellAt s dy c ro par ∧
      ∀ b, b ≠ x → b ≠ y → c ≠ some b → m.rehang s x y b = m b := by
  rw [rehang_eq hxy hmx hmy hcx]
  refine ⟨?_, ?_, fun b hbx hby hbc => ?_⟩
  · rw [Mem.setParent_of_ne _ hxy, Mem.adopt_of_ne _ hcx, Mem.setChild_self, hmx,
      setChild_flip_cellAt]
  · rw [Mem.setParent_self, Mem.adopt_of_ne _ hcy, Mem.setChild_of_ne _ (Ne.symm hxy), hmy,
      setParent_cellAt]
  · rw [Mem.setParent_of_ne _ hby, Mem.adopt_of_ne _ hbc, Mem.setChild_of_ne _ hbx]

/-- The middle subtree below its new parent. -/
theorem holds_rehang {mid : PtrTree δ} (hxy : x ≠ y) (hmx : m x = cellAt s dx lo (some y) par)
    (hmy : m y = cellAt s dy mid.ref ro (some x)) (hmid : m.Holds (some y) mid)
    (hnodup : mid.refs.Nodup) (hx : x ∉ mid.refs) (hy : y ∉ mid.refs) :
    (m.rehang s x y).Holds (some x) mid := by
  have hcx : mid.ref ≠ some x := fun h => hx (PtrTree.mem_refs_of_ref h)
  rw [rehang_eq hxy hmx hmy hcx]
  have h₁ : (m.setChild s.flip x mid.ref).Holds (some y) mid := by
    refine hmid.congr fun b hb => Mem.setChild_of_ne _ ?_ _ _
    rintro rfl
    exact hx hb
  refine (h₁.adopt hnodup (some x)).congr fun b hb => Mem.setParent_of_ne _ ?_ _
  rintro rfl
  exact hy hb

end Rehang

/-- The nodes of the rotated tree, the two rotated ones first. -/
theorem refs_rotate (s : Side) (x y : Ref) (dx dy : δ) (l mid r : PtrTree δ) :
    (PtrTree.nodeAt s x dx l (.nodeAt s y dy mid r)).refs.Perm
      (x :: y :: (l.refs ++ (mid.refs ++ r.refs))) := by
  refine (PtrTree.refs_nodeAt s x dx l _).trans (List.Perm.cons x ?_)
  exact ((PtrTree.refs_nodeAt s y dy mid r).append_left _).trans List.perm_middle

theorem refs_rotate' (s : Side) (x y : Ref) (dx dy : δ) (l mid r : PtrTree δ) :
    (PtrTree.nodeAt s y dy (.nodeAt s x dx l mid) r).refs.Perm
      (x :: y :: (l.refs ++ (mid.refs ++ r.refs))) := by
  refine (PtrTree.refs_nodeAt s y dy _ r).trans ?_
  refine (((PtrTree.refs_nodeAt s x dx l mid).append_right _).cons y).trans ?_
  rw [List.cons_append, List.append_assoc]
  exact List.Perm.swap x y _

/-- The groups of nodes around a rotation of `x` and `y` are apart: the outer subtrees, the
middle one and the path. -/
structure Apart (x y : Ref) (l mid r p : List Ref) : Prop where
  ne : x ≠ y
  other : ∀ b ∈ l ++ (mid ++ r) ++ p, b ≠ x ∧ b ≠ y
  mid_nodup : mid.Nodup
  path_nodup : p.Nodup
  below : ∀ b ∈ l ++ (mid ++ r), b ∉ p
  outer : ∀ b ∈ l ++ r, b ∉ mid

theorem apart_of_nodup {x y : Ref} {l mid r p : List Ref}
    (h : (x :: y :: (l ++ (mid ++ r) ++ p)).Nodup) : Apart x y l mid r p := by
  obtain ⟨hx, hrest⟩ := List.nodup_cons.1 h
  obtain ⟨hy, hrest⟩ := List.nodup_cons.1 hrest
  obtain ⟨hbelow, hpath, hdisjoint⟩ := List.nodup_append.1 hrest
  obtain ⟨-, hinner, hlmid⟩ := List.nodup_append.1 hbelow
  obtain ⟨hmid, -, hmidr⟩ := List.nodup_append.1 hinner
  refine ⟨fun hxy => hx (hxy ▸ List.mem_cons_self), fun b hb => ⟨?_, ?_⟩, hmid, hpath,
    fun b hb hbp => hdisjoint b hb b hbp rfl, fun b hb hbmid => ?_⟩
  · rintro rfl
    exact hx (List.mem_cons_of_mem _ hb)
  · rintro rfl
    exact hy hb
  · rcases List.mem_append.1 hb with hb | hb
    · exact hlmid b hb b (List.mem_append_left _ hbmid) rfl
    · exact hmidr b hbmid b hb rfl

/-- What a rotation does to the tree. -/
theorem at_rotate {m : Mem δ} {root : Option Ref} {p : TreePath δ} {s : Side} {x y : Ref}
    {dx dy : δ} {l mid r : PtrTree δ}
    (h : m.At root p (.nodeAt s x dx l (.nodeAt s y dy mid r))) :
    (m.rotate root s x y).1.At (m.rotate root s x y).2 p
      (.nodeAt s y dy (.nodeAt s x dx l mid) r) := by
  obtain ⟨hp, ht, hnodup, hroot⟩ := h
  obtain ⟨hmx, hl, hty⟩ := holds_nodeAt.1 ht
  obtain ⟨hmy, hmid, hr⟩ := holds_nodeAt.1 hty
  rw [PtrTree.ref_nodeAt] at hmx hp
  have hnodup' := ((refs_rotate s x y dx dy l mid r).append_right (pathRefs p)).nodup_iff.1 hnodup
  obtain ⟨hxy, hother, hmidnodup, hpathnodup, hdisjoint, hmiddle⟩ := apart_of_nodup hnodup'
  have hxmid : x ∉ mid.refs := fun hmid => (hother x (by simp [hmid])).1 rfl
  have hymid : y ∉ mid.refs := fun hmid => (hother y (by simp [hmid])).2 rfl
  have hxp : x ∉ pathRefs p := fun hxp => (hother x (by simp [hxp])).1 rfl
  have hyp : y ∉ pathRefs p := fun hyp => (hother y (by simp [hyp])).2 rfl
  have hmidref : ∀ b, b ∉ mid.refs → mid.ref ≠ some b :=
    fun b hb href => hb (PtrTree.mem_refs_of_ref href)
  have htop : ∀ b, b ∉ pathRefs p → top p ≠ some b :=
    fun b hb htop => hb (mem_pathRefs_of_top htop)
  -- The memory before `y` is linked to the path.
  obtain ⟨h₁x, h₁y, h₁⟩ :=
    rehang_cells hxy hmx hmy (hmidref x hxmid) (hmidref y hymid)
  have h₁mid := holds_rehang hxy hmx hmy hmid hmidnodup hxmid hymid
  unfold Mem.rotate
  simp only [h₁x, parent_cellAt]
  generalize m.rehang s x y = m₁ at h₁x h₁y h₁ h₁mid
  have h₁path : m₁.HoldsPath p (some x) := by
    refine hp.congr fun b hb => ?_
    have hbne := hother b (List.mem_append_right _ hb)
    exact h₁ b hbne.1 hbne.2 (hmidref b fun hbmid => hdisjoint b (by simp [hbmid]) hb)
  have h₂path := holdsPath_relink root y h₁path hpathnodup hxp
  have h₂ : ∀ b, top p ≠ some b → (m₁.relink root (top p) x y).1 b = m₁ b :=
    fun b hb => relink_of_ne m₁ root hb x y
  have h₂root := relink_root (u := .nodeAt s y dy (.nodeAt s x dx l mid) r) m₁ (x := x) hroot
    (PtrTree.ref_nodeAt ..)
  generalize m₁.relink root (top p) x y = linked at h₂path h₂ h₂root ⊢
  generalize hm₃ : (linked.1.setChild s y (some x)).setParent x (some y) = m₃
  have h₃ : ∀ b, b ≠ x → b ≠ y → m₃ b = linked.1 b := fun b hbx hby => by
    rw [← hm₃, Mem.setParent_of_ne _ hbx, Mem.setChild_of_ne _ hby]
  have h₃x : m₃ x = cellAt s dx l.ref mid.ref (some y) := by
    rw [← hm₃, Mem.setParent_self, Mem.setChild_of_ne _ hxy, h₂ x (htop x hxp), h₁x,
      setParent_cellAt]
  have h₃y : m₃ y = cellAt s dy (some x) r.ref (top p) := by
    rw [← hm₃, Mem.setParent_of_ne _ (Ne.symm hxy), Mem.setChild_self, h₂ y (htop y hyp), h₁y,
      setChild_cellAt]
  -- The subtrees are below the path, so linking has not touched them.
  have hbelow : ∀ b ∈ l.refs ++ (mid.refs ++ r.refs), m₃ b = m₁ b := by
    intro b hb
    have hbne := hother b (List.mem_append_left _ hb)
    rw [h₃ b hbne.1 hbne.2, h₂ b (htop b (hdisjoint b hb))]
  have houter : ∀ b ∈ l.refs ++ r.refs, m₃ b = m b := by
    intro b hb
    have hb' : b ∈ l.refs ++ (mid.refs ++ r.refs) := by
      rcases List.mem_append.1 hb with hb | hb <;> simp [hb]
    have hbne := hother b (List.mem_append_left _ hb')
    rw [hbelow b hb', h₁ b hbne.1 hbne.2 (hmidref b (hmiddle b hb))]
  refine ⟨?_, holds_nodeAt.2 ⟨?_, holds_nodeAt.2 ⟨h₃x, ?_, ?_⟩, ?_⟩, ?_, h₂root⟩
  · rw [PtrTree.ref_nodeAt]
    refine h₂path.congr fun b hb => ?_
    have hbne := hother b (List.mem_append_right _ hb)
    exact h₃ b hbne.1 hbne.2
  · rw [PtrTree.ref_nodeAt]
    exact h₃y
  · exact hl.congr fun b hb => houter b (List.mem_append_left _ hb)
  · exact h₁mid.congr fun b hb => hbelow b (by simp [hb])
  · exact hr.congr fun b hb => houter b (List.mem_append_right _ hb)
  · exact ((refs_rotate' s x y dx dy l mid r).append_right (pathRefs p)).nodup_iff.2 hnodup'

end CLib
