import Leetcode.Lib.Inorder

/-!
# What a rotation keeps

A rotation changes links, and the program that does it brings two stored sizes up to date, where
the type of the sizes has room for them.

* `rotate_of_notMem`, `data_rotate` — the cells outside of the tree and the payloads of all cells.
* `Mem.At.eq_of_at` — two memories with the same tree are the same, if they agree outside of it.
* `Mem.turn` — the rotation with the sizes; `turn_turned` says what it keeps, and `turn_turn` that
  the mirror image undoes it.
-/

namespace CLib

variable {δ α : Type*} {m m' : Mem δ} {root root' : Option Ref} {p : TreePath δ} {s : Side}
  {x y b : Ref} {dx dy : δ} {t l mid r : PtrTree δ}

/-! ## The nodes in order -/

/-- The nodes in the order of the tree. -/
def PtrTree.nodes : PtrTree δ → List Ref
  | .nil => []
  | .node a _ l r => l.nodes ++ a :: r.nodes

theorem nodes_plug_congr {t u : PtrTree δ} (h : t.nodes = u.nodes) :
    (plug p t).nodes = (plug p u).nodes := by
  induction p generalizing t u with
  | nil => exact h
  | cons f p ih =>
      apply ih
      unfold Frame.fill PtrTree.nodeAt
      cases f.side <;> simp [PtrTree.nodes, h]

theorem nodes_rotate (s : Side) (x y : Ref) (dx dy dx' dy' : δ) (l mid r : PtrTree δ) :
    (PtrTree.nodeAt s y dy' (.nodeAt s x dx' l mid) r).nodes =
      (PtrTree.nodeAt s x dx l (.nodeAt s y dy mid r)).nodes := by
  cases s <;> simp [PtrTree.nodeAt, PtrTree.nodes]

/-! ## Finding a node -/

theorem exists_plug (hx : x ∈ t.refs) (p : TreePath δ) :
    ∃ q d l r, plug q (.node x d l r) = plug p t := by
  induction t generalizing p with
  | nil => cases hx
  | node a d l r ihl ihr =>
      rw [PtrTree.refs, List.mem_cons, List.mem_append] at hx
      rcases hx with rfl | hx | hx
      · exact ⟨p, d, l, r, rfl⟩
      · exact ihl hx (⟨a, d, .left, r⟩ :: p)
      · exact ihr hx (⟨a, d, .right, l⟩ :: p)

/-- A node of the tree and its child on one side, seen from the node. -/
theorem Mem.At.exists_at (h : m.At root [] t) (hx : x ∈ t.refs)
    (hy : (m x).child s.flip = some y) :
    ∃ p dx dy l mid r, t = plug p (.nodeAt s x dx l (.nodeAt s y dy mid r)) ∧
      m.At root p (.nodeAt s x dx l (.nodeAt s y dy mid r)) := by
  obtain ⟨p, dx, lo, hi, hplug⟩ := exists_plug hx []
  rw [PtrTree.node_eq_nodeAt s] at hplug
  rw [plug] at hplug
  have hat : m.At root p (.nodeAt s x dx (s.pick lo hi) (s.flip.pick lo hi)) :=
    at_plug.2 (hplug ▸ h)
  have hchild : (s.flip.pick lo hi).ref = some y := by
    rw [← hy, hat.cell]
    cases s <;> rfl
  cases hu : s.flip.pick lo hi with
  | nil =>
      rw [hu] at hchild
      cases hchild
  | node a dy mid r =>
      rw [hu, PtrTree.node_eq_nodeAt s] at hplug hat
      rw [hu] at hchild
      cases hchild
      exact ⟨p, dx, dy, _, _, _, hplug.symm, hat⟩

/-! ## The other cells and the payloads -/

theorem data_setChild (m : Mem δ) (s : Side) (a : Ref) (c : Option Ref) (b : Ref) :
    ((m.setChild s a c) b).data = (m b).data := by
  by_cases hb : b = a
  · rw [hb, Mem.setChild_self]
    cases s <;> rfl
  · rw [Mem.setChild_of_ne m hb]

theorem data_setParent (m : Mem δ) (a : Ref) (q : Option Ref) (b : Ref) :
    ((m.setParent a q) b).data = (m b).data := by
  by_cases hb : b = a
  · rw [hb, Mem.setParent_self]
  · rw [Mem.setParent_of_ne m hb]

theorem data_adopt (m : Mem δ) (c q : Option Ref) (b : Ref) :
    ((m.adopt c q) b).data = (m b).data := by
  cases c with
  | none => rfl
  | some c => exact data_setParent m c q b

theorem data_relink (m : Mem δ) (root par : Option Ref) (x y b : Ref) :
    ((m.relink root par x y).1 b).data = (m b).data := by
  cases par with
  | none => rfl
  | some q =>
      simp only [Mem.relink]
      split
      · exact data_setChild m .left q (some y) b
      · exact data_setChild m .right q (some y) b

/-- A rotation is about links only. -/
theorem data_rotate (m : Mem δ) (root : Option Ref) (s : Side) (x y b : Ref) :
    ((m.rotate root s x y).1 b).data = (m b).data := by
  rw [Mem.rotate, data_setParent, data_setChild, data_relink, Mem.rehang, data_setParent,
    data_adopt, data_setChild]

theorem rotate_of_notMem (h : m.At root p (.nodeAt s x dx l (.nodeAt s y dy mid r)))
    (hb : b ∉ (plug p (.nodeAt s x dx l (.nodeAt s y dy mid r))).refs) :
    (m.rotate root s x y).1 b = m b := by
  obtain ⟨-, ht, hnodup, -⟩ := h
  obtain ⟨hmx, -, hty⟩ := holds_nodeAt.1 ht
  obtain ⟨hmy, -, -⟩ := holds_nodeAt.1 hty
  rw [PtrTree.ref_nodeAt] at hmx
  have hapart := apart_of_nodup
    (((refs_rotate s x y dx dy l mid r).append_right (pathRefs p)).nodup_iff.1 hnodup)
  have hmid : ∀ c, c ∉ mid.refs → mid.ref ≠ some c :=
    fun c hc href => hc (PtrTree.mem_refs_of_ref href)
  have hcx := hmid x fun hmem => (hapart.other x (by simp [hmem])).1 rfl
  have hcy := hmid y fun hmem => (hapart.other y (by simp [hmem])).2 rfl
  -- What a rotation writes to is in the tree.
  simp only [mem_refs_plug, PtrTree.mem_refs_nodeAt, not_or] at hb
  obtain ⟨⟨hbx, -, hby, hbmid, -⟩, hbp⟩ := hb
  have htop : top p ≠ some b := fun htop => hbp (mem_pathRefs_of_top htop)
  obtain ⟨hcell, -, hsame⟩ := rehang_cells hapart.ne hmx hmy hcx hcy
  unfold Mem.rotate
  simp only [hcell, parent_cellAt]
  rw [Mem.setParent_of_ne _ hbx, Mem.setChild_of_ne _ hby, relink_of_ne _ _ htop,
    hsame b hbx hby (hmid b hbmid)]

/-! ## The same tree in two memories -/

theorem Mem.Holds.cell_eq {par : Option Ref} (h : m.Holds par t) (h' : m'.Holds par t) :
    ∀ b ∈ t.refs, m' b = m b := by
  induction t generalizing par with
  | nil => simp [PtrTree.refs]
  | node a d l r ihl ihr =>
      intro b hb
      rw [PtrTree.refs, List.mem_cons, List.mem_append] at hb
      rcases hb with rfl | hb | hb
      · exact h'.1.trans h.1.symm
      · exact ihl h.2.1 h'.2.1 b hb
      · exact ihr h.2.2 h'.2.2 b hb

/-- A memory is given by the tree in it and by its other cells. -/
theorem Mem.At.eq_of_at (h : m.At root p t) (h' : m'.At root' p t)
    (hother : ∀ b, b ∉ (plug p t).refs → m' b = m b) : m' = m ∧ root' = root := by
  refine ⟨?_, h'.root_eq.trans h.root_eq.symm⟩
  have hcells : ∀ b, m' b = m b := by
    intro b
    by_cases hb : b ∈ (plug p t).refs
    · exact (at_plug.1 h).tree.cell_eq (at_plug.1 h').tree b hb
    · exact hother b hb
  cases m
  cases m'
  exact congrArg Mem.mk (funext hcells)

/-! ## Rotations with sizes -/

/-- The rotation, and then `upd` at the node that has gone down and at the one that has gone up. -/
def Mem.turn (upd : Mem δ → Ref → Option (Mem δ)) (m : Mem δ) (root : Option Ref) (s : Side)
    (x y : Ref) : Option (Mem δ × Option Ref) :=
  let turned := m.rotate root s x y
  (upd turned.1 x).bind fun m => (upd m y).map fun m => (m, turned.2)

/-- `upd` brings the stored size of a node up to date and does nothing else, if some payload stores
as large a size; a payload is the size together with what `keep` reads off. -/
structure Resizes (size : δ → ℕ) (keep : δ → α) (upd : Mem δ → Ref → Option (Mem δ)) : Prop where
  at_upd : ∀ {m : Mem δ} {root p s a d t u e}, m.At root p (.nodeAt s a d t u) → t.Sized size →
    u.Sized size → t.count + u.count + 1 ≤ size e →
      ∃ m' d', upd m a = some m' ∧ m'.At root p (.nodeAt s a d' t u) ∧
        size d' = t.count + u.count + 1 ∧ keep d' = keep d
  other : ∀ {m m' : Mem δ} {a b}, upd m a = some m' → b ≠ a → m' b = m b
  keep_eq : ∀ {m m' : Mem δ} {a}, upd m a = some m' → ∀ b, keep (m' b).data = keep (m b).data
  ext : ∀ {d d'}, 0 < size d → size d = size d' → keep d = keep d' → d = d'

/-- What a rotation that makes `y` the parent of `x` leaves of the tree `t`. -/
structure Turned (size : δ → ℕ) (keep : δ → α) (x y : Ref) (t : PtrTree δ) (m : Mem δ)
    (root : Option Ref) (m' : Mem δ) (root' : Option Ref) : Prop where
  tree : ∃ t', m'.At root' [] t' ∧ t'.nodes = t.nodes ∧ t'.inorder keep = t.inorder keep ∧
    t'.Sized size
  keep_eq : ∀ a, keep (m' a).data = keep (m a).data
  root_eq : root' = if root = some x then some y else root

/-- The root is another one just when the rotation is at the root. -/
theorem root_of_at (h : m.At root p (.nodeAt s x dx l (.nodeAt s y dy mid r))) {dx' dy' : δ}
    (h' : m'.At root' p (.nodeAt s y dy' (.nodeAt s x dx' l mid) r)) :
    root' = if root = some x then some y else root := by
  cases p with
  | nil =>
      have hroot := h.root_eq
      have hroot' := h'.root_eq
      rw [plug, PtrTree.ref_nodeAt] at hroot hroot'
      rw [hroot, hroot', if_pos rfl]
  | cons f p =>
      have hne : root ≠ some x := h.root_ne (PtrTree.ref_nodeAt ..)
      rw [if_neg hne, h.root_eq, h'.root_eq, plug, plug]
      apply ref_plug
      rw [Frame.fill, Frame.fill, PtrTree.ref_nodeAt, PtrTree.ref_nodeAt]

section Turn

variable {size : δ → ℕ} {keep : δ → α} {upd : Mem δ → Ref → Option (Mem δ)} {d₀ : δ}

theorem turn_cases (h : m.turn upd root s x y = some (m', root')) :
    ∃ m₁, upd (m.rotate root s x y).1 x = some m₁ ∧ upd m₁ y = some m' := by
  obtain ⟨m₁, hx, h⟩ := Option.bind_eq_some_iff.1 h
  obtain ⟨m₂, hy, h⟩ := Option.map_eq_some_iff.1 h
  cases h
  exact ⟨m₁, hx, hy⟩

/-- The tree and the two sizes. -/
theorem turn_at (hupd : Resizes size keep upd)
    (h : m.At root p (.nodeAt s x dx l (.nodeAt s y dy mid r)))
    (hl : l.Sized size) (hmid : mid.Sized size) (hr : r.Sized size)
    (hfit : l.count + mid.count + 1 + r.count + 1 ≤ size d₀) :
    ∃ m' root' dx' dy', m.turn upd root s x y = some (m', root') ∧
      m'.At root' p (.nodeAt s y dy' (.nodeAt s x dx' l mid) r) ∧
      size dx' = l.count + mid.count + 1 ∧ size dy' = l.count + mid.count + 1 + r.count + 1 ∧
      keep dx' = keep dx ∧ keep dy' = keep dy := by
  obtain ⟨m₁, dx', hupdx, hx, hsizex, hkeepx⟩ :=
    hupd.at_upd (e := d₀) ((at_child s).1 (at_rotate h)) hl hmid (by omega)
  have hlow : (PtrTree.nodeAt s x dx' l mid).Sized size := sized_nodeAt.2 ⟨hsizex, hl, hmid⟩
  have hcount := count_nodeAt s x dx' l mid
  obtain ⟨m₂, dy', hupdy, hy, hsizey, hkeepy⟩ :=
    hupd.at_upd (e := d₀) ((at_child s).2 hx) hlow hr (by omega)
  rw [hcount] at hsizey
  refine ⟨m₂, _, dx', dy', ?_, hy, hsizex, hsizey, hkeepx, hkeepy⟩
  rw [Mem.turn, hupdx, Option.bind_some, hupdy, Option.map_some]

theorem turn_of_notMem (hupd : Resizes size keep upd)
    (hturn : m.turn upd root s x y = some (m', root'))
    (h : m.At root p (.nodeAt s x dx l (.nodeAt s y dy mid r)))
    (hb : b ∉ (plug p (.nodeAt s x dx l (.nodeAt s y dy mid r))).refs) : m' b = m b := by
  have hne : b ≠ x ∧ b ≠ y := by
    simp only [mem_refs_plug, PtrTree.mem_refs_nodeAt, not_or] at hb
    exact ⟨hb.1.1, hb.1.2.2.1⟩
  obtain ⟨m₁, hx, hy⟩ := turn_cases hturn
  rw [hupd.other hy hne.2, hupd.other hx hne.1, rotate_of_notMem h hb]

/-- The sizes above a rotation are right as they are. -/
theorem turn_turned (hupd : Resizes size keep upd)
    (h : m.At root p (.nodeAt s x dx l (.nodeAt s y dy mid r)))
    (hsized : (plug p (.nodeAt s x dx l (.nodeAt s y dy mid r))).Sized size)
    (hturn : m.turn upd root s x y = some (m', root')) :
    Turned size keep x y (plug p (.nodeAt s x dx l (.nodeAt s y dy mid r))) m root m' root' := by
  obtain ⟨hlow, hpath⟩ := sized_plug.1 hsized
  obtain ⟨hsizex, hl, hlow⟩ := sized_nodeAt.1 hlow
  obtain ⟨-, hmid, hr⟩ := sized_nodeAt.1 hlow
  rw [count_nodeAt] at hsizex
  obtain ⟨_, _, dx', dy', heq, h', hx, hy, hkeepx, hkeepy⟩ :=
    turn_at hupd h hl hmid hr (hsizex.ge.trans' (by omega))
  obtain ⟨rfl, rfl⟩ := Prod.mk.inj (Option.some.inj (heq.symm.trans hturn))
  have hinner : (PtrTree.nodeAt s x dx' l mid).inorder keep =
      (PtrTree.nodeAt s x dx l mid).inorder keep := inorder_nodeAt_congr hkeepx rfl rfl
  have hinorder := (inorder_nodeAt_congr (s := s) (a := y) (u := r) hkeepy hinner rfl).trans
    (inorder_rotate s x y dx dy l mid r)
  refine ⟨⟨_, at_plug.1 h', nodes_plug_congr (nodes_rotate ..), inorder_plug_congr hinorder,
    sized_plug.2 ⟨sized_nodeAt.2 ⟨?_, sized_nodeAt.2 ⟨hx, hl, hmid⟩, hr⟩, ?_⟩⟩, fun a => ?_,
    root_of_at h h'⟩
  · rw [hy, count_nodeAt]
  · have hcount : l.count + mid.count + 1 + r.count + 1 =
        l.count + (mid.count + r.count + 1) + 1 := by omega
    rw [count_nodeAt, count_nodeAt] at hpath ⊢
    rwa [hcount]
  · obtain ⟨m₁, hupdx, hupdy⟩ := turn_cases hturn
    rw [hupd.keep_eq hupdy, hupd.keep_eq hupdx, data_rotate]

/-- The rotation back restores every cell. -/
theorem turn_turn (hupd : Resizes size keep upd)
    (h : m.At root p (.nodeAt s x dx l (.nodeAt s y dy mid r)))
    (hsized : (plug p (.nodeAt s x dx l (.nodeAt s y dy mid r))).Sized size)
    (hturn : m.turn upd root s x y = some (m', root')) :
    m'.turn upd root' s.flip y x = some (m, root) := by
  obtain ⟨hlow, -⟩ := sized_plug.1 hsized
  obtain ⟨hsizex, hl, hlow⟩ := sized_nodeAt.1 hlow
  obtain ⟨hsizey, hmid, hr⟩ := sized_nodeAt.1 hlow
  rw [count_nodeAt] at hsizex
  obtain ⟨_, _, dx', dy', heq, h', -, -, hkeepx, hkeepy⟩ :=
    turn_at hupd h hl hmid hr (hsizex.ge.trans' (by omega))
  obtain ⟨rfl, rfl⟩ := Prod.mk.inj (Option.some.inj (heq.symm.trans hturn))
  -- Seen from the other side, the new tree is one to be turned back.
  have hflip := h'
  rw [← PtrTree.nodeAt_flip s y, ← PtrTree.nodeAt_flip s x] at hflip
  obtain ⟨_, _, dy'', dx'', hback, h'', hsizey'', hsizex'', hkeepy'', hkeepx''⟩ :=
    turn_at hupd hflip hr hmid hl (hsizex.ge.trans' (by omega))
  obtain rfl : dx = dx'' :=
    hupd.ext (by omega) (by omega) (hkeepx''.trans hkeepx).symm
  obtain rfl : dy = dy'' :=
    hupd.ext (by omega) (by omega) (hkeepy''.trans hkeepy).symm
  rw [PtrTree.nodeAt_flip, PtrTree.nodeAt_flip] at h''
  obtain ⟨rfl, rfl⟩ := h.eq_of_at h'' fun b hb => by
    rw [turn_of_notMem hupd hback hflip ?_, turn_of_notMem hupd hturn h hb]
    simp only [mem_refs_plug, PtrTree.mem_refs_nodeAt] at hb ⊢
    tauto
  exact hback

/-- Both rotations at a node of a whole tree, with the link by which the second one finds `x`. -/
theorem turn_undone (hupd : Resizes size keep upd) (h : m.At root [] t) (hsized : t.Sized size)
    (hx : x ∈ t.refs) (hy : (m x).child s.flip = some y) :
    ∃ m' root', m.turn upd root s x y = some (m', root') ∧
      Turned size keep x y t m root m' root' ∧ (m' y).child s = some x ∧
      m'.turn upd root' s.flip y x = some (m, root) := by
  obtain ⟨p, dx, dy, l, mid, r, rfl, hat⟩ := h.exists_at hx hy
  obtain ⟨hlow, -⟩ := sized_plug.1 hsized
  obtain ⟨hsizex, hl, hlow⟩ := sized_nodeAt.1 hlow
  obtain ⟨-, hmid, hr⟩ := sized_nodeAt.1 hlow
  rw [count_nodeAt] at hsizex
  obtain ⟨m', root', dx', dy', hturn, h', -⟩ :=
    turn_at hupd hat hl hmid hr (hsizex.ge.trans' (by omega))
  refine ⟨m', root', hturn, turn_turned hupd hat hsized hturn, ?_, turn_turn hupd hat hsized hturn⟩
  rw [h'.cell, child_cellAt, PtrTree.ref_nodeAt]

end Turn

/-- In a tree with right sizes, `turn` at a node with a child on the side `s` does what a rotation
does, and `back` at the child undoes it. -/
def Undone {H : Type*} (mem : H → Mem δ) (root : H → Option Ref) (size : δ → ℕ) (keep : δ → α)
    (turn back : H → Ref → Option H) (s : Side) : Prop :=
  ∀ (h : H) (t : PtrTree δ) (x y : Ref), (mem h).At (root h) [] t → t.Sized size → x ∈ t.refs →
    ((mem h) x).child s = some y →
      ∃ h', turn h x = some h' ∧ Turned size keep x y t (mem h) (root h) (mem h') (root h') ∧
        back h' y = some h

end CLib
