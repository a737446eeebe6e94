import Mathlib.Data.List.Sort
import Leetcode.Lib.Rank
import Leetcode.Lib.Run
import Leetcode.MedianFinder.Refine

/-!
# `insertRBT`

`place` is the search loop on trees: the path to the missing child where the value
belongs, with every node on it counting one more.  `insertTree` puts a red node there
and repairs the tree with `fixUp`.

* `Shows` — the heap holds a red-black tree with a sorted in-order sequence and right
  sizes.
* `insertRBT_ok` — `insertRBT` ends, and adds its value to what the heap shows, as long as the
  number of nodes stays an `int`.
* `addNum_run` — so does every sequence of additions; `addNum_runs_iff` says how many there can
  be.
-/

namespace Leetcode
namespace MedianFinder

open CLib

/-! ## On trees -/

/-- `size++`. -/
def Data.grow (d : Data) : Data := { d with size := d.size + 1 }

/-- The path to the place of `val` below `p`. -/
def place (val : Int) : PtrTree Data → TreePath Data → TreePath Data
  | .nil, p => p
  | .node a d l r, p =>
      if val < d.val then place val l (⟨a, d.grow, .left, r⟩ :: p)
      else place val r (⟨a, d.grow, .right, l⟩ :: p)

/-- The fields of a new node. -/
def newData (val : Int) : Data := ⟨val, .RED, 1⟩

def insertTree (z : Ref) (val : Int) (t : PtrTree Data) : PtrTree Data :=
  (fixUp (place val t []) (.leaf z (newData val))).mapRoot (Data.paint .BLACK)

theorem pathRefs_place (val : Int) (t : PtrTree Data) (p : TreePath Data) :
    (pathRefs (place val t p)).Perm (t.refs ++ pathRefs p) := by
  fun_induction place val t p with
  | case1 p => exact .refl _
  | case2 a d l r p hlt ih => exact ih.trans (refs_fill ⟨a, d.grow, .left, r⟩ p l)
  | case3 a d l r p hlt ih =>
      refine ih.trans ((refs_fill ⟨a, d.grow, .right, l⟩ p r).trans ?_)
      exact ((PtrTree.refs_nodeAt .right a d.grow r l).trans
        (PtrTree.refs_nodeAt .right a d r l).symm).append_right _

/-- The new node goes to the side that `insertRBT` compares for. -/
theorem place_side {val : Int} {t : PtrTree Data} {p : TreePath Data}
    (hp : ∀ f ∈ p.head?, f.side = if val < f.data.val then .left else .right) :
    ∀ f ∈ (place val t p).head?, f.side = if val < f.data.val then .left else .right := by
  fun_induction place val t p with
  | case1 p => exact hp
  | case2 a d l r p hlt ih =>
      apply ih
      rintro f ⟨⟩
      exact (if_pos hlt).symm
  | case3 a d l r p hlt ih =>
      apply ih
      rintro f ⟨⟩
      exact (if_neg hlt).symm

theorem rootBlack_cons {f : Frame Data} {p : TreePath Data} (hp : RootBlack p)
    (hf : p = [] → f.data.isRed = false) : RootBlack (f :: p) := by
  cases p with
  | nil => exact hf rfl
  | cons g p => exact hp

theorem rootBlack_place {val : Int} {t : PtrTree Data} {p : TreePath Data} (hp : RootBlack p)
    (ht : p = [] → t.rootRed Data.isRed = false) : RootBlack (place val t p) := by
  fun_induction place val t p with
  | case1 p => exact hp
  | case2 a d l r p hlt ih => exact ih (rootBlack_cons hp ht) (fun h => by cases h)
  | case3 a d l r p hlt ih => exact ih (rootBlack_cons hp ht) (fun h => by cases h)

/-- The path fits a missing child. -/
theorem fits_place {val : Int} {t : PtrTree Data} {p : TreePath Data} {n : ℕ} (ht : Bal t n)
    (hp : Fits Data.isRed p n) (htop : topRed Data.isRed p = true → t.rootRed Data.isRed = false) :
    Fits Data.isRed (place val t p) 0 := by
  fun_induction place val t p generalizing n with
  | case1 p =>
      obtain rfl := blackHeight_nil.1 ht.black_height
      exact hp
  | case2 a d l r p hlt ih =>
      obtain ⟨hred, k, hl, hr, rfl⟩ := balanced_node.1 ht
      refine ih hl ⟨hr, fun hd => ⟨(hred hd).2, ?_⟩, hp⟩ fun hd => (hred hd).1
      exact Bool.eq_false_iff.2 fun h => Bool.eq_false_iff.1 (htop h) hd
  | case3 a d l r p hlt ih =>
      obtain ⟨hred, k, hl, hr, rfl⟩ := balanced_node.1 ht
      refine ih hr ⟨hl, fun hd => ⟨(hred hd).1, ?_⟩, hp⟩ fun hd => (hred hd).2
      exact Bool.eq_false_iff.2 fun h => Bool.eq_false_iff.1 (htop h) hd

/-- A node that counts `n + 1` nodes can count one more. -/
theorem Data.grow_ok {d : Data} {n : ℕ} (h : d.nodes = n + 1) (hroom : n + 2 < 2 ^ 31) :
    addInt d.size 1 = some d.grow.size ∧ d.grow.nodes = n + 1 + 1 := by
  have hsize := Data.toInt_size h
  have hfit : FitsInt (d.size.toInt + Int32.toInt 1) := by
    rw [hsize, Int32.toInt_one]
    constructor <;> omega
  refine ⟨addInt_ok hfit, ?_⟩
  rw [Data.nodes, Data.grow, toInt_add hfit, hsize, Int32.toInt_one]
  omega

/-- Every node on the path counts the new one. -/
theorem sizedPath_place {val : Int} {t : PtrTree Data} {p : TreePath Data}
    (ht : t.Sized Data.nodes) (hroom : t.count + 1 < 2 ^ 31)
    (hp : SizedPath Data.nodes p (t.count + 1)) : SizedPath Data.nodes (place val t p) 1 := by
  fun_induction place val t p with
  | case1 p => exact hp
  | case2 a d l r p hlt ih =>
      obtain ⟨hsize, hl, hr⟩ := ht
      have hcount : l.count + 1 + r.count + 1 = l.count + r.count + 1 + 1 := by omega
      simp only [PtrTree.count] at hroom
      refine ih hl (by omega) ⟨?_, hr, ?_⟩
      · rw [hcount]
        exact (Data.grow_ok hsize hroom).2
      · simp only [hcount]
        exact hp
  | case3 a d l r p hlt ih =>
      obtain ⟨hsize, hl, hr⟩ := ht
      have hcount : r.count + 1 + l.count + 1 = l.count + r.count + 1 + 1 := by omega
      simp only [PtrTree.count] at hroom
      refine ih hr (by omega) ⟨?_, hl, ?_⟩
      · rw [hcount]
        exact (Data.grow_ok hsize hroom).2
      · simp only [hcount]
        exact hp

/-- The sequence without the new value. -/
theorem inorder_place (val : Int) (t : PtrTree Data) (p : TreePath Data) :
    before Data.val (place val t p) ++ after Data.val (place val t p) =
      before Data.val p ++ (t.inorder Data.val ++ after Data.val p) := by
  fun_induction place val t p with
  | case1 p => rfl
  | case2 a d l r p hlt ih =>
      rw [ih]
      simp [before, after, PtrTree.inorder, Data.grow]
  | case3 a d l r p hlt ih =>
      rw [ih]
      simp [before, after, PtrTree.inorder, Data.grow]

/-- The place of `val` in the sequence: behind the equal values. -/
theorem place_bounds (val : Int) {t : PtrTree Data} {p : TreePath Data}
    (ht : (t.inorder Data.val).Pairwise (· ≤ ·)) (hbefore : ∀ x ∈ before Data.val p, x ≤ val)
    (hafter : ∀ x ∈ after Data.val p, val < x) :
    (∀ x ∈ before Data.val (place val t p), x ≤ val) ∧
      ∀ x ∈ after Data.val (place val t p), val < x := by
  fun_induction place val t p with
  | case1 p => exact ⟨hbefore, hafter⟩
  | case2 a d l r p hlt ih =>
      obtain ⟨hl, hdr, -⟩ := List.pairwise_append.1 ht
      refine ih hl hbefore fun x hx => ?_
      simp only [after, List.mem_cons, List.mem_append] at hx
      rcases hx with rfl | hx | hx
      · exact hlt
      · exact hlt.trans_le (List.rel_of_pairwise_cons hdr hx)
      · exact hafter x hx
  | case3 a d l r p hlt ih =>
      obtain ⟨-, hdr, hld⟩ := List.pairwise_append.1 ht
      have hd : d.val ≤ val := not_lt.1 hlt
      refine ih (List.pairwise_cons.1 hdr).2 (fun x hx => ?_) hafter
      simp only [before, List.mem_append, List.mem_singleton] at hx
      rcases hx with hx | hx | rfl
      · exact hbefore x hx
      · exact (hld x hx d.val List.mem_cons_self).trans hd
      · exact hd

/-- The loop moves the nodes, but adds none. -/
theorem refs_fixUp (p : TreePath Data) (t : PtrTree Data) :
    ∀ b ∈ (fixUp p t).refs, b ∈ t.refs ∨ b ∈ pathRefs p := by
  fun_induction fixUp p t with
  | case1 t =>
      intro b hb
      exact Or.inl hb
  | case2 f t =>
      intro b hb
      exact (mem_refs_plug (p := [f])).1 hb
  | case3 f g p t hf hgr ih =>
      intro b hb
      have hbp := ih b hb
      simp only [Frame.fill, PtrTree.mem_refs_nodeAt, PtrTree.refs_mapRoot] at hbp
      simp only [pathRefs, List.mem_cons, List.mem_append]
      tauto
  | case4 f g p t hf hgr hside =>
      intro b hb
      have hbp := mem_refs_plug.1 hb
      simp only [outer, rotated, resized, PtrTree.mem_refs_nodeAt] at hbp
      simp only [pathRefs, List.mem_cons, List.mem_append]
      tauto
  | case5 f g p hf hgr hside =>
      intro b hb
      exact (mem_refs_plug (p := f :: g :: p)).1 hb
  | case6 f g p hf hgr hside z dz a b =>
      intro b hb
      have hbp := mem_refs_plug.1 hb
      simp only [inner, outer, rotated, resized, PtrTree.mem_refs_nodeAt] at hbp
      rw [PtrTree.node_eq_nodeAt g.side, PtrTree.mem_refs_nodeAt]
      simp only [pathRefs, List.mem_cons, List.mem_append]
      tauto
  | case7 f g p t hf =>
      intro b hb
      exact (mem_refs_plug (p := f :: g :: p)).1 hb

/-! ## What an insertion keeps -/

theorem redBlack_mapRoot {t : PtrTree Data} {n : ℕ} (h : Bal t n) :
    (t.mapRoot (Data.paint .BLACK)).RedBlack Data.isRed := by
  refine redBlack_iff.2 ⟨rootRed_mapRoot_black t, ?_⟩
  cases t with
  | nil => exact ⟨n, h⟩
  | node a d l r =>
      obtain ⟨-, k, hl, hr, -⟩ := balanced_node.1 h
      exact ⟨k + 1, balanced_black (s := .left) rfl hl hr⟩

theorem insertTree_redBlack {t : PtrTree Data} (h : t.RedBlack Data.isRed) (z : Ref) (val : Int) :
    (insertTree z val t).RedBlack Data.isRed := by
  obtain ⟨hroot, n, hbal⟩ := redBlack_iff.1 h
  have hfits : Fits Data.isRed (place val t []) 0 := fits_place hbal trivial fun h => by cases h
  have hblack : RootBlack (place val t []) := rootBlack_place trivial fun _ => hroot
  have hnil : Bal .nil 0 := ⟨trivial, blackHeight_nil.2 rfl⟩
  have hleaf : Bal (.leaf z (newData val)) 0 := balanced_red (s := .left) rfl hnil hnil rfl rfl
  obtain ⟨m, hm⟩ := fixUp_balanced _ _ 0 hleaf rfl hfits hblack
  exact redBlack_mapRoot hm

theorem insertTree_sized {t : PtrTree Data} (h : t.Sized Data.nodes)
    (hroom : t.count + 1 < 2 ^ 31) (z : Ref) (val : Int) :
    (insertTree z val t).Sized Data.nodes := by
  have hpath : SizedPath Data.nodes (place val t []) 1 := sizedPath_place h hroom trivial
  have hleaf : (PtrTree.leaf z (newData val)).Sized Data.nodes := ⟨rfl, trivial, trivial⟩
  exact (sized_mapRoot (φ := Data.paint .BLACK) fun _ => rfl).2 (fixUp_sized _ _ hleaf hpath)

theorem insertTree_inorder (z : Ref) (val : Int) (t : PtrTree Data) :
    (insertTree z val t).inorder Data.val =
      before Data.val (place val t []) ++ val :: after Data.val (place val t []) := by
  rw [insertTree, inorder_mapRoot (φ := Data.paint .BLACK) fun _ => rfl, fixUp_inorder,
    inorder_plug]
  rfl

theorem insertTree_sorted {t : PtrTree Data} (h : (t.inorder Data.val).Pairwise (· ≤ ·)) (z : Ref)
    (val : Int) : ((insertTree z val t).inorder Data.val).Pairwise (· ≤ ·) := by
  obtain ⟨hbefore, hafter⟩ := place_bounds val (p := []) h (by simp [before])
    (by simp [after])
  have hrest : (before Data.val (place val t []) ++ after Data.val (place val t [])).Pairwise
      (· ≤ ·) := by
    rw [inorder_place]
    simpa [before, after] using h
  obtain ⟨hb, ha, hba⟩ := List.pairwise_append.1 hrest
  rw [insertTree_inorder]
  refine List.pairwise_append.2 ⟨hb, List.pairwise_cons.2 ⟨fun x hx => (hafter x hx).le, ha⟩, ?_⟩
  intro x hx y hy
  rcases List.mem_cons.1 hy with rfl | hy
  · exact hbefore x hx
  · exact hba x hx y hy

theorem insertTree_perm (z : Ref) (val : Int) (t : PtrTree Data) :
    ((insertTree z val t).inorder Data.val).Perm (val :: t.inorder Data.val) := by
  rw [insertTree_inorder]
  refine List.perm_middle.trans (List.Perm.cons val ?_)
  rw [inorder_place]
  simp [before, after]

theorem count_insertTree (z : Ref) (val : Int) (t : PtrTree Data) :
    (insertTree z val t).count = t.count + 1 := by
  rw [← length_inorder Data.val, (insertTree_perm z val t).length_eq, List.length_cons,
    length_inorder]

theorem mem_refs_insertTree {z b : Ref} {val : Int} {t : PtrTree Data}
    (hb : b ∈ (insertTree z val t).refs) : b = z ∨ b ∈ t.refs := by
  rw [insertTree, PtrTree.refs_mapRoot] at hb
  rcases refs_fixUp _ _ b hb with hb | hb
  · exact Or.inl (by simpa [PtrTree.leaf, PtrTree.refs] using hb)
  · rw [(pathRefs_place val t []).mem_iff] at hb
    exact Or.inr (by simpa [pathRefs] using hb)

/-! ## On the heap -/

/-- The heap holds the tree of a `MedianFinder`, and references from `fresh` on are
unused. -/
structure Shows (h : Heap) (t : PtrTree Data) : Prop where
  at_root : h.mem.At h.root [] t
  fresh : ∀ a ∈ t.refs, a < h.fresh
  red_black : t.RedBlack Data.isRed
  sized : t.Sized Data.nodes
  sorted : (t.inorder Data.val).Pairwise (· ≤ ·)

theorem shows_init : Shows medianFinderCreate .nil where
  at_root := ⟨trivial, trivial, List.nodup_nil, rfl⟩
  fresh := by simp [PtrTree.refs]
  red_black := redBlack_iff.2 ⟨rfl, 0, trivial, blackHeight_nil.2 rfl⟩
  sized := trivial
  sorted := List.Pairwise.nil

/-- The search loop follows `place`. -/
theorem descend_ok {m : Mem Data} {root : Option Ref} (val : Int) (t : PtrTree Data)
    (p : TreePath Data) (fuel : ℕ) (hat : m.At root p t) (hsized : t.Sized Data.nodes)
    (hroom : t.count + 1 < 2 ^ 31) (hfuel : t.height ≤ fuel) :
    ∃ m', descend val fuel m (top p) t.ref = some (m', top (place val t p)) ∧
      m'.At root (place val t p) .nil ∧ ∀ b, b ∉ t.refs → m' b = m b := by
  induction t generalizing m p fuel with
  | nil =>
      refine ⟨m, ?_, hat, fun b _ => rfl⟩
      rw [PtrTree.ref, descend, place]
  | node a d l r ihl ihr =>
      obtain ⟨hsize, hl, hr⟩ := hsized
      simp only [PtrTree.count] at hroom
      simp only [PtrTree.height] at hfuel
      obtain ⟨fuel, rfl⟩ : ∃ k, fuel = k + 1 := ⟨fuel - 1, by omega⟩
      have hgrown := at_modify (s := .left) hat Data.grow
      have hother : ∀ b, b ∉ (PtrTree.node a d l r).refs → m.modify a Data.grow b = m b := by
        intro b hb
        apply Mem.setData_of_ne
        rintro rfl
        exact hb List.mem_cons_self
      have hcell : m.modify a Data.grow a = ⟨d.grow, l.ref, r.ref, top p⟩ := hgrown.cell
      have hstep : descend val (fuel + 1) m (top p) (some a) =
          if val < d.val then descend val fuel (m.modify a Data.grow) (some a) l.ref
          else descend val fuel (m.modify a Data.grow) (some a) r.ref := by
        have hd : (m a).data = d := congrArg Cell.data hat.tree.1
        have hwrite : (m.modify a fun d' => { d' with size := d.grow.size }) =
            m.modify a Data.grow := by
          rw [Mem.modify, Mem.modify, hd]
          rfl
        rw [descend, hd, (Data.grow_ok hsize hroom).1, Option.bind_some, hwrite]
        change (if val < (m.modify a Data.grow a).data.val then
          descend val fuel (m.modify a Data.grow) (some a) (m.modify a Data.grow a).left
          else descend val fuel (m.modify a Data.grow) (some a) (m.modify a Data.grow a).right) = _
        rw [hcell]
        rfl
      rw [PtrTree.ref, hstep, place]
      by_cases hlt : val < d.val
      · rw [if_pos hlt, if_pos hlt]
        obtain ⟨m', hm', hat', hsame⟩ :=
          ihl (⟨a, d.grow, .left, r⟩ :: p) fuel ((at_child .left).1 hgrown) hl (by omega) (by omega)
        refine ⟨m', hm', hat', fun b hb => (hsame b fun hbl => hb ?_).trans (hother b hb)⟩
        exact List.mem_cons_of_mem _ (List.mem_append_left _ hbl)
      · rw [if_neg hlt, if_neg hlt]
        obtain ⟨m', hm', hat', hsame⟩ :=
          ihr (⟨a, d.grow, .right, l⟩ :: p) fuel ((at_other_child .left).1 hgrown) hr (by omega)
            (by omega)
        refine ⟨m', hm', hat', fun b hb => (hsame b fun hbr => hb ?_).trans (hother b hb)⟩
        exact List.mem_cons_of_mem _ (List.mem_append_right _ hbr)

/-- The heap after the new node has been attached. -/
theorem attach_ok {h : Heap} {val : Int} {z : Ref} {p : TreePath Data}
    (hat : h.mem.At h.root p .nil)
    (hcell : h.mem z = ⟨newData val, none, none, none⟩) (hz : z ∉ pathRefs p)
    (hside : ∀ f ∈ p.head?, f.side = if val < f.data.val then .left else .right) :
    (attach h val z (top p)).mem.At (attach h val z (top p)).root p (.leaf z (newData val)) ∧
      (attach h val z (top p)).fresh = h.fresh := by
  have hparent : ∀ y, h.mem.setParent z y = h.mem.set z ⟨newData val, none, none, y⟩ := by
    intro y
    rw [Mem.setParent, hcell]
  cases p with
  | nil =>
      simp only [attach, top, hparent]
      exact ⟨at_leaf h.mem z (newData val), trivial⟩
  | cons f p =>
      have hf := hside f rfl
      have hval : ((h.mem.set z ⟨newData val, none, none, some f.ref⟩) f.ref).data = f.data := by
        have hne : f.ref ≠ z := fun hne => hz (hne ▸ List.mem_cons_self)
        rw [Mem.set_of_ne _ hne, hat.path.1, data_cellAt]
      have hattached := at_attach hat hz (newData val)
      simp only [attach, top, hparent, hval]
      split at hf
      · next hlt =>
          rw [hf] at hattached
          rw [if_pos hlt]
          exact ⟨hattached, rfl⟩
      · next hlt =>
          rw [hf] at hattached
          rw [if_neg hlt]
          exact ⟨hattached, rfl⟩

/-- The loop leaves a node to paint. -/
theorem ref_fixUp {p : TreePath Data} {t : PtrTree Data} {z : Ref} (hz : t.ref = some z) :
    ∃ r, (fixUp p t).ref = some r := by
  have hseq := fixUp_inorder p t
  rw [inorder_plug] at hseq
  cases hfix : fixUp p t with
  | node a d l r => exact ⟨a, rfl⟩
  | nil =>
      cases t with
      | nil => cases hz
      | node a d l r =>
          rw [hfix] at hseq
          simp [PtrTree.inorder] at hseq

theorem insertFixup_ok {h : Heap} {p : TreePath Data} {t : PtrTree Data} {z : Ref}
    (hat : h.mem.At h.root p t) (hz : t.ref = some z) (hroot : RootBlack p)
    (ht : t.Sized Data.nodes) (hp : SizedPath Data.nodes p t.count) (hfuel : p.length ≤ h.fresh) :
    ∃ h', insertFixup h z = some h' ∧
      h'.mem.At h'.root [] ((fixUp p t).mapRoot (Data.paint .BLACK)) ∧ h'.fresh = h.fresh := by
  obtain ⟨h', hloop, hat', hfresh⟩ :=
    fixupLoop_ok p t h z (h.fresh + 1) hat hz hroot ht hp (Nat.succ_le_succ hfuel)
  obtain ⟨r, hr⟩ := ref_fixUp (p := p) hz
  have hroot' : h'.root = some r := hat'.root_eq.trans hr
  refine ⟨{ h' with mem := setColor h'.mem r .BLACK }, ?_,
    at_modify_root hat' hr (Data.paint .BLACK), hfresh⟩
  rw [insertFixup, hloop, Option.bind_some, hroot']
  rfl

/-- `insertRBT` ends, and does what `insertTree` does. -/
theorem insertRBT_ok {h : Heap} {t : PtrTree Data} (hs : Shows h t) (hroom : t.count + 1 < 2 ^ 31)
    (val : Int) : ∃ h', insertRBT h val = some h' ∧ Shows h' (insertTree h.fresh val t) := by
  have hnew : h.fresh ∉ t.refs := fun hmem => Nat.lt_irrefl _ (hs.fresh _ hmem)
  have hlen := hs.at_root.length_refs_le hs.fresh
  -- The new node is not part of the tree yet.
  have hat₁ : (newNode h val).2.mem.At h.root [] t := by
    refine hs.at_root.congr fun a ha => Mem.set_of_ne _ ?_ _
    rintro rfl
    exact hnew (by simpa [pathRefs] using ha)
  obtain ⟨m, hdescend, hat₂, hsame⟩ := descend_ok val t [] (h.fresh + 1) hat₁ hs.sized hroom
    ((height_le_length_refs t).trans (hlen.trans (Nat.le_succ _)))
  have hcell : m h.fresh = ⟨newData val, none, none, none⟩ :=
    (hsame _ hnew).trans (h.mem.set_self _)
  have hrefs := pathRefs_place val t []
  rw [pathRefs, List.append_nil] at hrefs
  obtain ⟨hat₃, hfresh₃⟩ := attach_ok (h := { (newNode h val).2 with mem := m }) hat₂ hcell
    (fun hmem => hnew (hrefs.mem_iff.1 hmem)) (place_side (by simp))
  have hblack : RootBlack (place val t []) :=
    rootBlack_place trivial fun _ => hs.red_black.root_black
  have hpath : (place val t []).length ≤ h.fresh :=
    (length_le_pathRefs _).trans (hrefs.length_eq.le.trans hlen)
  have hsizes : SizedPath Data.nodes (place val t []) 1 := sizedPath_place hs.sized hroom trivial
  obtain ⟨h', hfix, hat', hfresh'⟩ := insertFixup_ok hat₃ rfl hblack ⟨rfl, trivial, trivial⟩ hsizes
    (hpath.trans (hfresh₃ ▸ Nat.le_succ _))
  refine ⟨h', ?_, hat', fun b hb => ?_, insertTree_redBlack hs.red_black _ _,
    insertTree_sized hs.sized hroom _ _, insertTree_sorted hs.sorted _ _⟩
  · rw [insertRBT]
    have hsearch : descend val (newNode h val).2.fresh (newNode h val).2.mem none
        (newNode h val).2.root = some (m, top (place val t [])) := by
      rw [show (newNode h val).2.root = t.ref from hs.at_root.root_eq]
      exact hdescend
    rw [hsearch]
    exact hfix
  · rw [hfresh'.trans hfresh₃]
    rcases mem_refs_insertTree hb with rfl | hb
    · exact Nat.lt_succ_self _
    · exact Nat.lt_succ_of_lt (hs.fresh b hb)

/-- There is no node that counts `2 ^ 31` nodes. -/
theorem insertRBT_full {h : Heap} {t : PtrTree Data} (hs : Shows h t) (hfull : t.count + 1 = 2 ^ 31)
    (val : Int) : insertRBT h val = none := by
  cases t with
  | nil => cases hfull
  | node a d l r =>
      have hroot : h.root = some a := hs.at_root.root_eq
      have hne : a ≠ h.fresh := (hs.fresh a List.mem_cons_self).ne
      have hdata : ((newNode h val).2.mem a).data = d :=
        congrArg Cell.data ((Mem.set_of_ne _ hne _).trans hs.at_root.tree.1)
      have hsize := Data.toInt_size hs.sized.1
      simp only [PtrTree.count] at hfull
      have hover : addInt d.size 1 = none := by
        apply addInt_overflow
        rw [hsize, Int32.toInt_one]
        omega
      have hsearch : descend val (newNode h val).2.fresh (newNode h val).2.mem none
          (newNode h val).2.root = none := by
        rw [show (newNode h val).2.root = some a from hroot]
        change descend val (h.fresh + 1) _ none (some a) = none
        rw [descend, hdata, hover, Option.bind_none]
      rw [insertRBT]
      simp only [hsearch, Option.bind_none]

/-- Additions to what the heap shows. -/
theorem addNum_run {h : Heap} {t : PtrTree Data} (hs : Shows h t) (nums : List Int)
    (hroom : t.count + nums.length < 2 ^ 31) :
    ∃ h' t', Run medianFinderAddNum (fun _ _ => True) h nums h' ∧ Shows h' t' ∧
      (t'.inorder Data.val).Perm (nums ++ t.inorder Data.val) := by
  induction nums generalizing h t with
  | nil => exact ⟨h, t, .nil h, hs, .refl _⟩
  | cons val nums ih =>
      rw [List.length_cons] at hroom
      obtain ⟨h₁, hstep, hs₁⟩ := insertRBT_ok hs (by omega) val
      have hroom₁ : (insertTree h.fresh val t).count + nums.length < 2 ^ 31 := by
        rw [count_insertTree]
        omega
      obtain ⟨h', t', hrun, hs', hperm⟩ := ih hs₁ hroom₁
      refine ⟨h', t', .cons trivial hstep hrun, hs', hperm.trans ?_⟩
      exact ((insertTree_perm h.fresh val t).append_left nums).trans List.perm_middle

theorem count_lt {t : PtrTree Data} (h : t.Sized Data.nodes) : t.count < 2 ^ 31 := by
  cases t with
  | nil => exact Nat.two_pow_pos 31
  | node a d l r => exact h.1.ge.trans_lt d.nodes_lt

/-- There are as many additions as an `int` counts. -/
theorem addNum_runs_iff {h : Heap} {t : PtrTree Data} (hs : Shows h t) (nums : List Int) :
    (∃ h', Run medianFinderAddNum (fun _ _ => True) h nums h') ↔
      t.count + nums.length < 2 ^ 31 := by
  refine ⟨?_, fun hroom => ?_⟩
  · rintro ⟨h', hrun⟩
    induction nums generalizing h t with
    | nil => exact count_lt hs.sized
    | cons val nums ih =>
        cases hrun with
        | cons _ hstep hrest =>
            have hlt := count_lt hs.sized
            by_cases hroom : t.count + 1 < 2 ^ 31
            · obtain ⟨h₁, hstep₁, hs₁⟩ := insertRBT_ok hs hroom val
              obtain rfl := Option.some.inj (hstep₁.symm.trans hstep)
              have hcount := ih hs₁ hrest
              rw [count_insertTree] at hcount
              rw [List.length_cons]
              omega
            · have hfull := insertRBT_full hs (by omega) val
              cases hfull.symm.trans hstep
  · obtain ⟨h', -, hrun, -⟩ := addNum_run hs nums hroom
    exact ⟨h', hrun⟩

/-- The tree of a `MedianFinder` after any additions that an `int` can count: the memory holds it
with its parent pointers, it is red-black and has the right sizes, and its in-order sequence is
the sorted list of the numbers. -/
theorem medianFinder_tree (nums : List Int) (hroom : nums.length < 2 ^ 31) :
    ∃ h t, Run medianFinderAddNum (fun _ _ => True) medianFinderCreate nums h ∧
      h.mem.At h.root [] t ∧ t.inorder Data.val = nums.insertionSort (· ≤ ·) ∧
      t.RedBlack Data.isRed ∧ t.Sized Data.nodes := by
  obtain ⟨h, t, hrun, hs, hperm⟩ := addNum_run shows_init nums ((Nat.zero_add _).trans_lt hroom)
  refine ⟨h, t, hrun, hs.at_root, ?_, hs.red_black, hs.sized⟩
  have hnums : (t.inorder Data.val).Perm nums := by simpa [PtrTree.inorder] using hperm
  exact (hnums.trans (List.perm_insertionSort _ nums).symm).eq_of_pairwise' hs.sorted
    (List.pairwise_insertionSort _ nums)

/-- Equal numbers on both sides of a rotation. -/
theorem medianFinder_tree_equal :
    ∃ h t, Run medianFinderAddNum (fun _ _ => True) medianFinderCreate [4, 4, 4, 1, 9] h ∧
      h.mem.At h.root [] t ∧ t.inorder Data.val = [4, 4, 4, 1, 9].insertionSort (· ≤ ·) ∧
      t.RedBlack Data.isRed ∧ t.Sized Data.nodes :=
  medianFinder_tree [4, 4, 4, 1, 9] (by decide)

end MedianFinder
end Leetcode
