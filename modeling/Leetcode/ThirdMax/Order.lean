import Leetcode.Lib.Rank
import Leetcode.ThirdMax.Insert

/-!
# The order and the sizes in the tree of `insertValue`

Whatever half of `fixInsert` an insertion goes through, the tree stays a search tree
without duplicates, and its size fields stay right.  Neither needs the colours.

* `fixUp_inorder`, `fixUp_sized` — what the repair keeps.
* `insertAt_inorder`, `locate_bounds` — the new value stands between the smaller and the
  larger ones.
* `insertTree_ranked`, `mem_insertTree` — one insertion.
-/

namespace Leetcode
namespace ThirdMax

open CLib

/-! ## The sequence -/

theorem inorder_sized (s : Side) (a : Ref) (d d' : Data) (t u : PtrTree Data)
    (hd : d.value = d'.value) :
    (sized s a d t u).inorder Data.value = (PtrTree.nodeAt s a d' t u).inorder Data.value :=
  inorder_nodeAt_congr hd rfl rfl

theorem inorder_rotated {s : Side} {x y : Ref} {dx dy dx' dy' : Data} {l mid r : PtrTree Data}
    (hx : dx.value = dx'.value) (hy : dy.value = dy'.value) :
    (rotated s x y dx dy l mid r).inorder Data.value =
      (PtrTree.nodeAt s x dx' l (.nodeAt s y dy' mid r)).inorder Data.value := by
  rw [← inorder_rotate]
  exact inorder_nodeAt_congr hy (inorder_sized s x dx dx' l mid hx) rfl

theorem inorder_outer {f g : Frame Data} (hf : f.side = .left) (hg : g.side = .left)
    (t : PtrTree Data) :
    (outer f g t).inorder Data.value = (g.fill (f.fill t)).inorder Data.value := by
  have hgvalue : (g.data.paint .red).value = g.data.value := rfl
  have hfvalue : (f.data.paint .black).value = f.data.value := rfl
  refine (inorder_rotated hgvalue hfvalue).trans ?_
  rw [Frame.fill, Frame.fill, hf, hg]
  rfl

theorem inorder_inner {f g : Frame Data} (hf : f.side = .right) (hg : g.side = .left) (z : Ref)
    (dz : Data) (l r : PtrTree Data) :
    (inner f g z dz l r).inorder Data.value =
      (g.fill (f.fill (.node z dz l r))).inorder Data.value := by
  refine (inorder_outer rfl hg _).trans (inorder_fill_congr rfl rfl ?_ rfl)
  have hfill : f.fill (.node z dz l r) =
      .nodeAt .left f.ref f.data f.sibling (.nodeAt .left z dz l r) := by
    rw [Frame.fill, hf]
    rfl
  rw [hfill]
  exact inorder_rotated rfl rfl

theorem inorder_paintRoot (c : Color) (t : PtrTree Data) :
    (paintRoot c t).inorder Data.value = t.inorder Data.value := by
  rw [paintRoot_eq]
  exact inorder_mapRoot (φ := Data.paint c) (fun _ => rfl) t

/-- `parent` is a left child in a round that rotates, and `z` its left child unless the
inner rotation comes first. -/
theorem side_of_not_inner {f : Frame Data} {t : PtrTree Data} {b : Ref} (ht : t.ref = some b)
    (hne : ∀ z dz l r, f.side = .right → t = .node z dz l r → False) : f.side = .left := by
  cases hf : f.side with
  | left => rfl
  | right =>
      cases t with
      | nil => cases ht
      | node a d l r => exact (hne a d l r hf rfl).elim

/-- The repair keeps the sequence of the whole tree. -/
theorem fixUp_inorder (p : TreePath Data) (t : PtrTree Data) {b : Ref} (ht : t.ref = some b) :
    (fixUp p t).inorder Data.value = (plug p t).inorder Data.value := by
  fun_induction fixUp p t generalizing b with
  | case1 t => rfl
  | case2 f t => rfl
  | case3 f g p t hf hside hgr ih =>
      rw [ih (PtrTree.ref_nodeAt ..)]
      apply inorder_plug_congr
      exact inorder_fill_congr rfl rfl (inorder_fill_congr rfl rfl rfl rfl)
        (inorder_paintRoot .black g.sibling)
  | case4 f g p hf hside hgr z dz l r hfside =>
      exact inorder_plug_congr (inorder_inner hfside hside z dz l r)
  | case5 f g p hf hside hgr t hne =>
      have hfs := side_of_not_inner ht hne
      exact inorder_plug_congr (inorder_outer hfs hside t)
  | case6 f g p t hf hside ih =>
      rw [ih (PtrTree.ref_nodeAt ..)]
      apply inorder_plug_congr
      exact inorder_fill_congr rfl rfl (inorder_fill_congr rfl rfl rfl rfl) rfl
  | case7 f g p t hf => rfl

/-! ## The sizes -/

theorem storedSize_eq {t : PtrTree Data} (h : t.Sized Data.size) : storedSize t = t.count := by
  cases t with
  | nil => rfl
  | node a d l r => exact h.1

theorem sized_sized (s : Side) (a : Ref) (d : Data) {t u : PtrTree Data}
    (ht : t.Sized Data.size) (hu : u.Sized Data.size) : (sized s a d t u).Sized Data.size := by
  refine sized_nodeAt.2 ⟨?_, ht, hu⟩
  simp only [storedSize_eq ht, storedSize_eq hu]

theorem count_sized (s : Side) (a : Ref) (d : Data) (t u : PtrTree Data) :
    (sized s a d t u).count = t.count + u.count + 1 :=
  count_nodeAt ..

theorem sized_outer {f g : Frame Data} {t : PtrTree Data} (hf : f.sibling.Sized Data.size)
    (hg : g.sibling.Sized Data.size) (ht : t.Sized Data.size) : (outer f g t).Sized Data.size := by
  unfold outer rotated
  exact sized_sized _ _ _ (sized_sized _ _ _ hg hf) ht

theorem count_outer (f g : Frame Data) (t : PtrTree Data) :
    (outer f g t).count = t.count + f.sibling.count + 1 + g.sibling.count + 1 := by
  rw [outer, rotated, count_sized, count_sized]
  omega

theorem sized_inner {f g : Frame Data} {z : Ref} {dz : Data} {l r : PtrTree Data}
    (hf : f.sibling.Sized Data.size) (hg : g.sibling.Sized Data.size) (hl : l.Sized Data.size)
    (hr : r.Sized Data.size) : (inner f g z dz l r).Sized Data.size :=
  sized_outer hr hg (sized_sized _ _ _ hf hl)

theorem count_inner (f g : Frame Data) (z : Ref) (dz : Data) (l r : PtrTree Data) :
    (inner f g z dz l r).count =
      l.count + r.count + 1 + f.sibling.count + 1 + g.sibling.count + 1 := by
  rw [inner, count_outer, count_sized]
  simp only []
  omega

theorem sized_paintRoot {c : Color} {t : PtrTree Data} :
    (paintRoot c t).Sized Data.size ↔ t.Sized Data.size := by
  rw [paintRoot_eq]
  exact sized_mapRoot (φ := Data.paint c) fun _ => rfl

@[simp] theorem count_paintRoot (c : Color) (t : PtrTree Data) :
    (paintRoot c t).count = t.count := by
  rw [paintRoot_eq, count_mapRoot]

/-- The repair keeps the sizes right. -/
theorem fixUp_sized (p : TreePath Data) (t : PtrTree Data) (ht : t.Sized Data.size)
    (hp : SizedPath Data.size p t.count) : (fixUp p t).Sized Data.size := by
  fun_induction fixUp p t with
  | case1 t => exact ht
  | case2 f t => exact (sized_plug (p := [f])).2 ⟨ht, hp⟩
  | case3 f g p t hf hside hgr ih =>
      obtain ⟨hfsize, hfsib, hgsize, hgsib, hrest⟩ := hp
      apply ih
      · refine sized_nodeAt.2 ⟨?_, sized_nodeAt.2 ⟨hfsize, ht, hfsib⟩, sized_paintRoot.2 hgsib⟩
        rw [count_paintRoot]
        exact hgsize.trans (by simp [Frame.fill])
      · simpa [Frame.fill] using hrest
  | case4 f g p hf hside hgr z dz l r hfside =>
      obtain ⟨-, hfsib, -, hgsib, hrest⟩ := hp
      obtain ⟨-, hl, hr⟩ := ht
      refine sized_plug.2 ⟨sized_inner hfsib hgsib hl hr, ?_⟩
      rw [count_inner]
      exact hrest
  | case5 f g p hf hside hgr t hne =>
      obtain ⟨-, hfsib, -, hgsib, hrest⟩ := hp
      refine sized_plug.2 ⟨sized_outer hfsib hgsib ht, ?_⟩
      rw [count_outer]
      exact hrest
  | case6 f g p t hf hside ih =>
      obtain ⟨hfsize, hfsib, hgsize, hgsib, hrest⟩ := hp
      apply ih
      · refine sized_nodeAt.2 ⟨?_, sized_nodeAt.2 ⟨hfsize, ht, hfsib⟩, hgsib⟩
        exact hgsize.trans (by simp [Frame.fill])
      · simpa [Frame.fill] using hrest
  | case7 f g p t hf => exact (sized_plug (p := f :: g :: p)).2 ⟨ht, hp⟩

/-- The loop on the way up makes the sizes right above the new node. -/
theorem sizedPath_resize {p : TreePath Data} {k : ℕ} (h : SizedPath Data.size p k) (n : ℕ) :
    SizedPath Data.size (resize p n) n := by
  induction p generalizing n k with
  | nil => trivial
  | cons f p ih =>
      obtain ⟨-, hsib, hp⟩ := h
      rw [resize, storedSize_eq hsib]
      exact ⟨rfl, hsib, ih hp _⟩

/-! ## The place of a value -/

theorem inorder_resize (p : TreePath Data) (n : ℕ) :
    before Data.value (resize p n) = before Data.value p ∧
      after Data.value (resize p n) = after Data.value p := by
  induction p generalizing n with
  | nil => exact ⟨rfl, rfl⟩
  | cons f p ih =>
      obtain ⟨hbefore, hafter⟩ := ih (n + storedSize f.sibling + 1)
      simp only [resize, before, after, hbefore, hafter]
      exact ⟨trivial, trivial⟩

/-- The values before the place are smaller, and those after it larger. -/
theorem locate_bounds {val : Int} {t : PtrTree Data} {p q : TreePath Data}
    (h : locate val t p = some q) (ht : (t.inorder Data.value).Pairwise (· < ·))
    (hbefore : ∀ x ∈ before Data.value p, x < val) (hafter : ∀ x ∈ after Data.value p, val < x) :
    (∀ x ∈ before Data.value q, x < val) ∧ ∀ x ∈ after Data.value q, val < x := by
  fun_induction locate val t p with
  | case1 p =>
      cases h
      exact ⟨hbefore, hafter⟩
  | case2 => cases h
  | case3 a d l r p hne hlt ih =>
      obtain ⟨hl, hdr, -⟩ := List.pairwise_append.1 ht
      refine ih h hl hbefore fun x hx => ?_
      simp only [after, List.mem_cons, List.mem_append] at hx
      rcases hx with rfl | hx | hx
      · exact hlt
      · exact hlt.trans (List.rel_of_pairwise_cons hdr hx)
      · exact hafter x hx
  | case4 a d l r p hne hlt ih =>
      obtain ⟨-, hdr, hld⟩ := List.pairwise_append.1 ht
      have hd : d.value < val := lt_of_le_of_ne (not_lt.1 hlt) (Ne.symm hne)
      refine ih h (List.pairwise_cons.1 hdr).2 (fun x hx => ?_) hafter
      simp only [before, List.mem_append, List.mem_singleton] at hx
      rcases hx with hx | hx | rfl
      · exact hbefore x hx
      · exact (hld x hx d.value List.mem_cons_self).trans hd
      · exact hd

/-- Without a place the tree has the value. -/
theorem mem_of_locate {val : Int} {t : PtrTree Data} {p : TreePath Data}
    (h : locate val t p = none) : val ∈ t.inorder Data.value := by
  fun_induction locate val t p with
  | case1 p => cases h
  | case2 a d l r p heq => simp [PtrTree.inorder, heq]
  | case3 a d l r p hne hlt ih => exact List.mem_append_left _ (ih h)
  | case4 a d l r p hne hlt ih =>
      exact List.mem_append_right _ (List.mem_cons_of_mem _ (ih h))

theorem insertAt_inorder (z : Ref) (val : Int) (p : TreePath Data) :
    (insertAt z val p).inorder Data.value =
      before Data.value p ++ val :: after Data.value p := by
  obtain ⟨hbefore, hafter⟩ := inorder_resize p 1
  rw [insertAt, inorder_paintRoot, fixUp_inorder (b := z) _ _ rfl, inorder_plug, hbefore, hafter]
  rfl

/-! ## An insertion -/

/-- A search tree without duplicates, with its sizes. -/
structure Ranked (t : PtrTree Data) : Prop where
  sorted : (t.inorder Data.value).Pairwise (· < ·)
  sizes : t.Sized Data.size

theorem ranked_nil : Ranked .nil := ⟨.nil, trivial⟩

theorem insertTree_ranked {t : PtrTree Data} (h : Ranked t) (z : Ref) (val : Int) :
    Ranked (insertTree z val t) := by
  unfold insertTree
  cases hlocate : locate val t [] with
  | none => exact h
  | some p =>
      have hplug : plug p .nil = t := plug_locate hlocate
      obtain ⟨hbefore, hafter⟩ := locate_bounds hlocate h.sorted (by simp [before])
        (by simp [after])
      subst hplug
      obtain ⟨hsorted, hsizes⟩ := h
      refine ⟨?_, sized_paintRoot.2 (fixUp_sized _ _ ⟨rfl, trivial, trivial⟩
        (sizedPath_resize (sized_plug.1 hsizes).2 1))⟩
      rw [inorder_plug] at hsorted
      obtain ⟨hb, ha, hba⟩ := List.pairwise_append.1 hsorted
      rw [insertAt_inorder]
      refine List.pairwise_append.2 ⟨hb, List.pairwise_cons.2 ⟨hafter, ha⟩, ?_⟩
      intro x hx y hy
      rcases List.mem_cons.1 hy with rfl | hy
      · exact hbefore x hx
      · exact hba x hx y hy

theorem mem_insertTree {z : Ref} {val x : Int} {t : PtrTree Data} :
    x ∈ (insertTree z val t).inorder Data.value ↔ x = val ∨ x ∈ t.inorder Data.value := by
  unfold insertTree
  cases hlocate : locate val t [] with
  | none =>
      have hval := mem_of_locate hlocate
      constructor
      · exact Or.inr
      · rintro (rfl | hx)
        · exact hval
        · exact hx
  | some p =>
      have hplug : plug p .nil = t := plug_locate hlocate
      subst hplug
      have hnil : (PtrTree.nil : PtrTree Data).inorder Data.value = [] := rfl
      simp only [insertAt_inorder, inorder_plug, hnil, List.nil_append, List.mem_append,
        List.mem_cons]
      tauto

end ThirdMax
end Leetcode
