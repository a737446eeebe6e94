import Leetcode.ThirdMax.Refine

/-!
# `insertValue`

`insertTree` is `insertValue` on trees: search for the place, update the sizes
above it, put a red node there and repair the tree with `fixUp`.  The heap `Shows`
a tree, and `insertValue_ok` says that it shows `insertTree` of it afterwards.
-/

namespace Leetcode
namespace ThirdMax

open CLib

/-! ## On trees -/

/-- The path to the missing child where `val` belongs, or `none` if the tree has it. -/
def locate (val : Int) : PtrTree Data → TreePath Data → Option (TreePath Data)
  | .nil, p => some p
  | .node a d l r, p =>
      if val = d.value then none
      else if val < d.value then locate val l (⟨a, d, .left, r⟩ :: p)
      else locate val r (⟨a, d, .right, l⟩ :: p)

/-- Update the sizes above a subtree of size `n`. -/
def resize : TreePath Data → ℕ → TreePath Data
  | [], _ => []
  | f :: p, n =>
      { f with data := { f.data with size := n + storedSize f.sibling + 1 } } ::
        resize p (n + storedSize f.sibling + 1)

/-- The fields of a new node. -/
def newData (val : Int) : Data := ⟨val, .red, 1⟩

/-- Put the new node `z` at the end of the path. -/
def insertAt (z : Ref) (val : Int) (p : TreePath Data) : PtrTree Data :=
  paintRoot .black (fixUp (resize p 1) (.leaf z (newData val)))

def insertTree (z : Ref) (val : Int) (t : PtrTree Data) : PtrTree Data :=
  match locate val t [] with
  | none => t
  | some p => insertAt z val p

theorem plug_locate {val : Int} {t : PtrTree Data} {p q : TreePath Data}
    (h : locate val t p = some q) : plug q .nil = plug p t := by
  fun_induction locate val t p with
  | case1 p =>
      cases h
      rfl
  | case2 => cases h
  | case3 a d l r p hne hlt ih => exact ih h
  | case4 a d l r p hne hlt ih => exact ih h

/-- The new node goes to the side that `insertValue` compares for. -/
theorem locate_side {val : Int} {t : PtrTree Data} {p q : TreePath Data}
    (h : locate val t p = some q)
    (hp : ∀ f ∈ p.head?, f.side = if val < f.data.value then .left else .right) :
    ∀ f ∈ q.head?, f.side = if val < f.data.value then .left else .right := by
  fun_induction locate val t p with
  | case1 p =>
      cases h
      exact hp
  | case2 => cases h
  | case3 a d l r p hne hlt ih =>
      apply ih h
      rintro f ⟨⟩
      exact (if_pos hlt).symm
  | case4 a d l r p hne hlt ih =>
      apply ih h
      rintro f ⟨⟩
      exact (if_neg hlt).symm

/-! ## New sizes leave the colours -/

theorem length_resize (p : TreePath Data) (n : ℕ) : (resize p n).length = p.length := by
  induction p generalizing n with
  | nil => rfl
  | cons f p ih => rw [resize, List.length_cons, List.length_cons, ih]

theorem pathRefs_resize (p : TreePath Data) (n : ℕ) : pathRefs (resize p n) = pathRefs p := by
  induction p generalizing n with
  | nil => rfl
  | cons f p ih => rw [resize, pathRefs, pathRefs, ih]

theorem rootBlack_resize {p : TreePath Data} {n : ℕ} (h : RootBlack p) :
    RootBlack (resize p n) := by
  induction p generalizing n with
  | nil => trivial
  | cons f p ih =>
      cases p with
      | nil => exact h
      | cons g p => exact ih h

theorem topRed_resize (p : TreePath Data) (n : ℕ) :
    topRed Data.isRed (resize p n) = topRed Data.isRed p := by
  cases p <;> rfl

theorem fits_resize {p : TreePath Data} {n k : ℕ} (h : Fits Data.isRed p k) :
    Fits Data.isRed (resize p n) k := by
  induction p generalizing n k with
  | nil => trivial
  | cons f p ih =>
      obtain ⟨hsib, hred, hp⟩ := h
      refine ⟨hsib, fun hf => ⟨(hred hf).1, ?_⟩, ih hp⟩
      rw [topRed_resize]
      exact (hred hf).2

theorem mirrored_resize : ∀ (p : TreePath Data) (n : ℕ), Mirrored (resize p n) ↔ Mirrored p
  | [], _ => Iff.rfl
  | [_], _ => Iff.rfl
  | _ :: _ :: p, _ =>
      and_congr Iff.rfl (or_congr Iff.rfl (and_congr Iff.rfl (mirrored_resize p _)))

/-! ## The references -/

@[simp] theorem refs_paintRoot (c : Color) (t : PtrTree Data) : (paintRoot c t).refs = t.refs := by
  cases t <;> rfl

/-- The loop moves the nodes, but adds none. -/
theorem refs_fixUp (p : TreePath Data) (t : PtrTree Data) :
    ∀ b ∈ (fixUp p t).refs, b ∈ t.refs ∨ b ∈ pathRefs p := by
  fun_induction fixUp p t with
  | case1 t =>
      intro b hb
      exact Or.inl hb
  | case2 f t =>
      intro b hb
      exact mem_refs_plug (p := [f]) |>.1 hb
  | case3 f g p t hf hside hgr ih =>
      intro b hb
      have hbp := ih b hb
      simp only [Frame.fill, PtrTree.mem_refs_nodeAt, refs_paintRoot] at hbp
      simp only [pathRefs, List.mem_cons, List.mem_append]
      tauto
  | case4 f g p hf hside hgr z dz l r hfside =>
      intro b hb
      have hbp := mem_refs_plug.1 hb
      simp only [inner, outer, rotated, sized, PtrTree.mem_refs_nodeAt] at hbp
      simp only [PtrTree.refs, pathRefs, List.mem_cons, List.mem_append]
      tauto
  | case5 f g p hf hside hgr t hne =>
      intro b hb
      have hbp := mem_refs_plug.1 hb
      simp only [outer, rotated, sized, PtrTree.mem_refs_nodeAt] at hbp
      simp only [pathRefs, List.mem_cons, List.mem_append]
      tauto
  | case6 f g p t hf hside ih =>
      intro b hb
      have hbp := ih b hb
      simp only [Frame.fill, PtrTree.mem_refs_nodeAt] at hbp
      simp only [pathRefs, List.mem_cons, List.mem_append]
      tauto
  | case7 f g p t hf =>
      intro b hb
      exact (mem_refs_plug (p := f :: g :: p)).1 hb

/-! ## On the heap -/

/-- The heap holds the tree, and references from `fresh` on are unused. -/
structure Shows (h : Heap) (t : PtrTree Data) : Prop where
  at_root : h.mem.At h.root [] t
  fresh : ∀ a ∈ t.refs, a < h.fresh
  root_black : t.rootRed Data.isRed = false

theorem shows_init : Shows Heap.init .nil where
  at_root := ⟨trivial, trivial, List.nodup_nil, rfl⟩
  fresh := by simp [PtrTree.refs]
  root_black := rfl

/-- The search follows `locate`. -/
theorem search_ok {m : Mem Data} {val : Int} (t : PtrTree Data) (p : TreePath Data) (fuel : ℕ)
    (ht : m.Holds (top p) t) (hfuel : t.height ≤ fuel) :
    search m val fuel (top p) t.ref =
      some (match locate val t p with
        | none => .found
        | some q => .below (top q)) := by
  induction t generalizing p fuel with
  | nil =>
      rw [locate, PtrTree.ref, search]
  | node a d l r ihl ihr =>
      obtain ⟨ha, hl, hr⟩ := ht
      simp only [PtrTree.height] at hfuel
      obtain ⟨fuel, rfl⟩ : ∃ k, fuel = k + 1 := ⟨fuel - 1, by omega⟩
      rw [PtrTree.ref, search, ha, locate]
      by_cases heq : val = d.value
      · rw [if_pos heq, if_pos heq]
      · rw [if_neg heq, if_neg heq]
        by_cases hlt : val < d.value
        · rw [if_pos hlt, if_pos hlt]
          exact ihl (⟨a, d, .left, r⟩ :: p) fuel hl (by omega)
        · rw [if_neg hlt, if_neg hlt]
          exact ihr (⟨a, d, .right, l⟩ :: p) fuel hr (by omega)

/-- The loop that updates the sizes. -/
theorem updateSizes_ok {m : Mem Data} {root : Option Ref} (p : TreePath Data) (t : PtrTree Data)
    (fuel : ℕ) (hat : m.At root p t) (hfuel : p.length ≤ fuel) :
    ∃ m', updateSizes fuel m (top p) = some m' ∧ m'.At root (resize p (storedSize t)) t := by
  induction p generalizing m t fuel with
  | nil => exact ⟨m, by rw [top, updateSizes], hat⟩
  | cons f p ih =>
      rw [List.length_cons] at hfuel
      obtain ⟨fuel, rfl⟩ : ∃ k, fuel = k + 1 := ⟨fuel - 1, by omega⟩
      -- One round of the loop, at the parent; the rest is a loop from there.
      have hsized := at_updateSize (at_up.1 hat)
      have hsize : storedSize (sized f.side f.ref f.data t f.sibling) =
          storedSize t + storedSize f.sibling + 1 := by
        cases hf : f.side <;> rfl
      have hparent := hsized.parent_eq (z := f.ref) (PtrTree.ref_nodeAt ..)
      obtain ⟨m', hm', hat'⟩ := ih _ fuel hsized (by omega)
      refine ⟨m', ?_, ?_⟩
      · rw [top, updateSizes, hparent]
        exact hm'
      · rw [hsize] at hat'
        rw [resize]
        exact at_up.2 hat'

/-- The heap after the new node has been attached. -/
theorem attach_ok {h : Heap} (val : Int) {p : TreePath Data} (hat : h.mem.At h.root p .nil)
    (hfresh : h.fresh ∉ pathRefs p)
    (hside : ∀ f ∈ p.head?, f.side = if val < f.data.value then .left else .right) :
    (attach (createNode h val).2 val h.fresh (top p)).mem.At
      (attach (createNode h val).2 val h.fresh (top p)).root p
      (.leaf h.fresh (newData val)) ∧
    (attach (createNode h val).2 val h.fresh (top p)).fresh = h.fresh + 1 := by
  have hnew : ∀ y, (createNode h val).2.mem.setParent h.fresh y =
      h.mem.set h.fresh ⟨newData val, none, none, y⟩ := by
    intro y
    simp [createNode, Mem.setParent, Mem.set, newData]
  cases p with
  | nil =>
      simp only [attach, top, hnew]
      exact ⟨at_leaf h.mem h.fresh (newData val), rfl⟩
  | cons f p =>
      have hf := hside f rfl
      have hvalue : ((h.mem.set h.fresh ⟨newData val, none, none, some f.ref⟩) f.ref).data =
          f.data := by
        have hne : f.ref ≠ h.fresh := fun hne => hfresh (hne ▸ List.mem_cons_self)
        rw [Mem.set_of_ne _ hne, hat.path.1, data_cellAt]
      have hattached := at_attach hat hfresh (newData val)
      simp only [attach, top, hnew, hvalue]
      split at hf
      · next hlt =>
          rw [hf] at hattached
          rw [if_pos hlt]
          exact ⟨hattached, rfl⟩
      · next hlt =>
          rw [hf] at hattached
          rw [if_neg hlt]
          exact ⟨hattached, rfl⟩

theorem at_paintRoot {m : Mem Data} {root : Option Ref} {t : PtrTree Data} {r : Ref}
    (hat : m.At root [] t) (hr : t.ref = some r) :
    (setColor m r .black).At root [] (paintRoot .black t) := by
  rw [paintRoot_eq]
  exact at_modify_root hat hr (Data.paint .black)

theorem fixInsert_ok {h : Heap} {p : TreePath Data} {t : PtrTree Data} {z : Ref}
    (hat : h.mem.At h.root p t) (hz : t.ref = some z) (htred : t.rootRed Data.isRed = true)
    (hroot : RootBlack p) (hfuel : p.length ≤ h.fresh) :
    ∃ h', fixInsert h z = some h' ∧ h'.mem.At h'.root [] (paintRoot .black (fixUp p t)) ∧
      h'.fresh = h.fresh := by
  obtain ⟨h', hloop, hat', hfresh⟩ :=
    fixLoop_ok p t h z (h.fresh + 1) hat hz htred hroot (by omega)
  have hroot' : h'.root = (fixUp p t).ref := hat'.root_eq
  cases href : (fixUp p t).ref with
  | none =>
      have hnil : fixUp p t = .nil := by
        cases hfix : fixUp p t with
        | nil => rfl
        | node a d l r =>
            rw [hfix] at href
            cases href
      refine ⟨h', ?_, ?_, hfresh⟩
      · rw [fixInsert, hloop]
        simp [hroot', href]
      · rw [hnil] at hat' ⊢
        exact hat'
  | some r =>
      refine ⟨{ h' with mem := setColor h'.mem r .black }, ?_, at_paintRoot hat' href, hfresh⟩
      rw [fixInsert, hloop]
      simp [hroot', href]

/-- A path in a tree with a black root ends there. -/
theorem rootBlack_of_plug {p : TreePath Data} {t : PtrTree Data}
    (h : (plug p t).rootRed Data.isRed = false) : RootBlack p := by
  induction p generalizing t with
  | nil => trivial
  | cons f p ih =>
      cases p with
      | nil => exact (rootRed_fill f t).symm.trans h
      | cons g p => exact ih h

theorem search_root {h : Heap} {t : PtrTree Data} (hs : Shows h t) (val : Int) :
    search h.mem val h.fresh none h.root =
      some (match locate val t [] with
        | none => .found
        | some p => .below (top p)) := by
  rw [hs.at_root.root_eq]
  exact search_ok t [] h.fresh hs.at_root.tree
    ((height_le_length_refs t).trans (hs.at_root.length_refs_le hs.fresh))

/-- The heap in which `insertValue` calls `fixInsert` for the new node, below `y`. -/
def linked (h : Heap) (val : Int) (y : Option Ref) : Option Heap :=
  let created := createNode h val
  let h := attach created.2 val created.1 y
  (updateSizes h.fresh h.mem (some created.1)).map fun m => { h with mem := m }

theorem insertValue_eq (h : Heap) (val : Int) :
    insertValue h val = (search h.mem val h.fresh none h.root).bind fun
      | .found => some h
      | .below y => (linked h val y).bind fun h₁ => fixInsert h₁ h.fresh := by
  rw [insertValue]
  congr 1
  funext place
  cases place with
  | found => rfl
  | below y =>
      simp only [linked, Option.bind_map]
      rfl

/-- There the new node is a red leaf, with its sizes above it. -/
theorem linked_ok {h : Heap} {p : TreePath Data} {val : Int} (hs : Shows h (plug p .nil))
    (hside : ∀ f ∈ p.head?, f.side = if val < f.data.value then .left else .right) :
    ∃ h₁, linked h val (top p) = some h₁ ∧
      h₁.mem.At h₁.root (resize p 1) (.leaf h.fresh (newData val)) ∧
      h₁.fresh = h.fresh + 1 ∧ (resize p 1).length ≤ h.fresh := by
  have hmem : ∀ b ∈ pathRefs p, b < h.fresh := fun b hb => hs.fresh b (mem_refs_plug.2 (Or.inr hb))
  have hlen : p.length ≤ h.fresh := by
    have hrefs : (pathRefs p).length = (plug p .nil).refs.length :=
      (refs_plug p (.nil : PtrTree Data)).length_eq
    exact (length_le_pathRefs p).trans (hrefs.le.trans (hs.at_root.length_refs_le hs.fresh))
  obtain ⟨hattached, hfresh⟩ := attach_ok val (at_plug.2 hs.at_root)
    (fun hp => Nat.lt_irrefl _ (hmem _ hp)) hside
  -- The size of the new node is updated first, to what it is already.
  have hleaf := at_updateSize (s := .left) hattached
  obtain ⟨m, hm, hsized⟩ := updateSizes_ok p _ h.fresh hleaf hlen
  have hsizes : updateSizes (attach (createNode h val).2 val h.fresh (top p)).fresh
      (attach (createNode h val).2 val h.fresh (top p)).mem (some h.fresh) = some m := by
    rw [hfresh, updateSizes, hleaf.parent_eq rfl]
    exact hm
  refine ⟨{ attach (createNode h val).2 val h.fresh (top p) with mem := m }, ?_, hsized, hfresh, ?_⟩
  · exact congrArg (Option.map _) hsizes
  · rwa [length_resize]

/-- What `insertValue` does behind its search. -/
theorem insertBelow_ok {h : Heap} {p : TreePath Data} {val : Int} (hs : Shows h (plug p .nil))
    (hside : ∀ f ∈ p.head?, f.side = if val < f.data.value then .left else .right) :
    ∃ h', ((linked h val (top p)).bind fun h₁ => fixInsert h₁ h.fresh) = some h' ∧
      Shows h' (insertAt h.fresh val p) := by
  obtain ⟨h₁, hlinked, hat, hfresh, hlen⟩ := linked_ok hs hside
  obtain ⟨h', hfix, hat', hfresh'⟩ := fixInsert_ok hat rfl rfl
    (rootBlack_resize (rootBlack_of_plug hs.root_black)) (hlen.trans (hfresh ▸ Nat.le_succ _))
  refine ⟨h', ?_, hat', fun b hb => ?_, rootRed_paintRoot_black _⟩
  · rw [hlinked]
    exact hfix
  -- No reference but the one of the new node has been added.
  · rw [hfresh'.trans hfresh]
    rw [insertAt, refs_paintRoot] at hb
    rcases refs_fixUp _ _ b hb with hb | hb
    · obtain rfl : b = h.fresh := by simpa [PtrTree.leaf, PtrTree.refs] using hb
      exact Nat.lt_succ_self _
    · rw [pathRefs_resize] at hb
      exact Nat.lt_succ_of_lt (hs.fresh b (mem_refs_plug.2 (Or.inr hb)))

/-- `insertValue` always ends, and does what `insertTree` does. -/
theorem insertValue_ok {h : Heap} {t : PtrTree Data} (hs : Shows h t) (val : Int) :
    ∃ h', insertValue h val = some h' ∧ Shows h' (insertTree h.fresh val t) := by
  rw [insertValue_eq, search_root hs]
  cases hlocate : locate val t [] with
  | none =>
      refine ⟨h, rfl, ?_⟩
      rw [insertTree, hlocate]
      exact hs
  | some p =>
      rw [insertTree, hlocate]
      have hplug : plug p .nil = t := plug_locate hlocate
      subst hplug
      exact insertBelow_ok hs (locate_side hlocate (by simp))

end ThirdMax
end Leetcode
