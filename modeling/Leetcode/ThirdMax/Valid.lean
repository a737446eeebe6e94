import Leetcode.Lib.Run
import Leetcode.ThirdMax.Insert

/-!
# Is the tree of `insertValue` red-black?

`ValidRedBlack` is the invariant of the tree in the heap.  It does not survive the
second half of `fixInsert`: there the code reads `grandParent->right` for the
uncle, which is the parent itself.  An insertion that stays in the first half keeps
it (`keepsRedBlack_step`), so the runs that keep it are the runs of such
insertions (`keepsRedBlack_iff`).
-/

namespace Leetcode
namespace ThirdMax

open CLib

/-- The heap holds a red-black tree of logarithmic height. -/
def ValidRedBlack (h : Heap) : Prop :=
  ∃ t, h.mem.At h.root [] t ∧ t.RedBlack Data.isRed ∧ t.height ≤ 2 * Nat.log 2 (t.count + 1)

/-- The insertion leaves a valid tree. -/
def KeepsRedBlack (h : Heap) (val : Int) : Prop :=
  ∃ h', insertValue h val = some h' ∧ ValidRedBlack h'

/-- The repair above the place of the new node does not reach the second half. -/
def Unmirrored (h : Heap) (val : Int) : Prop :=
  ∀ t p, h.mem.At h.root [] t → locate val t [] = some p → ¬Mirrored p

theorem Shows.unique {h : Heap} {t u : PtrTree Data} (hs : Shows h t) (hu : h.mem.At h.root [] u) :
    u = t :=
  hu.tree.unique hs.at_root.tree (hu.root_eq.symm.trans hs.at_root.root_eq)

theorem Shows.valid_iff {h : Heap} {t : PtrTree Data} (hs : Shows h t) :
    ValidRedBlack h ↔ t.RedBlack Data.isRed := by
  constructor
  · rintro ⟨u, hu, hrb, -⟩
    rwa [hs.unique hu] at hrb
  · intro hrb
    exact ⟨t, hs.at_root, hrb, redBlack_height_le hrb⟩

/-! ## One insertion -/

theorem evenBlack_paintRoot {t : PtrTree Data} (h : EvenBlack (paintRoot .black t)) :
    EvenBlack t := by
  cases t with
  | nil => exact h
  | node a d l r =>
      obtain ⟨n, hn⟩ := h
      obtain ⟨k, hl, hr, -⟩ := blackHeight_node.1 hn
      exact ⟨_, blackHeight_node.2 ⟨k, hl, hr, rfl⟩⟩

theorem redBlack_paintRoot {t : PtrTree Data} {n : ℕ} (h : Bal t n) :
    (paintRoot .black t).RedBlack Data.isRed := by
  refine redBlack_iff.2 ⟨rootRed_paintRoot_black t, ?_⟩
  cases t with
  | nil => exact ⟨n, h⟩
  | node a d l r =>
      obtain ⟨-, k, hl, hr, -⟩ := balanced_node.1 h
      exact ⟨k + 1, balanced_black (s := .left) rfl hl hr⟩

/-- The tree with a new node is red-black exactly when the repair stays in the
first half. -/
theorem redBlack_insertAt {p : TreePath Data} (hrb : (plug p .nil).RedBlack Data.isRed) (z : Ref)
    (val : Int) : (insertAt z val p).RedBlack Data.isRed ↔ ¬Mirrored p := by
  obtain ⟨hroot, hbal⟩ := redBlack_iff.1 hrb
  obtain ⟨n, hnil, hfits, -⟩ := balanced_plug_iff.1 hbal
  -- The new red leaf has the black height of the missing child it replaces.
  have hleaf : Bal (.leaf z (newData val)) n := balanced_red (s := .left) rfl hnil hnil rfl rfl
  have hfits' : Fits Data.isRed (resize p 1) n := fits_resize hfits
  rw [← mirrored_resize p 1]
  constructor
  · intro h hm
    obtain ⟨-, m, hm'⟩ := redBlack_iff.1 h
    exact fixUp_mirrored _ _ n hleaf hfits' hm (evenBlack_paintRoot ⟨m, hm'.black_height⟩)
  · intro hm
    obtain ⟨m, hm'⟩ :=
      fixUp_balanced _ _ n hleaf rfl hfits' (rootBlack_resize (rootBlack_of_plug hroot)) hm
    exact redBlack_paintRoot hm'

theorem keepsRedBlack_step {h : Heap} {t : PtrTree Data} (hs : Shows h t)
    (hrb : t.RedBlack Data.isRed) (val : Int) : KeepsRedBlack h val ↔ Unmirrored h val := by
  obtain ⟨h', hh', hs'⟩ := insertValue_ok hs val
  have hkeeps : KeepsRedBlack h val ↔ (insertTree h.fresh val t).RedBlack Data.isRed := by
    rw [← hs'.valid_iff, KeepsRedBlack, hh']
    simp
  have hplace : Unmirrored h val ↔ ∀ p, locate val t [] = some p → ¬Mirrored p := by
    constructor
    · intro hun p hp
      exact hun t p hs.at_root hp
    · intro hun u p hu hp
      rw [hs.unique hu] at hp
      exact hun p hp
  rw [hkeeps, hplace, insertTree]
  cases hlocate : locate val t [] with
  | none => simpa using hrb
  | some p =>
      have hplug : plug p .nil = t := plug_locate hlocate
      subst hplug
      simpa using redBlack_insertAt hrb h.fresh val

/-! ## Runs -/

/-- Every sequence of insertions runs to its end. -/
theorem run_shows {h : Heap} {t : PtrTree Data} (hs : Shows h t) (vals : List Int) :
    ∃ h' t', Run insertValue (fun _ _ => True) h vals h' ∧ Shows h' t' := by
  induction vals generalizing h t with
  | nil => exact ⟨h, t, .nil h, hs⟩
  | cons val vals ih =>
      obtain ⟨h₁, hh₁, hs₁⟩ := insertValue_ok hs val
      obtain ⟨h', t', hrun, hs'⟩ := ih hs₁
      exact ⟨h', t', .cons trivial hh₁ hrun, hs'⟩

/-- The heap shows a red-black tree. -/
def ShowsRedBlack (h : Heap) : Prop := ∃ t, Shows h t ∧ t.RedBlack Data.isRed

theorem showsRedBlack_init : ShowsRedBlack Heap.init :=
  ⟨.nil, shows_init, redBlack_iff.2 ⟨rfl, 0, trivial, blackHeight_nil.2 rfl⟩⟩

theorem showsRedBlack_step {h h' : Heap} {val : Int} (hI : ShowsRedBlack h)
    (hkeeps : KeepsRedBlack h val) (hstep : insertValue h val = some h') : ShowsRedBlack h' := by
  obtain ⟨t, hs, -⟩ := hI
  obtain ⟨h₁, hh₁, hs₁⟩ := insertValue_ok hs val
  obtain ⟨h₂, hh₂, hvalid⟩ := hkeeps
  obtain rfl : h' = h₁ := Option.some.inj (hstep.symm.trans hh₁)
  obtain rfl : h' = h₂ := Option.some.inj (hstep.symm.trans hh₂)
  exact ⟨_, hs₁, hs₁.valid_iff.1 hvalid⟩

/-- Every sequence of insertions runs to its end, and the tree is valid after each
of them exactly when none of them reaches the second half of `fixInsert`. -/
theorem keepsRedBlack_iff (vals : List Int) :
    ∃ h, Run insertValue (fun _ _ => True) Heap.init vals h ∧
      (Run insertValue KeepsRedBlack Heap.init vals h ↔
        Run insertValue Unmirrored Heap.init vals h) := by
  obtain ⟨h, -, hrun, -⟩ := run_shows shows_init vals
  refine ⟨h, hrun, fun hkeeps => ?_, fun hun => ?_⟩
  · apply hkeeps.mono showsRedBlack_init
    · intro s val s' hI hk hs'
      exact showsRedBlack_step hI hk hs'
    · rintro s val s' ⟨t, hs, hrb⟩ - hk
      exact (keepsRedBlack_step hs hrb val).1 hk
  · apply hun.mono showsRedBlack_init
    · rintro s val s' ⟨t, hs, hrb⟩ hu hs'
      exact showsRedBlack_step ⟨t, hs, hrb⟩ ((keepsRedBlack_step hs hrb val).2 hu) hs'
    · rintro s val s' ⟨t, hs, hrb⟩ - hu
      exact (keepsRedBlack_step hs hrb val).2 hu

/-- `3` becomes a right child of `2`, a right child: the repair paints `2` black and
does not rotate. -/
theorem validRedBlack_fails :
    ¬∀ vals h, Run insertValue (fun _ _ => True) Heap.init vals h → ValidRedBlack h := by
  intro hall
  obtain ⟨h₁, hh₁, hs₁⟩ := insertValue_ok shows_init 1
  obtain ⟨h₂, hh₂, hs₂⟩ := insertValue_ok hs₁ 2
  obtain ⟨h₃, hh₃, hs₃⟩ := insertValue_ok hs₂ 3
  have hrun : Run insertValue (fun _ _ => True) Heap.init [1, 2, 3] h₃ :=
    .cons trivial hh₁ (.cons trivial hh₂ (.cons trivial hh₃ (.nil h₃)))
  have hrb := hs₃.valid_iff.1 (hall _ _ hrun)
  have hcounts : (insertTree h₂.fresh 3 (insertTree h₁.fresh 2
      (insertTree Heap.init.fresh 1 .nil))).blackCounts Data.isRed = [1, 2, 2, 2] := rfl
  have heq := hrb.black_eq
  rw [hcounts] at heq
  exact absurd (heq 1 (by simp) 2 (by simp)) (by decide)

end ThirdMax
end Leetcode
