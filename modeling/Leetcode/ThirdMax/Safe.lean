import Mathlib.Logic.Relation
import Leetcode.Lib.Run
import Leetcode.ThirdMax.Insert

/-!
# The loop of `fixInsert` never leaves the tree

The trees need not be red-black, so only two facts are left to go by: `z` is red, and the
root is black.  A red parent is then not the root, and has a parent itself.

* `fixTest`, `fixBody` — the condition of the loop and its body, one round at a time.
* `Fixing` — the invariant: the path from `z` ends at a black root.
* `fixInsert_safe` — in every round, every node that is read, painted or turned exists, and the
  rounds come to an end.
-/

namespace Leetcode
namespace ThirdMax

open CLib

/-! ## Rounds of the loop -/

/-- `z!=*root && z->parent->color == red`, or `none` if `z->parent` is `NULL` when its colour is
read. -/
def fixTest (h : Heap) (z : Ref) : Option Bool :=
  if h.root = some z then some false
  else (h.mem z).parent.map fun parent => isRed h.mem (some parent)

/-- The body of the loop: the heap and the next `z`. -/
def fixBody (h : Heap) (z : Ref) : Option (Heap × Ref) :=
  (h.mem z).parent.bind fun parent =>
    match (h.mem parent).parent with
    | some grandParent =>
        if (h.mem grandParent).left = some parent then some (fixLeft h z parent grandParent)
        else fixRight h z parent (some grandParent)
    | none => fixRight h z parent none

/-- The rounds are those of `fixLoop`. -/
theorem fixLoop_succ (fuel : ℕ) (h : Heap) (z : Ref) :
    fixLoop (fuel + 1) h z = (fixTest h z).bind fun go =>
      if go then (fixBody h z).bind fun next => fixLoop fuel next.1 next.2 else some h := by
  rw [fixLoop, fixTest, fixBody]
  by_cases hroot : h.root = some z
  · rw [if_pos hroot, if_pos hroot]
    rfl
  · rw [if_neg hroot, if_neg hroot]
    cases hparent : (h.mem z).parent with
    | none => rfl
    | some parent =>
        simp only [Option.bind_some, Option.map_some]
        split
        · cases hg : (h.mem parent).parent with
          | none => rfl
          | some g =>
              simp only []
              by_cases hleft : (h.mem g).left = some parent
              · rw [if_pos hleft, if_pos hleft]
                rfl
              · rw [if_neg hleft, if_neg hleft]
        · rfl

/-- One round. -/
def FixRound (s s' : Heap × Ref) : Prop :=
  fixTest s.1 s.2 = some true ∧ fixBody s.1 s.2 = some s'

/-- What the body paints, in the order of the code, and what it hands to a rotation together with
the child that goes up.  A rotation of `NULL`, or without that child, would do nothing. -/
def fixTouched (h : Heap) (z parent grandParent : Ref) : List (Option Ref) :=
  let uncle := (h.mem grandParent).right
  if isRed h.mem uncle then [some parent, uncle, some grandParent]
  else if (h.mem grandParent).left = some parent then
    if (h.mem parent).right = some z then [some parent, (h.mem parent).right]
    else [some parent, some grandParent, (h.mem grandParent).left]
  else if (h.mem parent).left = some z then
    [some parent, (h.mem parent).left, some grandParent,
      ((rightRotate h (some parent)).mem grandParent).right]
  else [some parent, some grandParent, uncle]

/-- A node of the tree. -/
def Node (h : Heap) (a : Ref) : Prop :=
  ∃ t, h.mem.At h.root [] t ∧ a ∈ t.refs

/-- A round in which nothing is read, painted or turned that is not there. -/
structure SafeRound (h : Heap) (z : Ref) : Prop where
  test : ∃ go, fixTest h z = some go
  body : fixTest h z = some true → ∃ parent grandParent next,
    (h.mem z).parent = some parent ∧ (h.mem parent).parent = some grandParent ∧
      (∀ q ∈ fixTouched h z parent grandParent, ∃ a, q = some a ∧ Node h a) ∧
      fixBody h z = some next

/-! ## The invariant -/

/-- `z` is red, and the path above it ends at a black root. -/
def Fixing (h : Heap) (z : Ref) : Prop :=
  ∃ p t, h.mem.At h.root p t ∧ t.ref = some z ∧ t.rootRed Data.isRed = true ∧ RootBlack p

section Round

variable {h : Heap} {p : TreePath Data} {t : PtrTree Data} {f g : Frame Data} {z : Ref}

theorem node_of_mem {a : Ref} (hat : h.mem.At h.root p t) (ha : a ∈ t.refs ∨ a ∈ pathRefs p) :
    Node h a :=
  ⟨plug p t, at_plug.1 hat, mem_refs_plug.2 ha⟩

theorem fixTest_root (hat : h.mem.At h.root [] t) (hz : t.ref = some z) :
    fixTest h z = some false := by
  rw [fixTest, if_pos (hat.root_eq.trans hz)]

theorem fixTest_below (hat : h.mem.At h.root (f :: p) t) (hz : t.ref = some z) :
    fixTest h z = some f.data.isRed := by
  rw [fixTest, if_neg (hat.root_ne hz), hat.parent_eq hz, top, Option.map_some, isRed_above hat]

theorem parent_parent (hat : h.mem.At h.root (f :: g :: p) t) :
    (h.mem f.ref).parent = some g.ref := by
  rw [hat.path.1, parent_cellAt]
  rfl

theorem fixBody_left (hat : h.mem.At h.root (f :: g :: p) t) (hz : t.ref = some z)
    (hg : g.side = .left) : fixBody h z = some (fixLeft h z f.ref g.ref) := by
  have hleft : (h.mem g.ref).left = some f.ref :=
    ((at_up.1 hat).child_eq_iff (s := .left) (PtrTree.ref_nodeAt ..)).2 hg
  rw [fixBody, hat.parent_eq hz, top, Option.bind_some, parent_parent hat]
  exact if_pos hleft

theorem left_of_right (hat : h.mem.At h.root (f :: g :: p) t) (hg : g.side = .right) :
    (h.mem g.ref).left ≠ some f.ref := by
  intro hleft
  have hside := ((at_up.1 hat).child_eq_iff (s := .left) (PtrTree.ref_nodeAt ..)).1 hleft
  rw [hg] at hside
  cases hside

theorem fixBody_right (hat : h.mem.At h.root (f :: g :: p) t) (hz : t.ref = some z)
    (hg : g.side = .right) : fixBody h z = fixRight h z f.ref (some g.ref) := by
  rw [fixBody, hat.parent_eq hz, top, Option.bind_some, parent_parent hat]
  exact if_neg (left_of_right hat hg)

theorem node_of_isRed {q : Option Ref} (hat : h.mem.At h.root (f :: g :: p) t)
    (hq : q = g.sibling.ref) (hred : isRed h.mem q = true) : ∃ a, q = some a ∧ Node h a := by
  cases q with
  | none => cases hred
  | some b =>
      refine ⟨b, rfl, node_of_mem hat (Or.inr ?_)⟩
      have hmem : b ∈ g.sibling.refs := PtrTree.mem_refs_of_ref hq.symm
      simp [pathRefs, hmem]

/-- The first half: the uncle is painted only if it is red. -/
theorem fixTouched_left (hat : h.mem.At h.root (f :: g :: p) t) (hz : t.ref = some z)
    (hg : g.side = .left) :
    ∀ q ∈ fixTouched h z f.ref g.ref, ∃ a, q = some a ∧ Node h a := by
  have hparent : ∃ a, some f.ref = some a ∧ Node h a :=
    ⟨f.ref, rfl, node_of_mem hat (by simp [pathRefs])⟩
  have hgrand : ∃ a, some g.ref = some a ∧ Node h a :=
    ⟨g.ref, rfl, node_of_mem hat (by simp [pathRefs])⟩
  have hnode : ∃ a, some z = some a ∧ Node h a :=
    ⟨z, rfl, node_of_mem hat (Or.inl (PtrTree.mem_refs_of_ref hz))⟩
  have hleft : (h.mem g.ref).left = some f.ref :=
    ((at_up.1 hat).child_eq_iff (s := .left) (PtrTree.ref_nodeAt ..)).2 hg
  unfold fixTouched
  simp only [hleft, if_true]
  split
  · next hred =>
      have huncle := node_of_isRed hat (right_of_left hat hg) hred
      simp only [List.forall_mem_cons]
      exact ⟨hparent, huncle, hgrand, List.forall_mem_nil _⟩
  · split
    · next hright =>
        simp only [hright, List.forall_mem_cons]
        exact ⟨hparent, hnode, List.forall_mem_nil _⟩
    · simp only [List.forall_mem_cons]
      exact ⟨hparent, hgrand, hparent, List.forall_mem_nil _⟩

/-- The second half: the uncle is the parent, and red. -/
theorem fixTouched_right (hat : h.mem.At h.root (f :: g :: p) t) (hf : f.data.isRed = true)
    (hg : g.side = .right) :
    ∀ q ∈ fixTouched h z f.ref g.ref, ∃ a, q = some a ∧ Node h a := by
  have hparent : ∃ a, some f.ref = some a ∧ Node h a :=
    ⟨f.ref, rfl, node_of_mem hat (by simp [pathRefs])⟩
  have hgrand : ∃ a, some g.ref = some a ∧ Node h a :=
    ⟨g.ref, rfl, node_of_mem hat (by simp [pathRefs])⟩
  have hred : isRed h.mem (some f.ref) = true := by rw [isRed_above hat, hf]
  unfold fixTouched
  simp only [right_of_right hat hg, hred, if_true, List.forall_mem_cons]
  exact ⟨hparent, hparent, hgrand, List.forall_mem_nil _⟩

/-! ## One round -/

/-- A round below a red parent keeps the invariant. -/
theorem fixing_left (hat : h.mem.At h.root (f :: g :: p) t) (hz : t.ref = some z)
    (hred : t.rootRed Data.isRed = true) (hroot : RootBlack (f :: g :: p))
    (hf : f.data.isRed = true) (hg : g.side = .left) :
    Fixing (fixLeft h z f.ref g.ref).1 (fixLeft h z f.ref g.ref).2 := by
  by_cases hgr : g.sibling.rootRed Data.isRed = true
  · obtain ⟨hat', hz', -⟩ := fixLeft_recolours (z := z) hat hg hgr
    exact ⟨p, _, hat', hz', rootRed_fill _ _, rootBlack_tail hroot⟩
  have hgb := Bool.eq_false_iff.2 hgr
  cases hfs : f.side with
  | left =>
      obtain ⟨f', ⟨hat', hz', -⟩, hblack, -⟩ := fixLeft_outer hat hz hfs hg hgb
      refine ⟨f' :: p, t, hat', hz', hred, ?_⟩
      -- The parent is black now, so the path may also end there.
      cases p with
      | nil => exact hblack
      | cons g' p => exact hroot
  | right =>
      cases t with
      | nil => cases hz
      | node a d l r =>
          cases hz
          obtain ⟨hat', hz', -⟩ := fixLeft_inner hat hfs hg hgb
          exact ⟨_, _, hat', hz', hf, hroot⟩

theorem fixing_step (hI : Fixing h z) : SafeRound h z ∧
    ∀ s', FixRound (h, z) s' → Fixing s'.1 s'.2 := by
  obtain ⟨p, t, hat, hz, hred, hroot⟩ := hI
  match p with
  | [] =>
      have htest := fixTest_root hat hz
      refine ⟨⟨⟨false, htest⟩, fun hgo => ?_⟩, fun s' hround => ?_⟩
      · exact absurd (htest.symm.trans hgo) (by simp)
      · exact absurd (htest.symm.trans hround.1) (by simp)
  | [f] =>
      have htest : fixTest h z = some false := (fixTest_below hat hz).trans (congrArg some hroot)
      refine ⟨⟨⟨false, htest⟩, fun hgo => ?_⟩, fun s' hround => ?_⟩
      · exact absurd (htest.symm.trans hgo) (by simp)
      · exact absurd (htest.symm.trans hround.1) (by simp)
  | f :: g :: p =>
      have htest := fixTest_below hat hz
      have hfred : fixTest h z = some true → f.data.isRed = true := fun hgo =>
        Option.some.inj (htest.symm.trans hgo)
      have hparents := And.intro (hat.parent_eq hz) (parent_parent hat)
      cases hg : g.side with
      | left =>
          have hbody := fixBody_left hat hz hg
          refine ⟨⟨⟨_, htest⟩, fun hgo => ?_⟩, fun s' hround => ?_⟩
          · exact ⟨f.ref, g.ref, _, hparents.1, hparents.2, fixTouched_left hat hz hg, hbody⟩
          · obtain rfl := Option.some.inj (hbody.symm.trans hround.2)
            exact fixing_left hat hz hred hroot (hfred hround.1) hg
      | right =>
          have hbody := fixBody_right hat hz hg
          refine ⟨⟨⟨_, htest⟩, fun hgo => ?_⟩, fun s' hround => ?_⟩
          · obtain ⟨next, hnext, -⟩ := fixRight_recolours (z := z) hat (hfred hgo) hg
            exact ⟨f.ref, g.ref, next, hparents.1, hparents.2,
              fixTouched_right hat (hfred hgo) hg, hbody.trans hnext⟩
          · obtain ⟨next, hnext, hat', hz', -⟩ :=
              fixRight_recolours (z := z) hat (hfred hround.1) hg
            obtain rfl := Option.some.inj (hnext.symm.trans (hbody.symm.trans hround.2))
            exact ⟨p, _, hat', hz', rootRed_fill _ _, rootBlack_tail hroot⟩

/-- Every round of the loop is safe. -/
theorem fixing_rounds (hI : Fixing h z) {s' : Heap × Ref}
    (hrounds : Relation.ReflTransGen FixRound (h, z) s') : SafeRound s'.1 s'.2 := by
  have hI' : Fixing s'.1 s'.2 := by
    induction hrounds with
    | refl => exact hI
    | tail _ hround ih => exact (fixing_step ih).2 _ hround
  exact (fixing_step hI').1

end Round

/-! ## The calls of `fixInsert` -/

/-- The heap after any calls of `insertValue` shows a tree. -/
theorem shows_run {vals : List Int} {h : Heap}
    (hrun : Run insertValue (fun _ _ => True) Heap.init vals h) : ∃ t, Shows h t := by
  apply hrun.invariant (I := fun h => ∃ t, Shows h t) ⟨.nil, shows_init⟩
  rintro h val h' ⟨t, hs⟩ - hstep
  obtain ⟨h₁, hh₁, hs₁⟩ := insertValue_ok hs val
  obtain rfl : h' = h₁ := Option.some.inj (hstep.symm.trans hh₁)
  exact ⟨_, hs₁⟩

/-- The search of `insertValue` ends.  If the value is new, `fixInsert` ends for its node, and
every round of its loop is safe. -/
def SafeInsert (h : Heap) (val : Int) : Prop :=
  ∃ place, search h.mem val h.fresh none h.root = some place ∧
    ∀ y, place = .below y → ∃ h₁, linked h val y = some h₁ ∧
      (∃ h', fixInsert h₁ h.fresh = some h') ∧
      ∀ s', Relation.ReflTransGen FixRound (h₁, h.fresh) s' → SafeRound s'.1 s'.2

/-- After any calls of `insertValue`, the loop of the next one ends and is safe. -/
theorem fixInsert_safe (vals : List Int) (h : Heap)
    (hrun : Run insertValue (fun _ _ => True) Heap.init vals h) (val : Int) :
    SafeInsert h val := by
  obtain ⟨t, hs⟩ := shows_run hrun
  refine ⟨_, search_root hs val, ?_⟩
  cases hlocate : locate val t [] with
  | none => exact nofun
  | some p =>
      rintro y ⟨⟩
      have hplug : plug p .nil = t := plug_locate hlocate
      subst hplug
      have hside := locate_side hlocate (by simp)
      obtain ⟨h₁, hlinked, hat, -, -⟩ := linked_ok hs hside
      obtain ⟨h', hfix, -⟩ := insertBelow_ok hs hside
      rw [hlinked, Option.bind_some] at hfix
      have hI : Fixing h₁ h.fresh :=
        ⟨_, _, hat, rfl, rfl, rootBlack_resize (rootBlack_of_plug hs.root_black)⟩
      exact ⟨h₁, hlinked, ⟨h', hfix⟩, fun s' hrounds => fixing_rounds hI hrounds⟩

theorem fixInsert_safe_list :
    ∃ h, Run insertValue (fun _ _ => True) Heap.init [1, 2] h ∧ SafeInsert h 3 :=
  have hrun := Run.of_exec (t := Option.get (exec insertValue (fun _ _ => True) Heap.init [1, 2])
    (by decide)) (Option.some_get _).symm
  ⟨_, hrun, fixInsert_safe [1, 2] _ hrun 3⟩

end ThirdMax
end Leetcode
