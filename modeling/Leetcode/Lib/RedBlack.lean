import Mathlib.Algebra.Group.Nat.Defs
import Mathlib.Data.Nat.Log
import Leetcode.Lib.PtrTree

/-!
# Red-black trees

The colour of a node is read off its payload by `red`.  `RedBlack` is the usual
definition: a black root, no red node with a red child, and as many black nodes
on every path from the root to a missing child.

* `redBlack_height_le` — the height of a red-black tree.
* `balanced_plug_iff` — a tree is balanced exactly when a subtree of it is and
  the path above it fits (`Fits`), so that a repair needs to look only at what it
  changes.
-/

namespace CLib

variable {δ : Type*} (red : δ → Bool)

def PtrTree.rootRed : PtrTree δ → Bool
  | .nil => false
  | .node _ d _ _ => red d

variable {red} in
/-- A red root is a node. -/
theorem exists_ref_of_rootRed {t : PtrTree δ} (h : t.rootRed red = true) : ∃ b, t.ref = some b := by
  cases t with
  | nil => cases h
  | node b d l r => exact ⟨b, rfl⟩

/-- No red node has a red child. -/
def PtrTree.NoRedRed : PtrTree δ → Prop
  | .nil => True
  | .node _ d l r =>
      (red d = true → l.rootRed red = false ∧ r.rootRed red = false) ∧
        l.NoRedRed ∧ r.NoRedRed

/-- What a node adds to the number of black nodes. -/
def blackUnit (d : δ) : ℕ := if red d then 0 else 1

/-- The numbers of black nodes on the paths from the root to a missing child. -/
def PtrTree.blackCounts : PtrTree δ → List ℕ
  | .nil => [0]
  | .node _ d l r => (l.blackCounts ++ r.blackCounts).map (· + blackUnit red d)

/-- The number of nodes on the longest path from the root. -/
def PtrTree.height : PtrTree δ → ℕ
  | .nil => 0
  | .node _ _ l r => max l.height r.height + 1

def PtrTree.count : PtrTree δ → ℕ
  | .nil => 0
  | .node _ _ l r => l.count + r.count + 1

theorem height_le_length_refs (t : PtrTree δ) : t.height ≤ t.refs.length := by
  induction t with
  | nil => exact Nat.le_refl 0
  | node a d l r ihl ihr =>
      simp only [PtrTree.height, PtrTree.refs, List.length_cons, List.length_append]
      omega

structure PtrTree.RedBlack (t : PtrTree δ) : Prop where
  root_black : t.rootRed red = false
  no_red_red : t.NoRedRed red
  black_eq : ∀ a ∈ t.blackCounts red, ∀ b ∈ t.blackCounts red, a = b

/-- Every path has `n` black nodes. -/
def PtrTree.BlackHeight (t : PtrTree δ) (n : ℕ) : Prop :=
  ∀ c ∈ t.blackCounts red, c = n

/-- A red-black tree up to the colour of its root. -/
structure PtrTree.Balanced (t : PtrTree δ) (n : ℕ) : Prop where
  no_red_red : t.NoRedRed red
  black_height : t.BlackHeight red n

theorem blackCounts_ne_nil (t : PtrTree δ) : t.blackCounts red ≠ [] := by
  cases t with
  | nil => simp [PtrTree.blackCounts]
  | node a d l r =>
      have hl := blackCounts_ne_nil l
      simp [PtrTree.blackCounts, hl]

variable {red}

theorem blackHeight_nil {n : ℕ} : (PtrTree.nil : PtrTree δ).BlackHeight red n ↔ n = 0 := by
  simp [PtrTree.BlackHeight, PtrTree.blackCounts, eq_comm]

theorem blackHeight_node {a : Ref} {d : δ} {l r : PtrTree δ} {n : ℕ} :
    (PtrTree.node a d l r).BlackHeight red n ↔
      ∃ k, l.BlackHeight red k ∧ r.BlackHeight red k ∧ n = k + blackUnit red d := by
  constructor
  · intro h
    -- Some path on the left fixes the black height of both sides.
    obtain ⟨k, hk⟩ := List.exists_mem_of_ne_nil _ (blackCounts_ne_nil red l)
    have hn : ∀ c ∈ l.blackCounts red ++ r.blackCounts red, c + blackUnit red d = n :=
      fun c hc => h _ (List.mem_map_of_mem hc)
    have hkn := hn k (List.mem_append_left _ hk)
    refine ⟨k, fun c hc => ?_, fun c hc => ?_, hkn.symm⟩
    · have hcn := hn c (List.mem_append_left _ hc)
      omega
    · have hcn := hn c (List.mem_append_right _ hc)
      omega
  · rintro ⟨k, hl, hr, rfl⟩ c hc
    obtain ⟨c', hc', rfl⟩ := List.mem_map.1 hc
    rcases List.mem_append.1 hc' with hc' | hc'
    · rw [hl c' hc']
    · rw [hr c' hc']

/-- The black height is determined. -/
theorem blackHeight_unique {t : PtrTree δ} {n m : ℕ} (hn : t.BlackHeight red n)
    (hm : t.BlackHeight red m) : n = m := by
  obtain ⟨c, hc⟩ := List.exists_mem_of_ne_nil _ (blackCounts_ne_nil red t)
  exact (hn c hc).symm.trans (hm c hc)

theorem redBlack_iff {t : PtrTree δ} :
    t.RedBlack red ↔ t.rootRed red = false ∧ ∃ n, t.Balanced red n := by
  constructor
  · rintro ⟨hroot, hnrr, heq⟩
    obtain ⟨n, hn⟩ := List.exists_mem_of_ne_nil _ (blackCounts_ne_nil red t)
    exact ⟨hroot, n, hnrr, fun c hc => heq c hc n hn⟩
  · rintro ⟨hroot, n, hnrr, hbh⟩
    exact ⟨hroot, hnrr, fun a ha b hb => (hbh a ha).trans (hbh b hb).symm⟩

theorem balanced_node {a : Ref} {d : δ} {l r : PtrTree δ} {n : ℕ} :
    (PtrTree.node a d l r).Balanced red n ↔
      (red d = true → l.rootRed red = false ∧ r.rootRed red = false) ∧
        ∃ k, l.Balanced red k ∧ r.Balanced red k ∧ n = k + blackUnit red d := by
  constructor
  · rintro ⟨⟨hred, hl, hr⟩, hbh⟩
    obtain ⟨k, hlk, hrk, hn⟩ := blackHeight_node.1 hbh
    exact ⟨hred, k, ⟨hl, hlk⟩, ⟨hr, hrk⟩, hn⟩
  · rintro ⟨hred, k, hl, hr, hn⟩
    exact ⟨⟨hred, hl.no_red_red, hr.no_red_red⟩,
      blackHeight_node.2 ⟨k, hl.black_height, hr.black_height, hn⟩⟩

/-! ## Height -/

/-- A balanced tree has many nodes and short paths. -/
theorem balanced_bounds {t : PtrTree δ} {n : ℕ} (h : t.Balanced red n) :
    2 ^ n ≤ t.count + 1 ∧ t.height ≤ 2 * n + (if t.rootRed red then 1 else 0) := by
  induction t generalizing n with
  | nil =>
      obtain rfl := blackHeight_nil.1 h.black_height
      simp [PtrTree.count, PtrTree.height]
  | node a d l r ihl ihr =>
      obtain ⟨hred, k, hl, hr, rfl⟩ := balanced_node.1 h
      obtain ⟨hcl, hhl⟩ := ihl hl
      obtain ⟨hcr, hhr⟩ := ihr hr
      simp only [PtrTree.count, PtrTree.height, PtrTree.rootRed, blackUnit]
      by_cases hd : red d = true
      · -- A red node adds to the paths but not to the black height.
        obtain ⟨hlb, hrb⟩ := hred hd
        rw [hlb] at hhl
        rw [hrb] at hhr
        simp only [hd, Bool.false_eq_true, if_false, if_true, Nat.add_zero] at hhl hhr ⊢
        omega
      · have hpow : 2 ^ (k + 1) = 2 ^ k + 2 ^ k := by rw [Nat.pow_succ, Nat.mul_two]
        simp only [if_neg hd]
        rw [hpow]
        constructor
        · omega
        · split at hhl <;> split at hhr <;> omega

theorem redBlack_height_le {t : PtrTree δ} (h : t.RedBlack red) :
    t.height ≤ 2 * Nat.log 2 (t.count + 1) := by
  obtain ⟨hroot, n, hbal⟩ := redBlack_iff.1 h
  obtain ⟨hcount, hheight⟩ := balanced_bounds hbal
  rw [hroot] at hheight
  have hlog : n ≤ Nat.log 2 (t.count + 1) := Nat.le_log_of_pow_le (by omega) hcount
  simp only [Bool.false_eq_true, if_false] at hheight
  omega

/-! ## Paths -/

variable (red) in
/-- The node above the hole is red. -/
def topRed : TreePath δ → Bool
  | [] => false
  | f :: _ => red f.data

variable (red) in
/-- What is above and beside a hole is balanced, if the hole has black height `n`. -/
def Fits : TreePath δ → ℕ → Prop
  | [], _ => True
  | f :: p, n => f.sibling.Balanced red n ∧
      (red f.data = true → f.sibling.rootRed red = false ∧ topRed red p = false) ∧
        Fits p (n + blackUnit red f.data)

@[simp] theorem rootRed_fill (f : Frame δ) (t : PtrTree δ) :
    (f.fill t).rootRed red = red f.data := by
  unfold Frame.fill PtrTree.nodeAt
  cases f.side <;> rfl

theorem balanced_fill {f : Frame δ} {t : PtrTree δ} {n : ℕ} :
    (f.fill t).Balanced red n ↔
      (red f.data = true → t.rootRed red = false ∧ f.sibling.rootRed red = false) ∧
        ∃ k, t.Balanced red k ∧ f.sibling.Balanced red k ∧ n = k + blackUnit red f.data := by
  unfold Frame.fill PtrTree.nodeAt
  cases f.side with
  | left => exact balanced_node
  | right =>
      refine balanced_node.trans (and_congr (imp_congr_right fun _ => And.comm) ?_)
      exact exists_congr fun k => by rw [and_left_comm]

theorem balanced_nodeAt {s : Side} {a : Ref} {d : δ} {t u : PtrTree δ} {n : ℕ} :
    (PtrTree.nodeAt s a d t u).Balanced red n ↔
      (red d = true → t.rootRed red = false ∧ u.rootRed red = false) ∧
        ∃ k, t.Balanced red k ∧ u.Balanced red k ∧ n = k + blackUnit red d :=
  balanced_fill (f := ⟨a, d, s, u⟩)

/-- A black node over two balanced trees. -/
theorem balanced_black {s : Side} {a : Ref} {d : δ} {t u : PtrTree δ} {n : ℕ}
    (hd : red d = false) (ht : t.Balanced red n) (hu : u.Balanced red n) :
    (PtrTree.nodeAt s a d t u).Balanced red (n + 1) :=
  balanced_nodeAt.2 ⟨fun h => absurd h (by simp [hd]), n, ht, hu, by simp [blackUnit, hd]⟩

/-- A red node over two balanced trees with black roots. -/
theorem balanced_red {s : Side} {a : Ref} {d : δ} {t u : PtrTree δ} {n : ℕ}
    (hd : red d = true) (ht : t.Balanced red n) (hu : u.Balanced red n)
    (htb : t.rootRed red = false) (hub : u.rootRed red = false) :
    (PtrTree.nodeAt s a d t u).Balanced red n :=
  balanced_nodeAt.2 ⟨fun _ => ⟨htb, hub⟩, n, ht, hu, by simp [blackUnit, hd]⟩

/-- The two sides of a red node. -/
theorem balanced_of_red {s : Side} {a : Ref} {d : δ} {t u : PtrTree δ} {n : ℕ}
    (h : (PtrTree.nodeAt s a d t u).Balanced red n) (hd : red d = true) :
    t.Balanced red n ∧ u.Balanced red n ∧ t.rootRed red = false ∧ u.rootRed red = false := by
  obtain ⟨hroots, k, ht, hu, rfl⟩ := balanced_nodeAt.1 h
  obtain ⟨htb, hub⟩ := hroots hd
  have hk : k + blackUnit red d = k := by simp [blackUnit, hd]
  rw [hk]
  exact ⟨ht, hu, htb, hub⟩

/-- What is above a node whose parent is red. -/
theorem fits_red_parent {f g : Frame δ} {p : TreePath δ} {n : ℕ} (h : Fits red (f :: g :: p) n)
    (hf : red f.data = true) :
    f.sibling.Balanced red n ∧ f.sibling.rootRed red = false ∧ red g.data = false ∧
      g.sibling.Balanced red n ∧ Fits red p (n + 1) := by
  obtain ⟨hfbal, hfred, hgbal, -, hrest⟩ := h
  obtain ⟨hfb, hgb⟩ := hfred hf
  have hgb' : red g.data = false := hgb
  have hn : n + blackUnit red f.data = n := by simp [blackUnit, hf]
  have hn' : n + blackUnit red g.data = n + 1 := by simp [blackUnit, hgb']
  rw [hn] at hgbal hrest
  rw [hn'] at hrest
  exact ⟨hfbal, hfb, hgb', hgbal, hrest⟩

/-- A tree is balanced exactly when a subtree is and the path above it fits. -/
theorem balanced_plug_iff {p : TreePath δ} {t : PtrTree δ} :
    (∃ m, (plug p t).Balanced red m) ↔
      ∃ n, t.Balanced red n ∧ Fits red p n ∧ (topRed red p = true → t.rootRed red = false) := by
  induction p generalizing t with
  | nil => simp [plug, Fits, topRed]
  | cons f p ih =>
      rw [plug, ih]
      constructor
      · rintro ⟨m, hfill, hfits, htop⟩
        obtain ⟨hred, k, ht, hsib, rfl⟩ := balanced_fill.1 hfill
        refine ⟨k, ht, ⟨hsib, fun hf => ⟨(hred hf).2, ?_⟩, hfits⟩, fun hf => (hred hf).1⟩
        apply Bool.eq_false_iff.2
        intro hp
        have hblack := htop hp
        rw [rootRed_fill, hf] at hblack
        cases hblack
      · rintro ⟨k, ht, ⟨hsib, hred, hfits⟩, htop⟩
        refine ⟨_, balanced_fill.2 ⟨fun hf => ⟨htop hf, (hred hf).1⟩, k, ht, hsib, rfl⟩, hfits, ?_⟩
        intro hp
        rw [rootRed_fill]
        apply Bool.eq_false_iff.2
        intro hf
        rw [(hred hf).2] at hp
        cases hp

/-- Plugging a balanced tree with a black root into a path that fits. -/
theorem balanced_plug {p : TreePath δ} {t : PtrTree δ} {n : ℕ} (ht : t.Balanced red n)
    (hp : Fits red p n) (hb : t.rootRed red = false) : ∃ m, (plug p t).Balanced red m :=
  balanced_plug_iff.2 ⟨n, ht, hp, fun _ => hb⟩

end CLib
