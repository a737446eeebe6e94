import Leetcode.SkipList.Model

/-!
# The levels of a skip list

`Valid obj l`: the chain of the level `i` has the nodes of `l` that are higher than `i`,
in their order.  A number cuts `l` into the smaller nodes `lt` and the others `ge`, and
`pred obj i lt` is the node of the level `i` behind which it belongs.

* `descend_ok` — the search finds these nodes on all levels.
* `linkLevels_ok`, `unlinkLevels_ok`, `lowerLevel_ok` — the loops of `skiplistAdd` and
  `skiplistErase`.
-/

namespace Leetcode
namespace SkipList

open CLib

/-- The nodes of the level `i`. -/
def onLevel (obj : Skiplist) (i : ℕ) (l : List Ref) : List Ref :=
  l.filter fun a => i < obj.height a

/-- The nodes behind the head are those of `l`. -/
structure Levels (obj : Skiplist) (l : List Ref) : Prop where
  chain : ∀ i < MAX_LEVEL, Chain (obj.forward i) (some obj.head) (obj.head :: onLevel obj i l)
  sorted : (l.map obj.val).Pairwise (· ≤ ·)
  head_height : obj.height obj.head = MAX_LEVEL
  height_pos : ∀ a ∈ l, 1 ≤ obj.height a
  fresh : ∀ a ∈ obj.head :: l, a < obj.fresh

/-- The number of levels is right: no node is higher, and the highest level is in use. -/
structure LevelOk (obj : Skiplist) (l : List Ref) (level : ℕ) : Prop where
  height_le : ∀ a ∈ l, obj.height a ≤ level
  level_pos : 1 ≤ level
  level_le : level ≤ MAX_LEVEL
  top : level = 1 ∨ ∃ a ∈ l, obj.height a = level

/-- The invariant. -/
structure Valid (obj : Skiplist) (l : List Ref) : Prop
    extends Levels obj l, LevelOk obj l obj.level

variable {obj : Skiplist} {l lt ge : List Ref} {a cur : Ref} {num : Int} {i k : ℕ}

theorem mem_onLevel : a ∈ onLevel obj i l ↔ a ∈ l ∧ i < obj.height a := by
  simp [onLevel]

theorem onLevel_append (l₁ l₂ : List Ref) :
    onLevel obj i (l₁ ++ l₂) = onLevel obj i l₁ ++ onLevel obj i l₂ :=
  List.filter_append ..

theorem onLevel_cons_of_lt (hi : i < obj.height a) :
    onLevel obj i (a :: l) = a :: onLevel obj i l :=
  List.filter_cons_of_pos (decide_eq_true hi)

theorem onLevel_cons_of_le (hi : obj.height a ≤ i) :
    onLevel obj i (a :: l) = onLevel obj i l :=
  List.filter_cons_of_neg (by simpa using hi)

theorem Valid.onLevel_zero (h : Valid obj l) : onLevel obj 0 l = l :=
  List.filter_eq_self.2 fun a ha => decide_eq_true (h.height_pos a ha)

/-- Level `0` has all nodes. -/
theorem Valid.chain_zero (h : Valid obj l) :
    Chain (obj.forward 0) (some obj.head) (obj.head :: l) := by
  have hchain := h.chain 0 (by decide)
  rwa [h.onLevel_zero] at hchain

theorem Valid.nodup (h : Valid obj l) : (obj.head :: l).Nodup := chain_nodup h.chain_zero

theorem Valid.onLevel_top (h : Valid obj l) (hi : obj.level ≤ i) : onLevel obj i l = [] :=
  List.filter_eq_nil_iff.2 fun a ha => by
    have hle := h.height_le a ha
    simp only [decide_eq_true_eq]
    omega

/-- A sorted list is cut into the smaller nodes and the others. -/
theorem exists_cut {val : Ref → Int} (h : (l.map val).Pairwise (· ≤ ·)) (num : Int) :
    ∃ lt ge, l = lt ++ ge ∧ (∀ a ∈ lt, val a < num) ∧ ∀ a ∈ ge, num ≤ val a := by
  induction l with
  | nil => exact ⟨[], [], rfl, by simp, by simp⟩
  | cons a l ih =>
      rw [List.map_cons, List.pairwise_cons] at h
      by_cases ha : val a < num
      · obtain ⟨lt, ge, rfl, hlt, hge⟩ := ih h.2
        refine ⟨a :: lt, ge, rfl, fun b hb => ?_, hge⟩
        rcases List.mem_cons.1 hb with rfl | hb
        · exact ha
        · exact hlt b hb
      · refine ⟨[], a :: l, rfl, by simp, fun b hb => ?_⟩
        rcases List.mem_cons.1 hb with rfl | hb
        · omega
        · have hab := h.1 (val b) (List.mem_map_of_mem hb)
          omega

/-! ## Searching -/

/-- The last node of the level `i` in front of the cut. -/
def pred (obj : Skiplist) (i : ℕ) (lt : List Ref) : Ref :=
  (onLevel obj i lt).getLastD obj.head

theorem pred_mem (obj : Skiplist) (i : ℕ) (lt : List Ref) :
    pred obj i lt ∈ obj.head :: onLevel obj i lt := by
  rw [pred, List.getLastD_eq_getLast?]
  cases hlast : (onLevel obj i lt).getLast? with
  | none => exact List.mem_cons_self
  | some a => exact List.mem_cons_of_mem _ (List.mem_of_getLast? hlast)

theorem getLast?_pred (obj : Skiplist) (i : ℕ) (lt : List Ref) :
    (obj.head :: onLevel obj i lt).getLast? = some (pred obj i lt) := by
  rw [List.getLast?_cons, pred, List.getLastD_eq_getLast?]

/-- The nodes of a level have its links. -/
theorem Valid.lt_height (h : Valid obj l) (hi : i < MAX_LEVEL)
    (ha : a ∈ obj.head :: onLevel obj i l) : i < obj.height a := by
  rcases List.mem_cons.1 ha with rfl | ha
  · rw [h.head_height]
    exact hi
  · exact (mem_onLevel.1 ha).2

/-- The loop along one level, from one of the nodes in front of the cut. -/
theorem walk_ok {t g : List Ref} (hchain : Chain (obj.forward i) (some cur) (cur :: (t ++ g)))
    (hheight : ∀ a ∈ cur :: t, i < obj.height a) (ht : ∀ a ∈ t, obj.val a < num)
    (hg : ∀ a ∈ g, num ≤ obj.val a) {fuel : ℕ} (hfuel : t.length < fuel) :
    walk obj num i fuel cur = some (t.getLastD cur) := by
  obtain ⟨fuel, rfl⟩ : ∃ n, fuel = n + 1 := ⟨fuel - 1, by omega⟩
  have hlink : link obj i cur = some (t ++ g).head? := by
    rw [link, if_pos (hheight cur List.mem_cons_self), chain_head hchain.2]
  induction t generalizing cur fuel with
  | nil =>
      rw [walk, hlink, Option.bind_some]
      cases g with
      | nil => rfl
      | cons b g =>
          have hb : ¬obj.val b < num := Int.not_lt.2 (hg b List.mem_cons_self)
          simp only [List.nil_append, List.head?_cons, if_neg hb, List.getLastD_nil]
  | cons b t ih =>
      have hb := ht b List.mem_cons_self
      rw [List.length_cons] at hfuel
      obtain ⟨fuel, rfl⟩ : ∃ n, fuel = n + 1 := ⟨fuel - 1, by omega⟩
      have hrest : Chain (obj.forward i) (some b) (b :: (t ++ g)) := ⟨rfl, hchain.2.2⟩
      have hround := ih hrest (fun a ha => hheight a (List.mem_cons_of_mem _ ha))
        (fun a ha => ht a (List.mem_cons_of_mem _ ha)) fuel (by omega) (by
          rw [link, if_pos (hheight b (by simp)), chain_head hrest.2])
      rw [walk, hlink, Option.bind_some]
      simp only [List.cons_append, List.head?_cons, if_pos hb, List.getLastD_cons]
      exact hround

/-- One round of the search, on the level `i`. -/
theorem walk_level (h : Valid obj (lt ++ ge)) (hlt : ∀ a ∈ lt, obj.val a < num)
    (hge : ∀ a ∈ ge, num ≤ obj.val a) (hi : i < MAX_LEVEL)
    (hcur : cur ∈ obj.head :: onLevel obj i lt) :
    walk obj num i obj.fresh cur = some (pred obj i lt) := by
  have hchain := h.chain i hi
  rw [onLevel_append] at hchain
  have hlength := chain_length_le hchain fun a ha => h.fresh a (by
    rcases List.mem_cons.1 ha with rfl | ha
    · exact List.mem_cons_self
    · rw [← onLevel_append] at ha
      exact List.mem_cons_of_mem _ (mem_onLevel.1 ha).1)
  have hheight : ∀ a ∈ obj.head :: onLevel obj i lt, i < obj.height a := by
    intro a ha
    refine h.lt_height hi ?_
    rw [onLevel_append]
    exact List.mem_append_left (onLevel obj i ge) ha
  have hlast := getLast?_pred obj i lt
  obtain ⟨s, t, hst⟩ := List.append_of_mem hcur
  -- The nodes behind `cur` are not the head.
  have ht : ∀ a ∈ t, a ∈ onLevel obj i lt := by
    intro a ha
    cases s with
    | nil =>
        obtain ⟨-, hrest⟩ := List.cons.inj hst
        rwa [hrest]
    | cons b s =>
        obtain ⟨-, hrest⟩ := List.cons.inj hst
        rw [hrest]
        exact List.mem_append_right _ (List.mem_cons_of_mem _ ha)
  rw [← List.cons_append, hst, List.append_assoc, List.cons_append] at hchain
  rw [← List.cons_append, hst] at hlength
  rw [hst] at hlast hheight
  rw [List.getLast?_append, List.getLast?_cons, Option.some_or] at hlast
  rw [← Option.some.inj hlast, ← List.getLastD_eq_getLast?]
  refine walk_ok (chain_suffix hchain) ?_ ?_ (g := onLevel obj i ge) ?_ ?_
  · exact fun a ha => hheight a (List.mem_append_right _ ha)
  · exact fun a ha => hlt a (mem_onLevel.1 (ht a ha)).1
  · exact fun a ha => hge a (mem_onLevel.1 ha).1
  · simp only [List.length_append, List.length_cons] at hlength
    omega

/-- The search finds the last node in front of the cut on every level. -/
theorem descend_ok (h : Valid obj (lt ++ ge)) (hlt : ∀ a ∈ lt, obj.val a < num)
    (hge : ∀ a ∈ ge, num ≤ obj.val a) (hk : k ≤ MAX_LEVEL)
    (hcur : ∀ i < k, cur ∈ obj.head :: onLevel obj i lt) (update : Update) :
    descend obj num k cur update = some (if k = 0 then cur else pred obj 0 lt,
      fun i => if i < k then some (pred obj i lt) else update i) := by
  induction k generalizing cur update with
  | zero => rfl
  | succ k ih =>
      rw [descend, walk_level h hlt hge hk (hcur k (Nat.lt_succ_self k)), Option.bind_some,
        ih (by omega) fun i hi => ?_]
      · refine congrArg some (Prod.ext ?_ (funext fun i => ?_))
        · cases k <;> rfl
        · by_cases hi : i = k
          · subst hi
            simp
          · have hiff : i < k + 1 ↔ i < k := by omega
            simp only [Function.update_of_ne hi, hiff]
      -- A node of a level is on the levels below.
      · rcases List.mem_cons.1 (pred_mem obj k lt) with heq | hmem
        · rw [heq]
          exact List.mem_cons_self
        · obtain ⟨hmem, hheight⟩ := mem_onLevel.1 hmem
          exact List.mem_cons_of_mem _ (mem_onLevel.2 ⟨hmem, by omega⟩)

/-- The search from the head. -/
theorem descend_head (h : Valid obj (lt ++ ge)) (hlt : ∀ a ∈ lt, obj.val a < num)
    (hge : ∀ a ∈ ge, num ≤ obj.val a) :
    descend obj num obj.level obj.head (fun _ => none) = some (pred obj 0 lt,
      fun i => if i < obj.level then some (pred obj i lt) else none) := by
  have hpos : obj.level ≠ 0 := Nat.ne_of_gt h.level_pos
  have hfound := descend_ok h hlt hge h.level_le
    (fun _ _ => List.mem_cons_self) fun _ => none
  rwa [if_neg hpos] at hfound

/-- Behind the last node in front of the cut is the first one that is not smaller. -/
theorem forward_pred (h : Valid obj (lt ++ ge)) (hi : i < MAX_LEVEL) :
    obj.forward i (pred obj i lt) = (onLevel obj i ge).head? := by
  have hchain := h.chain i hi
  rw [onLevel_append, ← List.cons_append] at hchain
  exact chain_behind hchain (getLast?_pred obj i lt)

theorem pred_lt_height (h : Valid obj (lt ++ ge)) (hi : i < MAX_LEVEL) :
    i < obj.height (pred obj i lt) := by
  refine h.lt_height hi ?_
  rw [onLevel_append]
  exact List.mem_append_left (onLevel obj i ge) (pred_mem obj i lt)

theorem link_pred (h : Valid obj (lt ++ ge)) (hi : i < MAX_LEVEL) :
    link obj i (pred obj i lt) = some (onLevel obj i ge).head? := by
  rw [link, if_pos (pred_lt_height h hi), forward_pred h hi]

/-! ## The loops that write -/

/-- The loop of `skiplistAdd`. -/
theorem linkLevels_ok {n : Ref} {update : Update} {p : ℕ → Ref}
    (hupdate : ∀ i < k, update i = some (p i)) (hp : ∀ i < k, i < obj.height (p i))
    (hn : k ≤ obj.height n) :
    linkLevels n update k obj = some { obj with
      forward := fun i => if i < k then linkBehind (obj.forward i) n (p i)
        else obj.forward i } := by
  induction k with
  | zero => rfl
  | succ k ih =>
      have hprev := ih (fun i hi => hupdate i (by omega)) (fun i hi => hp i (by omega)) (by omega)
      have hk := Nat.lt_succ_self k
      rw [linkLevels, hprev, Option.bind_some, hupdate k hk, Option.bind_some, link,
        if_pos (hp k hk), Option.bind_some, setLink, if_pos (Nat.lt_of_succ_le hn),
        Option.bind_some, setLink, if_pos (hp k hk)]
      refine congrArg some ?_
      congr 1
      ext i : 1
      by_cases hi : i = k
      · subst hi
        simp [linkBehind]
      · have hiff : i < k + 1 ↔ i < k := by omega
        simp only [Function.update_of_ne hi, hiff]

/-- The links when the levels below `i` have been done. -/
def unlinkedBelow (obj : Skiplist) (a : Ref) (p : ℕ → Ref) (i : ℕ) : Skiplist :=
  { obj with
    forward := fun j => if j < i then unlinkBehind (obj.forward j) a (p j) else obj.forward j }

/-- The loop of `skiplistErase` stops above the node, or at the highest level. -/
theorem unlinkLevels_ok (update : Update) {p : ℕ → Ref}
    (hupdate : ∀ i < obj.level, update i = some (p i))
    (hp : ∀ i < obj.level, i < obj.height (p i)) (ha : obj.height a ≤ obj.level)
    (hnext : ∀ i < obj.height a, obj.forward i (p i) = some a)
    (habove : ∀ i, obj.height a ≤ i → i < obj.level → obj.forward i (p i) ≠ some a)
    (hi : i ≤ obj.height a) (hk : i + k = obj.level) :
    unlinkLevels a update k i (unlinkedBelow obj a p i) =
      some (unlinkedBelow obj a p (obj.height a)) := by
  induction k generalizing i with
  | zero =>
      obtain rfl : i = obj.height a := by omega
      rfl
  | succ k ih =>
      have hlevel : i < obj.level := by omega
      have hforward : (unlinkedBelow obj a p i).forward i = obj.forward i :=
        if_neg (Nat.lt_irrefl i)
      have hlink : link (unlinkedBelow obj a p i) i (p i) = some (obj.forward i (p i)) := by
        rw [link, hforward]
        exact if_pos (hp i hlevel)
      rw [unlinkLevels, hupdate i hlevel, Option.bind_some, hlink, Option.bind_some]
      by_cases hia : i = obj.height a
      · -- The early break.
        rw [if_pos (habove i (Nat.le_of_eq hia.symm) hlevel), hia]
      · have hlt : i < obj.height a := by omega
        have hafter : link (unlinkedBelow obj a p i) i a = some (obj.forward i a) := by
          rw [link, hforward]
          exact if_pos hlt
        have hset : setLink (unlinkedBelow obj a p i) i (p i) (obj.forward i a) =
            some (unlinkedBelow obj a p (i + 1)) := by
          rw [setLink, hforward]
          refine (if_pos (hp i hlevel)).trans (congrArg some ?_)
          unfold unlinkedBelow
          congr 1
          ext j : 1
          by_cases hj : j = i
          · subst hj
            simp [unlinkBehind]
          · have hiff : j < i + 1 ↔ j < i := by omega
            simp only [Function.update_of_ne hj, hiff]
        rw [if_neg (by simp [hnext i hlt]), hafter, Option.bind_some, hset, Option.bind_some]
        exact ih (by omega) (by omega)

/-- The last loop of `skiplistErase` finds the number of levels in use. -/
theorem lowerLevel_ok (h : Levels obj l) (hk : k ≤ MAX_LEVEL) (hpos : 1 ≤ k)
    (hle : ∀ a ∈ l, obj.height a ≤ k) :
    ∃ level, lowerLevel obj k = some level ∧ LevelOk obj l level := by
  induction k with
  | zero => exact absurd hpos (by omega)
  | succ k ih =>
      cases k with
      | zero => exact ⟨1, rfl, hle, hpos, hk, Or.inl rfl⟩
      | succ i =>
          have hchain := h.chain (i + 1) hk
          have hlink : link obj (i + 1) obj.head = some (onLevel obj (i + 1) l).head? := by
            rw [link, h.head_height, if_pos (Nat.lt_of_succ_le hk), chain_head hchain.2]
          rw [lowerLevel, hlink, Option.bind_some]
          cases honLevel : onLevel obj (i + 1) l with
          | nil =>
              refine ih (by omega) (by omega) fun a ha => ?_
              have hnot : ¬(a ∈ onLevel obj (i + 1) l) := by simp [honLevel]
              rw [mem_onLevel] at hnot
              have hnot' : ¬i + 1 < obj.height a := fun hlt => hnot ⟨ha, hlt⟩
              omega
          | cons b t =>
              have hb : b ∈ onLevel obj (i + 1) l := by simp [honLevel]
              obtain ⟨hb, hheight⟩ := mem_onLevel.1 hb
              have hle' := hle b hb
              exact ⟨i + 2, rfl, hle, by omega, hk, Or.inr ⟨b, hb, by omega⟩⟩

end SkipList
end Leetcode
