import Leetcode.SkipList.Rep

/-!
# The skip list is a multiset

`Counts` is what the skip list is for: how often every value is in it.  The levels of
the nodes do not appear there, so they do not show in the answers
(`skiplist_multiset`).
-/

namespace Leetcode
namespace SkipList

open CLib

/-- How often every value has been added and not been erased. -/
abbrev Counts := Int → ℕ

def Counts.step (n : Counts) : Request → Counts × Option Bool
  | .search x => (n, some (decide (0 < n x)))
  | .add x => (Function.update n x (n x + 1), none)
  | .erase x =>
      if 0 < n x then (Function.update n x (n x - 1), some true) else (n, some false)

/-- How often a value is in the list. -/
def counts (obj : Skiplist) (l : List Ref) : Counts := fun x => (l.map obj.val).count x

variable {obj : Skiplist} {l lt ge : List Ref} {a : Ref} {num : Int} {i : ℕ}

theorem valid_init : Valid skiplistCreate [] where
  chain := fun _ _ => ⟨rfl, rfl⟩
  sorted := List.Pairwise.nil
  head_height := rfl
  height_pos := by simp
  fresh := by simp [skiplistCreate]
  height_le := by simp
  level_pos := Nat.le_refl 1
  level_le := by decide
  top := Or.inl rfl

/-! ## Searching -/

/-- A value in the list is at the cut. -/
theorem counts_pos_iff (h : Valid obj (lt ++ ge)) (hlt : ∀ a ∈ lt, obj.val a < num)
    (hge : ∀ a ∈ ge, num ≤ obj.val a) :
    0 < counts obj (lt ++ ge) num ↔ ∃ a, ge.head? = some a ∧ obj.val a = num := by
  rw [counts, List.count_pos_iff, List.mem_map]
  constructor
  · rintro ⟨b, hb, rfl⟩
    rcases List.mem_append.1 hb with hb | hb
    · exact absurd (hlt b hb) (Int.lt_irrefl _)
    · cases ge with
      | nil => cases hb
      | cons a ge =>
          refine ⟨a, rfl, Int.le_antisymm ?_ (hge a List.mem_cons_self)⟩
          rcases List.mem_cons.1 hb with rfl | hb
          · exact Int.le_refl _
          · have hsorted := h.sorted
            rw [List.map_append, List.map_cons, List.pairwise_append, List.pairwise_cons] at hsorted
            exact hsorted.2.1.1 _ (List.mem_map_of_mem hb)
  · rintro ⟨a, ha, hval⟩
    exact ⟨a, List.mem_append_right _ (List.mem_of_head? ha), hval⟩

/-- What the search finds on level `0`. -/
theorem link_found (h : Valid obj (lt ++ ge)) : link obj 0 (pred obj 0 lt) = some ge.head? := by
  have hge : onLevel obj 0 ge = ge := List.filter_eq_self.2 fun a ha =>
    decide_eq_true (h.height_pos a (List.mem_append_right _ ha))
  rw [link_pred h (by decide), hge]

theorem search_ok (h : Valid obj l) (x : Int) :
    skiplistSearch obj x = some (decide (0 < counts obj l x)) := by
  obtain ⟨lt, ge, rfl, hlt, hge⟩ := exists_cut h.sorted x
  have hiff := counts_pos_iff h hlt hge
  rw [skiplistSearch, descend_head h hlt hge, Option.bind_some, link_found h, Option.map_some]
  refine congrArg some ?_
  cases hhead : ge.head? with
  | none =>
      rw [hhead] at hiff
      have hnot : ¬0 < counts obj (lt ++ ge) x := fun hpos => by
        obtain ⟨a, ha, -⟩ := hiff.1 hpos
        cases ha
      rw [decide_eq_false hnot]
  | some a =>
      rw [hhead] at hiff
      have ha : 0 < counts obj (lt ++ ge) x ↔ obj.val a = x := by
        rw [hiff]
        simp
      simp only [ha]

/-! ## Adding -/

/-- The list with a new node behind the nodes `lt`. -/
def added (obj : Skiplist) (num : Int) (lvl : ℕ) (lt : List Ref) : Skiplist :=
  { obj with
    level := if obj.level < lvl then lvl else obj.level
    val := Function.update obj.val obj.fresh num
    height := Function.update obj.height obj.fresh lvl
    forward := fun i =>
      if i < lvl then
        linkBehind (Function.update (obj.forward i) obj.fresh none) obj.fresh (pred obj i lt)
      else Function.update (obj.forward i) obj.fresh none
    fresh := obj.fresh + 1 }

theorem Valid.ne_fresh (h : Valid obj l) (ha : a ∈ obj.head :: l) : a ≠ obj.fresh :=
  Nat.ne_of_lt (h.fresh a ha)

theorem pred_mem_nodes (obj : Skiplist) (i : ℕ) (lt ge : List Ref) :
    pred obj i lt ∈ obj.head :: (lt ++ ge) := by
  rcases List.mem_cons.1 (pred_mem obj i lt) with heq | hmem
  · rw [heq]
    exact List.mem_cons_self
  · exact List.mem_cons_of_mem _ (List.mem_append_left _ (mem_onLevel.1 hmem).1)

theorem skiplistAdd_eq (h : Valid obj (lt ++ ge)) (hlt : ∀ a ∈ lt, obj.val a < num)
    (hge : ∀ a ∈ ge, num ≤ obj.val a) (lvl : Level) :
    skiplistAdd obj num lvl = some (added obj num lvl lt) := by
  rw [skiplistAdd, descend_head h hlt hge, Option.bind_some]
  refine linkLevels_ok (p := fun i => pred obj i lt) (fun i hi => ?_) (fun i hi => ?_) ?_
  · -- Above the levels in use the head is the last node in front of the cut.
    by_cases hlevel : obj.level ≤ i
    · have htop : onLevel obj i lt ++ onLevel obj i ge = [] := by
        rw [← onLevel_append]
        exact h.onLevel_top hlevel
      rw [if_pos ⟨hlevel, hi⟩, pred, (List.append_eq_nil_iff.1 htop).1, List.getLastD_nil]
    · rw [if_neg fun hand => hlevel hand.1]
      exact if_pos (Nat.lt_of_not_le hlevel)
  · have hne := h.ne_fresh (pred_mem_nodes obj i lt ge)
    show i < Function.update obj.height obj.fresh (lvl : ℕ) (pred obj i lt)
    rw [Function.update_of_ne hne]
    exact pred_lt_height h (Nat.lt_of_lt_of_le hi lvl.2.2)
  · have hself : Function.update obj.height obj.fresh (lvl : ℕ) obj.fresh = lvl :=
      Function.update_self ..
    exact Nat.le_of_eq hself.symm

section Added

variable {lvl : ℕ}

theorem Valid.fresh_notMem (h : Valid obj l) : obj.fresh ∉ obj.head :: l := fun hmem =>
  h.ne_fresh hmem rfl

theorem height_added (h : Valid obj l) (ha : a ∈ obj.head :: l) :
    (added obj num lvl lt).height a = obj.height a :=
  Function.update_of_ne (h.ne_fresh ha) _ _

theorem height_added_fresh : (added obj num lvl lt).height obj.fresh = lvl :=
  Function.update_self ..

theorem val_added (h : Valid obj l) (ha : a ∈ l) : (added obj num lvl lt).val a = obj.val a :=
  Function.update_of_ne (h.ne_fresh (List.mem_cons_of_mem _ ha)) _ _

theorem onLevel_added (h : Valid obj (lt ++ ge)) :
    onLevel (added obj num lvl lt) i (lt ++ obj.fresh :: ge) =
      onLevel obj i lt ++ ((if i < lvl then [obj.fresh] else []) ++ onLevel obj i ge) := by
  have hsame : ∀ s : List Ref, (∀ a ∈ s, a ∈ lt ++ ge) →
      onLevel (added obj num lvl lt) i s = onLevel obj i s := by
    intro s hs
    refine List.filter_congr fun a ha => ?_
    rw [height_added h (List.mem_cons_of_mem _ (hs a ha))]
  rw [onLevel_append, hsame lt fun a ha => List.mem_append_left _ ha,
    ← List.singleton_append, onLevel_append, hsame ge fun a ha => List.mem_append_right _ ha]
  refine congrArg (onLevel obj i lt ++ ·) (congrArg (· ++ onLevel obj i ge) ?_)
  rw [onLevel, List.filter_singleton, height_added_fresh]
  by_cases hi : i < lvl <;> simp [hi]

/-- Every level gets the new node at the cut, or stays as it is. -/
theorem chain_added (h : Valid obj (lt ++ ge)) (hi : i < MAX_LEVEL) :
    Chain ((added obj num lvl lt).forward i) (some obj.head)
      (obj.head :: onLevel (added obj num lvl lt) i (lt ++ obj.fresh :: ge)) := by
  have hchain := h.chain i hi
  rw [onLevel_append, ← List.cons_append] at hchain
  have hnotin : obj.fresh ∉ obj.head :: onLevel obj i lt ++ onLevel obj i ge := by
    intro hmem
    rw [List.cons_append, ← onLevel_append] at hmem
    apply h.fresh_notMem
    rcases List.mem_cons.1 hmem with heq | hmem
    · rw [heq]
      exact List.mem_cons_self
    · exact List.mem_cons_of_mem _ (mem_onLevel.1 hmem).1
  have hupdated := hchain.update hnotin none
  rw [onLevel_added h]
  by_cases hlvl : i < lvl
  · have hinserted := chain_insert hupdated (getLast?_pred obj i lt) hnotin
    rw [if_pos hlvl]
    show Chain (if i < lvl then _ else _) _ _
    rw [if_pos hlvl]
    exact hinserted
  · rw [if_neg hlvl]
    show Chain (if i < lvl then _ else _) _ _
    rw [if_neg hlvl]
    exact hupdated

theorem map_val_added (h : Valid obj (lt ++ ge)) :
    (lt ++ obj.fresh :: ge).map (added obj num lvl lt).val =
      lt.map obj.val ++ num :: ge.map obj.val := by
  have hnum : (added obj num lvl lt).val obj.fresh = num := Function.update_self ..
  rw [List.map_append, List.map_cons, hnum,
    List.map_congr_left fun a ha => val_added h (List.mem_append_left _ ha),
    List.map_congr_left fun a ha => val_added h (List.mem_append_right _ ha)]

theorem levels_added (h : Valid obj (lt ++ ge)) (hlt : ∀ a ∈ lt, obj.val a < num)
    (hge : ∀ a ∈ ge, num ≤ obj.val a) (hlvl : 1 ≤ lvl) :
    Levels (added obj num lvl lt) (lt ++ obj.fresh :: ge) where
  chain := fun i hi => chain_added h hi
  sorted := by
    have hsorted := h.sorted
    rw [List.map_append, List.pairwise_append] at hsorted
    obtain ⟨hleft, hright, hcross⟩ := hsorted
    rw [map_val_added h, List.pairwise_append, List.pairwise_cons]
    refine ⟨hleft, ⟨fun x hx => ?_, hright⟩, fun x hx y hy => ?_⟩
    · obtain ⟨a, ha, rfl⟩ := List.mem_map.1 hx
      exact hge a ha
    · rcases List.mem_cons.1 hy with rfl | hy
      · obtain ⟨a, ha, rfl⟩ := List.mem_map.1 hx
        exact Int.le_of_lt (hlt a ha)
      · exact hcross x hx y hy
  head_height := (height_added h List.mem_cons_self).trans h.head_height
  height_pos := fun a ha => by
    have hmem : a = obj.fresh ∨ a ∈ lt ++ ge := by
      simp only [List.mem_append, List.mem_cons] at ha ⊢
      tauto
    rcases hmem with rfl | hmem
    · rw [height_added_fresh]
      exact hlvl
    · rw [height_added h (List.mem_cons_of_mem _ hmem)]
      exact h.height_pos a hmem
  fresh := fun a ha => by
    have hmem : a = obj.fresh ∨ a ∈ obj.head :: (lt ++ ge) := by
      simp only [List.mem_append, List.mem_cons] at ha ⊢
      tauto
    show a < obj.fresh + 1
    rcases hmem with rfl | hmem
    · exact Nat.lt_succ_self _
    · exact Nat.lt_succ_of_lt (h.fresh a hmem)

end Added

theorem counts_perm {obj' : Skiplist} {l' : List Ref} {x : Int}
    (hperm : (l'.map obj'.val).Perm (x :: l.map obj.val)) :
    counts obj' l' = Function.update (counts obj l) x (counts obj l x + 1) := by
  ext y
  rw [counts, hperm.count_eq]
  by_cases hy : y = x
  · subst hy
    rw [Function.update_self, List.count_cons_self, counts]
  · rw [Function.update_of_ne hy, List.count_cons_of_ne (Ne.symm hy), counts]

/-- `skiplistAdd` adds a value once. -/
theorem add_ok (h : Valid obj l) (num : Int) (lvl : Level) :
    ∃ obj' l', skiplistAdd obj num lvl = some obj' ∧ Valid obj' l' ∧
      counts obj' l' = Function.update (counts obj l) num (counts obj l num + 1) := by
  obtain ⟨lt, ge, rfl, hlt, hge⟩ := exists_cut h.sorted num
  have hpos := lvl.2.1
  have hmax := lvl.2.2
  have hmem : ∀ a, a ∈ lt ++ obj.fresh :: ge ↔ a = obj.fresh ∨ a ∈ lt ++ ge := by
    intro a
    simp only [List.mem_append, List.mem_cons]
    tauto
  have hheight : ∀ a ∈ lt ++ ge, (added obj num lvl lt).height a = obj.height a := fun a ha =>
    height_added h (List.mem_cons_of_mem _ ha)
  have hpos' := h.level_pos
  have hle' := h.level_le
  refine ⟨_, _, skiplistAdd_eq h hlt hge lvl,
    ⟨levels_added h hlt hge hpos, ⟨fun a ha => ?_, ?_, ?_, ?_⟩⟩, ?_⟩
  · show _ ≤ if obj.level < lvl then (lvl : ℕ) else obj.level
    rcases (hmem a).1 ha with rfl | ha
    · rw [height_added_fresh]
      split <;> omega
    · have hle := h.height_le a ha
      rw [hheight a ha]
      split <;> omega
  · show 1 ≤ if obj.level < lvl then (lvl : ℕ) else obj.level
    split <;> omega
  · show (if obj.level < lvl then (lvl : ℕ) else obj.level) ≤ MAX_LEVEL
    split <;> omega
  · show (if obj.level < lvl then (lvl : ℕ) else obj.level) = 1 ∨
      ∃ a ∈ lt ++ obj.fresh :: ge, (added obj num lvl lt).height a =
        if obj.level < lvl then (lvl : ℕ) else obj.level
    by_cases hlevel : obj.level < lvl
    · rw [if_pos hlevel]
      exact Or.inr ⟨obj.fresh, (hmem _).2 (Or.inl rfl), height_added_fresh⟩
    · rw [if_neg hlevel]
      refine h.top.imp_right fun hex => ?_
      obtain ⟨a, ha, heq⟩ := hex
      exact ⟨a, (hmem a).2 (Or.inr ha), (hheight a ha).trans heq⟩
  · apply counts_perm
    rw [map_val_added h, List.map_append]
    exact List.perm_middle

/-! ## Erasing -/

/-- The list without the node `a` behind the nodes `lt`. -/
def erased (obj : Skiplist) (a : Ref) (lt : List Ref) : Skiplist :=
  unlinkedBelow obj a (fun i => pred obj i lt) (obj.height a)

theorem levels_erased (h : Valid obj (lt ++ a :: ge)) : Levels (erased obj a lt) (lt ++ ge) where
  chain := fun i hi => by
    have hchain := h.chain i hi
    rw [onLevel_append, ← List.cons_append] at hchain
    show Chain (if i < obj.height a then _ else _) _ (obj.head :: onLevel obj i (lt ++ ge))
    rw [onLevel_append, ← List.cons_append]
    by_cases hia : i < obj.height a
    · rw [onLevel_cons_of_lt hia] at hchain
      rw [if_pos hia]
      exact chain_remove hchain (getLast?_pred obj i lt)
    · rw [onLevel_cons_of_le (Nat.le_of_not_lt hia)] at hchain
      rw [if_neg hia]
      exact hchain
  sorted := by
    have hsub : (lt ++ ge).Sublist (lt ++ a :: ge) := (List.sublist_cons_self a ge).append_left lt
    exact h.sorted.sublist (hsub.map obj.val)
  head_height := h.head_height
  height_pos := fun b hb => h.height_pos b (by
    simp only [List.mem_append, List.mem_cons] at hb ⊢
    tauto)
  fresh := fun b hb => h.fresh b (by
    simp only [List.mem_append, List.mem_cons] at hb ⊢
    tauto)

/-- The loop that unlinks the node, level by level. -/
theorem unlinkLevels_erased (h : Valid obj (lt ++ a :: ge)) :
    unlinkLevels a (fun i => if i < obj.level then some (pred obj i lt) else none) obj.level 0 obj =
      some (erased obj a lt) := by
  have hmem : a ∈ lt ++ a :: ge := List.mem_append_right _ List.mem_cons_self
  have hstart : unlinkedBelow obj a (fun i => pred obj i lt) 0 = obj := rfl
  have hmax := h.level_le
  have hunlinked := unlinkLevels_ok (k := obj.level) (i := 0)
    (fun i => if i < obj.level then some (pred obj i lt) else none)
    (p := fun i => pred obj i lt) (fun i hi => if_pos hi)
    (fun i hi => pred_lt_height h (by omega)) (h.height_le a hmem) (fun i hi => ?_)
    (fun i hi hlevel => ?_) (Nat.zero_le _) (Nat.zero_add _)
  · rwa [hstart] at hunlinked
  · have hle := h.height_le a hmem
    rw [forward_pred h (by omega), onLevel_cons_of_lt hi, List.head?_cons]
  · rw [forward_pred h (by omega), onLevel_cons_of_le hi]
    intro hhead
    have hage := (mem_onLevel.1 (List.mem_of_head? hhead)).1
    have hnodup := (List.nodup_append.1 (List.nodup_cons.1 h.nodup).2).2.1
    exact (List.nodup_cons.1 hnodup).1 hage

/-- `skiplistErase` takes a value out once if it is there. -/
theorem erase_ok (h : Valid obj l) (num : Int) :
    ∃ obj' l' r, skiplistErase obj num = some (obj', r) ∧ Valid obj' l' ∧
      (counts obj' l', some r) = (counts obj l).step (.erase num) := by
  obtain ⟨lt, ge, rfl, hlt, hge⟩ := exists_cut h.sorted num
  have hiff := counts_pos_iff h hlt hge
  rw [skiplistErase, descend_head h hlt hge, Option.bind_some, link_found h, Option.bind_some,
    Counts.step]
  by_cases hpos : 0 < counts obj (lt ++ ge) num
  · obtain ⟨a, ha, hval⟩ := hiff.1 hpos
    obtain ⟨ge, rfl⟩ := List.head?_eq_some_iff.1 ha
    have hmem : a ∈ lt ++ a :: ge := List.mem_append_right _ List.mem_cons_self
    have hlevels := levels_erased h
    obtain ⟨level, hlower, hlevel⟩ := lowerLevel_ok hlevels h.level_le h.level_pos fun b hb =>
      h.height_le b (by
        simp only [List.mem_append, List.mem_cons] at hb ⊢
        tauto)
    refine ⟨{ erased obj a lt with level := level }, lt ++ ge, true, ?_, ?_, ?_⟩
    · rw [List.head?_cons]
      simp only [hval, ne_eq, not_true, if_false]
      rw [unlinkLevels_erased h, Option.bind_some,
        show (erased obj a lt).level = obj.level from rfl,
        hlower, Option.map_some]
    · exact ⟨⟨hlevels.chain, hlevels.sorted, hlevels.head_height, hlevels.height_pos,
        hlevels.fresh⟩, ⟨hlevel.height_le, hlevel.level_pos, hlevel.level_le, hlevel.top⟩⟩
    · have hcounts : counts obj (lt ++ a :: ge) = Function.update (counts obj (lt ++ ge)) num
          (counts obj (lt ++ ge) num + 1) := counts_perm (by
        rw [List.map_append, List.map_cons, List.map_append, hval]
        exact List.perm_middle)
      rw [if_pos hpos, hcounts, Function.update_self, Function.update_idem, Nat.add_sub_cancel,
        Function.update_eq_self]
      rfl
  · refine ⟨obj, lt ++ ge, false, ?_, h, (if_neg hpos).symm⟩
    cases hhead : ge.head? with
    | none => rfl
    | some a =>
        have hval : obj.val a ≠ num := fun hval => hpos (hiff.2 ⟨a, hhead, hval⟩)
        simp only [if_pos hval]

/-! ## Runs -/

theorem step_ok (h : Valid obj l) (call : Request × Level) :
    ∃ obj' l', step obj call = some (obj', ((counts obj l).step call.1).2) ∧ Valid obj' l' ∧
      counts obj' l' = ((counts obj l).step call.1).1 := by
  obtain ⟨request, lvl⟩ := call
  cases request with
  | search target =>
      refine ⟨obj, l, ?_, h, rfl⟩
      simp only [step, search_ok h target, Option.map_some]
      rfl
  | add num =>
      obtain ⟨obj', l', hadd, h', hcounts⟩ := add_ok h num lvl
      refine ⟨obj', l', ?_, h', hcounts⟩
      simp only [step, hadd, Option.map_some]
      rfl
  | erase num =>
      obtain ⟨obj', l', r, herase, h', heq⟩ := erase_ok h num
      refine ⟨obj', l', ?_, h', congrArg Prod.fst heq⟩
      simp only [step, herase, Option.map_some]
      have hanswer := congrArg Prod.snd heq
      exact congrArg some (Prod.ext rfl hanswer)

/-- Every run leads to a list whose levels are right and that has the values of the counts. -/
theorem run_ok (calls : List (Request × Level)) :
    ∃ obj l, Trace step skiplistCreate calls
        (answers Counts.step (fun _ => 0) (calls.map Prod.fst)) obj ∧ Valid obj l ∧
      counts obj l = outcome Counts.step (fun _ => 0) (calls.map Prod.fst) := by
  have hinit : counts skiplistCreate [] = fun _ => 0 := rfl
  obtain ⟨obj, htrace, l, h, hcounts⟩ := Trace.of_simulation step
    (fun n (call : Request × Level) => Counts.step n call.1)
    (fun obj n => ∃ l, Valid obj l ∧ counts obj l = n) (fun _ => True) (by
      rintro obj n call ⟨l, h, rfl⟩ -
      obtain ⟨obj', l', hstep, h', hcounts⟩ := step_ok h call
      exact ⟨obj', hstep, l', h', hcounts⟩)
    ⟨[], valid_init, hinit⟩ fun call (_ : call ∈ calls) => trivial
  rw [answers_map (f := Prod.fst)] at htrace
  rw [outcome_map (f := Prod.fst)] at hcounts
  exact ⟨obj, l, htrace, h, hcounts⟩

/-- Whatever levels `randomLevel` returns, the answers are those of the counts, and the
nodes of the list have the values that the counts say. -/
theorem skiplist_multiset (calls : List (Request × Level)) :
    ∃ obj l, Trace step skiplistCreate calls
        (answers Counts.step (fun _ => 0) (calls.map Prod.fst)) obj ∧
      Chain (obj.forward 0) (obj.forward 0 obj.head) l ∧
      ∀ x, (l.map obj.val).count x = outcome Counts.step (fun _ => 0) (calls.map Prod.fst) x := by
  obtain ⟨obj, l, htrace, h, hcounts⟩ := run_ok calls
  exact ⟨obj, l, htrace, h.chain_zero.2, fun x => congrFun hcounts x⟩

end SkipList
end Leetcode
