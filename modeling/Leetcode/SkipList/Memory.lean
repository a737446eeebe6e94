import Leetcode.Lib.Heap
import Leetcode.SkipList.Refine

/-!
# The skip list, its random levels and its nodes in memory

Here `randomLevel` is the loop of the source: `coin k` is the outcome of the comparison
`(double)rand() / RAND_MAX < P_FACTOR` for the `k`-th call of `rand`.  `newNode` allocates the
nodes, `skiplistErase` frees the node that it unlinks, and `skiplistFree` frees the rest.

* `Owned` — the invariant: the allocated nodes are the head and those of level `0`.
* `NoDangling` — no link of an allocated node refers to a freed one.
* `skiplist_frees` — whatever `rand` returns, the answers are those of the counts, no node is
  freed twice or used after it has been freed, and none is left.
-/

namespace Leetcode
namespace SkipList

open CLib

/-! ## Random levels -/

/-- The loop of `randomLevel`, with `room` levels left above `lvl`: the level, and how often
`rand` has been called. -/
def levelLoop (coin : ℕ → Bool) : ℕ → ℕ → ℕ → ℕ × ℕ
  | 0, lvl, k => (lvl, k + 1)
  | room + 1, lvl, k =>
      if coin k then levelLoop coin room (lvl + 1) (k + 1) else (lvl, k + 1)

/-- `randomLevel()` when `rand` has been called `k` times. -/
def randomLevel (coin : ℕ → Bool) (k : ℕ) : ℕ × ℕ := levelLoop coin (MAX_LEVEL - 1) 1 k

theorem levelLoop_range (coin : ℕ → Bool) (room lvl k : ℕ) :
    lvl ≤ (levelLoop coin room lvl k).1 ∧ (levelLoop coin room lvl k).1 ≤ lvl + room := by
  induction room generalizing lvl k with
  | zero => exact ⟨Nat.le_refl _, Nat.le_refl _⟩
  | succ room ih =>
      rw [levelLoop]
      split
      · have hrange := ih (lvl + 1) (k + 1)
        omega
      · exact ⟨Nat.le_refl _, Nat.le_add_right _ _⟩

theorem randomLevel_range (coin : ℕ → Bool) (k : ℕ) :
    1 ≤ (randomLevel coin k).1 ∧ (randomLevel coin k).1 ≤ MAX_LEVEL :=
  levelLoop_range coin (MAX_LEVEL - 1) 1 k

/-! ## What the operations allocate and free -/

/-- A skip list, the nodes that are allocated, and the number of calls of `rand`. -/
structure Memory where
  list : Skiplist
  nodes : Finset Ref
  drawn : ℕ

def createMemory : Memory := ⟨skiplistCreate, {skiplistCreate.head}, 0⟩

/-- The node `cur` that `skiplistErase` frees when it returns true. -/
def erasedNode (obj : Skiplist) (num : Int) : Option Ref :=
  (descend obj num obj.level obj.head fun _ => none).bind fun found => (link obj 0 found.1).join

def nextMemory (coin : ℕ → Bool) (m : Memory) : Request → Option (Memory × Option Bool)
  | .search target => (skiplistSearch m.list target).map fun r => (m, some r)
  | .add num =>
      let level := randomLevel coin m.drawn
      (skiplistAdd m.list num level.1).map fun list =>
        (⟨list, insert m.list.fresh m.nodes, level.2⟩, none)
  | .erase num =>
      (skiplistErase m.list num).bind fun r =>
        if r.2 then
          (erasedNode m.list num).bind fun cur =>
            (free m.nodes cur).map fun nodes => (⟨r.1, nodes, m.drawn⟩, some true)
        else some (⟨r.1, m.nodes, m.drawn⟩, some false)

/-- `skiplistFree(obj)`: the nodes that are left. -/
def skiplistFree (m : Memory) : Option (Finset Ref) :=
  if m.list.head ∈ m.nodes then
    (freeChain (m.list.forward 0) m.list.fresh (m.list.forward 0 m.list.head) m.nodes).bind
      fun nodes => free nodes m.list.head
  else none

/-- The head is allocated, and so is what the allocated nodes link to. -/
structure NoDangling (m : Memory) : Prop where
  head : m.list.head ∈ m.nodes
  forward : ∀ b ∈ m.nodes, ∀ i < m.list.height b, ∀ a ∈ m.list.forward i b, a ∈ m.nodes

/-! ## The invariant -/

/-- The allocated nodes are the head and those of the list. -/
structure Owned (m : Memory) (l : List Ref) : Prop where
  valid : Valid m.list l
  nodes : m.nodes = (m.list.head :: l).toFinset

variable {m : Memory} {obj obj' : Skiplist} {l l' lt ge : List Ref} {a : Ref} {num : Int}

theorem owned_create : Owned createMemory [] := ⟨valid_init, rfl⟩

theorem Owned.mem_iff (h : Owned m l) {b : Ref} : b ∈ m.nodes ↔ b = m.list.head ∨ b ∈ l := by
  rw [h.nodes, List.mem_toFinset, List.mem_cons]

/-- The nodes of a list are those of its level `0`. -/
theorem Levels.unique (h : Levels obj l) (h' : Levels obj l') : l = l' := by
  have hzero : ∀ {s}, Levels obj s → onLevel obj 0 s = s := fun hs =>
    List.filter_eq_self.2 fun b hb => decide_eq_true (hs.height_pos b hb)
  have hchains := chain_unique (h.chain 0 (by decide)) (h'.chain 0 (by decide))
  rw [hzero h, hzero h'] at hchains
  exact (List.cons.inj hchains).2

theorem Owned.add (h : Owned m l) (num : Int) (lvl : Level) (drawn : ℕ) :
    ∃ obj l', skiplistAdd m.list num lvl = some obj ∧
      Owned ⟨obj, insert m.list.fresh m.nodes, drawn⟩ l' ∧
      counts obj l' = Function.update (counts m.list l) num (counts m.list l num + 1) := by
  obtain ⟨obj, l', hadd, h', hcounts⟩ := add_ok h.valid num lvl
  refine ⟨obj, l', hadd, ⟨h', ?_⟩, hcounts⟩
  obtain ⟨lt, ge, rfl, hlt, hge⟩ := exists_cut h.valid.sorted num
  have heq := skiplistAdd_eq h.valid hlt hge lvl
  obtain rfl := Option.some.inj (hadd.symm.trans heq)
  obtain rfl := h'.toLevels.unique (levels_added h.valid hlt hge lvl.2.1)
  refine Finset.ext fun b => ?_
  rw [Finset.mem_insert, h.mem_iff, List.mem_toFinset]
  show _ ↔ b ∈ m.list.head :: (lt ++ m.list.fresh :: ge)
  simp only [List.mem_cons, List.mem_append]
  tauto

/-- What `skiplistErase` does to a list with the value: it unlinks the node at the cut. -/
theorem skiplistErase_eq (h : Valid obj (lt ++ a :: ge)) (hlt : ∀ b ∈ lt, obj.val b < num)
    (hge : ∀ b ∈ a :: ge, num ≤ obj.val b) (hval : obj.val a = num) :
    erasedNode obj num = some a ∧
      ∃ level, skiplistErase obj num = some ({ erased obj a lt with level := level }, true) := by
  obtain ⟨level, hlower, -⟩ := lowerLevel_ok (levels_erased h) h.level_le h.level_pos fun b hb =>
    h.height_le b (by
      simp only [List.mem_append, List.mem_cons] at hb ⊢
      tauto)
  refine ⟨?_, level, ?_⟩
  · rw [erasedNode, descend_head h hlt hge, Option.bind_some, link_found h]
    rfl
  · rw [skiplistErase, descend_head h hlt hge, Option.bind_some, link_found h, Option.bind_some,
      List.head?_cons]
    simp only [hval, ne_eq, not_true, if_false]
    rw [unlinkLevels_erased h, Option.bind_some, show (erased obj a lt).level = obj.level from rfl,
      hlower, Option.map_some]

/-- A list without the value stays as it is. -/
theorem skiplistErase_absent (h : Valid obj l) (habsent : counts obj l num = 0) :
    skiplistErase obj num = some (obj, false) := by
  obtain ⟨lt, ge, rfl, hlt, hge⟩ := exists_cut h.sorted num
  have hiff := counts_pos_iff h hlt hge
  rw [skiplistErase, descend_head h hlt hge, Option.bind_some, link_found h, Option.bind_some]
  cases hhead : ge.head? with
  | none => rfl
  | some b =>
      have hval : obj.val b ≠ num := by
        intro hval
        have hpos := hiff.2 ⟨b, hhead, hval⟩
        omega
      simp only [if_pos hval]

theorem Owned.erase (coin : ℕ → Bool) (h : Owned m l) (num : Int) :
    ∃ m' l', nextMemory coin m (.erase num) =
        some (m', ((counts m.list l).step (.erase num)).2) ∧
      Owned m' l' ∧ counts m'.list l' = ((counts m.list l).step (.erase num)).1 := by
  obtain ⟨obj, l', r, herase, h', hstep⟩ := erase_ok h.valid num
  have hcounts := congrArg Prod.fst hstep
  have hanswer := congrArg Prod.snd hstep
  by_cases hpos : 0 < counts m.list l num
  · obtain ⟨lt, ge, rfl, hlt, hge⟩ := exists_cut h.valid.sorted num
    obtain ⟨a, ha, hval⟩ := (counts_pos_iff h.valid hlt hge).1 hpos
    obtain ⟨ge, rfl⟩ := List.head?_eq_some_iff.1 ha
    obtain ⟨hnode, level, heq⟩ := skiplistErase_eq h.valid hlt hge hval
    obtain ⟨rfl, rfl⟩ := Prod.mk.inj (Option.some.inj (herase.symm.trans heq))
    have hlevels := levels_erased h.valid
    have hrest : Levels { erased m.list a lt with level := level } (lt ++ ge) :=
      ⟨hlevels.chain, hlevels.sorted, hlevels.head_height, hlevels.height_pos, hlevels.fresh⟩
    obtain rfl := h'.toLevels.unique hrest
    have hmem : a ∈ m.nodes :=
      h.mem_iff.2 (.inr (List.mem_append_right _ List.mem_cons_self))
    refine ⟨⟨{ erased m.list a lt with level := level }, m.nodes.erase a, m.drawn⟩, lt ++ ge, ?_,
      ⟨h', ?_⟩, hcounts⟩
    · rw [nextMemory, heq, Option.bind_some, if_pos rfl, hnode, Option.bind_some, free_ok hmem,
        Option.map_some, ← hanswer]
    · have hnodup := h.valid.nodup
      have hhead : a ≠ m.list.head := by
        rintro rfl
        exact (List.nodup_cons.1 hnodup).1 (List.mem_append_right _ List.mem_cons_self)
      refine Finset.ext fun b => ?_
      rw [Finset.mem_erase, h.mem_iff, List.mem_toFinset]
      show _ ↔ b ∈ m.list.head :: (lt ++ ge)
      rw [List.mem_cons, mem_without (List.nodup_cons.1 hnodup).2]
      constructor
      · rintro ⟨hba, rfl | hb⟩
        · exact .inl rfl
        · exact .inr ⟨hb, hba⟩
      · rintro (rfl | ⟨hb, hba⟩)
        · exact ⟨hhead.symm, .inl rfl⟩
        · exact ⟨hba, .inr hb⟩
  · have heq := skiplistErase_absent h.valid (Nat.eq_zero_of_not_pos hpos)
    obtain ⟨rfl, rfl⟩ := Prod.mk.inj (Option.some.inj (herase.symm.trans heq))
    obtain rfl := h.valid.toLevels.unique h'.toLevels
    refine ⟨m, l, ?_, h, hcounts⟩
    rw [nextMemory, heq, Option.bind_some, if_neg Bool.false_ne_true, ← hanswer]

theorem Owned.step (coin : ℕ → Bool) (h : Owned m l) (request : Request) :
    ∃ m' l', nextMemory coin m request = some (m', ((counts m.list l).step request).2) ∧
      Owned m' l' ∧ counts m'.list l' = ((counts m.list l).step request).1 := by
  cases request with
  | search target =>
      refine ⟨m, l, ?_, h, rfl⟩
      rw [nextMemory, search_ok h.valid target]
      rfl
  | add num =>
      obtain ⟨obj, l', hadd, h', hcounts⟩ :=
        h.add num ⟨_, randomLevel_range coin m.drawn⟩ (randomLevel coin m.drawn).2
      refine ⟨_, l', ?_, h', hcounts⟩
      simp only [nextMemory, hadd, Option.map_some]
      rfl
  | erase num => exact h.erase coin num

/-! ## What follows from it -/

theorem Owned.noDangling (h : Owned m l) : NoDangling m where
  head := h.mem_iff.2 (.inl rfl)
  forward b hb i hi a ha := by
    have hheight : m.list.height b ≤ MAX_LEVEL := by
      rcases h.mem_iff.1 hb with rfl | hbl
      · exact h.valid.head_height.le
      · exact Nat.le_trans (h.valid.height_le b hbl) h.valid.level_le
    have hchain := h.valid.chain i (Nat.lt_of_lt_of_le hi hheight)
    have hmem : b ∈ m.list.head :: onLevel m.list i l := by
      rcases h.mem_iff.1 hb with rfl | hbl
      · exact List.mem_cons_self
      · exact List.mem_cons_of_mem _ (mem_onLevel.2 ⟨hbl, hi⟩)
    refine h.mem_iff.2 ?_
    rcases List.mem_cons.1 (mem_of_link hchain hmem ha) with rfl | hnext
    · exact .inl rfl
    · exact .inr (mem_onLevel.1 hnext).1

theorem Owned.free (h : Owned m l) : skiplistFree m = some ∅ := by
  have hchain := h.valid.chain_zero.2
  have hnotin := (List.nodup_cons.1 h.valid.nodup).1
  have hlength := chain_length_le hchain fun a ha => h.valid.fresh a (List.mem_cons_of_mem _ ha)
  have hhead : m.list.head ∈ m.nodes \ l.toFinset :=
    Finset.mem_sdiff.2 ⟨h.mem_iff.2 (.inl rfl), fun hmem => hnotin (List.mem_toFinset.1 hmem)⟩
  rw [skiplistFree, if_pos (h.mem_iff.2 (.inl rfl)),
    freeChain_ok hchain (fun a ha => h.mem_iff.2 (.inr ha)) hlength, Option.bind_some,
    free_ok hhead, h.nodes]
  refine congrArg some (Finset.eq_empty_iff_forall_notMem.2 fun b hb => ?_)
  simp only [Finset.mem_erase, Finset.mem_sdiff, List.mem_toFinset, List.mem_cons] at hb
  tauto

/-- Whatever `rand` returns, the answers of a session are those of the counts; no node is freed
that is not allocated, no link to a freed node is left behind, the nodes behind the head on
level `0` are allocated and no others, and `skiplistFree` frees all of them: none is lost. -/
theorem skiplist_frees (coin : ℕ → Bool) (requests : List Request) :
    ∃ m l, Trace (nextMemory coin) createMemory requests
        (answers Counts.step (fun _ => 0) requests) m ∧
      Chain (m.list.forward 0) (some m.list.head) (m.list.head :: l) ∧
      (∀ x, (l.map m.list.val).count x = outcome Counts.step (fun _ => 0) requests x) ∧
      m.nodes = (m.list.head :: l).toFinset ∧ NoDangling m ∧ skiplistFree m = some ∅ := by
  have hinit : counts createMemory.list [] = fun _ => 0 := rfl
  obtain ⟨m, htrace, l, h, hcounts⟩ := Trace.of_simulation (nextMemory coin) Counts.step
    (fun m n => ∃ l, Owned m l ∧ counts m.list l = n) (fun _ => True) (by
      rintro m n request ⟨l, h, rfl⟩ -
      obtain ⟨m', l', hstep, h', hcounts⟩ := h.step coin request
      exact ⟨m', hstep, l', h', hcounts⟩)
    ⟨[], owned_create, hinit⟩ fun request (_ : request ∈ requests) => trivial
  exact ⟨m, l, htrace, h.valid.chain_zero, fun x => congrFun hcounts x, h.nodes, h.noDangling,
    h.free⟩

end SkipList
end Leetcode
