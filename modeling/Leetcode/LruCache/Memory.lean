import Mathlib.Data.Finset.Card
import Leetcode.Lib.Heap
import Leetcode.Lib.Run
import Leetcode.LruCache.Range

/-!
# The nodes of a cache in memory

`Memory` is a cache with the nodes that are allocated.  `createNode` allocates the only nodes,
`lRUCachePut` frees the last one of a full list, and `lRUCacheFree` frees those of the list.

* `Owned` — the invariant: the allocated nodes are those of the list.
* `NoDangling` — no pointer of the cache, and none of an allocated node, refers to a freed one.
* `lRUCache_frees` — no node is freed twice or used after it has been freed, and none is left.
-/

namespace Leetcode
namespace LruCache

open CLib

/-! ## What the operations allocate and free -/

structure Memory where
  cache : LRUCache
  nodes : Finset Ref

def createMemory (capacity : Int) : Memory := ⟨lRUCacheCreate capacity, ∅⟩

/-- The nodes when `lRUCachePut` has made room. -/
def freeTail (m : Memory) : Option (Finset Ref) :=
  if m.cache.size = m.cache.capacity then m.cache.tail.bind (free m.nodes) else some m.nodes

/-- `lRUCachePut(cache, key, value)`. -/
def putMemory (m : Memory) (key value : Int) : Option Memory :=
  (lRUCachePut m.cache key value).bind fun cache =>
    (getNode m.cache key).bind fun
      | some _ => some ⟨cache, m.nodes⟩
      | none => (freeTail m).map fun nodes => ⟨cache, insert m.cache.fresh nodes⟩

def nextMemory (m : Memory) : Call → Option Memory
  | .get key => (lRUCacheGet m.cache key).map fun r => ⟨r.1, m.nodes⟩
  | .put key value => putMemory m key value

/-- The loop of `lRUCacheFree(cache)`: the nodes that are left. -/
def lRUCacheFree (m : Memory) : Option (Finset Ref) :=
  freeChain m.cache.next m.cache.fresh m.cache.head m.nodes

/-- What the cache and the allocated nodes refer to is allocated. -/
structure NoDangling (m : Memory) : Prop where
  head : ∀ a ∈ m.cache.head, a ∈ m.nodes
  tail : ∀ a ∈ m.cache.tail, a ∈ m.nodes
  map : ∀ i : ℕ, i < m.cache.mapSize → ∀ a ∈ m.cache.map i, a ∈ m.nodes
  next : ∀ b ∈ m.nodes, ∀ a ∈ m.cache.next b, a ∈ m.nodes
  prev : ∀ b ∈ m.nodes, ∀ a ∈ m.cache.prev b, a ∈ m.nodes
  hnext : ∀ b ∈ m.nodes, ∀ a ∈ m.cache.hnext b, a ∈ m.nodes

/-! ## The new node -/

variable {capacity : Int} {c c' : LRUCache} {m : Memory} {l : List Ref} {chains : ℕ → List Ref}
  {key value : Int}

theorem removeNode_fresh (c : LRUCache) (a : Ref) : (removeNode c a).fresh = c.fresh := by
  unfold removeNode
  cases c.prev a with
  | none =>
      simp only
      split
      · rfl
      · rfl
  | some p =>
      simp only
      split
      · rfl
      · rfl

theorem setBucket_fresh {idx : ℕ} {node : Option Ref} (h : setBucket c idx node = some c') :
    c'.fresh = c.fresh := by
  unfold setBucket at h
  split at h
  · cases h
    rfl
  · cases h

theorem removeFromMap_fresh (h : removeFromMap c key = some c') : c'.fresh = c.fresh := by
  obtain ⟨node, -, hfound⟩ := Option.bind_eq_some_iff.1 h
  obtain ⟨found, -, hfound⟩ := Option.bind_eq_some_iff.1 hfound
  cases found with
  | none =>
      cases hfound
      rfl
  | some found =>
      obtain ⟨a, prev⟩ := found
      cases prev with
      | none => exact setBucket_fresh hfound
      | some p =>
          cases hfound
          rfl

/-- Making room allocates nothing. -/
theorem evict_fresh (h : evict c = some c') : c'.fresh = c.fresh := by
  unfold evict at h
  split at h
  · obtain ⟨tail, -, h⟩ := Option.bind_eq_some_iff.1 h
    obtain ⟨c₁, hremoved, rfl⟩ := Option.map_eq_some_iff.1 h
    exact (removeFromMap_fresh hremoved).trans (removeNode_fresh c tail)
  · cases h
    rfl

/-! ## The invariant -/

/-- The allocated nodes are those of the list. -/
structure Owned (capacity : Int) (m : Memory) (l : List Ref) (chains : ℕ → List Ref) : Prop where
  rep : Rep capacity m.cache l chains
  nodes : m.nodes = l.toFinset

theorem owned_create (hcap : 1 ≤ capacity) :
    Owned capacity (createMemory capacity) [] (fun _ => []) where
  rep := rep_init hcap
  nodes := rfl

theorem Owned.mem_iff (h : Owned capacity m l chains) {a : Ref} : a ∈ m.nodes ↔ a ∈ l := by
  rw [h.nodes, List.mem_toFinset]

/-- The last node of a full list is freed. -/
theorem Owned.freeTail (h : Owned capacity m l chains) (hcap : 1 ≤ capacity) :
    freeTail m = some (if l.length = capacity then l.dropLast else l).toFinset := by
  have hsize := h.rep.size
  have hcapacity := h.rep.capacity_eq
  unfold LruCache.freeTail
  by_cases hfull : (l.length : Int) = capacity
  · rcases List.eq_nil_or_concat l with rfl | ⟨l, a, rfl⟩
    · rw [List.length_nil] at hfull
      omega
    · rw [List.concat_eq_append] at h hfull hsize ⊢
      have htail : m.cache.tail = some a := by
        rw [chain_head h.rep.linked.prev, List.head?_reverse, List.getLast?_concat]
      have ha : a ∉ l := h.rep.linked.notMem.1
      rw [if_pos (by omega), htail, Option.bind_some, if_pos hfull, List.dropLast_concat,
        free_ok (h.mem_iff.2 (List.mem_append_right _ List.mem_cons_self)), h.nodes]
      refine congrArg some (Finset.ext fun b => ?_)
      simp only [Finset.mem_erase, List.mem_toFinset, List.mem_append, List.mem_singleton]
      constructor
      · rintro ⟨hba, hb | hb⟩
        · exact hb
        · exact absurd hb hba
      · intro hb
        refine ⟨?_, .inl hb⟩
        rintro rfl
        exact ha hb
  · rw [if_neg (by omega), if_neg hfull, h.nodes]

theorem Owned.put (h : Owned capacity m l chains) (hcap : 1 ≤ capacity)
    (hkey : hash key m.cache.mapSize < m.cache.mapSize) (value : Int) :
    ∃ m' l' chains', putMemory m key value = some m' ∧ Owned capacity m' l' chains' := by
  obtain ⟨r, hget, hr⟩ := getNode_ok h.rep.table h.rep.fresh hkey
  rw [putMemory, lRUCachePut, hget, Option.bind_some]
  cases r with
  | some a =>
      obtain ⟨ha, -⟩ := (hr a).1 rfl
      obtain ⟨l₁, l₂, rfl⟩ := List.append_of_mem ha
      obtain ⟨htouched, -⟩ := touch_ok (overwrite_ok h.rep a value)
      refine ⟨_, _, _, rfl, htouched, ?_⟩
      rw [h.nodes]
      exact List.toFinset_eq_of_perm _ _ List.perm_middle
  | none =>
      have hnew : ∀ b ∈ l, m.cache.key b ≠ key := fun b hb heq => by cases (hr b).2 ⟨hb, heq⟩
      obtain ⟨c₁, chains₁, hevict, hentry, hroom, h₁⟩ := evict_ok h.rep hcap
      have hsub : ∀ b ∈ (if l.length = capacity then l.dropLast else l), b ∈ l := by
        intro b hb
        split at hb
        · exact (List.dropLast_sublist l).subset hb
        · exact hb
      rw [h.rep.mapSize_eq, ← h₁.mapSize_eq] at hkey
      obtain ⟨c', chains', hput, h', -, -⟩ := insert_ok h₁ hroom value hkey (by
        intro b hb
        have heq : c₁.key b = m.cache.key b := congrArg Prod.fst (congrFun hentry b)
        rw [heq]
        exact hnew b (hsub b hb))
      have hstep : ((evict m.cache).bind fun c =>
          let created := createNode c key value
          let c := addToHead created.2 created.1
          (putNode c created.1).map fun c => { c with size := c.size + 1 }) = some c' := by
        rw [hevict]
        exact hput
      refine ⟨⟨c', insert m.cache.fresh
        (if l.length = capacity then l.dropLast else l).toFinset⟩, _, chains', ?_, h', ?_⟩
      · show ((evict m.cache).bind _).bind _ = _
        rw [hstep, Option.bind_some, Option.bind_some, h.freeTail hcap]
        rfl
      · rw [List.toFinset_cons, evict_fresh hevict]

theorem Owned.get (h : Owned capacity m l chains) (key : Int)
    (hkey : hash key m.cache.mapSize < m.cache.mapSize) :
    ∃ r l', lRUCacheGet m.cache key = some r ∧ Owned capacity ⟨r.1, m.nodes⟩ l' chains := by
  obtain ⟨r, hget, hr⟩ := getNode_ok h.rep.table h.rep.fresh hkey
  rw [lRUCacheGet, hget, Option.map_some]
  cases r with
  | none => exact ⟨_, l, rfl, h⟩
  | some a =>
      obtain ⟨ha, -⟩ := (hr a).1 rfl
      obtain ⟨l₁, l₂, rfl⟩ := List.append_of_mem ha
      refine ⟨_, _, rfl, (touch_ok h.rep).1, ?_⟩
      rw [h.nodes]
      exact List.toFinset_eq_of_perm _ _ List.perm_middle

/-- A call whose bucket is in the table. -/
theorem Owned.step (h : Owned capacity m l chains) (hcap : 1 ≤ capacity) (call : Call)
    (hkey : hash call.key m.cache.mapSize < m.cache.mapSize) :
    ∃ m' l' chains', nextMemory m call = some m' ∧ Owned capacity m' l' chains' := by
  cases call with
  | get key =>
      obtain ⟨r, l', hget, h'⟩ := h.get key hkey
      refine ⟨⟨r.1, m.nodes⟩, l', chains, ?_, h'⟩
      rw [nextMemory, hget]
      rfl
  | put key value => exact h.put hcap hkey value

/-! ## What follows from it -/

theorem Owned.noDangling (h : Owned capacity m l chains) : NoDangling m where
  head a ha := h.mem_iff.2 (mem_of_start h.rep.linked.next ha)
  tail a ha := h.mem_iff.2 (List.mem_reverse.1 (mem_of_start h.rep.linked.prev ha))
  map i hi a ha :=
    h.mem_iff.2 ((h.rep.table.mem i hi a).1 (mem_of_start (h.rep.table.chain i hi) ha)).1
  next b hb a ha := h.mem_iff.2 (mem_of_link h.rep.linked.next (h.mem_iff.1 hb) ha)
  prev b hb a ha := h.mem_iff.2 (List.mem_reverse.1
    (mem_of_link h.rep.linked.prev (List.mem_reverse.2 (h.mem_iff.1 hb)) ha))
  hnext b hb a ha := by
    have hbl := h.mem_iff.1 hb
    have hi := h.rep.table.index b hbl
    have hmem := (h.rep.table.mem _ hi b).2 ⟨hbl, rfl⟩
    exact h.mem_iff.2 ((h.rep.table.mem _ hi a).1 (mem_of_link (h.rep.table.chain _ hi) hmem ha)).1

theorem Owned.card (h : Owned capacity m l chains) : (m.nodes.card : Int) = m.cache.size := by
  rw [h.nodes, List.toFinset_card_of_nodup h.rep.linked.nodup, h.rep.size]

/-- `lRUCacheFree` frees every node. -/
theorem Owned.free (h : Owned capacity m l chains) : lRUCacheFree m = some ∅ := by
  have hlength := chain_length_le h.rep.linked.next h.rep.fresh
  rw [lRUCacheFree, freeChain_ok h.rep.linked.next (fun a ha => h.mem_iff.2 ha) hlength, h.nodes,
    Finset.sdiff_self]

theorem Owned.run (h : Owned capacity m l chains) (hcap : 1 ≤ capacity) (calls : List Call)
    (hkeys : ∀ call ∈ calls, 0 ≤ call.key ∨ (10007 : Int) ∣ call.key) :
    ∃ m' l' chains', Run nextMemory (fun m _ => NoDangling m) m calls m' ∧
      Owned capacity m' l' chains' := by
  induction calls generalizing m l chains with
  | nil => exact ⟨m, l, chains, .nil m, h⟩
  | cons call calls ih =>
      obtain ⟨hkey, hkeys⟩ := List.forall_mem_cons.1 hkeys
      obtain ⟨m₁, l₁, chains₁, hstep, h₁⟩ := h.step hcap call (by
        rw [h.rep.mapSize_eq]
        exact (hash_lt_iff _).2 hkey)
      obtain ⟨m', l', chains', hrun, h'⟩ := ih h₁ hkeys
      exact ⟨m', l', chains', .cons h.noDangling hstep hrun, h'⟩

/-- In a session with keys whose bucket is in the table no node is freed that is not allocated,
no pointer to a freed node is left behind by a call, as many nodes are allocated as the cache has
entries, and `lRUCacheFree` frees each of them: none is lost. -/
theorem lRUCache_frees (capacity : Int) (hcap : 1 ≤ capacity) (calls : List Call)
    (hkeys : ∀ call ∈ calls, 0 ≤ call.key ∨ (10007 : Int) ∣ call.key) :
    ∃ m, Run nextMemory (fun m _ => NoDangling m) (createMemory capacity) calls m ∧
      NoDangling m ∧ (m.nodes.card : Int) = m.cache.size ∧ m.cache.size ≤ capacity ∧
      lRUCacheFree m = some ∅ := by
  obtain ⟨m, l, chains, hrun, h⟩ := (owned_create hcap).run hcap calls hkeys
  exact ⟨m, hrun, h.noDangling, h.card, h.rep.capacity_eq ▸ h.rep.size_le, h.free⟩

theorem lRUCache_frees_one :
    ∃ m, Run nextMemory (fun m _ => NoDangling m) (createMemory 1)
        [.put 1 5, .put 2 6, .get 2] m ∧
      NoDangling m ∧ (m.nodes.card : Int) = m.cache.size ∧ m.cache.size ≤ 1 ∧
      lRUCacheFree m = some ∅ :=
  lRUCache_frees 1 (by decide) _ (by decide)

end LruCache
end Leetcode
