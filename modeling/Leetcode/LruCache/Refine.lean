import Leetcode.LruCache.Rep

/-!
# The cache is a recency list

`Recency` is what the cache is for: the keys with their values, the most recently used
one first.

* `Rep` — the invariant of the cache, with the two views of its nodes.
* `step_ok` — a call whose bucket is in the table does to the cache what it does to the
  recency list.
* `lRUCache_refines` — the runs with keys that are not negative.
-/

namespace Leetcode
namespace LruCache

open CLib

/-! ## The specification -/

/-- Keys and values, the most recently used key first. -/
abbrev Recency := List (Int × Int)

def Recency.get (e : Recency) (key : Int) : Recency × Int :=
  match e.find? fun x => x.1 = key with
  | some x => (x :: e.filter fun y => y.1 ≠ key, x.2)
  | none => (e, -1)

/-- A new key in a full list drops the last one. -/
def Recency.put (capacity : Int) (e : Recency) (key value : Int) : Recency :=
  if key ∈ e.map Prod.fst then (key, value) :: e.filter fun y => y.1 ≠ key
  else (key, value) :: if e.length = capacity then e.dropLast else e

def Recency.step (capacity : Int) (e : Recency) : Call → Recency × Option Int
  | .get key => ((e.get key).1, some (e.get key).2)
  | .put key value => (e.put capacity key value, none)

/-! ## The invariant -/

/-- What holds in every state: the two views of the nodes, and the size. -/
structure Valid (c : LRUCache) (l : List Ref) (chains : ℕ → List Ref) : Prop where
  linked : Linked c l
  table : Table c l chains
  size : c.size = l.length
  size_le : c.size ≤ c.capacity

/-- With what the cache was created for, and unused references from `fresh` on. -/
structure Rep (capacity : Int) (c : LRUCache) (l : List Ref) (chains : ℕ → List Ref) : Prop
    extends Valid c l chains where
  fresh : ∀ a ∈ l, a < c.fresh
  capacity_eq : c.capacity = capacity
  mapSize_eq : c.mapSize = 10007

theorem rep_init {capacity : Int} (hcap : 1 ≤ capacity) :
    Rep capacity (lRUCacheCreate capacity) [] (fun _ => []) where
  linked := ⟨rfl, rfl⟩
  table := ⟨fun _ _ => rfl, by simp, by simp, List.nodup_nil⟩
  size := rfl
  size_le := (by omega : (0 : Int) ≤ capacity)
  fresh := by simp
  capacity_eq := rfl
  mapSize_eq := rfl

variable {capacity : Int} {c : LRUCache} {l l₁ l₂ : List Ref} {a : Ref} {chains : ℕ → List Ref}

/-- The key and the value of a node. -/
def entry (c : LRUCache) (a : Ref) : Int × Int := (c.key a, c.value a)

/-- The list of the cache, as a recency list. -/
def entries (c : LRUCache) (l : List Ref) : Recency := l.map (entry c)

theorem map_fst_entries (c : LRUCache) (l : List Ref) :
    (entries c l).map Prod.fst = l.map c.key := by
  rw [entries, List.map_map]
  rfl

/-- The entries without the one of a node. -/
theorem filter_entries (h : Table c (l₁ ++ a :: l₂) chains) :
    (entries c (l₁ ++ a :: l₂)).filter (fun y => y.1 ≠ c.key a) = entries c (l₁ ++ l₂) := by
  have hnodup : (l₁ ++ a :: l₂).Nodup := List.Nodup.of_map _ h.keys
  have hmem : a ∈ l₁ ++ a :: l₂ := List.mem_append_right _ List.mem_cons_self
  have hother : ∀ b ∈ l₁ ++ l₂, c.key b ≠ c.key a := by
    intro b hb heq
    obtain ⟨hbl, hba⟩ := (mem_without hnodup).1 hb
    exact hba (h.key_inj hbl hmem heq)
  have hkeep : ∀ s : List Ref, (∀ b ∈ s, b ∈ l₁ ++ l₂) →
      (entries c s).filter (fun y => y.1 ≠ c.key a) = entries c s := by
    intro s hs
    refine List.filter_eq_self.2 fun y hy => ?_
    obtain ⟨b, hb, rfl⟩ := List.mem_map.1 hy
    exact decide_eq_true (hother b (hs b hb))
  have hleft := hkeep l₁ fun b hb => List.mem_append_left _ hb
  have hright := hkeep l₂ fun b hb => List.mem_append_right _ hb
  simp only [entries, List.map_append, List.map_cons, List.filter_append] at hleft hright ⊢
  rw [hleft, List.filter_cons_of_neg (by simp [entry]), hright]

/-! ## Using a node -/

/-- Moving a node to the front. -/
theorem touch_ok (h : Rep capacity c (l₁ ++ a :: l₂) chains) :
    Rep capacity (addToHead (removeNode c a) a) (a :: (l₁ ++ l₂)) chains ∧
      entry (addToHead (removeNode c a) a) = entry c := by
  have ha : a ∉ l₁ ++ l₂ := by
    obtain ⟨hleft, hright, -⟩ := h.linked.notMem
    simp [hleft, hright]
  have hremoved := linked_removeNode h.linked
  have hlinked := linked_addToHead hremoved ha
  have hperm : (l₁ ++ a :: l₂).Perm (a :: (l₁ ++ l₂)) := List.perm_middle
  have htable := h.table.perm hperm
  have hsize : c.size = (a :: (l₁ ++ l₂)).length := by
    rw [h.size, hperm.length_eq]
  rw [addToHead_eq hremoved ha, removeNode_eq h.linked] at hlinked ⊢
  refine ⟨⟨⟨hlinked, ⟨htable.chain, htable.mem, htable.index, htable.keys⟩, hsize, h.size_le⟩,
    fun b hb => h.fresh b (hperm.mem_iff.2 hb), h.capacity_eq, h.mapSize_eq⟩, rfl⟩

/-- Overwriting the value of a node. -/
theorem overwrite_ok (h : Rep capacity c l chains) (a : Ref) (value : Int) :
    Rep capacity { c with value := Function.update c.value a value } l chains where
  linked := ⟨h.linked.next, h.linked.prev⟩
  table := ⟨h.table.chain, h.table.mem, h.table.index, h.table.keys⟩
  size := h.size
  size_le := h.size_le
  fresh := h.fresh
  capacity_eq := h.capacity_eq
  mapSize_eq := h.mapSize_eq

/-! ## Making room and adding a node -/

/-- Dropping the last node. -/
theorem drop_ok (h : Rep capacity c (l ++ [a]) chains) :
    ∃ c' chains', ((removeFromMap (removeNode c a) ((removeNode c a).key a)).map fun c =>
        { c with size := c.size - 1 }) = some c' ∧
      entry c' = entry c ∧ c'.size = l.length ∧ Rep capacity c' l chains' := by
  have hremoved := removeNode_eq h.linked
  have hlinked := linked_removeNode h.linked
  have htable : Table (removeNode c a) (l ++ [a]) chains := by
    rw [hremoved]
    exact ⟨h.table.chain, h.table.mem, h.table.index, h.table.keys⟩
  obtain ⟨map', hnext', chains', hmap, htable'⟩ := removeFromMap_ok htable (by
    rw [hremoved]
    exact h.fresh)
  rw [List.append_nil] at hlinked htable'
  have hsize : c.size - 1 = l.length := by
    rw [h.size, List.length_append]
    exact Int.add_sub_cancel (l.length : Int) 1
  have hle := h.size_le
  refine ⟨{ removeNode c a with map := map', hnext := hnext', size := c.size - 1 }, chains',
    ?_, ?_, hsize, ?_⟩
  · rw [hmap, hremoved]
    rfl
  · rw [hremoved]
    rfl
  · rw [hremoved] at hlinked htable' ⊢
    exact ⟨⟨⟨hlinked.next, hlinked.prev⟩,
      ⟨htable'.chain, htable'.mem, htable'.index, htable'.keys⟩, hsize,
      (by omega : c.size - 1 ≤ c.capacity)⟩,
      fun b hb => h.fresh b (List.mem_append_left _ hb), h.capacity_eq, h.mapSize_eq⟩

/-- The branch of `lRUCachePut` that drops the last node of a full list. -/
theorem evict_ok (h : Rep capacity c l chains) (hcap : 1 ≤ capacity) :
    ∃ c' chains', evict c = some c' ∧ entry c' = entry c ∧ c'.size < capacity ∧
      Rep capacity c' (if l.length = capacity then l.dropLast else l) chains' := by
  have hsize := h.size
  have hle := h.size_le
  have hcapacity := h.capacity_eq
  by_cases hfull : (l.length : Int) = capacity
  · rcases List.eq_nil_or_concat l with rfl | ⟨l, a, rfl⟩
    · rw [List.length_nil] at hfull
      omega
    · rw [List.concat_eq_append] at h hfull hsize ⊢
      have htail : c.tail = some a := by
        rw [chain_head h.linked.prev, List.head?_reverse, List.getLast?_concat]
      obtain ⟨c', chains', hdrop, hentry, hsize', h'⟩ := drop_ok h
      rw [if_pos hfull, List.dropLast_concat]
      refine ⟨c', chains', ?_, hentry, ?_, h'⟩
      · rw [evict, if_pos (by omega), htail, Option.bind_some]
        exact hdrop
      · rw [List.length_append, List.length_singleton] at hfull
        omega
  · rw [if_neg hfull]
    refine ⟨c, chains, ?_, rfl, by omega, h⟩
    rw [evict, if_neg (by omega)]

/-- A new node leaves the others as they are. -/
theorem rep_createNode (h : Rep capacity c l chains) (key value : Int) :
    Rep capacity (createNode c key value).2 l chains := by
  have hfresh : c.fresh ∉ l := fun hmem => Nat.lt_irrefl _ (h.fresh _ hmem)
  have hkeys : ∀ b ∈ l, Function.update c.key c.fresh key b = c.key b := by
    intro b hb
    refine Function.update_of_ne ?_ _ _
    rintro rfl
    exact hfresh hb
  refine ⟨⟨⟨h.linked.next.update hfresh none, ?_⟩, ⟨fun i hi => ?_, fun i hi b => ?_,
    fun b hb => ?_, ?_⟩, h.size, h.size_le⟩, fun b hb => Nat.lt_succ_of_lt (h.fresh b hb),
    h.capacity_eq, h.mapSize_eq⟩
  · exact h.linked.prev.update (fun hmem => hfresh (List.mem_reverse.1 hmem)) none
  · exact (h.table.chain i hi).update (fun hmem => hfresh ((h.table.mem i hi _).1 hmem).1) none
  · refine (h.table.mem i hi b).trans (and_congr_right fun hb => ?_)
    show hash (c.key b) c.mapSize = i ↔
      hash (Function.update c.key c.fresh key b) c.mapSize = i
    rw [hkeys b hb]
  · show hash (Function.update c.key c.fresh key b) c.mapSize < c.mapSize
    rw [hkeys b hb]
    exact h.table.index b hb
  · show (l.map (Function.update c.key c.fresh key)).Nodup
    rw [List.map_congr_left hkeys]
    exact h.table.keys

theorem entry_createNode (c : LRUCache) (key value : Int) :
    entry (createNode c key value).2 = Function.update (entry c) c.fresh (key, value) := by
  funext b
  by_cases hb : b = c.fresh
  · subst hb
    rw [Function.update_self]
    exact Prod.ext (Function.update_self ..) (Function.update_self ..)
  · rw [Function.update_of_ne hb]
    exact Prod.ext (Function.update_of_ne hb _ _) (Function.update_of_ne hb _ _)

/-- Putting a node with a new key to the front and into the table. -/
theorem add_ok (h : Rep capacity c l chains) (ha : a ∉ l) (hlt : a < c.fresh)
    (hroom : c.size < capacity) (hkey : hash (c.key a) c.mapSize < c.mapSize)
    (hnew : ∀ b ∈ l, c.key b ≠ c.key a) :
    ∃ c' chains', ((putNode (addToHead c a) a).map fun c => { c with size := c.size + 1 }) =
        some c' ∧
      entry c' = entry c ∧ Rep capacity c' (a :: l) chains' := by
  have heq := addToHead_eq h.linked ha
  have hlinked := linked_addToHead h.linked ha
  have htable : Table (addToHead c a) l chains := by
    rw [heq]
    exact ⟨h.table.chain, h.table.mem, h.table.index, h.table.keys⟩
  obtain ⟨map', hnext', chains', hput, htable'⟩ := putNode_ok htable ha
    (by rw [heq]; exact hnew) (by rw [heq]; exact hkey)
  have hsize : c.size + 1 = ((a :: l).length : Int) := by
    rw [h.size, List.length_cons]
    rfl
  have hle : c.size + 1 ≤ c.capacity := by
    rw [h.capacity_eq]
    omega
  refine ⟨{ addToHead c a with map := map', hnext := hnext', size := c.size + 1 }, chains',
    ?_, ?_, ?_⟩
  · rw [hput, heq]
    rfl
  · rw [heq]
    rfl
  · rw [heq] at hlinked htable' ⊢
    refine ⟨⟨⟨hlinked.next, hlinked.prev⟩,
      ⟨htable'.chain, htable'.mem, htable'.index, htable'.keys⟩, hsize, hle⟩,
      fun b hb => ?_, h.capacity_eq, h.mapSize_eq⟩
    rcases List.mem_cons.1 hb with rfl | hb
    · exact hlt
    · exact h.fresh b hb

/-- Adding a node with a new key. -/
theorem insert_ok (h : Rep capacity c l chains) (hroom : c.size < capacity) {key : Int}
    (value : Int) (hkey : hash key c.mapSize < c.mapSize) (hnew : ∀ b ∈ l, c.key b ≠ key) :
    ∃ c' chains',
      ((putNode (addToHead (createNode c key value).2 (createNode c key value).1)
        (createNode c key value).1).map fun c => { c with size := c.size + 1 }) = some c' ∧
      Rep capacity c' (c.fresh :: l) chains' ∧ entry c' c.fresh = (key, value) ∧
      ∀ b ∈ l, entry c' b = entry c b := by
  have hfresh : c.fresh ∉ l := fun hmem => Nat.lt_irrefl _ (h.fresh _ hmem)
  have hcreated := entry_createNode c key value
  have hself : entry (createNode c key value).2 c.fresh = (key, value) := by
    rw [hcreated, Function.update_self]
  have hother : ∀ b ∈ l, entry (createNode c key value).2 b = entry c b := by
    intro b hb
    rw [hcreated, Function.update_of_ne]
    rintro rfl
    exact hfresh hb
  have hkeyself : (createNode c key value).2.key c.fresh = key := congrArg Prod.fst hself
  obtain ⟨c', chains', hadd, hentry, h'⟩ := add_ok (rep_createNode h key value) hfresh
    (Nat.lt_succ_self _) hroom (by rw [hkeyself]; exact hkey) (by
      intro b hb
      have hkeyb : (createNode c key value).2.key b = c.key b := congrArg Prod.fst (hother b hb)
      rw [hkeyself, hkeyb]
      exact hnew b hb)
  refine ⟨c', chains', hadd, h', ?_, fun b hb => ?_⟩
  · rw [hentry, hself]
  · rw [hentry, hother b hb]

/-! ## Calls -/

theorem find_entries (h : Table c l chains) (ha : a ∈ l) :
    (entries c l).find? (fun x => x.1 = c.key a) = some (entry c a) := by
  refine find?_eq_some_of_unique (List.mem_map_of_mem ha) (decide_eq_true rfl) fun x hx hkey => ?_
  obtain ⟨b, hb, rfl⟩ := List.mem_map.1 hx
  rw [h.key_inj hb ha (of_decide_eq_true hkey)]

theorem find_entries_none {key : Int} (h : ∀ a ∈ l, c.key a ≠ key) :
    (entries c l).find? (fun x => x.1 = key) = none := by
  refine List.find?_eq_none.2 fun x hx => ?_
  obtain ⟨b, hb, rfl⟩ := List.mem_map.1 hx
  exact fun hkey => h b hb (of_decide_eq_true hkey)

theorem get_ok (h : Rep capacity c l chains) (key : Int) (hkey : hash key c.mapSize < c.mapSize) :
    ∃ c' l' chains', lRUCacheGet c key = some (c', ((entries c l).get key).2) ∧
      Rep capacity c' l' chains' ∧ entries c' l' = ((entries c l).get key).1 := by
  obtain ⟨r, hget, hr⟩ := getNode_ok h.table h.fresh hkey
  rw [lRUCacheGet, hget, Option.map_some, Recency.get]
  cases r with
  | none =>
      rw [find_entries_none fun a ha heq => by cases (hr a).2 ⟨ha, heq⟩]
      exact ⟨c, l, chains, rfl, h, rfl⟩
  | some a =>
      obtain ⟨ha, rfl⟩ := (hr a).1 rfl
      rw [find_entries h.table ha]
      obtain ⟨l₁, l₂, rfl⟩ := List.append_of_mem ha
      obtain ⟨htouched, hentry⟩ := touch_ok h
      refine ⟨_, _, _, ?_, htouched, ?_⟩
      · have hvalue := congrArg Prod.snd (congrFun hentry a)
        exact congrArg some (Prod.ext rfl hvalue)
      · rw [entries, hentry, List.map_cons, filter_entries h.table]
        rfl

theorem put_ok (h : Rep capacity c l chains) (hcap : 1 ≤ capacity) (key value : Int)
    (hkey : hash key c.mapSize < c.mapSize) :
    ∃ c' l' chains', lRUCachePut c key value = some c' ∧ Rep capacity c' l' chains' ∧
      entries c' l' = (entries c l).put capacity key value := by
  obtain ⟨r, hget, hr⟩ := getNode_ok h.table h.fresh hkey
  rw [lRUCachePut, hget, Option.bind_some, Recency.put, map_fst_entries]
  cases r with
  | some a =>
      obtain ⟨ha, rfl⟩ := (hr a).1 rfl
      rw [if_pos (List.mem_map_of_mem ha)]
      have hnodup : l.Nodup := List.Nodup.of_map _ h.table.keys
      obtain ⟨l₁, l₂, rfl⟩ := List.append_of_mem ha
      obtain ⟨htouched, hentry⟩ := touch_ok (overwrite_ok h a value)
      refine ⟨_, _, _, rfl, htouched, ?_⟩
      rw [entries, hentry, List.map_cons, filter_entries h.table]
      refine congrArg₂ List.cons (Prod.ext rfl (Function.update_self ..)) ?_
      refine List.map_congr_left fun b hb => Prod.ext rfl (Function.update_of_ne ?_ _ _)
      exact ((mem_without hnodup).1 hb).2
  | none =>
      have hnew : ∀ b ∈ l, c.key b ≠ key := fun b hb heq => by cases (hr b).2 ⟨hb, heq⟩
      have hnotin : key ∉ l.map c.key := by
        intro hmem
        obtain ⟨b, hb, heq⟩ := List.mem_map.1 hmem
        exact hnew b hb heq
      have hlength : (entries c l).length = l.length := List.length_map ..
      rw [if_neg hnotin, hlength]
      obtain ⟨c₁, chains₁, hevict, hentry, hroom, h₁⟩ := evict_ok h hcap
      rw [hevict, Option.bind_some]
      have hsub : ∀ b ∈ (if l.length = capacity then l.dropLast else l), b ∈ l := by
        intro b hb
        split at hb
        · exact (List.dropLast_sublist l).subset hb
        · exact hb
      rw [h.mapSize_eq, ← h₁.mapSize_eq] at hkey
      obtain ⟨c', chains', hput, h', hfirst, hrest⟩ := insert_ok h₁ hroom value hkey (by
        intro b hb
        have heq : c₁.key b = c.key b := congrArg Prod.fst (congrFun hentry b)
        rw [heq]
        exact hnew b (hsub b hb))
      refine ⟨c', _, chains', hput, h', ?_⟩
      rw [entries, List.map_cons, hfirst, List.map_congr_left hrest, hentry]
      split
      · rw [List.map_dropLast]
        rfl
      · rfl

/-- A call whose bucket is in the table. -/
theorem step_ok (h : Rep capacity c l chains) (hcap : 1 ≤ capacity) (call : Call)
    (hkey : hash call.key c.mapSize < c.mapSize) :
    ∃ c' l' chains', step c call = some (c', (Recency.step capacity (entries c l) call).2) ∧
      Rep capacity c' l' chains' ∧
      entries c' l' = (Recency.step capacity (entries c l) call).1 := by
  cases call with
  | get key =>
      obtain ⟨c', l', chains', hget, h', hentries⟩ := get_ok h key hkey
      refine ⟨c', l', chains', ?_, h', hentries⟩
      rw [step, hget]
      rfl
  | put key value =>
      obtain ⟨c', l', chains', hput, h', hentries⟩ := put_ok h hcap key value hkey
      refine ⟨c', l', chains', ?_, h', hentries⟩
      rw [step, hput]
      rfl

/-! ## Runs -/

/-- The index of a key that is not negative. -/
theorem hash_lt_of_nonneg {key : Int} (hkey : 0 ≤ key) : hash key 10007 < (10007 : Int) := by
  have hmod : Int.tmod key 10007 = key % 10007 := Int.tmod_eq_emod_of_nonneg hkey
  rw [hash, hmod]
  omega

/-- The list from `head` along `next` spells the recency list. -/
def Spells (c : LRUCache) (e : Recency) : Prop :=
  ∃ l, Chain c.next c.head l ∧ l.map (entry c) = e

/-- The cache answers like its recency list and spells it, for every run of calls with
keys that are not negative; and the recency list has distinct keys, at most as many as
the capacity. -/
theorem lRUCache_refines (capacity : Int) (hcap : 1 ≤ capacity) (calls : List Call)
    (hkeys : ∀ call ∈ calls, 0 ≤ call.key) :
    ∃ c, Trace step (lRUCacheCreate capacity) calls (answers (Recency.step capacity) [] calls) c ∧
      Spells c (outcome (Recency.step capacity) [] calls) ∧
      (outcome (Recency.step capacity) [] calls).length ≤ capacity ∧
      ((outcome (Recency.step capacity) [] calls).map Prod.fst).Nodup := by
  obtain ⟨c, htrace, l, chains, h, hentries⟩ := Trace.of_simulation (t := ([] : Recency)) step
    (Recency.step capacity) (fun c e => ∃ l chains, Rep capacity c l chains ∧ entries c l = e)
    (fun call : Call => 0 ≤ call.key) (by
      rintro c e call ⟨l, chains, h, rfl⟩ hkey
      obtain ⟨c', l', chains', hstep, h', hentries⟩ := step_ok h hcap call (by
        rw [h.mapSize_eq]
        exact hash_lt_of_nonneg hkey)
      exact ⟨c', hstep, l', chains', h', hentries⟩)
    ⟨[], fun _ => [], rep_init hcap, rfl⟩ hkeys
  refine ⟨c, htrace, ⟨l, h.linked.next, hentries⟩, ?_, ?_⟩
  · have hlength : (entries c l).length = l.length := List.length_map ..
    rw [← hentries, hlength, ← h.size, ← h.capacity_eq]
    exact h.size_le
  · rw [← hentries, map_fst_entries]
    exact h.table.keys

theorem lRUCache_refines_one :
    ∃ c, Trace step (lRUCacheCreate 1) [.put 1 5, .put 2 6, .get 1]
      (answers (Recency.step 1) [] [.put 1 5, .put 2 6, .get 1]) c ∧
      Spells c (outcome (Recency.step 1) [] [.put 1 5, .put 2 6, .get 1]) ∧
      (outcome (Recency.step 1) [] [.put 1 5, .put 2 6, .get 1]).length ≤ (1 : Int) ∧
      ((outcome (Recency.step 1) [] [.put 1 5, .put 2 6, .get 1]).map Prod.fst).Nodup :=
  lRUCache_refines 1 (by decide) _ (by decide)

end LruCache
end Leetcode
