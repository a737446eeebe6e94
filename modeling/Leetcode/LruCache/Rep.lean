import Leetcode.LruCache.Model

/-!
# The two views of the nodes of a cache

`Valid c l chains`: `l` lists the nodes from `head` to `tail`, and the bucket `i` of the
table chains the nodes `chains i`.  The lemmas below say what each helper of the
operations does to one of the two views; none of them touches the other one.
-/

namespace Leetcode
namespace LruCache

open CLib

/-! ## The list -/

/-- The links in both directions. -/
structure Linked (c : LRUCache) (l : List Ref) : Prop where
  next : Chain c.next c.head l
  prev : Chain c.prev c.tail l.reverse

variable {c : LRUCache} {l l₁ l₂ : List Ref} {a : Ref}

theorem Linked.next_eq (h : Linked c (l₁ ++ a :: l₂)) : c.next a = l₂.head? :=
  chain_link h.next

theorem Linked.prev_chain (h : Linked c (l₁ ++ a :: l₂)) :
    Chain c.prev c.tail (l₂.reverse ++ a :: l₁.reverse) := by
  have hprev := h.prev
  rw [List.reverse_append, List.reverse_cons, List.append_assoc] at hprev
  exact hprev

theorem Linked.prev_eq (h : Linked c (l₁ ++ a :: l₂)) : c.prev a = l₁.getLast? := by
  rw [chain_link h.prev_chain, List.head?_reverse]

theorem Linked.nodup (h : Linked c l) : l.Nodup := chain_nodup h.next

/-- The parts beside a node. -/
theorem Linked.notMem (h : Linked c (l₁ ++ a :: l₂)) : a ∉ l₁ ∧ a ∉ l₂ ∧ ∀ b ∈ l₁, b ∉ l₂ := by
  have hdisjoint := chain_disjoint h.next
  have hright := (List.nodup_append.1 h.nodup).2.1
  refine ⟨fun ha => hdisjoint a ha List.mem_cons_self, (List.nodup_cons.1 hright).1, ?_⟩
  intro b hb hb₂
  exact hdisjoint b hb (List.mem_cons_of_mem _ hb₂)

theorem removeNode_eq (h : Linked c (l₁ ++ a :: l₂)) :
    removeNode c a = { c with
      next := (relink c.next c.head l₁.getLast? l₂.head?).1
      head := (relink c.next c.head l₁.getLast? l₂.head?).2
      prev := (relink c.prev c.tail l₂.head? l₁.getLast?).1
      tail := (relink c.prev c.tail l₂.head? l₁.getLast?).2 } := by
  have hlast : ∀ b, l₁.getLast? = some b → a ≠ b := by
    rintro b hb rfl
    exact h.notMem.1 (List.mem_of_getLast? hb)
  simp only [removeNode, h.prev_eq, h.next_eq]
  cases hp : l₁.getLast? with
  | none =>
      simp only [h.prev_eq, h.next_eq, hp]
      cases l₂.head? <;> rfl
  | some b =>
      -- The node itself is not the one whose link has just been written.
      simp only [Function.update_of_ne (hlast b hp), h.prev_eq, h.next_eq, hp]
      cases l₂.head? <;> rfl

/-- `removeNode` takes a node out of the list. -/
theorem linked_removeNode (h : Linked c (l₁ ++ a :: l₂)) :
    Linked (removeNode c a) (l₁ ++ l₂) := by
  obtain ⟨-, -, hdisjoint⟩ := h.notMem
  have hright : Chain c.next l₂.head? l₂ := by
    rw [← h.next_eq]
    exact chain_behind_node h.next
  have hleft : Chain c.prev l₁.getLast? l₁.reverse := by
    rw [← h.prev_eq]
    exact chain_behind_node h.prev_chain
  rw [removeNode_eq h]
  constructor
  · exact chain_splice h.next hright hdisjoint
  · have hspliced := chain_splice h.prev_chain hleft (by
      intro b hb hb₁
      exact hdisjoint b (List.mem_reverse.1 hb₁) (List.mem_reverse.1 hb))
    rw [List.getLast?_reverse] at hspliced
    rw [List.reverse_append]
    exact hspliced

theorem addToHead_eq (h : Linked c l) (ha : a ∉ l) :
    addToHead c a = { c with
      next := Function.update c.next a c.head
      head := some a
      prev := (relink (Function.update c.prev a none) c.tail l.head? (some a)).1
      tail := (relink (Function.update c.prev a none) c.tail l.head? (some a)).2 } := by
  have hhead := chain_head h.next
  have htail := chain_head h.prev
  cases l with
  | nil => simp only [addToHead, hhead, htail, relink, List.head?, List.reverse_nil]
  | cons b l =>
      obtain ⟨d, hd⟩ : ∃ d, c.tail = some d := by
        rw [htail, List.head?_reverse]
        exact ⟨_, List.getLast?_cons⟩
      simp only [addToHead, hhead, hd, relink, List.head?]

/-- `addToHead` puts a node in front of the list. -/
theorem linked_addToHead (h : Linked c l) (ha : a ∉ l) : Linked (addToHead c a) (a :: l) := by
  have hprev : Chain (Function.update c.prev a none) c.tail (l.reverse ++ []) := by
    rw [List.append_nil]
    exact h.prev.update (fun hmem => ha (List.mem_reverse.1 hmem)) none
  have hnew : Chain (Function.update c.prev a none) (some a) [a] :=
    ⟨rfl, Function.update_self ..⟩
  rw [addToHead_eq h ha]
  constructor
  · refine ⟨rfl, ?_⟩
    simp only [Function.update_self]
    exact h.next.update ha c.head
  · have hspliced := chain_splice hprev hnew (by
      intro b hb hba
      rw [List.mem_singleton.1 hba] at hb
      exact ha (List.mem_reverse.1 hb))
    rw [List.getLast?_reverse] at hspliced
    rw [List.reverse_cons]
    exact hspliced

/-! ## The table -/

/-- Every bucket chains the nodes of the list whose keys have its index, and no two nodes
have the same key. -/
structure Table (c : LRUCache) (l : List Ref) (chains : ℕ → List Ref) : Prop where
  chain : ∀ i : ℕ, i < c.mapSize → Chain c.hnext (c.map i) (chains i)
  mem : ∀ i : ℕ, i < c.mapSize → ∀ a, a ∈ chains i ↔ a ∈ l ∧ hash (c.key a) c.mapSize = i
  index : ∀ a ∈ l, hash (c.key a) c.mapSize < c.mapSize
  keys : (l.map c.key).Nodup

variable {chains : ℕ → List Ref} {key : Int}

/-- The order of the list does not matter. -/
theorem Table.perm {l' : List Ref} (h : Table c l chains) (hperm : l.Perm l') :
    Table c l' chains where
  chain := h.chain
  mem := fun i hi a => by rw [h.mem i hi a, hperm.mem_iff]
  index := fun a ha => h.index a (hperm.mem_iff.2 ha)
  keys := (hperm.map c.key).nodup_iff.1 h.keys

theorem Table.key_inj (h : Table c l chains) {b : Ref} (ha : a ∈ l) (hb : b ∈ l)
    (heq : c.key a = c.key b) : a = b :=
  List.inj_on_of_nodup_map h.keys ha hb heq

theorem Table.length_chain_le (h : Table c l chains) (hfresh : ∀ a ∈ l, a < c.fresh) {i : ℕ}
    (hi : i < c.mapSize) : (chains i).length ≤ c.fresh :=
  chain_length_le (h.chain i hi) fun a ha => hfresh a ((h.mem i hi a).1 ha).1

/-- `getNode` finds the node of a key. -/
theorem getNode_ok (h : Table c l chains) (hfresh : ∀ a ∈ l, a < c.fresh)
    (hkey : hash key c.mapSize < c.mapSize) :
    ∃ r, getNode c key = some r ∧ ∀ a, r = some a ↔ a ∈ l ∧ c.key a = key := by
  have hchain := h.chain _ hkey
  refine ⟨(chains (hash key c.mapSize)).find? fun a => c.key a = key, ?_, fun a => ⟨?_, ?_⟩⟩
  · rw [getNode, bucket, if_pos hkey, Option.bind_some]
    exact findNode_chain _ hchain (h.length_chain_le hfresh hkey)
  · intro hfind
    have hmem := (h.mem _ hkey a).1 (List.mem_of_find?_eq_some hfind)
    exact ⟨hmem.1, by simpa using List.find?_some hfind⟩
  · rintro ⟨ha, rfl⟩
    have hmem := (h.mem _ hkey a).2 ⟨ha, rfl⟩
    refine find?_eq_some_of_unique hmem (by simp) fun b hb hkeys => ?_
    exact h.key_inj ((h.mem _ hkey b).1 hb).1 ha (by simpa using hkeys)

/-- `putNode` adds a node with a new key to the table. -/
theorem putNode_ok (h : Table c l chains) (ha : a ∉ l) (hnew : ∀ b ∈ l, c.key b ≠ c.key a)
    (hkey : hash (c.key a) c.mapSize < c.mapSize) :
    ∃ map' hnext' chains', putNode c a = some { c with map := map', hnext := hnext' } ∧
      Table { c with map := map', hnext := hnext' } (a :: l) chains' := by
  have hother : ∀ i : ℕ, i < c.mapSize → a ∉ chains i := fun i hi hmem =>
    ha ((h.mem i hi a).1 hmem).1
  refine ⟨Function.update c.map (hash (c.key a) c.mapSize) (some a),
    Function.update c.hnext a (c.map (hash (c.key a) c.mapSize)),
    Function.update chains (hash (c.key a) c.mapSize) (a :: chains (hash (c.key a) c.mapSize)),
    ?_, ?_, ?_, ?_, ?_⟩
  · rw [putNode, bucket, if_pos hkey, Option.bind_some]
    exact if_pos hkey
  · intro i hi
    by_cases hidx : i = hash (c.key a) c.mapSize
    · subst hidx
      simp only [Function.update_self]
      refine ⟨rfl, ?_⟩
      rw [Function.update_self]
      exact (h.chain _ hkey).update (hother _ hkey) _
    · simp only [Function.update_of_ne hidx]
      exact (h.chain i hi).update (hother i hi) _
  · intro i hi b
    show b ∈ _ ↔ b ∈ a :: l ∧ hash (c.key b) c.mapSize = i
    by_cases hidx : i = hash (c.key a) c.mapSize
    · subst hidx
      rw [Function.update_self, List.mem_cons, List.mem_cons, h.mem _ hkey b]
      constructor
      · rintro (rfl | ⟨hb, heq⟩)
        · exact ⟨Or.inl rfl, rfl⟩
        · exact ⟨Or.inr hb, heq⟩
      · rintro ⟨rfl | hb, heq⟩
        · exact Or.inl rfl
        · exact Or.inr ⟨hb, heq⟩
    · rw [Function.update_of_ne hidx, List.mem_cons, h.mem i hi b]
      constructor
      · rintro ⟨hb, heq⟩
        exact ⟨Or.inr hb, heq⟩
      · rintro ⟨rfl | hb, heq⟩
        · exact absurd heq.symm hidx
        · exact ⟨hb, heq⟩
  · intro b hb
    rcases List.mem_cons.1 hb with rfl | hb
    · exact hkey
    · exact h.index b hb
  · rw [List.map_cons]
    refine List.nodup_cons.2 ⟨fun hmem => ?_, h.keys⟩
    obtain ⟨b, hb, heq⟩ := List.mem_map.1 hmem
    exact hnew b hb heq

/-- The bucket of a node, split at the node, with other keys in front of it. -/
theorem Table.split (h : Table c l chains) (ha : a ∈ l) :
    ∃ s t, chains (hash (c.key a) c.mapSize) = s ++ a :: t ∧ ∀ b ∈ s, c.key b ≠ c.key a := by
  have hidx := h.index a ha
  obtain ⟨s, t, hst⟩ := List.append_of_mem ((h.mem _ hidx a).2 ⟨ha, rfl⟩)
  have hchain := h.chain _ hidx
  rw [hst] at hchain
  refine ⟨s, t, hst, fun b hb heq => ?_⟩
  have hbl : b ∈ chains (hash (c.key a) c.mapSize) := by
    rw [hst]
    exact List.mem_append_left _ hb
  obtain rfl := h.key_inj ((h.mem _ hidx b).1 hbl).1 ha heq
  exact chain_disjoint hchain b hb List.mem_cons_self

/-- Taking a node out of its bucket takes it out of the table. -/
theorem table_unlinked (h : Table c (l₁ ++ a :: l₂) chains) {s t : List Ref}
    (hst : chains (hash (c.key a) c.mapSize) = s ++ a :: t) :
    Table { c with
        map := Function.update c.map (hash (c.key a) c.mapSize)
          (relink c.hnext (c.map (hash (c.key a) c.mapSize)) s.getLast? t.head?).2
        hnext := (relink c.hnext (c.map (hash (c.key a) c.mapSize)) s.getLast? t.head?).1 }
      (l₁ ++ l₂) (Function.update chains (hash (c.key a) c.mapSize) (s ++ t)) := by
  have hnodup : (l₁ ++ a :: l₂).Nodup := List.Nodup.of_map _ h.keys
  have hidx := h.index a (List.mem_append_right _ List.mem_cons_self)
  generalize hi : hash (c.key a) c.mapSize = idx at hidx hst ⊢
  have hchain := h.chain idx hidx
  rw [hst] at hchain
  refine ⟨?_, ?_, ?_, ?_⟩
  · intro i hib
    by_cases hii : i = idx
    · subst hii
      simp only [Function.update_self]
      have hrest := chain_behind_node hchain
      rw [chain_link hchain] at hrest
      refine chain_splice hchain hrest fun b hb hbt => ?_
      exact chain_disjoint hchain b hb (List.mem_cons_of_mem _ hbt)
    · -- The link that has been written is in another bucket.
      simp only [Function.update_of_ne hii]
      refine (h.chain i hib).congr fun b hb => relink_other _ _ _ fun hlast => hii ?_
      have hbidx : b ∈ chains idx := by
        rw [hst]
        exact List.mem_append_left _ (List.mem_of_getLast? hlast)
      exact ((h.mem i hib b).1 hb).2.symm.trans ((h.mem idx hidx b).1 hbidx).2
  · intro i hib b
    show b ∈ _ ↔ b ∈ l₁ ++ l₂ ∧ hash (c.key b) c.mapSize = i
    by_cases hii : i = idx
    · subst hii
      rw [Function.update_self, mem_without (chain_nodup hchain), mem_without hnodup, ← hst,
        h.mem i hib b]
      tauto
    · rw [Function.update_of_ne hii, h.mem i hib b, mem_without hnodup]
      constructor
      · rintro ⟨hb, heq⟩
        refine ⟨⟨hb, ?_⟩, heq⟩
        rintro rfl
        exact hii (heq.symm.trans hi)
      · rintro ⟨⟨hb, -⟩, heq⟩
        exact ⟨hb, heq⟩
  · intro b hb
    exact h.index b ((mem_without hnodup).1 hb).1
  · have hsub : (l₁ ++ l₂).Sublist (l₁ ++ a :: l₂) :=
      (List.sublist_cons_self a l₂).append_left l₁
    exact h.keys.sublist (hsub.map c.key)

/-- `removeFromMap` takes a node out of the table. -/
theorem removeFromMap_ok (h : Table c (l₁ ++ a :: l₂) chains)
    (hfresh : ∀ b ∈ l₁ ++ a :: l₂, b < c.fresh) :
    ∃ map' hnext' chains',
      removeFromMap c (c.key a) = some { c with map := map', hnext := hnext' } ∧
      Table { c with map := map', hnext := hnext' } (l₁ ++ l₂) chains' := by
  have hmem : a ∈ l₁ ++ a :: l₂ := List.mem_append_right _ List.mem_cons_self
  have hidx := h.index a hmem
  obtain ⟨s, t, hst, hs⟩ := h.split hmem
  refine ⟨_, _, _, ?_, table_unlinked h hst⟩
  have hchain := h.chain _ hidx
  have hlength := h.length_chain_le hfresh hidx
  rw [hst] at hchain hlength
  rw [removeFromMap, bucket, if_pos hidx, Option.bind_some,
    findPrev_chain hchain (fun b hb => decide_eq_false (hs b hb)) (decide_eq_true rfl) hlength,
    Option.or_none, Option.bind_some, ← chain_link hchain]
  cases s.getLast? with
  | none => exact if_pos hidx
  | some b => simp only [relink, Function.update_eq_self]

end LruCache
end Leetcode
