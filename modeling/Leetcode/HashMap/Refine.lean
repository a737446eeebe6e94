import Leetcode.HashMap.Model

/-!
# The hash map is a finite map

`Bindings` is what the map is for: the bindings of the keys, without any buckets.

* `Rep` — the invariant: the bucket of a key has its node, if there is one.
* `Shows` — the bindings that the nodes of a map make.
* `map_refines` — the answers of every run are those of the bindings.
-/

namespace Leetcode
namespace HashMap

open CLib

variable {V : Type*}

/-! ## The specification -/

/-- A key is bound to a value or `NULL`, or it is not bound. -/
abbrev Bindings (V : Type*) := CStr → Option (Option V)

/-- Every call returns what its key was bound to, or `NULL`. -/
def Bindings.step (s : Bindings V) : Call V → Bindings V × Option V
  | .insert key value => (Function.update s key (some value), (s key).join)
  | .get key => (s, (s key).join)
  | .remove key => (Function.update s key none, (s key).join)

/-! ## The invariant -/

/-- The bucket of a key. -/
def index (m : ConcurrentHashMap V) (key : CStr) : ℕ := (hashStr key).toNat % m.nbuckets

/-- The nodes of the bucket `i` are `chains i`; no two of them have the same key, and no
lock is held. -/
structure Rep (m : ConcurrentHashMap V) (chains : ℕ → List Ref) : Prop where
  chain : ∀ i, Chain m.next (m.head i) (chains i)
  index_eq : ∀ i, ∀ a ∈ chains i, index m (m.key a) = i
  keys : ∀ i, ((chains i).map m.key).Nodup
  fresh : ∀ i, ∀ a ∈ chains i, a < m.fresh
  unlocked : ∀ i, m.lock i = false
  nbuckets_pos : 0 < m.nbuckets

/-- The nodes make these bindings. -/
def Shows (m : ConcurrentHashMap V) (chains : ℕ → List Ref) (s : Bindings V) : Prop :=
  ∀ key v, s key = some v ↔ ∃ a ∈ chains (index m key), m.key a = key ∧ m.value a = v

theorem rep_init {nbuckets : ℕ} (hn : 0 < nbuckets) :
    Rep (mapCreate nbuckets : ConcurrentHashMap V) fun _ => [] where
  chain := fun _ => rfl
  index_eq := by simp
  keys := fun _ => List.nodup_nil
  fresh := by simp
  unlocked := fun _ => rfl
  nbuckets_pos := hn

theorem shows_init (nbuckets : ℕ) :
    Shows (mapCreate nbuckets : ConcurrentHashMap V) (fun _ => []) fun _ => none := by
  intro key v
  simp

variable {m : ConcurrentHashMap V} {chains : ℕ → List Ref} {s : Bindings V} {a b : Ref}
  {l₁ l₂ : List Ref} {key : CStr} {i : ℕ}

theorem hasKey_iff : hasKey m key a = true ↔ m.key a = key := by
  rw [hasKey, decide_eq_true_iff, strcmp_eq_zero_iff (m.key a).2 key.2, Subtype.ext_iff]

theorem hasKey_eq_false (h : m.key a ≠ key) : hasKey m key a = false :=
  Bool.eq_false_iff.2 fun hkey => h (hasKey_iff.1 hkey)

theorem Rep.bucketOf_eq (h : Rep m chains) (key : CStr) : bucketOf m key = some (index m key) :=
  if_neg (Nat.ne_of_gt h.nbuckets_pos)

theorem Rep.key_inj (h : Rep m chains) (ha : a ∈ chains i) (hb : b ∈ chains i)
    (heq : m.key a = m.key b) : a = b :=
  List.inj_on_of_nodup_map (h.keys i) ha hb heq

theorem Rep.length_le (h : Rep m chains) (i : ℕ) : (chains i).length ≤ m.fresh :=
  chain_length_le (h.chain i) (h.fresh i)

/-- Taking and releasing a lock. -/
theorem Rep.lock_eq (h : Rep m chains) (i : ℕ) :
    pthreadMutexLock m i = some { m with lock := Function.update m.lock i true } :=
  if_neg (by simp [h.unlocked i])

theorem Rep.relocked (h : Rep m chains) (i : ℕ) :
    Function.update (Function.update m.lock i true) i false = m.lock := by
  rw [Function.update_idem, ← h.unlocked i, Function.update_eq_self]

/-- The first node of a key in its bucket, or none. -/
theorem Rep.find_cases (h : Rep m chains) (key : CStr) :
    (∃ l₁ a l₂, chains (index m key) = l₁ ++ a :: l₂ ∧ (∀ b ∈ l₁, m.key b ≠ key) ∧
        m.key a = key) ∨
      ∀ a ∈ chains (index m key), m.key a ≠ key := by
  by_cases hex : ∃ a ∈ chains (index m key), m.key a = key
  · obtain ⟨a, ha, rfl⟩ := hex
    obtain ⟨l₁, l₂, hi⟩ := List.append_of_mem ha
    refine Or.inl ⟨l₁, a, l₂, hi, fun b hb heq => ?_, rfl⟩
    have hchain := h.chain (index m (m.key a))
    rw [hi] at hchain
    obtain rfl := h.key_inj (hi ▸ List.mem_append_left _ hb) ha heq
    exact chain_disjoint hchain b hb List.mem_cons_self
  · exact Or.inr fun a ha hkey => hex ⟨a, ha, hkey⟩

theorem Rep.find_hit (h : Rep m chains) (hi : chains (index m key) = l₁ ++ a :: l₂)
    (hbefore : ∀ b ∈ l₁, m.key b ≠ key) (hkey : m.key a = key) :
    findNode m.next (hasKey m key) m.fresh (m.head (index m key)) = some (some a) := by
  rw [findNode_chain (hasKey m key) (h.chain (index m key)) (h.length_le _), hi,
    List.find?_append, List.find?_eq_none.2 fun b hb => by simp [hasKey_eq_false (hbefore b hb)],
    Option.none_or, List.find?_cons_of_pos (hasKey_iff.2 hkey)]

theorem Rep.find_miss (h : Rep m chains) (hnew : ∀ a ∈ chains (index m key), m.key a ≠ key) :
    findNode m.next (hasKey m key) m.fresh (m.head (index m key)) = some none := by
  rw [findNode_chain (hasKey m key) (h.chain (index m key)) (h.length_le _),
    List.find?_eq_none.2 fun a ha => by simp [hasKey_eq_false (hnew a ha)]]

theorem Shows.bound (hs : Shows m chains s) (hi : chains (index m key) = l₁ ++ a :: l₂)
    (hkey : m.key a = key) : s key = some (m.value a) :=
  (hs key _).2 ⟨a, by simp [hi], hkey, rfl⟩

theorem Shows.unbound (hs : Shows m chains s)
    (hnew : ∀ a ∈ chains (index m key), m.key a ≠ key) : s key = none := by
  refine Option.eq_none_iff_forall_ne_some.2 fun v hv => ?_
  obtain ⟨a, ha, hkey, -⟩ := (hs key v).1 hv
  exact hnew a ha hkey

/-! ## What the calls do to the nodes -/

/-- A new value for a node. -/
theorem rep_setValue (h : Rep m chains) (a : Ref) (value : Option V) :
    Rep { m with value := Function.update m.value a value } chains :=
  ⟨h.chain, h.index_eq, h.keys, h.fresh, h.unlocked, h.nbuckets_pos⟩

theorem shows_setValue (h : Rep m chains) (hs : Shows m chains s)
    (ha : a ∈ chains (index m (m.key a))) (value : Option V) :
    Shows { m with value := Function.update m.value a value } chains
      (Function.update s (m.key a) (some value)) := by
  intro key v
  show _ ↔ ∃ b ∈ chains (index m key), m.key b = key ∧ Function.update m.value a value b = v
  by_cases hkey : key = m.key a
  · subst hkey
    rw [Function.update_self]
    constructor
    · rintro ⟨⟩
      exact ⟨a, ha, rfl, Function.update_self ..⟩
    · rintro ⟨b, hb, heq, hv⟩
      rw [h.key_inj hb ha heq, Function.update_self] at hv
      rw [hv]
  · rw [Function.update_of_ne hkey, hs key v]
    refine exists_congr fun b => and_congr_right fun hb => and_congr_right fun heq => ?_
    have hba : b ≠ a := by
      rintro rfl
      exact hkey heq.symm
    rw [Function.update_of_ne hba]

/-- The chains with a new node in front. -/
def pushed (m : ConcurrentHashMap V) (chains : ℕ → List Ref) (i : ℕ) : ℕ → List Ref :=
  Function.update chains i (m.fresh :: chains i)

theorem mem_pushed {j : ℕ} : b ∈ pushed m chains i j ↔ j = i ∧ b = m.fresh ∨ b ∈ chains j := by
  unfold pushed
  by_cases hj : j = i
  · subst hj
    simp
  · simp [hj]

theorem Rep.fresh_notMem (h : Rep m chains) (i : ℕ) : m.fresh ∉ chains i := fun hmem =>
  Nat.lt_irrefl _ (h.fresh i _ hmem)

theorem Rep.key_pushed (h : Rep m chains) (hb : b ∈ chains i) (key : CStr) :
    Function.update m.key m.fresh key b = m.key b := by
  refine Function.update_of_ne ?_ _ _
  rintro rfl
  exact h.fresh_notMem i hb

theorem rep_pushNode (h : Rep m chains) (hnew : ∀ a ∈ chains (index m key), m.key a ≠ key)
    (value : Option V) :
    Rep (pushNode m (index m key) key value) (pushed m chains (index m key)) where
  chain := fun i => by
    show Chain (Function.update m.next m.fresh (m.head (index m key)))
      (Function.update m.head (index m key) (some m.fresh) i) (pushed m chains (index m key) i)
    unfold pushed
    by_cases hi : i = index m key
    · subst hi
      rw [Function.update_self, Function.update_self]
      refine ⟨rfl, ?_⟩
      rw [Function.update_self]
      exact (h.chain _).update (h.fresh_notMem _) _
    · rw [Function.update_of_ne hi, Function.update_of_ne hi]
      exact (h.chain i).update (h.fresh_notMem i) _
  index_eq := fun i b hb => by
    show index m (Function.update m.key m.fresh key b) = i
    rcases mem_pushed.1 hb with ⟨rfl, rfl⟩ | hb
    · rw [Function.update_self]
    · rw [h.key_pushed hb]
      exact h.index_eq i b hb
  keys := fun i => by
    show ((pushed m chains (index m key) i).map (Function.update m.key m.fresh key)).Nodup
    have hsame : (chains i).map (Function.update m.key m.fresh key) = (chains i).map m.key :=
      List.map_congr_left fun b hb => h.key_pushed hb key
    unfold pushed
    by_cases hi : i = index m key
    · subst hi
      rw [Function.update_self, List.map_cons, hsame, Function.update_self]
      refine List.nodup_cons.2 ⟨fun hmem => ?_, h.keys _⟩
      obtain ⟨b, hb, heq⟩ := List.mem_map.1 hmem
      exact hnew b hb heq
    · rw [Function.update_of_ne hi, hsame]
      exact h.keys i
  fresh := fun i b hb => by
    rcases mem_pushed.1 hb with ⟨-, rfl⟩ | hb
    · exact Nat.lt_succ_self _
    · exact Nat.lt_succ_of_lt (h.fresh i b hb)
  unlocked := h.unlocked
  nbuckets_pos := h.nbuckets_pos

theorem shows_pushNode (h : Rep m chains) (hs : Shows m chains s)
    (hnew : ∀ a ∈ chains (index m key), m.key a ≠ key) (value : Option V) :
    Shows (pushNode m (index m key) key value) (pushed m chains (index m key))
      (Function.update s key (some value)) := by
  intro key' v
  show _ ↔ ∃ b ∈ pushed m chains (index m key) (index m key'),
    Function.update m.key m.fresh key b = key' ∧ Function.update m.value m.fresh value b = v
  by_cases hkey : key' = key
  · subst hkey
    rw [Function.update_self]
    constructor
    · rintro ⟨⟩
      exact ⟨m.fresh, mem_pushed.2 (Or.inl ⟨rfl, rfl⟩), Function.update_self ..,
        Function.update_self ..⟩
    · rintro ⟨b, hb, heq, hv⟩
      rcases mem_pushed.1 hb with ⟨-, rfl⟩ | hb
      · rw [Function.update_self] at hv
        rw [hv]
      · rw [h.key_pushed hb] at heq
        exact absurd heq (hnew b hb)
  · rw [Function.update_of_ne hkey, hs key' v]
    constructor
    · rintro ⟨b, hb, heq, hv⟩
      refine ⟨b, mem_pushed.2 (Or.inr hb), (h.key_pushed hb key).trans heq, ?_⟩
      rw [Function.update_of_ne (Nat.ne_of_lt (h.fresh _ b hb))]
      exact hv
    · rintro ⟨b, hb, heq, hv⟩
      rcases mem_pushed.1 hb with ⟨-, rfl⟩ | hb
      · rw [Function.update_self] at heq
        exact absurd heq.symm hkey
      · rw [h.key_pushed hb] at heq
        rw [Function.update_of_ne (Nat.ne_of_lt (h.fresh _ b hb))] at hv
        exact ⟨b, hb, heq, hv⟩

/-- The map without a node of the bucket `i`, with `prev` in front of it. -/
def unlinked (m : ConcurrentHashMap V) (i : ℕ) (prev : Option Ref) (a : Ref) :
    ConcurrentHashMap V :=
  { m with
    next := (relink m.next (m.head i) prev (m.next a)).1
    head := Function.update m.head i (relink m.next (m.head i) prev (m.next a)).2 }

/-- The code writes one link. -/
theorem unlinked_eq (m : ConcurrentHashMap V) (i : ℕ) (prev : Option Ref) (a : Ref) :
    unlinked m i prev a =
      match prev with
      | some p => { m with next := Function.update m.next p (m.next a) }
      | none => { m with head := Function.update m.head i (m.next a) } := by
  unfold unlinked
  cases prev with
  | none => rfl
  | some p => simp only [relink, Function.update_eq_self]

theorem mem_unlinked (h : Rep m chains) (hi : chains i = l₁ ++ a :: l₂) {j : ℕ} :
    b ∈ Function.update chains i (l₁ ++ l₂) j ↔ b ∈ chains j ∧ b ≠ a := by
  have ha : a ∈ chains i := by simp [hi]
  by_cases hj : j = i
  · subst hj
    have hnodup := chain_nodup (h.chain j)
    rw [hi] at hnodup
    rw [Function.update_self, hi, mem_without hnodup]
  · rw [Function.update_of_ne hj]
    refine (and_iff_left_of_imp fun hb hba => hj ?_).symm
    rw [hba] at hb
    exact (h.index_eq j a hb).symm.trans (h.index_eq i a ha)

theorem rep_unlinked (h : Rep m chains) (hi : chains i = l₁ ++ a :: l₂) :
    Rep (unlinked m i l₁.getLast? a) (Function.update chains i (l₁ ++ l₂)) where
  chain := fun j => by
    have hchain := h.chain i
    rw [hi] at hchain
    show Chain (relink m.next (m.head i) l₁.getLast? (m.next a)).1
      (Function.update m.head i (relink m.next (m.head i) l₁.getLast? (m.next a)).2 j) _
    by_cases hj : j = i
    · subst hj
      rw [Function.update_self, Function.update_self]
      refine chain_splice hchain (chain_behind_node hchain) fun b hb hbl => ?_
      exact chain_disjoint hchain b hb (List.mem_cons_of_mem _ hbl)
    · -- The link that has been written is in another bucket.
      rw [Function.update_of_ne hj, Function.update_of_ne hj]
      refine (h.chain j).congr fun b hb => relink_other _ _ _ fun hlast => hj ?_
      have hbi : b ∈ chains i := by
        rw [hi]
        exact List.mem_append_left _ (List.mem_of_getLast? hlast)
      exact (h.index_eq j b hb).symm.trans (h.index_eq i b hbi)
  index_eq := fun j b hb => h.index_eq j b ((mem_unlinked h hi).1 hb).1
  keys := fun j => by
    by_cases hj : j = i
    · subst hj
      have hkeys := h.keys j
      rw [hi] at hkeys
      rw [Function.update_self]
      have hsub : (l₁ ++ l₂).Sublist (l₁ ++ a :: l₂) :=
        (List.sublist_cons_self a l₂).append_left l₁
      exact hkeys.sublist (hsub.map m.key)
    · rw [Function.update_of_ne hj]
      exact h.keys j
  fresh := fun j b hb => h.fresh j b ((mem_unlinked h hi).1 hb).1
  unlocked := h.unlocked
  nbuckets_pos := h.nbuckets_pos

theorem shows_unlinked (h : Rep m chains) (hs : Shows m chains s) (hi : chains i = l₁ ++ a :: l₂) :
    Shows (unlinked m i l₁.getLast? a) (Function.update chains i (l₁ ++ l₂))
      (Function.update s (m.key a) none) := by
  intro key v
  have ha : a ∈ chains i := by simp [hi]
  show _ ↔ ∃ b ∈ Function.update chains i (l₁ ++ l₂) (index m key), m.key b = key ∧ m.value b = v
  by_cases hkey : key = m.key a
  · subst hkey
    rw [Function.update_self]
    refine iff_of_false (fun hv => by cases hv) fun hex => ?_
    obtain ⟨b, hb, heq, -⟩ := hex
    obtain ⟨hb, hba⟩ := (mem_unlinked h hi).1 hb
    rw [h.index_eq i a ha] at hb
    exact hba (h.key_inj hb ha heq)
  · rw [Function.update_of_ne hkey, hs key v]
    refine exists_congr fun b => ?_
    rw [mem_unlinked h hi]
    constructor
    · rintro ⟨hb, heq, hv⟩
      refine ⟨⟨hb, ?_⟩, heq, hv⟩
      rintro rfl
      exact hkey heq.symm
    · rintro ⟨⟨hb, -⟩, heq, hv⟩
      exact ⟨hb, heq, hv⟩

/-! ## Calls -/

theorem insert_hit (h : Rep m chains) (hi : chains (index m key) = l₁ ++ a :: l₂)
    (hbefore : ∀ b ∈ l₁, m.key b ≠ key) (hkey : m.key a = key) (value : Option V) :
    mapInsert m key value =
      some ({ m with value := Function.update m.value a value }, m.value a) := by
  rw [mapInsert, h.bucketOf_eq, Option.bind_some, h.lock_eq, Option.bind_some]
  show (findNode m.next (hasKey m key) m.fresh (m.head (index m key))).map _ = _
  rw [h.find_hit hi hbefore hkey, Option.map_some]
  simp only [pthreadMutexUnlock, h.relocked]

theorem insert_miss (h : Rep m chains) (hnew : ∀ a ∈ chains (index m key), m.key a ≠ key)
    (value : Option V) :
    mapInsert m key value = some (pushNode m (index m key) key value, none) := by
  rw [mapInsert, h.bucketOf_eq, Option.bind_some, h.lock_eq, Option.bind_some]
  show (findNode m.next (hasKey m key) m.fresh (m.head (index m key))).map _ = _
  rw [h.find_miss hnew, Option.map_some]
  simp only [pthreadMutexUnlock, pushNode, h.relocked]

theorem get_hit (h : Rep m chains) (hi : chains (index m key) = l₁ ++ a :: l₂)
    (hbefore : ∀ b ∈ l₁, m.key b ≠ key) (hkey : m.key a = key) :
    mapGet m key = some (m, m.value a) := by
  rw [mapGet, h.bucketOf_eq, Option.bind_some, h.lock_eq, Option.bind_some]
  show (findNode m.next (hasKey m key) m.fresh (m.head (index m key))).map _ = _
  rw [h.find_hit hi hbefore hkey, Option.map_some]
  simp only [pthreadMutexUnlock, h.relocked]

theorem get_miss (h : Rep m chains) (hnew : ∀ a ∈ chains (index m key), m.key a ≠ key) :
    mapGet m key = some (m, none) := by
  rw [mapGet, h.bucketOf_eq, Option.bind_some, h.lock_eq, Option.bind_some]
  show (findNode m.next (hasKey m key) m.fresh (m.head (index m key))).map _ = _
  rw [h.find_miss hnew, Option.map_some]
  simp only [pthreadMutexUnlock, h.relocked]

theorem remove_hit (h : Rep m chains) (hi : chains (index m key) = l₁ ++ a :: l₂)
    (hbefore : ∀ b ∈ l₁, m.key b ≠ key) (hkey : m.key a = key) :
    mapRemove m key = some (unlinked m (index m key) l₁.getLast? a, m.value a) := by
  have hchain := h.chain (index m key)
  have hlength := h.length_le (index m key)
  rw [hi] at hchain hlength
  have hfind := findPrev_chain hchain (fun b hb => hasKey_eq_false (hbefore b hb))
    (hasKey_iff.2 hkey) hlength none
  rw [Option.or_none] at hfind
  rw [mapRemove, h.bucketOf_eq, Option.bind_some, h.lock_eq, Option.bind_some]
  show (findPrev m.next (hasKey m key) m.fresh (m.head (index m key)) none).map _ = _
  rw [hfind, Option.map_some, unlinked_eq]
  cases l₁.getLast? with
  | none => simp only [pthreadMutexUnlock, h.relocked]
  | some p => simp only [pthreadMutexUnlock, h.relocked]

theorem remove_miss (h : Rep m chains) (hnew : ∀ a ∈ chains (index m key), m.key a ≠ key) :
    mapRemove m key = some (m, none) := by
  have hfind := findPrev_none (h.chain (index m key))
    (fun b hb => hasKey_eq_false (hnew b hb)) (h.length_le _) none
  rw [mapRemove, h.bucketOf_eq, Option.bind_some, h.lock_eq, Option.bind_some]
  show (findPrev m.next (hasKey m key) m.fresh (m.head (index m key)) none).map _ = _
  rw [hfind, Option.map_some]
  simp only [pthreadMutexUnlock, h.relocked]

theorem insert_ok (h : Rep m chains) (hs : Shows m chains s) (key : CStr) (value : Option V) :
    ∃ m' chains', mapInsert m key value = some (m', (s key).join) ∧ Rep m' chains' ∧
      Shows m' chains' (Function.update s key (some value)) := by
  rcases h.find_cases key with ⟨l₁, a, l₂, hi, hbefore, rfl⟩ | hnew
  · have ha : a ∈ chains (index m (m.key a)) := by simp [hi]
    rw [insert_hit h hi hbefore rfl, hs.bound hi rfl]
    exact ⟨_, chains, rfl, rep_setValue h a value, shows_setValue h hs ha value⟩
  · rw [insert_miss h hnew, hs.unbound hnew]
    exact ⟨_, _, rfl, rep_pushNode h hnew value, shows_pushNode h hs hnew value⟩

theorem get_ok (h : Rep m chains) (hs : Shows m chains s) (key : CStr) :
    mapGet m key = some (m, (s key).join) := by
  rcases h.find_cases key with ⟨l₁, a, l₂, hi, hbefore, hkey⟩ | hnew
  · rw [get_hit h hi hbefore hkey, hs.bound hi hkey]
    rfl
  · rw [get_miss h hnew, hs.unbound hnew]
    rfl

theorem remove_ok (h : Rep m chains) (hs : Shows m chains s) (key : CStr) :
    ∃ m' chains', mapRemove m key = some (m', (s key).join) ∧ Rep m' chains' ∧
      Shows m' chains' (Function.update s key none) := by
  rcases h.find_cases key with ⟨l₁, a, l₂, hi, hbefore, rfl⟩ | hnew
  · rw [remove_hit h hi hbefore rfl, hs.bound hi rfl]
    exact ⟨_, _, rfl, rep_unlinked h hi, shows_unlinked h hs hi⟩
  · have hnone := hs.unbound hnew
    have hsame : Function.update s key none = s := by
      rw [← hnone, Function.update_eq_self]
    rw [remove_miss h hnew, hnone, hsame]
    exact ⟨m, chains, rfl, h, hs⟩

theorem step_ok (h : Rep m chains) (hs : Shows m chains s) (call : Call V) :
    ∃ m', step m call = some (m', (s.step call).2) ∧
      ∃ chains', Rep m' chains' ∧ Shows m' chains' (s.step call).1 := by
  cases call with
  | insert key value =>
      obtain ⟨m', chains', hstep, h', hs'⟩ := insert_ok h hs key value
      exact ⟨m', hstep, chains', h', hs'⟩
  | get key => exact ⟨m, get_ok h hs key, chains, h, hs⟩
  | remove key =>
      obtain ⟨m', chains', hstep, h', hs'⟩ := remove_ok h hs key
      exact ⟨m', hstep, chains', h', hs'⟩

/-! ## Runs -/

/-- Every key has one node at most, which is in the bucket of its hash, and the nodes
make the bindings. -/
structure Holds (m : ConcurrentHashMap V) (chains : ℕ → List Ref) (s : Bindings V) : Prop where
  chain : ∀ i < m.nbuckets, Chain m.next (m.head i) (chains i)
  bucket : ∀ i < m.nbuckets, ∀ a ∈ chains i, i = (hashStr (m.key a)).toNat % m.nbuckets
  unique : ∀ i < m.nbuckets, ∀ j < m.nbuckets, ∀ a ∈ chains i, ∀ b ∈ chains j,
    m.key a = m.key b → a = b
  binding : ∀ key v, s key = some v ↔
    ∃ i < m.nbuckets, ∃ a ∈ chains i, m.key a = key ∧ m.value a = v

theorem Rep.holds (h : Rep m chains) (hs : Shows m chains s) : Holds m chains s where
  chain := fun i _ => h.chain i
  bucket := fun i _ a ha => (h.index_eq i a ha).symm
  unique := fun i _ j _ a ha b hb heq => by
    have hij : i = j := by rw [← h.index_eq i a ha, ← h.index_eq j b hb, heq]
    subst hij
    exact h.key_inj ha hb heq
  binding := fun key v => by
    rw [hs key v]
    constructor
    · rintro ⟨a, ha, hkey, hv⟩
      exact ⟨index m key, Nat.mod_lt _ h.nbuckets_pos, a, ha, hkey, hv⟩
    · rintro ⟨i, -, a, ha, rfl, hv⟩
      rw [← h.index_eq i a ha] at ha
      exact ⟨a, ha, rfl, hv⟩

theorem run_ok {nbuckets : ℕ} (hn : 0 < nbuckets) (calls : List (Call V)) :
    ∃ m, Trace step (mapCreate nbuckets) calls (answers Bindings.step (fun _ => none) calls) m ∧
      ∃ chains, Rep m chains ∧ Shows m chains (outcome Bindings.step (fun _ => none) calls) := by
  refine Trace.of_simulation step Bindings.step
    (fun m s => ∃ chains, Rep m chains ∧ Shows m chains s) (fun _ : Call V => True) ?_
    ⟨fun _ => [], rep_init hn, shows_init nbuckets⟩ fun _ _ => trivial
  rintro m s call ⟨chains, h, hs⟩ -
  exact step_ok h hs call

/-- Every run answers like the bindings, whatever the number of buckets is, and leaves
them in the map. -/
theorem map_refines (nbuckets : ℕ) (hn : 0 < nbuckets) (calls : List (Call V)) :
    ∃ m chains, Trace step (mapCreate nbuckets) calls
        (answers Bindings.step (fun _ => none) calls) m ∧
      Holds m chains (outcome Bindings.step (fun _ => none) calls) := by
  obtain ⟨m, htrace, chains, h, hs⟩ := run_ok hn calls
  exact ⟨m, chains, htrace, h.holds hs⟩

theorem map_refines_one :
    ∃ m chains, Trace step (mapCreate 1)
        [.insert ⟨[97], by decide⟩ (some 7), .remove ⟨[97], by decide⟩]
        (answers Bindings.step (fun _ => none)
          [.insert ⟨[97], by decide⟩ (some 7), .remove ⟨[97], by decide⟩]) m ∧
      Holds m chains (outcome Bindings.step (fun _ => none)
        [.insert ⟨[97], by decide⟩ (some 7), .remove ⟨[97], by decide⟩]) :=
  map_refines 1 Nat.one_pos [.insert ⟨[97], by decide⟩ (some 7), .remove ⟨[97], by decide⟩]

end HashMap
end Leetcode
