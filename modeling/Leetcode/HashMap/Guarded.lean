import Leetcode.HashMap.Concurrent
import Leetcode.HashMap.Contents

/-!
# Every bucket is guarded by its lock

The lists of pairs are those of the calls that have released their lock.  A bucket that nobody
holds has its list; the thread that holds a bucket knows how far its own call has changed it.

* `Knows` — what the code of a call relies on at each place.
* `Guarded` — the invariant of the system.
* `Guarded.step` — a thread that changes nothing but its own bucket, its own node and nodes that
  are not allocated keeps the invariant for all others.
* `inside_ok` — every step of the code is of this kind.
-/

namespace Leetcode
namespace HashMap

open CLib

variable {T V : Type*}

/-! ## Places -/

/-- The bucket whose lock is held at a place. -/
def Place.bucket : Place V → Option ℕ
  | .idle | .lock _ | .ret _ => none
  | .head h | .loop h _ _ | .hit h _ _ | .store h _ _ | .take h _ | .free h _ _ | .create h
  | .link h _ | .publish h _ | .unlock h _ => some h

/-- The bucket that the call is for, until its lock is released. -/
def Place.target : Place V → Option ℕ
  | .lock h => some h
  | p => p.bucket

/-- The node that no bucket has and no other thread knows. -/
def Place.own : Place V → Option Ref
  | .take _ a | .free _ a _ | .link _ a | .publish _ a => some a
  | _ => none

def Place.phase : Place V → Phase (Option V)
  | .idle => .idle
  | .ret result => .settled result
  | _ => .running

theorem Place.target_of_bucket {p : Place V} {i : ℕ} (h : p.bucket = some i) :
    p.target = some i := by
  cases p <;> first | exact h | cases h

theorem Place.own_of_bucket {p : Place V} (h : p.bucket = none) : p.own = none := by
  cases p <;> first | rfl | cases h

/-! ## What a thread knows -/

/-- The first node with the key is `cur`, behind `prev`. -/
def Found (m : ConcurrentHashMap V) (nodes : List Ref) (key : CStr) (cur : Ref)
    (prev : Option Ref) : Prop :=
  ∃ front back, nodes = front ++ cur :: back ∧ prev = front.getLast? ∧
    (∀ a ∈ front, m.key a ≠ key) ∧ m.key cur = key

/-- At a place of a call for a bucket that had the pairs `old` when its lock was taken, and has
these nodes now. -/
def Knows (m : ConcurrentHashMap V) (nodes : List Ref) (old : List (CStr × Option V))
    (call : Call V) : Place V → Prop
  | .idle | .lock _ | .ret _ => True
  | .head _ => pairs m nodes = old
  | .loop _ cur prev =>
      pairs m nodes = old ∧ ∃ front back, nodes = front ++ back ∧ cur = back.head? ∧
        prev = front.getLast? ∧ ∀ a ∈ front, m.key a ≠ call.key
  | .hit _ cur prev => pairs m nodes = old ∧ Found m nodes call.key cur prev
  | .store _ cur out =>
      (∃ key value, call = .insert key value) ∧ pairs m nodes = old ∧
        (∃ prev, Found m nodes call.key cur prev) ∧ out = m.value cur
  | .take _ cur =>
      (∃ key, call = .remove key) ∧ bucketStep old call = (pairs m nodes, m.value cur)
  | .free _ _ out => (∃ key, call = .remove key) ∧ bucketStep old call = (pairs m nodes, out)
  | .create _ =>
      (∃ key value, call = .insert key value) ∧ pairs m nodes = old ∧
        ∀ a ∈ nodes, m.key a ≠ call.key
  | .link _ n =>
      pairs m nodes = old ∧ (∀ a ∈ nodes, m.key a ≠ call.key) ∧
        call = .insert (m.key n) (m.value n)
  | .publish h n =>
      pairs m nodes = old ∧ (∀ a ∈ nodes, m.key a ≠ call.key) ∧
        call = .insert (m.key n) (m.value n) ∧ m.next n = m.head h
  | .unlock _ out => bucketStep old call = (pairs m nodes, out)

/-- The nodes that a thread may touch: those of its bucket, its own, and what `malloc` may
return. -/
def Mine (s : System T V) (chains : ℕ → List Ref) (i : ℕ) (t : T) (a : Ref) : Prop :=
  a ∈ chains i ∨ (s.place t).own = some a ∨ s.allocated a = false

/-- Every node that is in use is in one bucket, or one thread has it. -/
structure Owned (s : System T V) (chains : ℕ → List Ref) : Prop where
  chain : ∀ i, Chain s.map.next (s.map.head i) (chains i)
  disjoint : ∀ i j a, a ∈ chains i → a ∈ chains j → i = j
  live : ∀ i, ∀ a ∈ chains i, s.allocated a = true
  own_live : ∀ t a, (s.place t).own = some a → s.allocated a = true
  own_apart : ∀ t a i, (s.place t).own = some a → a ∉ chains i
  own_inj : ∀ t u a, (s.place t).own = some a → (s.place u).own = some a → t = u

/-- The invariant.  The nodes of the bucket `i` are `chains i`, and `b i` are its pairs behind
the calls that have released its lock. -/
structure Guarded (prog : T → List (Call V)) (s : System T V) (chains : ℕ → List Ref)
    (b : Buckets V) : Prop extends Owned s chains where
  excl : ∀ t u i, (s.place t).bucket = some i → (s.place u).bucket = some i → t = u
  locked : ∀ t i, (s.place t).bucket = some i → s.map.lock i = true
  unheld : ∀ i, (∀ t, (s.place t).bucket ≠ some i) →
    s.map.lock i = false ∧ pairs s.map (chains i) = b i
  current : ∀ t, s.place t ≠ .idle → ∃ call, (prog t)[s.next t]? = some call
  target : ∀ t i call, (s.place t).target = some i → (prog t)[s.next t]? = some call →
    index s.map call.key = i
  knows : ∀ t i call, (s.place t).bucket = some i → (prog t)[s.next t]? = some call →
    Knows s.map (chains i) (b i) call (s.place t)

/-- A map differs from the one of `s` in what the thread `t` may touch while it has the
bucket `i`. -/
structure Frame (s : System T V) (chains : ℕ → List Ref) (i : ℕ) (t : T)
    (m : ConcurrentHashMap V) (allocated : Ref → Bool) : Prop where
  key : ∀ a, ¬ Mine s chains i t a → m.key a = s.map.key a
  value : ∀ a, ¬ Mine s chains i t a → m.value a = s.map.value a
  next : ∀ a, ¬ Mine s chains i t a → m.next a = s.map.next a
  allocated : ∀ a, ¬ Mine s chains i t a → allocated a = s.allocated a
  head : ∀ j ≠ i, m.head j = s.map.head j
  lock : ∀ j ≠ i, m.lock j = s.map.lock j
  nbuckets : m.nbuckets = s.map.nbuckets

/-- Only the fields of the nodes of the bucket and of the thread's own node matter. -/
theorem Knows.congr {m m' : ConcurrentHashMap V} {nodes : List Ref}
    {old : List (CStr × Option V)} {call : Call V} {p : Place V} (h : Knows m nodes old call p)
    (hkey : ∀ a, a ∈ nodes ∨ p.own = some a → m'.key a = m.key a)
    (hvalue : ∀ a, a ∈ nodes ∨ p.own = some a → m'.value a = m.value a)
    (hnext : ∀ a, p.own = some a → m'.next a = m.next a)
    (hhead : ∀ i, p.bucket = some i → m'.head i = m.head i) : Knows m' nodes old call p := by
  have hpairs : pairs m' nodes = pairs m nodes :=
    pairs_congr fun a ha => ⟨hkey a (Or.inl ha), hvalue a (Or.inl ha)⟩
  have hne : ∀ l : List Ref, (∀ a ∈ l, a ∈ nodes) → (∀ a ∈ l, m.key a ≠ call.key) →
      ∀ a ∈ l, m'.key a ≠ call.key := by
    intro l hl hall a ha
    rw [hkey a (Or.inl (hl a ha))]
    exact hall a ha
  have hfound : ∀ {cur prev}, Found m nodes call.key cur prev →
      Found m' nodes call.key cur prev ∧ m'.value cur = m.value cur := by
    rintro cur prev ⟨front, back, rfl, hprev, hfront, hcur⟩
    refine ⟨⟨front, back, rfl, hprev, hne front (fun a ha => by simp [ha]) hfront, ?_⟩,
      hvalue cur (Or.inl (by simp))⟩
    rw [hkey cur (Or.inl (by simp)), hcur]
  cases p with
  | idle | lock | ret => trivial
  | head => exact hpairs.trans h
  | loop h cur prev =>
      obtain ⟨hold, front, back, rfl, hcur, hprev, hfront⟩ := h
      exact ⟨hpairs.trans hold, front, back, rfl, hcur, hprev,
        hne front (fun a ha => List.mem_append_left _ ha) hfront⟩
  | hit => exact ⟨hpairs.trans h.1, (hfound h.2).1⟩
  | store =>
      obtain ⟨hinsert, hold, ⟨prev, hprev⟩, hout⟩ := h
      obtain ⟨hprev', hsame⟩ := hfound hprev
      exact ⟨hinsert, hpairs.trans hold, ⟨prev, hprev'⟩, hout.trans hsame.symm⟩
  | take =>
      refine ⟨h.1, ?_⟩
      rw [hpairs, hvalue _ (Or.inr rfl)]
      exact h.2
  | free =>
      refine ⟨h.1, ?_⟩
      rw [hpairs]
      exact h.2
  | create => exact ⟨h.1, hpairs.trans h.2.1, hne nodes (fun a ha => ha) h.2.2⟩
  | link =>
      refine ⟨hpairs.trans h.1, hne nodes (fun a ha => ha) h.2.1, ?_⟩
      rw [hkey _ (Or.inr rfl), hvalue _ (Or.inr rfl)]
      exact h.2.2
  | publish =>
      refine ⟨hpairs.trans h.1, hne nodes (fun a ha => ha) h.2.1, ?_⟩
      rw [hkey _ (Or.inr rfl), hvalue _ (Or.inr rfl), hnext _ rfl, hhead _ rfl]
      exact h.2.2
  | unlock =>
      show bucketStep old call = (pairs m' nodes, _)
      rw [hpairs]
      exact h

/-! ## A step of one thread -/

section Step

variable {prog : T → List (Call V)} {s : System T V} {chains : ℕ → List Ref} {b : Buckets V}
  {t u : T} {i j : ℕ} {a : Ref}

theorem Frame.refl (s : System T V) (chains : ℕ → List Ref) (i : ℕ) (t : T) :
    Frame s chains i t s.map s.allocated :=
  ⟨fun _ _ => rfl, fun _ _ => rfl, fun _ _ => rfl, fun _ _ => rfl, fun _ _ => rfl, fun _ _ => rfl,
    rfl⟩

/-- Another bucket's nodes are not touched. -/
theorem Owned.chain_notMine (h : Owned s chains) (hj : j ≠ i) (ha : a ∈ chains j) :
    ¬ Mine s chains i t a := by
  rintro (hi | hown | hfree)
  · exact hj (h.disjoint j i a ha hi)
  · exact h.own_apart t a j hown ha
  · exact absurd (h.live j a ha) (by simp [hfree])

/-- Another thread's node is not touched. -/
theorem Owned.own_notMine (h : Owned s chains) (hu : u ≠ t) (ha : (s.place u).own = some a) :
    ¬ Mine s chains i t a := by
  rintro (hi | hown | hfree)
  · exact h.own_apart u a i ha hi
  · exact hu (h.own_inj u t a ha hown)
  · exact absurd (h.own_live u a ha) (by simp [hfree])

/-- The nodes of a bucket when one bucket has changed. -/
theorem mem_update_cases {l : List Ref} (h : a ∈ Function.update chains i l j) :
    j = i ∧ a ∈ l ∨ j ≠ i ∧ a ∈ chains j := by
  by_cases hj : j = i
  · rw [hj, Function.update_self] at h
    exact Or.inl ⟨hj, h⟩
  · rw [Function.update_of_ne hj] at h
    exact Or.inr ⟨hj, h⟩

variable [DecidableEq T] {p : Place V}

/-- What a place says of a thread when one thread has gone on. -/
theorem place_update_cases {α : Type*} {f : Place V → Option α} {x : α}
    (h : f (Function.update s.place t p u) = some x) :
    u = t ∧ f p = some x ∨ u ≠ t ∧ f (s.place u) = some x := by
  by_cases hut : u = t
  · rw [hut, Function.update_self] at h
    exact Or.inl ⟨hut, h⟩
  · rw [Function.update_of_ne hut] at h
    exact Or.inr ⟨hut, h⟩

/-- The thread leaves the nodes of the others to them. -/
theorem Owned.step (h : Owned s chains) {m : ConcurrentHashMap V} {allocated : Ref → Bool}
    {l : List Ref} (hframe : Frame s chains i t m allocated)
    (hchain : Chain m.next (m.head i) l)
    (hl : ∀ a ∈ l, Mine s chains i t a ∧ allocated a = true)
    (hown : ∀ a, p.own = some a → Mine s chains i t a ∧ allocated a = true ∧ a ∉ l) :
    Owned { s with map := m, allocated := allocated, place := Function.update s.place t p }
      (Function.update chains i l) where
  chain j := by
    show Chain m.next (m.head j) (Function.update chains i l j)
    by_cases hj : j = i
    · subst hj
      rw [Function.update_self]
      exact hchain
    · rw [Function.update_of_ne hj, hframe.head j hj]
      exact (h.chain j).congr fun a ha => hframe.next a (h.chain_notMine hj ha)
  disjoint j k a hj hk := by
    rcases mem_update_cases hj with ⟨rfl, hmem⟩ | ⟨hji, hmem⟩
    · rcases mem_update_cases hk with ⟨rfl, -⟩ | ⟨hki, hmemk⟩
      · rfl
      · exact absurd (hl a hmem).1 (h.chain_notMine hki hmemk)
    · rcases mem_update_cases hk with ⟨rfl, hmemk⟩ | ⟨-, hmemk⟩
      · exact absurd (hl a hmemk).1 (h.chain_notMine hji hmem)
      · exact h.disjoint j k a hmem hmemk
  live j a ha := by
    rcases mem_update_cases ha with ⟨-, ha⟩ | ⟨hj, ha⟩
    · exact (hl a ha).2
    · exact (hframe.allocated a (h.chain_notMine hj ha)).trans (h.live j a ha)
  own_live u a hu := by
    rcases place_update_cases hu with ⟨-, ha⟩ | ⟨hut, ha⟩
    · exact (hown a ha).2.1
    · exact (hframe.allocated a (h.own_notMine hut ha)).trans (h.own_live u a ha)
  own_apart u a j hu hj := by
    rcases place_update_cases hu with ⟨-, ha⟩ | ⟨hut, ha⟩
    · rcases mem_update_cases hj with ⟨-, hmem⟩ | ⟨hji, hmem⟩
      · exact (hown a ha).2.2 hmem
      · exact h.chain_notMine hji hmem (hown a ha).1
    · rcases mem_update_cases hj with ⟨-, hmem⟩ | ⟨-, hmem⟩
      · exact h.own_notMine hut ha (hl a hmem).1
      · exact h.own_apart u a j ha hmem
  own_inj u v a hu hv := by
    rcases place_update_cases hu with ⟨rfl, hua⟩ | ⟨hut, hua⟩
    · rcases place_update_cases hv with ⟨rfl, -⟩ | ⟨hvt, hva⟩
      · rfl
      · exact absurd (hown a hua).1 (h.own_notMine hvt hva)
    · rcases place_update_cases hv with ⟨rfl, hva⟩ | ⟨-, hva⟩
      · exact absurd (hown a hva).1 (h.own_notMine hut hua)
      · exact h.own_inj u v a hua hva

/-- A thread that has a bucket, or has just taken or released its lock, changes what it may
touch: the bucket has the nodes `l` and the pairs `e` then. -/
theorem Guarded.step (h : Guarded prog s chains b) {call : Call V}
    {m : ConcurrentHashMap V} {allocated : Ref → Bool} {l : List Ref}
    {e : List (CStr × Option V)} (hc : (prog t)[s.next t]? = some call)
    (htarget : (s.place t).target = some i) (hto : ∀ j, p.target = some j → j = i)
    (hfree : ∀ u, u ≠ t → (s.place u).bucket ≠ some i) (hframe : Frame s chains i t m allocated)
    (hchain : Chain m.next (m.head i) l)
    (hl : ∀ a ∈ l, Mine s chains i t a ∧ allocated a = true)
    (hown : ∀ a, p.own = some a → Mine s chains i t a ∧ allocated a = true ∧ a ∉ l)
    (hheld : p.bucket = some i → m.lock i = true ∧ Knows m l e call p)
    (hrest : p.bucket = none → m.lock i = false ∧ pairs m l = e) :
    Guarded prog { s with map := m, allocated := allocated,
                          place := Function.update s.place t p }
      (Function.update chains i l) (Function.update b i e) := by
  have hbucket : ∀ j, p.bucket = some j → j = i := fun j hj =>
    hto j (Place.target_of_bucket hj)
  have hother : ∀ u j, u ≠ t → (s.place u).bucket = some j → j ≠ i := by
    rintro u j hut hu rfl
    exact hfree u hut hu
  have hpairs : ∀ j ≠ i, pairs m (chains j) = pairs s.map (chains j) := fun j hj =>
    pairs_congr fun a ha =>
      ⟨hframe.key a (h.chain_notMine hj ha), hframe.value a (h.chain_notMine hj ha)⟩
  refine ⟨h.toOwned.step hframe hchain hl hown, fun u v j hu hv => ?excl, fun u j hu => ?locked,
    fun j hj => ?unheld, fun u hu => ?current, fun u j d hu hd => ?target,
    fun u j d hu hd => ?knows⟩
  case excl =>
    rcases place_update_cases hu with ⟨rfl, hpu⟩ | ⟨hut, hpu⟩
    · rcases place_update_cases hv with ⟨rfl, -⟩ | ⟨hvt, hpv⟩
      · rfl
      · exact absurd (hbucket j hpu) (hother v j hvt hpv)
    · rcases place_update_cases hv with ⟨rfl, hpv⟩ | ⟨-, hpv⟩
      · exact absurd (hbucket j hpv) (hother u j hut hpu)
      · exact h.excl u v j hpu hpv
  case locked =>
    rcases place_update_cases hu with ⟨-, hp⟩ | ⟨hut, hp⟩
    · obtain rfl := hbucket j hp
      exact (hheld hp).1
    · exact (hframe.lock j (hother u j hut hp)).trans (h.locked u j hp)
  case unheld =>
    show m.lock j = false ∧ pairs m (Function.update chains i l j) = Function.update b i e j
    by_cases hji : j = i
    · subst hji
      have ht := hj t
      simp only [Function.update_self] at ht
      rw [Function.update_self, Function.update_self]
      cases hp : p.bucket with
      | none => exact hrest hp
      | some k => exact absurd (hbucket k hp ▸ hp) ht
    · have hnone : ∀ u, (s.place u).bucket ≠ some j := by
        intro u hu
        by_cases hut : u = t
        · rw [hut] at hu
          exact hji (Option.some.inj ((Place.target_of_bucket hu).symm.trans htarget))
        · have hu' := hj u
          simp only [Function.update_of_ne hut] at hu'
          exact hu' hu
      rw [Function.update_of_ne hji, Function.update_of_ne hji, hframe.lock j hji, hpairs j hji]
      exact h.unheld j hnone
  case current =>
    by_cases hut : u = t
    · exact ⟨call, hut ▸ hc⟩
    · simp only [Function.update_of_ne hut] at hu
      exact h.current u hu
  case target =>
    have hindex : index m d.key = index s.map d.key := by
      rw [index, index, hframe.nbuckets]
    refine hindex.trans ?_
    rcases place_update_cases hu with ⟨rfl, hp⟩ | ⟨-, hp⟩
    · rw [hto j hp]
      exact h.target u i d htarget hd
    · exact h.target u j d hp hd
  case knows =>
    show Knows m (Function.update chains i l j) (Function.update b i e j) d
      (Function.update s.place t p u)
    rcases place_update_cases hu with ⟨rfl, hp⟩ | ⟨hut, hp⟩
    · obtain rfl := hbucket j hp
      obtain rfl : call = d := Option.some.inj (hc.symm.trans hd)
      rw [Function.update_self, Function.update_self, Function.update_self]
      exact (hheld hp).2
    · have hj := hother u j hut hp
      have hnot : ∀ a, a ∈ chains j ∨ (s.place u).own = some a → ¬ Mine s chains i t a := by
        rintro a (ha | ha)
        · exact h.chain_notMine hj ha
        · exact h.own_notMine hut ha
      rw [Function.update_of_ne hut, Function.update_of_ne hj, Function.update_of_ne hj]
      refine (h.knows u j d hp hd).congr (fun a ha => hframe.key a (hnot a ha))
        (fun a ha => hframe.value a (hnot a ha))
        (fun a ha => hframe.next a (hnot a (Or.inr ha))) fun k hk => ?_
      obtain rfl := Option.some.inj (hp.symm.trans hk)
      exact hframe.head j hj

end Step

end HashMap
end Leetcode
