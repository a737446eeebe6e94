import Leetcode.HashMap.Refine

/-!
# The buckets as lists of pairs

A call does something to one bucket: it looks for the first pair with its key, replaces it or
takes it out, or puts a new one in front.  `bucketStep` says so for the list of the pairs, and
`step_pairs` that the calls of the map do that, one after the other.
-/

namespace Leetcode
namespace HashMap

open CLib

variable {V : Type*}

/-- The pairs in front of the first one with the key, and the others. -/
def search (key : CStr) (l : List (CStr × Option V)) :
    List (CStr × Option V) × List (CStr × Option V) :=
  (l.takeWhile fun e => e.1 ≠ key, l.dropWhile fun e => e.1 ≠ key)

/-- The pairs of a bucket after a call for one of its keys, and what the call returns. -/
def bucketStep (l : List (CStr × Option V)) : Call V → List (CStr × Option V) × Option V
  | .insert key value =>
      match search key l with
      | (_, []) => ((key, value) :: l, none)
      | (front, e :: back) => (front ++ (key, value) :: back, e.2)
  | .get key =>
      match search key l with
      | (_, []) => (l, none)
      | (_, e :: _) => (l, e.2)
  | .remove key =>
      match search key l with
      | (_, []) => (l, none)
      | (front, e :: back) => (front ++ back, e.2)

/-- All buckets. -/
abbrev Buckets (V : Type*) := ℕ → List (CStr × Option V)

/-- A call on `nbuckets` buckets. -/
def Buckets.step (nbuckets : ℕ) (buckets : Buckets V) (call : Call V) : Buckets V × Option V :=
  let h := (hashStr call.key).toNat % nbuckets
  (Function.update buckets h (bucketStep (buckets h) call).1, (bucketStep (buckets h) call).2)

/-- The pairs of some nodes. -/
def pairs (m : ConcurrentHashMap V) (nodes : List Ref) : List (CStr × Option V) :=
  nodes.map fun a => (m.key a, m.value a)

/-- The bucket `i` has these pairs, in the order of its nodes. -/
def BucketIs (m : ConcurrentHashMap V) (i : ℕ) (l : List (CStr × Option V)) : Prop :=
  ∃ nodes, Chain m.next (m.head i) nodes ∧ pairs m nodes = l

/-! ## One bucket -/

section Bucket

variable {front back l : List (CStr × Option V)} {key : CStr} {v : Option V}

theorem search_hit (hfront : ∀ e ∈ front, e.1 ≠ key) :
    search key (front ++ (key, v) :: back) = (front, (key, v) :: back) := by
  have hall : ∀ e ∈ front, (decide (e.1 ≠ key)) = true := by simpa using hfront
  rw [search, List.takeWhile_append_of_pos hall, List.dropWhile_append_of_pos hall]
  simp

theorem search_miss (hnew : ∀ e ∈ l, e.1 ≠ key) : (search key l).2 = [] := by
  simpa [search] using hnew

theorem bucketStep_insert_hit (hfront : ∀ e ∈ front, e.1 ≠ key) (value : Option V) :
    bucketStep (front ++ (key, v) :: back) (.insert key value) =
      (front ++ (key, value) :: back, v) := by
  rw [bucketStep, search_hit hfront]

theorem bucketStep_insert_miss (hnew : ∀ e ∈ l, e.1 ≠ key) (value : Option V) :
    bucketStep l (.insert key value) = ((key, value) :: l, none) := by
  rw [bucketStep, ← Prod.mk.eta (p := search key l), search_miss hnew]

theorem bucketStep_get_hit (hfront : ∀ e ∈ front, e.1 ≠ key) :
    bucketStep (front ++ (key, v) :: back) (.get key) = (front ++ (key, v) :: back, v) := by
  rw [bucketStep, search_hit hfront]

theorem bucketStep_get_miss (hnew : ∀ e ∈ l, e.1 ≠ key) : bucketStep l (.get key) = (l, none) := by
  rw [bucketStep, ← Prod.mk.eta (p := search key l), search_miss hnew]

theorem bucketStep_remove_hit (hfront : ∀ e ∈ front, e.1 ≠ key) :
    bucketStep (front ++ (key, v) :: back) (.remove key) = (front ++ back, v) := by
  rw [bucketStep, search_hit hfront]

theorem bucketStep_remove_miss (hnew : ∀ e ∈ l, e.1 ≠ key) :
    bucketStep l (.remove key) = (l, none) := by
  rw [bucketStep, ← Prod.mk.eta (p := search key l), search_miss hnew]

end Bucket

/-! ## The pairs of nodes -/

variable {m m' : ConcurrentHashMap V} {chains : ℕ → List Ref} {nodes l₁ l₂ : List Ref}
  {a : Ref} {key : CStr} {i : ℕ}

@[simp] theorem pairs_append (m : ConcurrentHashMap V) (l₁ l₂ : List Ref) :
    pairs m (l₁ ++ l₂) = pairs m l₁ ++ pairs m l₂ := List.map_append

@[simp] theorem pairs_cons (m : ConcurrentHashMap V) (a : Ref) (l : List Ref) :
    pairs m (a :: l) = (m.key a, m.value a) :: pairs m l := rfl

/-- No node has the key. -/
theorem pairs_ne (h : ∀ a ∈ nodes, m.key a ≠ key) : ∀ e ∈ pairs m nodes, e.1 ≠ key := by
  intro e he
  obtain ⟨a, ha, rfl⟩ := List.mem_map.1 he
  exact h a ha

/-- Only the fields of the nodes matter. -/
theorem pairs_congr (h : ∀ a ∈ nodes, m'.key a = m.key a ∧ m'.value a = m.value a) :
    pairs m' nodes = pairs m nodes := by
  refine List.map_congr_left fun a ha => ?_
  rw [(h a ha).1, (h a ha).2]

/-- A node gets a new value. -/
theorem pairs_setValue (hnodup : (l₁ ++ a :: l₂).Nodup) (value : Option V) :
    pairs { m with value := Function.update m.value a value } (l₁ ++ a :: l₂) =
      pairs m l₁ ++ (m.key a, value) :: pairs m l₂ := by
  have hother : ∀ b ∈ l₁ ++ l₂, Function.update m.value a value b = m.value b := by
    intro b hb
    exact Function.update_of_ne ((mem_without hnodup).1 hb).2 _ _
  have hl₁ : pairs { m with value := Function.update m.value a value } l₁ = pairs m l₁ :=
    pairs_congr fun b hb => ⟨rfl, hother b (List.mem_append_left _ hb)⟩
  have hl₂ : pairs { m with value := Function.update m.value a value } l₂ = pairs m l₂ :=
    pairs_congr fun b hb => ⟨rfl, hother b (List.mem_append_right _ hb)⟩
  have ha : Function.update m.value a value a = value := Function.update_self ..
  rw [pairs_append, pairs_cons, hl₁, hl₂]
  exact congrArg (fun v => pairs m l₁ ++ (m.key a, v) :: pairs m l₂) ha

/-! ## The calls one after the other -/

/-- The pairs of all buckets. -/
def contents (m : ConcurrentHashMap V) (chains : ℕ → List Ref) : Buckets V :=
  fun i => pairs m (chains i)

/-- Only one bucket has changed. -/
theorem contents_eq {chains' : ℕ → List Ref} {l : List (CStr × Option V)}
    (hi : pairs m' (chains' i) = l) (hother : ∀ j ≠ i, pairs m' (chains' j) = pairs m (chains j)) :
    contents m' chains' = Function.update (contents m chains) i l := by
  funext j
  by_cases hj : j = i
  · subst hj
    rw [contents, hi, Function.update_self]
  · rw [contents, hother j hj, Function.update_of_ne hj, contents]

theorem insert_pairs (h : Rep m chains) (key : CStr) (value : Option V) :
    ∃ m' chains',
      mapInsert m key value = some (m',
        (bucketStep (pairs m (chains (index m key))) (.insert key value)).2) ∧
      contents m' chains' = Function.update (contents m chains) (index m key)
        (bucketStep (pairs m (chains (index m key))) (.insert key value)).1 ∧
      Rep m' chains' ∧ m'.nbuckets = m.nbuckets := by
  rcases h.find_cases key with ⟨l₁, a, l₂, hi, hbefore, rfl⟩ | hnew
  · have ha : a ∈ chains (index m (m.key a)) := by simp [hi]
    have hnodup := chain_nodup (h.chain (index m (m.key a)))
    rw [hi] at hnodup
    rw [insert_hit h hi hbefore rfl, hi, pairs_append, pairs_cons,
      bucketStep_insert_hit (pairs_ne hbefore)]
    refine ⟨_, chains, rfl, contents_eq ?_ fun j hj => ?_, rep_setValue h a value, rfl⟩
    · rw [hi]
      exact pairs_setValue hnodup value
    · refine pairs_congr fun b hb => ⟨rfl, Function.update_of_ne ?_ _ _⟩
      rintro rfl
      exact hj ((h.index_eq j b hb).symm.trans (h.index_eq _ b ha))
  · rw [insert_miss h hnew, bucketStep_insert_miss (pairs_ne hnew)]
    have hold : ∀ j, pairs (pushNode m (index m key) key value) (chains j) =
        pairs m (chains j) := by
      intro j
      refine pairs_congr fun b hb => ⟨h.key_pushed hb key, Function.update_of_ne ?_ _ _⟩
      exact Nat.ne_of_lt (h.fresh j b hb)
    refine ⟨_, _, rfl, contents_eq ?_ fun j hj => ?_, rep_pushNode h hnew value, rfl⟩
    · have hkey : (pushNode m (index m key) key value).key m.fresh = key :=
        Function.update_self ..
      have hvalue : (pushNode m (index m key) key value).value m.fresh = value :=
        Function.update_self ..
      rw [pushed, Function.update_self, pairs_cons, hold, hkey, hvalue]
    · rw [pushed, Function.update_of_ne hj, hold]

theorem get_pairs (h : Rep m chains) (key : CStr) :
    mapGet m key = some (m, (bucketStep (pairs m (chains (index m key))) (.get key)).2) ∧
      (bucketStep (pairs m (chains (index m key))) (.get key)).1 =
        pairs m (chains (index m key)) := by
  rcases h.find_cases key with ⟨l₁, a, l₂, hi, hbefore, rfl⟩ | hnew
  · rw [get_hit h hi hbefore rfl, hi, pairs_append, pairs_cons,
      bucketStep_get_hit (pairs_ne hbefore)]
    exact ⟨rfl, rfl⟩
  · rw [get_miss h hnew, bucketStep_get_miss (pairs_ne hnew)]
    exact ⟨rfl, rfl⟩

theorem remove_pairs (h : Rep m chains) (key : CStr) :
    ∃ m' chains',
      mapRemove m key = some (m', (bucketStep (pairs m (chains (index m key))) (.remove key)).2) ∧
      contents m' chains' = Function.update (contents m chains) (index m key)
        (bucketStep (pairs m (chains (index m key))) (.remove key)).1 ∧
      Rep m' chains' ∧ m'.nbuckets = m.nbuckets := by
  rcases h.find_cases key with ⟨l₁, a, l₂, hi, hbefore, rfl⟩ | hnew
  · rw [remove_hit h hi hbefore rfl, hi, pairs_append, pairs_cons,
      bucketStep_remove_hit (pairs_ne hbefore)]
    refine ⟨_, _, rfl, contents_eq ?_ fun j hj => ?_, rep_unlinked h hi, rfl⟩
    · rw [Function.update_self]
      exact pairs_append m l₁ l₂
    · rw [Function.update_of_ne hj]
      rfl
  · rw [remove_miss h hnew, bucketStep_remove_miss (pairs_ne hnew)]
    exact ⟨m, chains, rfl, (Function.update_eq_self _ (contents m chains)).symm, h, rfl⟩

/-- One call, on the map and on the lists of pairs. -/
theorem step_pairs (h : Rep m chains) (call : Call V) :
    ∃ m' chains',
      step m call = some (m', (Buckets.step m.nbuckets (contents m chains) call).2) ∧
      contents m' chains' = (Buckets.step m.nbuckets (contents m chains) call).1 ∧
      Rep m' chains' ∧ m'.nbuckets = m.nbuckets := by
  cases call with
  | insert key value => exact insert_pairs h key value
  | get key =>
      obtain ⟨hget, hsame⟩ := get_pairs h key
      refine ⟨m, chains, hget, ?_, h, rfl⟩
      show _ = Function.update (contents m chains) (index m key)
        (bucketStep (pairs m (chains (index m key))) (.get key)).1
      rw [hsame]
      exact (Function.update_eq_self _ (contents m chains)).symm
  | remove key => exact remove_pairs h key

/-- The calls of a list: what they return and what they leave in the buckets. -/
theorem run_pairs {nbuckets : ℕ} (hn : 0 < nbuckets) (calls : List (Call V)) :
    ∃ m chains,
      Trace step (mapCreate nbuckets) calls
        (answers (Buckets.step nbuckets) (fun _ => []) calls) m ∧
      contents m chains = outcome (Buckets.step nbuckets) (fun _ => []) calls ∧ Rep m chains := by
  have hrun : ∃ m,
      Trace step (mapCreate nbuckets) calls
        (answers (Buckets.step nbuckets) (fun _ => []) calls) m ∧
      ∃ chains, contents m chains = outcome (Buckets.step nbuckets) (fun _ => []) calls ∧
        Rep m chains ∧ m.nbuckets = nbuckets := by
    refine Trace.of_simulation step (Buckets.step nbuckets)
      (fun m b => ∃ chains, contents m chains = b ∧ Rep m chains ∧ m.nbuckets = nbuckets)
      (fun _ : Call V => True) ?_ ⟨fun _ => [], rfl, rep_init hn, rfl⟩ fun _ _ => trivial
    rintro m b call ⟨chains, rfl, h, rfl⟩ -
    obtain ⟨m', chains', hstep, hcontents, h', hsame⟩ := step_pairs h call
    exact ⟨m', hstep, chains', hcontents, h', hsame⟩
  obtain ⟨m, htrace, chains, hcontents, h, -⟩ := hrun
  exact ⟨m, chains, htrace, hcontents, h⟩

end HashMap
end Leetcode
