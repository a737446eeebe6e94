import Leetcode.Lib.Run
import Leetcode.LruCache.Refine

/-!
# Keys whose bucket is in the table

The remainder of a negative key is negative or zero, and `hash` converts it to an
`unsigned int`: unless it is zero the index is far behind the end of the table.  So a
run stays within the table, and in valid states, exactly when all its keys have
remainders that are not negative (`valid_run_iff`).
-/

namespace Leetcode
namespace LruCache

open CLib

theorem hash_lt_iff (key : Int) :
    (hash key 10007 : Int) < 10007 ↔ 0 ≤ key ∨ (10007 : Int) ∣ key := by
  by_cases hkey : 0 ≤ key
  · exact iff_of_true (hash_lt_of_nonneg hkey) (Or.inl hkey)
  · have hneg : Int.tmod key 10007 = -(-key % 10007) := by
      have hmod : Int.tmod (-key) 10007 = -key % 10007 := Int.tmod_eq_emod_of_nonneg (by omega)
      rw [← hmod, Int.neg_tmod, Int.neg_neg]
    rw [hash, hneg]
    omega

/-- The state is valid, with some nodes in its list and its chains. -/
def IsValid (c : LRUCache) : Prop := ∃ l chains, Valid c l chains

/-- The indices that a call uses: those of its key and of the key that it may evict. -/
def IndicesInRange (c : LRUCache) (call : Call) : Prop :=
  hash call.key c.mapSize < c.mapSize ∧
    ∀ a ∈ c.tail, hash (c.key a) c.mapSize < c.mapSize

/-- The cache after a call. -/
def next (c : LRUCache) (call : Call) : Option LRUCache := (step c call).map Prod.fst

variable {capacity : Int} {c : LRUCache} {l : List Ref} {chains : ℕ → List Ref}

/-- The key that may be evicted has been put into the table. -/
theorem tail_inRange (h : Rep capacity c l chains) :
    ∀ a ∈ c.tail, hash (c.key a) c.mapSize < c.mapSize := by
  intro a ha
  apply h.table.index
  rw [chain_head h.linked.prev, List.head?_reverse] at ha
  exact List.mem_of_getLast? ha

/-- From any state of a run. -/
theorem rep_run_iff (h : Rep capacity c l chains) (hcap : 1 ≤ capacity) (calls : List Call) :
    (∃ c', Run next (fun c call => IsValid c ∧ IndicesInRange c call) c calls c' ∧ IsValid c') ↔
      ∀ call ∈ calls, 0 ≤ call.key ∨ (10007 : Int) ∣ call.key := by
  induction calls generalizing c l chains with
  | nil =>
      refine iff_of_true ⟨c, .nil c, l, chains, h.toValid⟩ ?_
      simp
  | cons call calls ih =>
      have hrange : (hash call.key c.mapSize : Int) < c.mapSize ↔
          0 ≤ call.key ∨ (10007 : Int) ∣ call.key := by
        rw [h.mapSize_eq]
        exact hash_lt_iff call.key
      rw [List.forall_mem_cons, ← hrange]
      constructor
      · rintro ⟨c', hrun, hvalid⟩
        cases hrun with
        | cons hok hstep hrun =>
            -- The call is in range, so the next state is the one of `step_ok`.
            obtain ⟨c₁, l₁, chains₁, hstep₁, h₁, -⟩ := step_ok h hcap call hok.2.1
            rw [next, hstep₁] at hstep
            cases hstep
            exact ⟨hok.2.1, (ih h₁).1 ⟨c', hrun, hvalid⟩⟩
      · rintro ⟨hcall, hcalls⟩
        obtain ⟨c₁, l₁, chains₁, hstep₁, h₁, -⟩ := step_ok h hcap call hcall
        obtain ⟨c', hrun, hvalid⟩ := (ih h₁).2 hcalls
        have hnext : next c call = some c₁ := by
          rw [next, hstep₁]
          rfl
        exact ⟨c', .cons ⟨⟨l, chains, h.toValid⟩, hcall, tail_inRange h⟩ hnext hrun, hvalid⟩

/-- A run stays in valid states and within the table exactly when no key of it is both
negative and no multiple of the size of the table. -/
theorem valid_run_iff (capacity : Int) (hcap : 1 ≤ capacity) (calls : List Call) :
    (∃ c, Run next (fun c call => IsValid c ∧ IndicesInRange c call) (lRUCacheCreate capacity)
        calls c ∧ IsValid c) ↔
      ∀ call ∈ calls, 0 ≤ call.key ∨ (10007 : Int) ∣ call.key :=
  rep_run_iff (rep_init hcap) hcap calls

theorem valid_run_iff_one :
    (∃ c, Run next (fun c call => IsValid c ∧ IndicesInRange c call) (lRUCacheCreate 1)
        [.put (-10007) 5, .get 3] c ∧ IsValid c) ↔
      ∀ call ∈ [Call.put (-10007) 5, .get 3], 0 ≤ call.key ∨ (10007 : Int) ∣ call.key :=
  valid_run_iff 1 (by decide) _

/-- `lRUCacheGet(cache, -1)` on a new cache reads far behind the end of the table. -/
theorem valid_run_fails :
    ¬∃ c, Run next (fun c call => IsValid c ∧ IndicesInRange c call) (lRUCacheCreate 1)
        [.get (-1)] c ∧ IsValid c := by
  rintro ⟨c, hrun, -⟩
  cases hrun with
  | cons hok hstep hrun => exact absurd hok.2.1 (by decide)

end LruCache
end Leetcode
