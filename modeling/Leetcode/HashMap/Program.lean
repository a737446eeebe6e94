import Mathlib.Data.List.FinRange
import Leetcode.HashMap.Destroy
import Leetcode.Lib.Scan

/-!
# The program around the map

`main` starts `N` threads; each one puts a value of its own under a key of its own and looks it
up.  Behind the joins `main` removes `key-2` and destroys the map.

A value is the block that a worker has allocated for it.  No block is freed before the threads
have returned, so the blocks of two workers are different.
-/

namespace Leetcode
namespace HashMap

open CLib

/-- What `malloc(sizeof(int))` has returned to a worker, and what it holds. -/
structure Block (N : ℕ) where
  owner : Fin N
  content : ℤ
  deriving DecidableEq

/-- `key` of `worker`. -/
def workerText (tid : ℕ) : Bytes := snprintf 32 (ascii "key-" ++ decimal tid)

theorem noNul_workerText (tid : ℕ) : (0 : UInt8) ∉ workerText tid := by
  intro h
  rcases List.mem_append.1 (List.mem_of_mem_take h) with hkey | hnumber
  · exact absurd hkey (by decide)
  · rcases mem_decimal hnumber with hminus | ⟨hdigit, -⟩
    · exact absurd hminus (by decide)
    · exact absurd hdigit (by decide)

def workerKey (tid : ℕ) : CStr := ⟨workerText tid, noNul_workerText tid⟩

/-- `*val = a->tid * 100`. -/
def block {N : ℕ} (t : Fin N) : Block N := ⟨t, ((t.val + 1) * 100 : ℕ)⟩

/-- The calls of `worker`; `tid` is one more than the number of the thread. -/
def worker {N : ℕ} (t : Fin N) : List (Call (Block N)) :=
  [.insert (workerKey (t.val + 1)) (some (block t)), .get (workerKey (t.val + 1))]

/-- The `"key-2"` of `main`. -/
def removedKey : CStr := ⟨ascii "key-2", by decide⟩

/-- The end of `main`: what `map_remove` returns, and what `free` is called with. -/
def mainEnd {N : ℕ} (m : ConcurrentHashMap (Block N)) :
    Option (Option (Block N) × List (Option (Block N))) :=
  (mapRemove m removedKey).bind fun (m, removed) =>
    (mapDestroy m true).map fun values => (removed, removed.toList.map some ++ values)

/-! ## The keys -/

variable {N nbuckets : ℕ}

theorem workerText_eq {tid : ℕ} (h : tid < 2 ^ 31) :
    workerText tid = ascii "key-" ++ decimal tid := by
  have hint : (Int32.ofNat tid).toInt = tid := Int32.toInt_ofNat_of_lt h
  have hlength := decimal_length_le (Int32.ofNat tid)
  rw [hint] at hlength
  refine List.take_of_length_le ?_
  rw [List.length_append]
  exact (Nat.add_le_add_left hlength _).trans (by decide)

theorem workerKey_inj {i j : ℕ} (hi : i < 2 ^ 31) (hj : j < 2 ^ 31)
    (h : workerKey i = workerKey j) : i = j := by
  have htext : workerText i = workerText j := congrArg Subtype.val h
  rw [workerText_eq hi, workerText_eq hj] at htext
  have hscan := scanInt_decimal i
  rw [List.append_cancel_left htext, scanInt_decimal j] at hscan
  exact_mod_cast (Option.some.inj hscan).symm

/-- It is the key of the second worker. -/
theorem removedKey_eq : removedKey = workerKey 2 := by
  refine Subtype.ext ?_
  show ascii "key-2" = workerText 2
  decide

/-! ## What the calls bind -/

/-- A worker puts its value under its key. -/
theorem insert_mem_worker {t : Fin N} {key : CStr} {v : Option (Block N)} :
    Call.insert key v ∈ worker t ↔ key = workerKey (t.val + 1) ∧ v = some (block t) := by
  simp [worker]

/-- No key is written by two workers. -/
theorem worker_unique (hN : 100 * N < 2 ^ 31) {t u : Fin N} {key : CStr} {v w : Option (Block N)}
    (ht : Call.insert key v ∈ worker t) (hu : Call.insert key w ∈ worker u) : t = u := by
  obtain ⟨rfl, -⟩ := insert_mem_worker.1 ht
  obtain ⟨hkey, -⟩ := insert_mem_worker.1 hu
  have heq := workerKey_inj (by omega) (by omega) hkey
  exact Fin.ext (by omega)

/-- Whatever the order of the calls is, a key is bound to the value that has been put in. -/
theorem outcome_worker (hN : 100 * N < 2 ^ 31) {calls : List (Call (Block N))}
    (hcalls : ∀ call ∈ calls, ∃ t, call ∈ worker t) (key : CStr) (v : Option (Block N)) :
    outcome Bindings.step (fun _ => none) calls key = some v ↔ Call.insert key v ∈ calls := by
  induction calls using List.reverseRecOn with
  | nil => simp [outcome]
  | append_singleton calls call ih =>
      have hbefore := ih fun c hc => hcalls c (List.mem_append_left _ hc)
      obtain ⟨t, ht⟩ := hcalls call (List.mem_append_right _ List.mem_cons_self)
      rw [outcome_concat, List.mem_append, List.mem_singleton, ← hbefore]
      rcases List.mem_pair.1 ht with rfl | rfl
      · show Function.update (outcome Bindings.step (fun _ => none) calls) (workerKey (t.val + 1))
          (some (some (block t))) key = some v ↔ _
        by_cases hkey : key = workerKey (t.val + 1)
        · subst hkey
          rw [Function.update_self]
          refine ⟨fun heq => Or.inr (by rw [Option.some.inj heq]), ?_⟩
          rintro (hold | hnew)
          · -- The same worker has put in the same value before.
            obtain ⟨u, hu⟩ := hcalls _ (List.mem_append_left _ (hbefore.1 hold))
            obtain rfl := worker_unique hN ht hu
            rw [(insert_mem_worker.1 hu).2]
          · cases hnew
            rfl
        · rw [Function.update_of_ne hkey]
          refine ⟨Or.inl, ?_⟩
          rintro (hold | hnew)
          · exact hold
          · cases hnew
            exact absurd rfl hkey
      · show outcome Bindings.step (fun _ => none) calls key = some v ↔ _
        simp

/-! ## The end of `main` -/

section Joined

variable {s : System (Fin N) (Block N)} {bound : Ref}
  {history : List (Event (Fin N) (Call (Block N)) (Option (Block N)))}
  {order : List (Op (Fin N) (Call (Block N)) × Option (Block N))}

theorem Explained.calls_worker (h : Explained worker nbuckets s history order) :
    ∀ call ∈ order.map fun entry => entry.1.call, ∃ t, call ∈ worker t := by
  intro call hcall
  obtain ⟨entry, hentry, rfl⟩ := List.mem_map.1 hcall
  have hop := (h.linear.mem_order.1 (List.mem_map_of_mem hentry)).2
  exact ⟨_, List.mem_of_getElem? hop⟩

/-- When all workers have returned, each one has put in its value. -/
theorem Explained.insert_mem (h : Explained worker nbuckets s history order)
    (hcomplete : s.Complete worker) {key : CStr} {v : Option (Block N)} :
    Call.insert key v ∈ (order.map fun entry => entry.1.call) ↔
      ∃ t : Fin N, key = workerKey (t.val + 1) ∧ v = some (block t) := by
  constructor
  · intro hmem
    obtain ⟨t, ht⟩ := h.calls_worker _ hmem
    exact ⟨t, insert_mem_worker.1 ht⟩
  · rintro ⟨t, rfl, rfl⟩
    have hop : (⟨t, 0, .insert (workerKey (t.val + 1)) (some (block t))⟩ : Op _ _) ∈
        order.map Prod.fst := by
      refine h.linear.mem_order.2 ⟨?_, rfl⟩
      show 0 < s.next t + _
      rw [(hcomplete t).1]
      exact Nat.lt_add_right _ Nat.zero_lt_two
    obtain ⟨entry, hentry, heq⟩ := List.mem_map.1 hop
    exact List.mem_map.2 ⟨entry, hentry, by rw [heq]⟩

/-- The entries of the map that `main` finds. -/
def workerEntries (N : ℕ) : List (CStr × Option (Block N)) :=
  (List.finRange N).map fun t => (workerKey (t.val + 1), some (block t))

theorem lists_worker (hN : 100 * N < 2 ^ 31) (h : Explained worker nbuckets s history order)
    (hcomplete : s.Complete worker) :
    Lists (outcome Bindings.step (fun _ => none) (order.map fun entry => entry.1.call))
      (workerEntries N) where
  keys := by
    rw [workerEntries, List.map_map]
    refine (List.nodup_finRange N).map_on fun t _ u _ heq => ?_
    have hval := workerKey_inj (by omega) (by omega) heq
    exact Fin.ext (by omega)
  mem_iff key v := by
    rw [outcome_worker hN h.calls_worker, h.insert_mem hcomplete, workerEntries, List.mem_map]
    constructor
    · rintro ⟨t, -, heq⟩
      cases heq
      exact ⟨t, rfl, rfl⟩
    · rintro ⟨t, rfl, rfl⟩
      exact ⟨t, List.mem_finRange t, rfl⟩

/-- A worker gets its own block back. -/
theorem get_own (hN : 100 * N < 2 ^ 31) (hn : 0 < nbuckets)
    (h : Explained worker nbuckets s history order) (hcomplete : s.Complete worker) (t : Fin N) :
    (⟨t, 1, .get (workerKey (t.val + 1))⟩, some (block t)) ∈ order := by
  have hop : (⟨t, 1, .get (workerKey (t.val + 1))⟩ : Op _ _) ∈ order.map Prod.fst := by
    refine h.linear.mem_order.2 ⟨?_, rfl⟩
    show 1 < s.next t + _
    rw [(hcomplete t).1]
    exact Nat.lt_add_right _ Nat.one_lt_two
  obtain ⟨⟨op, result⟩, hentry, rfl⟩ := List.mem_map.1 hop
  obtain ⟨front, back, rfl⟩ := List.append_of_mem hentry
  -- its own `map_insert` is in front of it
  have hfront : (⟨t, 0, .insert (workerKey (t.val + 1)) (some (block t))⟩ : Op _ _) ∈
      front.map Prod.fst :=
    h.linear.earlier_mem rfl rfl Nat.zero_lt_one rfl
  have hcalls : ∀ call ∈ front.map fun entry => entry.1.call, ∃ u, call ∈ worker u := by
    intro call hcall
    refine h.calls_worker call ?_
    rw [List.map_append]
    exact List.mem_append_left _ hcall
  have hbound : outcome Bindings.step (fun _ => none) (front.map fun entry => entry.1.call)
      (workerKey (t.val + 1)) = some (some (block t)) := by
    rw [outcome_worker hN hcalls]
    obtain ⟨entry, hmem, heq⟩ := List.mem_map.1 hfront
    exact List.mem_map.2 ⟨entry, hmem, by rw [heq]⟩
  have hanswer := h.answers hn
  have hresult := congrArg (fun l => l[front.length]?) hanswer
  simp only [answers_getElem?, List.getElem?_map, List.getElem?_append_right (Nat.le_refl _),
    Nat.sub_self, List.getElem?_cons_zero, Option.map_some] at hresult
  rw [List.map_append, List.take_left' (List.length_map _)] at hresult
  have hown : result = (outcome Bindings.step (fun _ => none)
      (front.map fun entry => entry.1.call) (workerKey (t.val + 1))).join :=
    Option.some.inj hresult
  rw [hbound] at hown
  rw [show some (block t) = result from hown.symm]
  exact List.mem_append_right _ List.mem_cons_self

/-- `key-2` is bound when there is a second worker. -/
theorem outcome_second (hN : 100 * N < 2 ^ 31) (h : Explained worker nbuckets s history order)
    (hcomplete : s.Complete worker) :
    outcome Bindings.step (fun _ => none) (order.map fun entry => entry.1.call) (workerKey 2) =
      if h : 1 < N then some (some (block ⟨1, h⟩)) else none := by
  split
  · next hsecond =>
      rw [outcome_worker hN h.calls_worker, h.insert_mem hcomplete]
      exact ⟨⟨1, hsecond⟩, rfl, rfl⟩
  · next hfew =>
      refine Option.eq_none_iff_forall_ne_some.2 fun v hv => ?_
      rw [outcome_worker hN h.calls_worker, h.insert_mem hcomplete] at hv
      obtain ⟨t, hkey, -⟩ := hv
      have heq := workerKey_inj (by norm_num) (by omega) hkey
      omega

/-- What `main` frees are the blocks of the workers. -/
theorem mainEnd_ok (hN : 100 * N < 2 ^ 31) (hn : 0 < nbuckets)
    (h : Explained worker nbuckets s history order) (hcomplete : s.Complete worker)
    (hbound : ∀ a, s.allocated a = true → a < bound) :
    ∃ freed, mainEnd (s.joined bound) =
        some (if h : 1 < N then some (block ⟨1, h⟩) else none, freed) ∧
      freed.Perm ((List.finRange N).map fun t => some (block t)) := by
  obtain ⟨chains, hrep, hshows⟩ := h.joined hn hcomplete hbound
  obtain ⟨m', chains', hremove, hrep', hshows'⟩ := remove_ok hrep hshows (workerKey 2)
  have hlists := lists_worker hN h hcomplete
  have hvalues := ((lists_others hlists (workerKey 2)).perm
    (lists_nodeEntries hrep' hshows')).map Prod.snd
  have hall : (workerEntries N).map Prod.snd =
      (List.finRange N).map fun t => some (block t) := by
    rw [workerEntries, List.map_map]
    rfl
  have hend : mainEnd (s.joined bound) = some ((outcome Bindings.step (fun _ => none)
      (order.map fun entry => entry.1.call) (workerKey 2)).join,
      (outcome Bindings.step (fun _ => none)
        (order.map fun entry => entry.1.call) (workerKey 2)).join.toList.map some ++
          (nodeEntries m' chains').map Prod.snd) := by
    rw [mainEnd, removedKey_eq, hremove, Option.bind_some]
    dsimp only
    rw [mapDestroy_ok hrep', Option.map_some]
  have hkey := outcome_second hN h hcomplete
  have hremoved : (outcome Bindings.step (fun _ => none)
      (order.map fun entry => entry.1.call) (workerKey 2)).join =
        if h : 1 < N then some (block ⟨1, h⟩) else none := by
    rw [hkey, apply_dite Option.join]
    rfl
  rw [hremoved] at hend
  refine ⟨_, hend, ?_⟩
  rw [← hall]
  by_cases hsecond : 1 < N
  · rw [dif_pos hsecond] at hkey ⊢
    exact (hvalues.symm.cons _).trans ((hlists.perm_bound hkey).map Prod.snd).symm
  · rw [dif_neg hsecond] at hkey ⊢
    rw [hlists.others_eq hkey] at hvalues
    exact hvalues.symm

/-- Whatever the schedule of the workers is, every worker gets its own value back; then `main`
removes the value of the second worker, and the block of every worker is freed just once. -/
theorem program_ok (hN : 100 * N < 2 ^ 31) (hn : 0 < nbuckets)
    {choices : List (Turn (Fin N))}
    {seen : List (Option (Event (Fin N) (Call (Block N)) (Option (Block N))))}
    (hrun : Trace (turn worker) (System.init nbuckets) choices seen s)
    (hcomplete : s.Complete worker) (hbound : ∀ a, s.allocated a = true → a < bound) :
    (∀ t : Fin N, .ret ⟨t, 1, .get (workerKey (t.val + 1))⟩ (some (block t)) ∈
        seen.reduceOption) ∧
      ∃ freed, mainEnd (s.joined bound) =
          some (if h : 1 < N then some (block ⟨1, h⟩) else none, freed) ∧
        freed.Perm ((List.finRange N).map fun t => some (block t)) := by
  obtain ⟨order, hexplained⟩ := run_explained hrun (explained_init worker nbuckets)
  rw [List.nil_append] at hexplained
  refine ⟨fun t => ?_, mainEnd_ok hN hn hexplained hcomplete hbound⟩
  refine (hexplained.linear.returned _ _).2 ⟨get_own hN hn hexplained hcomplete t, ?_⟩
  show 1 < s.next t
  rw [(hcomplete t).1]
  exact Nat.one_lt_two

/-- The four threads and 64 buckets of the program. -/
theorem program_ok_four :
    ∃ (choices : List (Turn (Fin 4)))
      (seen : List (Option (Event (Fin 4) (Call (Block 4)) (Option (Block 4)))))
      (s : System (Fin 4) (Block 4)) (bound : Ref),
      Trace (turn worker) (System.init 64) choices seen s ∧
      (∀ t : Fin 4, .ret ⟨t, 1, .get (workerKey (t.val + 1))⟩ (some (block t)) ∈
        seen.reduceOption) ∧
      ∃ freed, mainEnd (s.joined bound) =
          some (if h : 1 < 4 then some (block ⟨1, h⟩) else none, freed) ∧
        freed.Perm ((List.finRange 4).map fun t => some (block t)) := by
  have hstart : Trace (turn worker) (System.init 64 : System (Fin 4) (Block 4)) [] []
      (System.init 64) := .nil _
  obtain ⟨choices, seen, s, hrun, hcomplete⟩ := exists_complete (by decide) hstart
  obtain ⟨bound, hbound⟩ := (run_bounded hrun (bounded_init worker 64)).allocated
  exact ⟨choices, seen, s, bound, hrun, program_ok (by norm_num) (by decide) hrun hcomplete
    fun a ha => Nat.lt_of_not_le fun hle => Bool.false_ne_true ((hbound a hle).symm.trans ha)⟩

end Joined

end HashMap
end Leetcode
