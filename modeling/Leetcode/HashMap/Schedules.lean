import Mathlib.Algebra.Order.BigOperators.Group.Finset
import Leetcode.HashMap.Progress

/-!
# Every schedule ends

A thread never goes back in the code of a call, and the nodes that its loop has passed stay
where they are while it has the lock.  So what the threads have spent grows with every step,
and it is bounded: a bucket has no more nodes than there are calls.

* `System.spent` — how many steps the threads may have made.
* `inside_scans` — whoever is in a loop finds the same nodes after a step of somebody else.
* `schedules_end` — the bound, and how a schedule ends.
-/

namespace Leetcode
namespace HashMap

open CLib

variable {T V : Type*}

/-! ## What is spent -/

/-- How many nodes of the chain are in front of `cur`. -/
def visited (nodes : List Ref) : Option Ref → ℕ
  | some cur => nodes.idxOf cur
  | none => nodes.length

/-- The bucket whose nodes a loop visits. -/
def Place.scans : Place V → Option ℕ
  | .loop h _ _ => some h
  | _ => none

/-- How many steps of a call are behind a thread at most, where no bucket has more than `n`
nodes. -/
def Place.spent (n : ℕ) (chains : ℕ → List Ref) : Place V → ℕ
  | .idle => 0
  | .lock _ => 1
  | .head _ => 2
  | .loop h cur _ => 3 + visited (chains h) cur
  | .hit _ _ _ | .create _ => n + 4
  | .store _ _ _ | .take _ _ | .link _ _ => n + 5
  | .free _ _ _ | .publish _ _ => n + 6
  | .unlock _ _ => n + 7
  | .ret _ => n + 8

def System.spent [Fintype T] (n : ℕ) (chains : ℕ → List Ref) (s : System T V) : ℕ :=
  ∑ t, ((n + 9) * s.next t + (s.place t).spent n chains)

variable {prog : T → List (Call V)} {nbuckets n : ℕ} {s s' : System T V}
  {chains chains' : ℕ → List Ref} {b : Buckets V} {t u : T} {call : Call V} {i j : ℕ}
  {addr : Ref} {p : Place V} {nodes : List Ref} {cur : Option Ref}
  {history : List (Event T (Call V) (Option V))} {order : List (Op T (Call V) × Option V)}

theorem visited_le : visited nodes cur ≤ nodes.length := by
  cases cur with
  | none => exact Nat.le_refl _
  | some a => exact List.idxOf_le_length

theorem visited_append {front back : List Ref} (hnodup : (front ++ back).Nodup) :
    visited (front ++ back) back.head? = front.length := by
  cases back with
  | nil => simp [visited]
  | cons a back =>
      have ha : a ∉ front := fun hmem =>
        (List.nodup_append.1 hnodup).2.2 a hmem a List.mem_cons_self rfl
      simp [visited, List.idxOf_append_of_notMem ha]

/-- Only the nodes of the bucket that is visited matter. -/
theorem Place.spent_congr (h : ∀ i, p.scans = some i → chains' i = chains i) :
    p.spent n chains' = p.spent n chains := by
  cases p with
  | loop i cur prev => rw [Place.spent, Place.spent, h i rfl]
  | _ => rfl

theorem Place.spent_lt (h : ∀ i, p.scans = some i → (chains i).length ≤ n) :
    p.spent n chains < n + 9 := by
  cases p with
  | loop i cur prev =>
      have hle : visited (chains i) cur ≤ n := visited_le.trans (h i rfl)
      rw [Place.spent]
      omega
  | _ => simp [Place.spent]

theorem Place.bucket_of_scans (h : p.scans = some i) : p.bucket = some i := by
  cases p <;> first | exact h | cases h

/-! ## The nodes of a bucket -/

/-- A key is in a list of pairs, or it is not. -/
theorem search_cases (key : CStr) (l : List (CStr × Option V)) :
    (∀ e ∈ l, e.1 ≠ key) ∨
      ∃ front v back, l = front ++ (key, v) :: back ∧ ∀ e ∈ front, e.1 ≠ key := by
  cases hfind : l.find? fun e => decide (e.1 = key) with
  | none => exact Or.inl fun e he => by simpa using List.find?_eq_none.1 hfind e he
  | some e =>
      obtain ⟨hkey, front, back, rfl, hfront⟩ := List.find?_eq_some_iff_append.1 hfind
      obtain ⟨key', v⟩ := e
      obtain rfl : key' = key := of_decide_eq_true hkey
      exact Or.inr ⟨front, v, back, rfl, fun e he => by simpa using hfront e he⟩

/-- A call puts one pair into its bucket at most. -/
theorem bucketStep_length (l : List (CStr × Option V)) (call : Call V) :
    (bucketStep l call).1.length ≤ l.length + 1 := by
  cases call with
  | insert key value =>
      rcases search_cases key l with hnew | ⟨front, v, back, rfl, hfront⟩
      · rw [bucketStep_insert_miss hnew, List.length_cons]
      · simp [bucketStep_insert_hit hfront]
  | get key =>
      rcases search_cases key l with hnew | ⟨front, v, back, rfl, hfront⟩
      · simp [bucketStep_get_miss hnew]
      · simp [bucketStep_get_hit hfront]
  | remove key =>
      rcases search_cases key l with hnew | ⟨front, v, back, rfl, hfront⟩
      · simp [bucketStep_remove_miss hnew]
      · simp only [bucketStep_remove_hit hfront, List.length_append, List.length_cons]
        omega

theorem outcome_length (nbuckets : ℕ) (calls : List (Call V)) (i : ℕ) :
    (outcome (Buckets.step nbuckets) (fun _ => []) calls i).length ≤ calls.length := by
  induction calls using List.reverseRecOn with
  | nil => exact Nat.le_refl 0
  | append_singleton calls call ih =>
      rw [outcome_concat, List.length_append, List.length_singleton]
      by_cases hi : i = (hashStr call.key).toNat % nbuckets
      · subst hi
        simp only [Buckets.step, Function.update_self]
        exact (bucketStep_length _ call).trans (Nat.add_le_add_right ih 1)
      · simp only [Buckets.step, Function.update_of_ne hi]
        exact ih.trans (Nat.le_succ _)

/-- While a thread searches, its bucket has the pairs that it had when the lock was taken. -/
theorem Guarded.scans_length (h : Guarded prog s chains b) (hn : ∀ i, (b i).length ≤ n)
    (hi : (s.place t).scans = some i) : (chains i).length ≤ n := by
  have hbucket := Place.bucket_of_scans hi
  obtain ⟨call, hc⟩ := h.current t (by rintro heq; rw [heq] at hi; cases hi)
  have hknows := h.knows t i call hbucket hc
  cases hp : s.place t with
  | loop j cur prev =>
      rw [hp] at hknows
      have hlength := hn i
      rw [← hknows.1, pairs, List.length_map] at hlength
      exact hlength
  | _ =>
      rw [hp] at hi
      cases hi

/-! ## One step -/

theorem Frame.chain {m : ConcurrentHashMap V} {allocated : Ref → Bool}
    (hframe : Frame s chains i t m allocated) (h : Owned s chains) (hj : j ≠ i) :
    Chain m.next (m.head j) (chains j) := by
  rw [hframe.head j hj]
  exact (h.chain j).congr fun a ha => hframe.next a (h.chain_notMine hj ha)

variable [DecidableEq T]

/-- Whoever is in a loop after a step finds the nodes that the bucket had before. -/
theorem inside_scans (h : Guarded prog s chains b) (hc : (prog t)[s.next t]? = some call)
    (hstep : inside s t addr call = some s') (hi : (s'.place u).scans = some i) :
    Chain s'.map.next (s'.map.head i) (chains i) := by
  -- a step that writes a link goes to a place behind the loop
  have hother : ∀ {j p₀ p}, s.place t = p₀ → p₀.bucket = some j → p.scans = none →
      (Function.update s.place t p u).scans = some i → i ≠ j := by
    rintro j p₀ p rfl hj hp hu rfl
    rcases place_update_cases hu with ⟨-, hnone⟩ | ⟨hut, hscans⟩
    · rw [hp] at hnone
      cases hnone
    · exact hut (h.excl u t i (Place.bucket_of_scans hscans) hj)
  revert hstep hi hc
  fun_cases inside s t addr call with
  | case1 call m i hp =>
      intro hc hstep hi
      obtain ⟨m, hlock, rfl⟩ := Option.map_eq_some_iff.1 hstep
      unfold pthreadMutexLock at hlock
      split at hlock
      · cases hlock
      · cases hlock
        exact h.chain _
  | case8 | case14 | case19 =>
      intro hc hstep
      cases hstep
  | case10 m j n key value hp m' =>
      intro hc hstep hi
      obtain ⟨-, rfl⟩ := deref_eq_some hstep
      exact (h.chain _).update (h.own_apart t n _ (by rw [hp]; rfl)) _
  | case11 m j n key value hp m' =>
      intro hc hstep hi
      cases hstep
      have hij := hother hp rfl rfl hi
      show Chain s.map.next (Function.update s.map.head j (some n) i) (chains i)
      rw [Function.update_of_ne hij]
      exact h.chain i
  | case13 m j cur p key hp m' hlive =>
      intro hc hstep hi
      obtain ⟨-, rfl⟩ := deref_eq_some hstep
      have hij := hother hp rfl rfl hi
      obtain ⟨-, front, back, hnodes, hprev, -⟩ := h.knows_at hc hp rfl
      refine (h.chain i).update (fun hmem => hij (h.disjoint i j p hmem ?_)) _
      rw [hnodes]
      exact List.mem_append_left _ (List.mem_of_getLast? hprev.symm)
  | case15 m j cur key hp m' =>
      intro hc hstep hi
      obtain ⟨-, rfl⟩ := deref_eq_some hstep
      have hij := hother hp rfl rfl hi
      show Chain s.map.next (Function.update s.map.head j (s.map.next cur) i) (chains i)
      rw [Function.update_of_ne hij]
      exact h.chain i
  | case2 | case3 | case4 | case9 | case18 =>
      intro hc hstep hi
      cases hstep
      exact h.chain _
  | _ =>
      intro hc hstep hi
      obtain ⟨-, rfl⟩ := deref_eq_some hstep
      exact h.chain _

/-- A thread goes forward in its call. -/
theorem inside_forward (h : Guarded prog s chains b) (hn : ∀ i, (b i).length ≤ n)
    (hc : (prog t)[s.next t]? = some call) (hstep : inside s t addr call = some s') :
    ∃ p, s'.place = Function.update s.place t p ∧
      (s.place t).spent n chains < p.spent n chains := by
  -- the loop is over when all nodes have been visited
  have hloop : ∀ {j cur prev}, s.place t = .loop j cur prev →
      3 + visited (chains j) cur < n + 4 := by
    intro j cur prev hp
    have hle := h.scans_length hn (t := t) (i := j) (by rw [hp]; rfl)
    have hvisited : visited (chains j) cur ≤ (chains j).length := visited_le
    omega
  revert hstep hc
  fun_cases inside s t addr call with
  | case1 call m i hp =>
      intro hc hstep
      obtain ⟨m, -, rfl⟩ := Option.map_eq_some_iff.1 hstep
      exact ⟨_, rfl, by simp [hp, Place.spent]⟩
  | case2 call m i hp =>
      intro hc hstep
      cases hstep
      refine ⟨_, rfl, ?_⟩
      rw [hp, Place.spent, Place.spent]
      omega
  | case3 i prev key value hp =>
      intro hc hstep
      cases hstep
      refine ⟨_, rfl, ?_⟩
      rw [hp, Place.spent, Place.spent]
      exact hloop hp
  | case4 call i prev hp hcall =>
      intro hc hstep
      cases hstep
      refine ⟨_, rfl, ?_⟩
      rw [hp, Place.spent, Place.spent]
      exact (hloop hp).trans (by omega)
  | case5 m i cur prev call hp =>
      intro hc hstep
      obtain ⟨-, rfl⟩ := deref_eq_some hstep
      refine ⟨_, rfl, ?_⟩
      rw [hp]
      split
      · rw [Place.spent, Place.spent]
        exact hloop hp
      · obtain ⟨-, front, back, hnodes, hcur, -⟩ := h.knows_at hc hp rfl
        obtain ⟨rest, rfl⟩ := List.head?_eq_some_iff.1 hcur.symm
        have hchain := h.chain i
        have hnodup := chain_nodup hchain
        rw [hnodes] at hchain hnodup
        have hbefore := visited_append hnodup
        rw [List.head?_cons] at hbefore
        rw [List.append_cons] at hnodup
        have hafter := visited_append hnodup
        rw [← List.append_cons, List.length_append, List.length_singleton] at hafter
        rw [Place.spent, Place.spent, chain_link hchain, hnodes, hbefore, hafter]
        omega
  | case8 | case14 | case19 =>
      intro hc hstep
      cases hstep
  | case9 | case11 | case18 =>
      intro hc hstep
      cases hstep
      refine ⟨_, rfl, ?_⟩
      rw [‹s.place t = _›, Place.spent, Place.spent]
      omega
  | _ =>
      intro hc hstep
      obtain ⟨-, rfl⟩ := deref_eq_some hstep
      refine ⟨_, rfl, ?_⟩
      rw [‹s.place t = _›, Place.spent, Place.spent]
      omega

/-! ## Whole schedules -/

/-- The state is explained, and the threads have spent `k`. -/
def Spent [Fintype T] (prog : T → List (Call V)) (nbuckets n : ℕ) (s : System T V) (k : ℕ) :
    Prop :=
  ∃ history order chains, Explained prog nbuckets s history order ∧
    Guarded prog s chains
      (outcome (Buckets.step nbuckets) (fun _ => []) (order.map fun entry => entry.1.call)) ∧
    s.spent n chains = k

/-- Nothing more is possible just when all calls have returned. -/
theorem stuck_iff (hn : 0 < nbuckets) {choices : List (Turn T)}
    {seen : List (Option (Event T (Call V) (Option V)))}
    (hrun : Trace (turn prog) (System.init nbuckets) choices seen s) :
    (∀ choice, turn prog s choice = none) ↔ s.Complete prog := by
  constructor
  · intro hstuck
    by_contra hmore
    obtain ⟨choice, hchoice⟩ := never_stuck hn hrun hmore
    rw [hstuck choice] at hchoice
    cases hchoice
  · intro hcomplete choice
    have hnext : (prog choice.thread)[s.next choice.thread]? = none := by
      rw [(hcomplete choice.thread).1]
      exact List.getElem?_eq_none (Nat.le_refl _)
    rw [turn, hnext]
    rfl

section Schedules

variable [Fintype T]

theorem Explained.bucket_length (h : Explained prog nbuckets s history order)
    (hn : ∑ t, (prog t).length = n) (i : ℕ) :
    (outcome (Buckets.step nbuckets) (fun _ => [])
      (order.map fun entry => entry.1.call) i).length ≤ n := by
  refine (outcome_length _ _ i).trans ?_
  rw [List.length_map, ← hn]
  exact h.linear.length_le

/-- One thread goes forward, and the others stay where they are. -/
theorem System.spent_lt (hother : ∀ u, u ≠ t → s'.next u = s.next u ∧ s'.place u = s.place u)
    (hscans : ∀ u i, (s'.place u).scans = some i → chains' i = chains i)
    (hforward : (n + 9) * s.next t + (s.place t).spent n chains <
      (n + 9) * s'.next t + (s'.place t).spent n chains) :
    s.spent n chains < s'.spent n chains' := by
  have hcost : ∀ u, (s'.place u).spent n chains' = (s'.place u).spent n chains := fun u =>
    Place.spent_congr (hscans u)
  unfold System.spent
  refine Finset.sum_lt_sum (fun u _ => ?_) ⟨t, Finset.mem_univ t, ?_⟩
  · rw [hcost]
    by_cases hu : u = t
    · rw [hu]
      exact hforward.le
    · obtain ⟨hnext, hplace⟩ := hother u hu
      rw [hnext, hplace]
  · rw [hcost]
    exact hforward

theorem turn_spends (hn : ∑ t, (prog t).length = n) {k : ℕ} (h : Spent prog nbuckets n s k)
    {choice : Turn T} {seen : Option (Event T (Call V) (Option V))}
    (hturn : turn prog s choice = some (s', seen)) :
    ∃ k', k < k' ∧ Spent prog nbuckets n s' k' := by
  obtain ⟨history, order, chains, hexplained, hguarded, rfl⟩ := h
  obtain ⟨order', hexplained'⟩ := turn_ok hexplained hturn
  obtain ⟨chains', hguarded'⟩ := hexplained'.guarded
  refine ⟨s'.spent n chains', ?_, _, order', chains', hexplained', hguarded', rfl⟩
  have hsize := hexplained.bucket_length hn
  have hsame : ∀ {i}, Chain s'.map.next (s'.map.head i) (chains i) → chains' i = chains i :=
    fun hchain => chain_unique (hguarded'.chain _) hchain
  unfold turn at hturn
  obtain ⟨call, hc, hturn⟩ := Option.bind_eq_some_iff.1 hturn
  split at hturn
  · next hidle =>
      obtain ⟨i, -, heq⟩ := Option.map_eq_some_iff.1 hturn
      cases heq
      refine System.spent_lt (t := choice.thread) (fun u hu => ⟨rfl, Function.update_of_ne hu _ _⟩)
        (fun u i _ => hsame (hguarded.chain i)) ?_
      simp [System.goto, hidle, Place.spent]
  · next result hret =>
      cases hturn
      refine System.spent_lt (t := choice.thread)
        (fun u hu => ⟨Function.update_of_ne hu _ _, Function.update_of_ne hu _ _⟩)
        (fun u i _ => hsame (hguarded.chain i)) ?_
      simp only [System.goto, Function.update_self, hret, Place.spent]
      rw [Nat.mul_succ]
      omega
  · obtain ⟨s'', hinside, heq⟩ := Option.map_eq_some_iff.1 hturn
    cases heq
    obtain ⟨p, hplace, hforward⟩ := inside_forward hguarded hsize hc hinside
    obtain ⟨hnext, -⟩ := inside_next hinside
    refine System.spent_lt (t := choice.thread)
      (fun u hu => ⟨congrFun hnext u, ?_⟩)
      (fun u i hi => hsame (inside_scans hguarded hc hinside hi)) ?_
    · rw [hplace, Function.update_of_ne hu]
    · rw [hnext, hplace, Function.update_self]
      omega

/-- What the threads can spend. -/
theorem Spent.le (hn : ∑ t, (prog t).length = n) (hbounded : Bounded prog s) {k : ℕ}
    (h : Spent prog nbuckets n s k) : k ≤ n * (n + 9) := by
  obtain ⟨history, order, chains, hexplained, hguarded, rfl⟩ := h
  have hsize := hexplained.bucket_length hn
  calc s.spent n chains ≤ ∑ t, (n + 9) * (prog t).length := by
        refine Finset.sum_le_sum fun t _ => ?_
        by_cases hidle : s.place t = .idle
        · rw [hidle]
          exact Nat.mul_le_mul_left _ (hbounded.next t)
        · obtain ⟨call, hc⟩ := hguarded.current t hidle
          have hlt : s.next t < (prog t).length := (List.getElem?_eq_some_iff.1 hc).1
          have hplace : (s.place t).spent n chains < n + 9 :=
            Place.spent_lt fun i hi => hguarded.scans_length hsize hi
          calc (n + 9) * s.next t + (s.place t).spent n chains
              ≤ (n + 9) * (s.next t + 1) := by rw [Nat.mul_succ]; omega
            _ ≤ (n + 9) * (prog t).length := Nat.mul_le_mul_left _ hlt
    _ = n * (n + 9) := by rw [← Finset.mul_sum, hn, Nat.mul_comm]

theorem spent_init (prog : T → List (Call V)) (nbuckets n : ℕ) :
    ∃ k, Spent prog nbuckets n (System.init nbuckets) k := by
  have hexplained := explained_init prog nbuckets
  obtain ⟨chains, hguarded⟩ := hexplained.guarded
  exact ⟨_, [], [], chains, hexplained, hguarded, rfl⟩

theorem choices_length_le (prog : T → List (Call V)) (nbuckets : ℕ) {choices : List (Turn T)}
    {seen : List (Option (Event T (Call V) (Option V)))}
    (hrun : Trace (turn prog) (System.init nbuckets) choices seen s) :
    choices.length ≤ (∑ t, (prog t).length) * (∑ t, (prog t).length + 9) := by
  obtain ⟨k, hk⟩ := spent_init prog nbuckets (∑ t, (prog t).length)
  obtain ⟨k', hle, hk'⟩ := hrun.spends (fun _ _ _ _ _ h hturn => turn_spends rfl h hturn) hk
  exact (Nat.le_add_left _ _).trans
    (hle.trans (hk'.le rfl (run_bounded hrun (bounded_init prog nbuckets))))

/-- A schedule can be continued until all calls have returned. -/
theorem exists_complete (hn : 0 < nbuckets) {choices : List (Turn T)}
    {seen : List (Option (Event T (Call V) (Option V)))}
    (hrun : Trace (turn prog) (System.init nbuckets) choices seen s) :
    ∃ more seen' s', Trace (turn prog) s more seen' s' ∧ s'.Complete prog := by
  obtain ⟨more, seen', s', hmore, hstuck⟩ :=
    Trace.exists_end (fun _ _ _ h => choices_length_le prog nbuckets h) hrun
  exact ⟨more, seen', s', hmore, (stuck_iff hn (hrun.append hmore)).1 hstuck⟩

/-- Whatever the scheduler does, a schedule has a bounded number of steps; it stops only when
all calls have returned, and before that it can always be continued to such an end.  There is
neither a deadlock nor a thread that runs in its loop for ever. -/
theorem schedules_end (prog : T → List (Call V)) (hn : 0 < nbuckets) {choices : List (Turn T)}
    {seen : List (Option (Event T (Call V) (Option V)))}
    (hrun : Trace (turn prog) (System.init nbuckets) choices seen s) :
    choices.length ≤ (∑ t, (prog t).length) * (∑ t, (prog t).length + 9) ∧
      ((∀ choice, turn prog s choice = none) ↔ s.Complete prog) ∧
      ∃ more seen' s', Trace (turn prog) s more seen' s' ∧ s'.Complete prog :=
  ⟨choices_length_le prog nbuckets hrun, stuck_iff hn hrun, exists_complete hn hrun⟩

/-- The schedule of `race` up to where the second thread waits for the lock. -/
def raceStart : Option (List (Option (Event (Fin 2) (Call ℕ) (Option ℕ))) × System (Fin 2) ℕ) :=
  execTrace (turn raceCalls) (System.init 1) (raceChoices.take 6)

theorem schedules_end_race :
    ∃ seen s, Trace (turn raceCalls) (System.init 1) (raceChoices.take 6) seen s ∧
      ¬ s.Complete raceCalls ∧
      ∃ more seen' s', Trace (turn raceCalls) s more seen' s' ∧ s'.Complete raceCalls := by
  have hrun : Trace (turn raceCalls) (System.init 1) (raceChoices.take 6)
      (raceStart.get (by decide)).1 (raceStart.get (by decide)).2 :=
    Trace.of_exec (Option.some_get (show raceStart.isSome by decide)).symm
  have hmore : ¬ (raceStart.get (by decide)).2.Complete raceCalls := by
    unfold System.Complete
    decide
  exact ⟨_, _, hrun, hmore, (schedules_end raceCalls Nat.one_pos hrun).2.2⟩

end Schedules

end HashMap
end Leetcode
