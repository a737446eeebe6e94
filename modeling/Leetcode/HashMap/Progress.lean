import Leetcode.HashMap.Atomic

/-!
# No schedule gets stuck

Whatever the code touches is allocated, so a thread inside a call can go on unless it waits
for a lock, and the thread that holds a lock never waits.  Hence every schedule can be continued
until all calls have returned.
-/

namespace Leetcode
namespace HashMap

open CLib

variable {T V : Type*} {prog : T → List (Call V)} {nbuckets : ℕ} {s s' : System T V}
  {chains : ℕ → List Ref} {b : Buckets V} {t : T} {call : Call V} {i : ℕ} {addr : Ref}

/-! ## Bounds -/

/-- No thread makes more calls than it has, and only finitely many nodes are allocated. -/
structure Bounded (prog : T → List (Call V)) (s : System T V) : Prop where
  next : ∀ t, s.next t ≤ (prog t).length
  allocated : ∃ bound, ∀ a, bound ≤ a → s.allocated a = false

theorem bounded_init (prog : T → List (Call V)) (nbuckets : ℕ) :
    Bounded prog (System.init nbuckets) where
  next := fun _ => Nat.zero_le _
  allocated := ⟨0, fun _ _ => rfl⟩

/-! ## One thread -/

theorem deref_isSome (ha : s.allocated a = true) (s' : System T V) : (s.deref a s').isSome := by
  rw [System.deref, if_pos ha]
  rfl

variable [DecidableEq T]

theorem inside_isSome (h : Guarded prog s chains b) (hc : (prog t)[s.next t]? = some call)
    (htarget : (s.place t).target = some i) (hlock : s.place t = .lock i → s.map.lock i = false)
    (haddr : s.allocated addr = false) : (inside s t addr call).isSome := by
  cases hp : s.place t with
  | idle | ret =>
      rw [hp] at htarget
      cases htarget
  | lock j =>
      rw [hp] at htarget hlock
      cases htarget
      simp [inside, hp, pthreadMutexLock, hlock rfl]
  | head j => simp [inside, hp]
  | loop j cur prev =>
      rw [hp] at htarget
      cases htarget
      obtain ⟨-, front, back, hnodes, hcur, -⟩ := h.knows_at hc hp rfl
      cases cur with
      | none => cases call <;> simp [inside, hp]
      | some cur =>
          have hmem : cur ∈ chains i := by
            rw [hnodes]
            exact List.mem_append_right _ (List.mem_of_head? hcur.symm)
          simp only [inside, hp]
          exact deref_isSome (h.live i cur hmem) _
  | hit j cur prev =>
      rw [hp] at htarget
      cases htarget
      obtain ⟨-, front, back, hnodes, hprev, -⟩ := h.knows_at hc hp rfl
      have hcur : s.allocated cur = true := h.live i cur (by simp [hnodes])
      cases call with
      | insert | get =>
          simp only [inside, hp]
          exact deref_isSome hcur _
      | remove key =>
          cases prev with
          | none =>
              simp only [inside, hp]
              exact deref_isSome hcur _
          | some p =>
              have hlast : p ∈ chains i := by
                rw [hnodes]
                exact List.mem_append_left _ (List.mem_of_getLast? hprev.symm)
              simp only [inside, hp, h.live i p hlast, if_true]
              exact deref_isSome hcur _
  | store j cur old =>
      rw [hp] at htarget
      cases htarget
      obtain ⟨⟨key, value, rfl⟩, -, ⟨prev, front, back, hnodes, -⟩, -⟩ := h.knows_at hc hp rfl
      have hcur : s.allocated cur = true := h.live i cur (by simp [hnodes])
      simp only [inside, hp]
      exact deref_isSome hcur _
  | take j cur | free j cur val =>
      obtain ⟨⟨key, rfl⟩, -⟩ := h.knows_at hc hp rfl
      have hcur := h.own_live t cur (by rw [hp]; rfl)
      simp only [inside, hp]
      exact deref_isSome hcur _
  | create j =>
      obtain ⟨⟨key, value, rfl⟩, -⟩ := h.knows_at hc hp rfl
      simp [inside, hp, haddr]
  | link j n =>
      obtain ⟨-, -, rfl⟩ := h.knows_at hc hp rfl
      have hn := h.own_live t n (by rw [hp]; rfl)
      simp only [inside, hp]
      exact deref_isSome hn _
  | publish j n =>
      obtain ⟨-, -, rfl, -⟩ := h.knows_at hc hp rfl
      simp [inside, hp]
  | unlock j result => simp [inside, hp]

theorem turn_isSome (h : Guarded prog s chains b) (hn : 0 < s.map.nbuckets)
    (hc : (prog t)[s.next t]? = some call) (haddr : s.allocated addr = false)
    (hlock : ∀ i, s.place t = .lock i → s.map.lock i = false) :
    (turn prog s ⟨t, addr⟩).isSome := by
  have hbucket : bucketOf s.map call.key = some (index s.map call.key) :=
    if_neg (Nat.ne_of_gt hn)
  unfold turn
  simp only [hc, Option.bind_some]
  split
  · rw [hbucket]
    rfl
  · rfl
  · next hidle hret =>
      have htarget : ∃ i, (s.place t).target = some i := by
        cases hp : s.place t with
        | idle => exact absurd hp hidle
        | ret result => exact absurd hp (hret result)
        | _ => exact ⟨_, rfl⟩
      obtain ⟨i, hi⟩ := htarget
      rw [Option.isSome_map]
      exact inside_isSome h hc hi (hlock i) haddr

/-! ## The whole system -/

/-- A step inside a call returns from no call, and allocates one node at most. -/
theorem inside_next (hstep : inside s t addr call = some s') :
    s'.next = s.next ∧ ∀ a, a ≠ addr → s.allocated a = false → s'.allocated a = false := by
  revert hstep
  fun_cases inside s t addr call with
  | case1 =>
      intro hstep
      obtain ⟨m, -, rfl⟩ := Option.map_eq_some_iff.1 hstep
      exact ⟨rfl, fun a _ hfree => hfree⟩
  | case8 | case14 | case19 =>
      intro hstep
      cases hstep
  | case9 =>
      intro hstep
      cases hstep
      exact ⟨rfl, fun a ha hfree => (Function.update_of_ne ha _ _).trans hfree⟩
  | case17 i cur =>
      intro hstep
      obtain ⟨-, rfl⟩ := deref_eq_some hstep
      refine ⟨rfl, fun a _ hfree => ?_⟩
      by_cases hcur : a = cur
      · rw [hcur]
        exact Function.update_self ..
      · exact (Function.update_of_ne hcur _ _).trans hfree
  | case2 | case3 | case4 | case11 | case18 =>
      intro hstep
      cases hstep
      exact ⟨rfl, fun a _ hfree => hfree⟩
  | _ =>
      intro hstep
      obtain ⟨-, rfl⟩ := deref_eq_some hstep
      exact ⟨rfl, fun a _ hfree => hfree⟩

theorem turn_bounded (h : Bounded prog s) {choice : Turn T}
    {seen : Option (Event T (Call V) (Option V))} (hturn : turn prog s choice = some (s', seen)) :
    Bounded prog s' := by
  unfold turn at hturn
  obtain ⟨call, hc, hturn⟩ := Option.bind_eq_some_iff.1 hturn
  split at hturn
  · obtain ⟨i, -, heq⟩ := Option.map_eq_some_iff.1 hturn
    cases heq
    exact ⟨h.next, h.allocated⟩
  · cases hturn
    refine ⟨fun u => ?_, h.allocated⟩
    show Function.update s.next choice.thread (s.next choice.thread + 1) u ≤ _
    by_cases hu : u = choice.thread
    · rw [hu, Function.update_self]
      exact (List.getElem?_eq_some_iff.1 hc).1
    · rw [Function.update_of_ne hu]
      exact h.next u
  · obtain ⟨s'', hinside, heq⟩ := Option.map_eq_some_iff.1 hturn
    cases heq
    obtain ⟨hnext, hallocated⟩ := inside_next hinside
    obtain ⟨bound, hbound⟩ := h.allocated
    refine ⟨fun u => by rw [hnext]; exact h.next u, max bound (choice.addr + 1), fun a ha => ?_⟩
    have hlt : choice.addr < a := (le_max_right bound (choice.addr + 1)).trans ha
    exact hallocated a hlt.ne' (hbound a ((le_max_left bound (choice.addr + 1)).trans ha))

theorem run_bounded {choices : List (Turn T)}
    {seen : List (Option (Event T (Call V) (Option V)))}
    (hrun : Trace (turn prog) s choices seen s') (h : Bounded prog s) : Bounded prog s' := by
  induction hrun with
  | nil s => exact h
  | cons hturn _ ih => exact ih (turn_bounded h hturn)

/-- In every state that a schedule leads to, some thread can go on, or all calls have
returned. -/
theorem never_stuck (hn : 0 < nbuckets) {choices : List (Turn T)}
    {seen : List (Option (Event T (Call V) (Option V)))}
    (hrun : Trace (turn prog) (System.init nbuckets) choices seen s)
    (hmore : ¬ s.Complete prog) : ∃ choice, (turn prog s choice).isSome := by
  obtain ⟨order, rfl, -, chains, hguarded⟩ := run_explained hrun (explained_init prog nbuckets)
  obtain ⟨hnext, bound, hbound⟩ := run_bounded hrun (bounded_init prog _)
  have haddr := hbound bound (Nat.le_refl _)
  obtain ⟨t, ht⟩ := not_forall.1 hmore
  by_cases hidle : s.place t = .idle
  · have hlt : s.next t < (prog t).length := by
      have hle := hnext t
      have hne : s.next t ≠ (prog t).length := fun heq => ht ⟨heq, hidle⟩
      omega
    refine ⟨⟨t, bound⟩, turn_isSome hguarded hn (List.getElem?_eq_getElem hlt) haddr ?_⟩
    intro i hlock
    rw [hidle] at hlock
    cases hlock
  · obtain ⟨call, hc⟩ := hguarded.current t hidle
    by_cases hwait : ∃ i, s.place t = .lock i ∧ s.map.lock i = true
    · -- The thread that holds the lock goes on.
      obtain ⟨i, -, hheld⟩ := hwait
      have hholder : ∃ u, (s.place u).bucket = some i := by
        by_contra hnone
        have hfree := (hguarded.unheld i fun u hu => hnone ⟨u, hu⟩).1
        rw [hheld] at hfree
        cases hfree
      obtain ⟨u, hu⟩ := hholder
      obtain ⟨d, hd⟩ := hguarded.current u (by rintro heq; rw [heq] at hu; cases hu)
      refine ⟨⟨u, bound⟩, turn_isSome hguarded hn hd haddr fun j hlock => ?_⟩
      rw [hlock] at hu
      cases hu
    · refine ⟨⟨t, bound⟩, turn_isSome hguarded hn hc haddr fun i hlock => ?_⟩
      exact Bool.eq_false_iff.2 fun hheld => hwait ⟨i, hlock, hheld⟩

end HashMap
end Leetcode
