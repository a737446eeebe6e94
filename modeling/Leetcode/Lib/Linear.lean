import Leetcode.Lib.Trace
import Mathlib.Data.List.Nodup
import Mathlib.Logic.Function.Basic
import Mathlib.Tactic

/-!
# Histories and sequential orders

Threads make calls, each thread one after the other.  The history has the start and the
return of every call, in the order in which they happen.  A sequential order of the calls
explains it (`Linearizes`) if it keeps the order of every thread, keeps the order of calls that
do not overlap, and has the results that were returned.

A system that decides each call at some moment between its start and its return has such an
order: the order of the decisions.  `Linear` is the invariant, and `Linear.call`,
`Linear.settle`, `Linear.ret` are the three steps that concern it.
-/

namespace CLib

variable {T ι ω τ α : Type*}

/-- A call, by the thread that makes it and its number among the calls of the thread. -/
structure Op (T ι : Type*) where
  thread : T
  index : ℕ
  call : ι
  deriving DecidableEq

/-- What is seen of a call. -/
inductive Event (T ι ω : Type*)
  | call (op : Op T ι)
  | ret (op : Op T ι) (result : ω)

/-- The calls of a thread, in its own order. -/
def opsOf (prog : T → List ι) (t : T) : List (Op T ι) := (prog t).mapIdx (Op.mk t)

/-- The first element stands somewhere in front of the second one. -/
def Before (a b : α) (l : List α) : Prop := [a, b].Sublist l

/-- The order has the calls of all threads, with the results that the history shows. -/
structure Linearizes [DecidableEq T] (prog : T → List ι) (history : List (Event T ι ω))
    (order : List (Op T ι × ω)) : Prop where
  threads : ∀ t, (order.map Prod.fst).filter (fun op => op.thread = t) = opsOf prog t
  returned : ∀ op r, Event.ret op r ∈ history ↔ (op, r) ∈ order
  realTime : ∀ a r b, Before (.ret a r) (.call b) history → Before a b (order.map Prod.fst)

/-- How far a thread is with its call. -/
inductive Phase (ω : Type*)
  | idle
  | running
  | settled (result : ω)

def Phase.settledCount : Phase ω → ℕ
  | .idle | .running => 0
  | .settled _ => 1

/-- The calls that are settled, in this order, explain what the history shows so far; the
thread `t` has returned from `next t` calls. -/
structure Linear [DecidableEq T] (prog : T → List ι) (spec : τ → ι → τ × ω) (init : τ)
    (next : T → ℕ) (phase : T → Phase ω) (history : List (Event T ι ω))
    (order : List (Op T ι × ω)) : Prop where
  threads : ∀ t, (order.map Prod.fst).filter (fun op => op.thread = t) =
    (opsOf prog t).take (next t + (phase t).settledCount)
  results : order.map Prod.snd = answers spec init (order.map fun entry => entry.1.call)
  returned : ∀ op r, Event.ret op r ∈ history ↔ (op, r) ∈ order ∧ op.index < next op.thread
  settled : ∀ t r c, phase t = .settled r → (prog t)[next t]? = some c →
    (⟨t, next t, c⟩, r) ∈ order
  called : ∀ op, Event.call op ∈ history → (prog op.thread)[op.index]? = some op.call ∧
    (op.index < next op.thread ∨ op.index = next op.thread ∧ phase op.thread ≠ .idle)
  realTime : ∀ a r b, Before (.ret a r) (.call b) history → b ∈ order.map Prod.fst →
    Before a b (order.map Prod.fst)

/-! ## Order in a list -/

theorem Before.append_right {a b : α} {l : List α} (h : Before a b l) (l' : List α) :
    Before a b (l ++ l') :=
  h.trans (List.sublist_append_left l l')

theorem Before.mem_left {a b : α} {l : List α} (h : Before a b l) : a ∈ l :=
  h.subset List.mem_cons_self

theorem Before.mem_right {a b : α} {l : List α} (h : Before a b l) : b ∈ l :=
  h.subset (List.mem_cons_of_mem _ List.mem_cons_self)

/-- Only the last element is new behind the others. -/
theorem before_concat {a b c : α} {l : List α} :
    Before a b (l ++ [c]) ↔ Before a b l ∨ a ∈ l ∧ b = c := by
  constructor
  · intro h
    have hreverse : [b, a].Sublist (c :: l.reverse) := by
      simpa using h.reverse
    cases hreverse with
    | cons _ hold => exact Or.inl (by simpa [Before] using hold.reverse)
    | cons_cons _ hnew =>
        refine Or.inr ⟨?_, rfl⟩
        simpa using hnew.subset List.mem_cons_self
  · rintro (h | ⟨ha, rfl⟩)
    · exact h.append_right [c]
    · exact (List.singleton_sublist.2 ha).append (List.Sublist.refl [b])

/-! ## The calls of a thread -/

theorem getElem?_opsOf (prog : T → List ι) (t : T) (n : ℕ) :
    (opsOf prog t)[n]? = (prog t)[n]?.map (Op.mk t n) :=
  List.getElem?_mapIdx

theorem mem_take_opsOf {prog : T → List ι} {t : T} {op : Op T ι} {n : ℕ} :
    op ∈ (opsOf prog t).take n ↔
      op.thread = t ∧ op.index < n ∧ (prog t)[op.index]? = some op.call := by
  rw [List.mem_iff_getElem?]
  constructor
  · rintro ⟨k, hk⟩
    rw [List.getElem?_take] at hk
    split at hk
    · next hlt =>
        rw [getElem?_opsOf, Option.map_eq_some_iff] at hk
        obtain ⟨c, hc, rfl⟩ := hk
        exact ⟨rfl, hlt, hc⟩
    · cases hk
  · rintro ⟨rfl, hlt, hc⟩
    refine ⟨op.index, ?_⟩
    rw [List.getElem?_take, if_pos hlt, getElem?_opsOf, hc]
    rfl

theorem opsOf_nodup (prog : T → List ι) (t : T) : (opsOf prog t).Nodup := by
  refine List.pairwise_iff_getElem.2 fun i j hi hj hij heq => ?_
  have hindex := congrArg Op.index heq
  simp only [opsOf, List.getElem_mapIdx] at hindex
  omega

/-- The calls of a thread are in the order of their numbers. -/
theorem opsOf_ordered (prog : T → List ι) (t : T) :
    (opsOf prog t).Pairwise fun op op' => op.index < op'.index := by
  refine List.pairwise_iff_getElem.2 fun i j hi hj hij => ?_
  simp only [opsOf, List.getElem_mapIdx]
  exact hij

section Linear

variable [DecidableEq T] {prog : T → List ι} {spec : τ → ι → τ × ω} {init : τ} {next : T → ℕ}
  {phase : T → Phase ω} {history : List (Event T ι ω)} {order : List (Op T ι × ω)} {t : T} {c : ι}

theorem Linear.mem_order (h : Linear prog spec init next phase history order) {op : Op T ι} :
    op ∈ order.map Prod.fst ↔
      op.index < next op.thread + (phase op.thread).settledCount ∧
        (prog op.thread)[op.index]? = some op.call := by
  have hfilter : op ∈ order.map Prod.fst ↔
      op ∈ (order.map Prod.fst).filter fun o => o.thread = op.thread := by
    rw [List.mem_filter]
    simp
  rw [hfilter, h.threads, mem_take_opsOf]
  simp

/-- The earlier calls of a thread are settled before its later ones. -/
theorem Linear.earlier_mem (h : Linear prog spec init next phase history order)
    {front back : List (Op T ι × ω)} {op op' : Op T ι} {r : ω}
    (horder : order = front ++ (op, r) :: back) (hthread : op'.thread = op.thread)
    (hindex : op'.index < op.index) (hc : (prog op'.thread)[op'.index]? = some op'.call) :
    op' ∈ front.map Prod.fst := by
  have hop : op ∈ order.map Prod.fst := by simp [horder]
  have hlt := (h.mem_order.1 hop).1
  have hop' : op' ∈ order.map Prod.fst := by
    refine h.mem_order.2 ⟨?_, hc⟩
    rw [hthread]
    exact hindex.trans hlt
  have hordered : ((order.map Prod.fst).filter fun o => o.thread = op.thread).Pairwise
      fun o o' => o.index < o'.index := by
    rw [h.threads]
    exact (opsOf_ordered prog op.thread).sublist (List.take_sublist _ _)
  rw [horder, List.map_append, List.map_cons] at hop' hordered
  rcases List.mem_append.1 hop' with hfront | hrest
  · exact hfront
  · rcases List.mem_cons.1 hrest with rfl | hback
    · exact absurd hindex (Nat.lt_irrefl _)
    · rw [List.filter_append, List.filter_cons_of_pos (by simp)] at hordered
      have hlater := (List.pairwise_cons.1 (List.pairwise_append.1 hordered).2.1).1 op'
        (List.mem_filter.2 ⟨hback, by simpa using hthread⟩)
      exact absurd hindex (Nat.lt_asymm hlater)

theorem Linear.nodup (h : Linear prog spec init next phase history order) :
    (order.map Prod.fst).Nodup := by
  refine List.nodup_iff_sublist.2 fun op hop => ?_
  have hfilter := hop.filter fun o => decide (o.thread = op.thread)
  rw [h.threads] at hfilter
  have htwice : [op, op].Sublist ((opsOf prog op.thread).take
      (next op.thread + (phase op.thread).settledCount)) := by simpa using hfilter
  exact List.nodup_iff_sublist.1 ((opsOf_nodup prog op.thread).sublist (List.take_sublist _ _)) op
    htwice

/-- No more calls are settled than the threads make. -/
theorem Linear.length_le [Fintype T] (h : Linear prog spec init next phase history order) :
    order.length ≤ ∑ t, (prog t).length := by
  have hcount : ∀ t, (order.map fun entry => entry.1.thread).count t ≤ (prog t).length := by
    intro t
    have hfilter := congrArg List.length (h.threads t)
    rw [← List.countP_eq_length_filter, List.countP_map, List.length_take] at hfilter
    have hlength : (opsOf prog t).length = (prog t).length := List.length_mapIdx
    rw [List.count, List.countP_map]
    refine (List.countP_mono_left fun entry _ hentry => ?_).trans (hfilter.trans_le ?_)
    · simpa using hentry
    · omega
  have hsum := Multiset.sum_count_eq_card (s := Finset.univ)
    (m := (↑(order.map fun entry => entry.1.thread) : Multiset T)) fun t _ => Finset.mem_univ t
  rw [Multiset.coe_card, List.length_map] at hsum
  rw [← hsum]
  exact Finset.sum_le_sum fun t _ => by simpa using hcount t

/-- The result of a call that is settled is known. -/
theorem Linear.result_unique (h : Linear prog spec init next phase history order) {op : Op T ι}
    {r r' : ω} (hr : (op, r) ∈ order) (hr' : (op, r') ∈ order) : r = r' :=
  congrArg Prod.snd (List.inj_on_of_nodup_map h.nodup hr hr' rfl)

/-! ## The steps that concern a history -/

theorem linear_init (prog : T → List ι) (spec : τ → ι → τ × ω) (init : τ) :
    Linear prog spec init (fun _ => 0) (fun _ => .idle) [] [] where
  threads := fun _ => by simp [Phase.settledCount]
  results := rfl
  returned := by simp
  settled := nofun
  called := by simp
  realTime := fun a r b h => absurd h.mem_left List.not_mem_nil

/-- A thread starts its next call. -/
theorem Linear.call (h : Linear prog spec init next phase history order)
    (hidle : phase t = .idle) (hc : (prog t)[next t]? = some c) :
    Linear prog spec init next (Function.update phase t .running)
      (history ++ [.call ⟨t, next t, c⟩]) order where
  threads := fun u => by
    rw [h.threads u]
    by_cases hu : u = t
    · subst hu
      rw [Function.update_self, hidle]
      rfl
    · rw [Function.update_of_ne hu]
  results := h.results
  returned := fun op r => by simp [h.returned op r]
  settled := fun u r d hr hd => by
    by_cases hu : u = t
    · subst hu
      rw [Function.update_self] at hr
      cases hr
    · rw [Function.update_of_ne hu] at hr
      exact h.settled u r d hr hd
  called := fun op hop => by
    rw [List.mem_append, List.mem_singleton] at hop
    rcases hop with hop | hnew
    · obtain ⟨hcall, hindex⟩ := h.called op hop
      refine ⟨hcall, hindex.imp_right fun hrunning => ⟨hrunning.1, ?_⟩⟩
      by_cases hu : op.thread = t
      · rw [hu, Function.update_self]
        exact nofun
      · rw [Function.update_of_ne hu]
        exact hrunning.2
    · cases hnew
      refine ⟨hc, Or.inr ⟨rfl, ?_⟩⟩
      rw [Function.update_self]
      exact nofun
  realTime := fun a r b hbefore hb => by
    rcases before_concat.1 hbefore with hold | ⟨-, hnew⟩
    · exact h.realTime a r b hold hb
    · -- The call that has just started is not settled.
      cases hnew
      have hlt := (h.mem_order.1 hb).1
      rw [hidle, Phase.settledCount] at hlt
      exact absurd hlt (Nat.lt_irrefl _)

/-- The call of a thread is decided: it gets the result of the specification. -/
theorem Linear.settle (h : Linear prog spec init next phase history order)
    (hrunning : phase t = .running) (hc : (prog t)[next t]? = some c) {r : ω}
    (hr : (spec (outcome spec init (order.map fun entry => entry.1.call)) c).2 = r) :
    Linear prog spec init next (Function.update phase t (.settled r)) history
      (order ++ [(⟨t, next t, c⟩, r)]) where
  threads := fun u => by
    rw [List.map_append, List.filter_append, h.threads u]
    by_cases hu : u = t
    · subst hu
      rw [Function.update_self, hrunning]
      have hnext : (opsOf prog u)[next u]? = some ⟨u, next u, c⟩ := by
        rw [getElem?_opsOf, hc]
        rfl
      simp [Phase.settledCount, List.take_add_one, hnext]
    · have hother : ¬t = u := fun heq => hu heq.symm
      rw [Function.update_of_ne hu]
      simp [hother]
  results := by
    rw [List.map_append, List.map_append, h.results]
    simp only [List.map_cons, List.map_nil, answers_concat, hr]
  returned := fun op r' => by
    rw [h.returned op r', List.mem_append, List.mem_singleton]
    constructor
    · rintro ⟨hop, hlt⟩
      exact ⟨Or.inl hop, hlt⟩
    · rintro ⟨hop | hnew, hlt⟩
      · exact ⟨hop, hlt⟩
      · cases hnew
        exact absurd hlt (Nat.lt_irrefl _)
  settled := fun u r' d hr' hd => by
    by_cases hu : u = t
    · subst hu
      rw [Function.update_self] at hr'
      cases hr'
      obtain rfl : c = d := Option.some.inj (hc.symm.trans hd)
      exact List.mem_append_right _ List.mem_cons_self
    · rw [Function.update_of_ne hu] at hr'
      exact List.mem_append_left _ (h.settled u r' d hr' hd)
  called := fun op hop => by
    obtain ⟨hcall, hindex⟩ := h.called op hop
    refine ⟨hcall, hindex.imp_right fun hopen => ⟨hopen.1, ?_⟩⟩
    by_cases hu : op.thread = t
    · rw [hu, Function.update_self]
      exact nofun
    · rw [Function.update_of_ne hu]
      exact hopen.2
  realTime := fun a r' b hbefore hb => by
    rw [List.map_append, List.mem_append] at hb
    rw [List.map_append]
    rcases hb with hb | hnew
    · exact (h.realTime a r' b hbefore hb).append_right _
    · -- Every call that has returned is in front of the one that is settled now.
      obtain rfl := List.mem_singleton.1 hnew
      have ha := ((h.returned a r').1 hbefore.mem_left).1
      exact before_concat.2 (Or.inr ⟨List.mem_map_of_mem ha, rfl⟩)

/-- A thread returns what was decided. -/
theorem Linear.ret (h : Linear prog spec init next phase history order) {r : ω}
    (hsettled : phase t = .settled r) (hc : (prog t)[next t]? = some c) :
    Linear prog spec init (Function.update next t (next t + 1)) (Function.update phase t .idle)
      (history ++ [.ret ⟨t, next t, c⟩ r]) order where
  threads := fun u => by
    rw [h.threads u]
    by_cases hu : u = t
    · subst hu
      rw [Function.update_self, Function.update_self, hsettled]
      rfl
    · rw [Function.update_of_ne hu, Function.update_of_ne hu]
  results := h.results
  returned := fun op r' => by
    have hmem := h.settled t r c hsettled hc
    rw [List.mem_append, List.mem_singleton, h.returned op r']
    by_cases hu : op.thread = t
    · rw [hu, Function.update_self, Nat.lt_succ_iff_lt_or_eq, and_or_left]
      refine or_congr_right ⟨fun hnew => ?_, fun hnew => ?_⟩
      · cases hnew
        exact ⟨hmem, rfl⟩
      · obtain ⟨hop, hindex⟩ := hnew
        have hcall := (h.mem_order.1 (List.mem_map_of_mem hop)).2
        rw [hu, hindex, hc] at hcall
        obtain ⟨thread, index, call⟩ := op
        simp only at hu hindex hcall
        subst hu hindex
        cases hcall
        rw [h.result_unique hop hmem]
    · rw [Function.update_of_ne hu]
      refine or_iff_left fun hnew => hu ?_
      cases hnew
      rfl
  settled := fun u r' d hr' hd => by
    by_cases hu : u = t
    · subst hu
      rw [Function.update_self] at hr'
      cases hr'
    · rw [Function.update_of_ne hu] at hr' hd
      have hother := h.settled u r' d hr' hd
      rw [Function.update_of_ne hu]
      exact hother
  called := fun op hop => by
    rw [List.mem_append, List.mem_singleton] at hop
    rcases hop with hop | hnew
    · obtain ⟨hcall, hindex⟩ := h.called op hop
      refine ⟨hcall, ?_⟩
      by_cases hu : op.thread = t
      · rw [hu] at hindex ⊢
        rw [Function.update_self]
        exact Or.inl (by omega)
      · rw [Function.update_of_ne hu, Function.update_of_ne hu]
        exact hindex
    · cases hnew
  realTime := fun a r' b hbefore hb => by
    rcases before_concat.1 hbefore with hold | ⟨-, hnew⟩
    · exact h.realTime a r' b hold hb
    · cases hnew

/-- When all threads have returned from all of their calls, the history is explained. -/
theorem Linear.linearizes (h : Linear prog spec init next phase history order)
    (hidle : ∀ t, phase t = .idle) (hnext : ∀ t, next t = (prog t).length) :
    Linearizes prog history order where
  threads := fun t => by
    have hlength : (opsOf prog t).length = (prog t).length := List.length_mapIdx
    rw [h.threads t, hidle t, hnext t, ← hlength]
    exact List.take_length
  returned := fun op r => by
    rw [h.returned op r]
    refine and_iff_left_of_imp fun hop => ?_
    have hlt := (h.mem_order.1 (List.mem_map_of_mem hop)).1
    rw [hidle] at hlt
    exact hlt
  realTime := fun a r b hbefore => by
    obtain ⟨hcall, hindex⟩ := h.called b hbefore.mem_right
    refine h.realTime a r b hbefore (h.mem_order.2 ⟨?_, hcall⟩)
    rw [hidle] at hindex ⊢
    rcases hindex with hlt | ⟨-, hne⟩
    · exact hlt
    · exact absurd rfl hne

end Linear

/-! ## What the calls of all threads make up -/

theorem map_call_opsOf (prog : T → List ι) (t : T) : (opsOf prog t).map Op.call = prog t := by
  refine List.ext_getElem? fun n => ?_
  rw [List.getElem?_map, getElem?_opsOf, Option.map_map]
  exact Option.map_id_apply'

variable [Fintype T] [DecidableEq T]

/-- The calls of all threads, thread by thread. -/
theorem sum_filter_thread (ops : List (Op T ι)) (f : Op T ι → List α) :
    ∑ t, (((ops.filter fun op => op.thread = t).flatMap f : List α) : Multiset α) =
      ((ops.flatMap f : List α) : Multiset α) := by
  induction ops with
  | nil => exact Finset.sum_const_zero
  | cons op ops ih =>
      have hthread : ∀ t, ((((op :: ops).filter fun op => op.thread = t).flatMap f : List α) :
          Multiset α) = (if op.thread = t then (f op : Multiset α) else 0) +
            (((ops.filter fun op => op.thread = t).flatMap f : List α) : Multiset α) := by
        intro t
        by_cases ht : op.thread = t
        · rw [List.filter_cons_of_pos (by simpa using ht), if_pos ht, List.flatMap_cons,
            Multiset.coe_add]
        · rw [List.filter_cons_of_neg (by simpa using ht), if_neg ht, zero_add]
      rw [Finset.sum_congr rfl fun t _ => hthread t, Finset.sum_add_distrib, ih,
        Finset.sum_ite_eq, if_pos (Finset.mem_univ _), List.flatMap_cons, Multiset.coe_add]

theorem Linearizes.sum_threads {prog : T → List ι} {history : List (Event T ι ω)}
    {order : List (Op T ι × ω)} (h : Linearizes prog history order) (f : ι → List α) :
    ∑ t, (((prog t).flatMap f : List α) : Multiset α) =
      (((order.map fun entry => entry.1.call).flatMap f : List α) : Multiset α) := by
  have hcalls := sum_filter_thread (order.map Prod.fst) fun op => f op.call
  rw [List.flatMap_map] at hcalls ⊢
  rw [← hcalls]
  refine Finset.sum_congr rfl fun t _ => ?_
  rw [h.threads t, ← List.flatMap_map (f := Op.call) (g := f), map_call_opsOf]

end CLib
