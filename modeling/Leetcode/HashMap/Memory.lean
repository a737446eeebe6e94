import Leetcode.HashMap.Schedules

/-!
# The memory of the map

A node is freed by the `map_remove` that has taken it out of its bucket, and nobody else knows
it then.  So no step of any thread touches memory that is not allocated, and every node that
is allocated is in a bucket or with one thread that is about to link it in or to free it.
-/

namespace Leetcode
namespace HashMap

open CLib

variable {T V : Type*}

/-- A bucket has the node, or a thread that is about to link it in or to free it. -/
def Has (s : System T V) (a : Ref) : ℕ ⊕ T → Prop
  | .inl i => ∃ nodes, Chain s.map.next (s.map.head i) nodes ∧ a ∈ nodes
  | .inr t => (s.place t).own = some a

/-- The node is not lost. -/
def InUse (s : System T V) (a : Ref) : Prop := ∃ holder, Has s a holder

variable {prog : T → List (Call V)} {nbuckets : ℕ} {s s' : System T V}
  {chains : ℕ → List Ref} {b : Buckets V} {t : T} {call : Call V} {i : ℕ} {a cur n addr : Ref}
  {prev : Option Ref} {p : Place V}

theorem Owned.has_iff (h : Owned s chains) : Has s a (.inl i) ↔ a ∈ chains i := by
  constructor
  · rintro ⟨nodes, hchain, ha⟩
    rw [chain_unique hchain (h.chain i)] at ha
    exact ha
  · intro ha
    exact ⟨chains i, h.chain i, ha⟩

/-- Only one bucket or thread has the node. -/
theorem Owned.has_unique (h : Owned s chains) {holder holder' : ℕ ⊕ T} (ha : Has s a holder)
    (ha' : Has s a holder') : holder = holder' := by
  cases holder with
  | inl i =>
      rw [h.has_iff] at ha
      cases holder' with
      | inl j => rw [h.disjoint i j a ha (h.has_iff.1 ha')]
      | inr u => exact absurd ha (h.own_apart u a i ha')
  | inr t =>
      cases holder' with
      | inl j => exact absurd (h.has_iff.1 ha') (h.own_apart t a j ha)
      | inr u => rw [h.own_inj t u a ha ha']

theorem Owned.has_allocated (h : Owned s chains) {holder : ℕ ⊕ T} (ha : Has s a holder) :
    s.allocated a = true := by
  cases holder with
  | inl i => exact h.live i a (h.has_iff.1 ha)
  | inr t => exact h.own_live t a ha

variable [DecidableEq T]

/-- The thread `t` goes on, and the bucket of the node still has it. -/
theorem InUse.goto (h : InUse s a) (hplace : s'.place = Function.update s.place t p)
    (hchain : ∀ i nodes, Chain s.map.next (s.map.head i) nodes → a ∈ nodes →
      ∃ nodes', Chain s'.map.next (s'.map.head i) nodes' ∧ a ∈ nodes')
    (hown : (s.place t).own = some a → p.own = some a) : InUse s' a := by
  obtain ⟨i | u, hu⟩ := h
  · obtain ⟨nodes, hnodes, ha⟩ := hu
    exact ⟨.inl i, hchain i nodes hnodes ha⟩
  · refine ⟨.inr u, ?_⟩
    show (s'.place u).own = some a
    rw [hplace]
    by_cases hut : u = t
    · subst hut
      rw [Function.update_self]
      exact hown hu
    · rw [Function.update_of_ne hut]
      exact hu

/-- No link is written. -/
theorem InUse.move (h : InUse s a) (hplace : s'.place = Function.update s.place t p)
    (hnext : s'.map.next = s.map.next) (hhead : s'.map.head = s.map.head)
    (hown : (s.place t).own = some a → p.own = some a) : InUse s' a := by
  refine h.goto hplace (fun i nodes hchain ha => ⟨nodes, ?_, ha⟩) hown
  rw [hnext, hhead]
  exact hchain

/-- A node that is taken out of its bucket is with the thread then, and the others stay. -/
theorem InUse.unlink (hg : Guarded prog s chains b) (hc : (prog t)[s.next t]? = some call)
    (hp : s.place t = .hit i cur prev) (h : InUse s a) (allocated : Ref → Bool) :
    InUse ({ s with
      map := unlinked s.map i prev cur
      allocated := allocated }.goto t (.take i cur)) a := by
  by_cases hcur : a = cur
  · refine ⟨.inr t, ?_⟩
    show (Function.update s.place t (.take i cur) t).own = some a
    rw [Function.update_self, hcur]
    rfl
  · obtain ⟨-, front, back, hnodes, rfl, -⟩ := hg.knows_at hc hp rfl
    have hchain := hg.chain i
    rw [hnodes] at hchain
    refine h.goto rfl (fun j nodes hj ha => ?_) fun hown => ?_
    · obtain rfl := chain_unique hj (hg.chain j)
      by_cases hji : j = i
      · subst hji
        refine ⟨front ++ back, ?_, ?_⟩
        · show Chain (relink s.map.next (s.map.head j) front.getLast? (s.map.next cur)).1
            (Function.update s.map.head j _ j) (front ++ back)
          rw [Function.update_self]
          refine chain_splice hchain (chain_behind_node hchain) fun d hd hdl => ?_
          exact chain_disjoint hchain d hd (List.mem_cons_of_mem _ hdl)
        · rw [hnodes] at ha
          exact (mem_without (chain_nodup hchain)).2 ⟨ha, hcur⟩
      · refine ⟨chains j, ?_, ha⟩
        show Chain (relink s.map.next (s.map.head i) front.getLast? (s.map.next cur)).1
          (Function.update s.map.head i _ j) (chains j)
        rw [Function.update_of_ne hji]
        refine (hg.chain j).congr fun d hd => relink_other _ _ _ fun hlast => ?_
        refine hji (hg.disjoint j i d hd ?_)
        rw [hnodes]
        exact List.mem_append_left _ (List.mem_of_getLast? hlast)
    · rw [hp] at hown
      cases hown

/-- A step loses no node. -/
theorem inside_inUse (h : Guarded prog s chains b) (hc : (prog t)[s.next t]? = some call)
    (hold : ∀ a, s.allocated a = true → InUse s a) (hstep : inside s t addr call = some s') :
    ∀ a, s'.allocated a = true → InUse s' a := by
  -- a place without a node of its own
  have hnone : ∀ {p₀ : Place V} {p : Place V} {a}, s.place t = p₀ → p₀.own = none →
      (s.place t).own = some a → p.own = some a := by
    rintro p₀ p a rfl hown hsome
    rw [hown] at hsome
    cases hsome
  revert hstep hc
  fun_cases inside s t addr call with
  | case1 call m i hp =>
      intro hc hstep a ha
      obtain ⟨m, hlock, rfl⟩ := Option.map_eq_some_iff.1 hstep
      unfold pthreadMutexLock at hlock
      split at hlock
      · cases hlock
      · cases hlock
        exact (hold a ha).move rfl rfl rfl (hnone hp rfl)
  | case8 | case14 | case19 =>
      intro hc hstep
      cases hstep
  | case9 m i key value hp m' =>
      intro hc hstep a ha
      cases hstep
      by_cases hnew : a = addr
      · refine ⟨.inr t, ?_⟩
        show (Function.update s.place t (.link i addr) t).own = some a
        rw [Function.update_self, hnew]
        rfl
      · have ha' : s.allocated a = true := by
          rw [← ha]
          exact (Function.update_of_ne hnew _ _).symm
        exact (hold a ha').move rfl rfl rfl (hnone hp rfl)
  | case10 m i n key value hp m' =>
      intro hc hstep a ha
      obtain ⟨-, rfl⟩ := deref_eq_some hstep
      refine (hold a ha).goto rfl (fun j nodes hj hmem => ⟨nodes, ?_, hmem⟩) fun hown => ?_
      · obtain rfl := chain_unique hj (h.chain j)
        exact hj.update (h.own_apart t n j (by rw [hp]; rfl)) _
      · rw [hp] at hown
        exact hown
  | case11 m i n key value hp m' =>
      intro hc hstep a ha
      cases hstep
      have hchain := (publish_ok h hc hp).chain
      by_cases hn : a = n
      · refine ⟨.inl i, n :: chains i, ?_, ?_⟩
        · have hi := hchain i
          rw [Function.update_self] at hi
          exact hi
        · rw [hn]
          exact List.mem_cons_self
      · refine (hold a ha).goto rfl (fun j nodes hj hmem => ?_) fun hown => ?_
        · obtain rfl := chain_unique hj (h.chain j)
          refine ⟨_, hchain j, ?_⟩
          by_cases hji : j = i
          · subst hji
            rw [Function.update_self]
            exact List.mem_cons_of_mem _ hmem
          · rw [Function.update_of_ne hji]
            exact hmem
        · rw [hp] at hown
          exact absurd (Option.some.inj hown).symm hn
  | case13 m i cur p key hp m' hlive =>
      intro hc hstep a ha
      obtain ⟨-, rfl⟩ := deref_eq_some hstep
      have hunlink := (hold a ha).unlink h hc hp s.allocated
      rw [unlinked_eq] at hunlink
      exact hunlink
  | case15 m i cur key hp m' =>
      intro hc hstep a ha
      obtain ⟨-, rfl⟩ := deref_eq_some hstep
      have hunlink := (hold a ha).unlink h hc hp s.allocated
      rw [unlinked_eq] at hunlink
      exact hunlink
  | case16 m i cur key hp =>
      intro hc hstep a ha
      obtain ⟨-, rfl⟩ := deref_eq_some hstep
      refine (hold a ha).move rfl rfl rfl fun hown => ?_
      rw [hp] at hown
      exact hown
  | case17 i cur val key hp =>
      intro hc hstep a ha
      obtain ⟨-, rfl⟩ := deref_eq_some hstep
      have hne : a ≠ cur := by
        rintro rfl
        have hfreed : Function.update s.allocated a false a = true := ha
        rw [Function.update_self] at hfreed
        cases hfreed
      have ha' : s.allocated a = true := by
        rw [← ha]
        exact (Function.update_of_ne hne _ _).symm
      refine (hold a ha').move rfl rfl rfl fun hown => ?_
      rw [hp] at hown
      exact absurd (Option.some.inj hown).symm hne
  | case2 | case3 | case4 | case18 =>
      intro hc hstep a ha
      cases hstep
      exact (hold a ha).move rfl rfl rfl (hnone ‹s.place t = _› rfl)
  | _ =>
      intro hc hstep a ha
      obtain ⟨-, rfl⟩ := deref_eq_some hstep
      exact (hold a ha).move rfl rfl rfl (hnone ‹s.place t = _› rfl)

/-! ## Whole schedules -/

variable {history : List (Event T (Call V) (Option V))} {order : List (Op T (Call V) × Option V)}
  {choices : List (Turn T)} {seen : List (Option (Event T (Call V) (Option V)))}

theorem turn_inUse (h : Explained prog nbuckets s history order)
    (hold : ∀ a, s.allocated a = true → InUse s a) {choice : Turn T}
    {e : Option (Event T (Call V) (Option V))} (hturn : turn prog s choice = some (s', e)) :
    ∀ a, s'.allocated a = true → InUse s' a := by
  obtain ⟨-, -, chains, hguarded⟩ := h
  unfold turn at hturn
  obtain ⟨call, hc, hturn⟩ := Option.bind_eq_some_iff.1 hturn
  split at hturn
  · next hidle =>
      obtain ⟨i, -, heq⟩ := Option.map_eq_some_iff.1 hturn
      cases heq
      intro a ha
      refine (hold a ha).move rfl rfl rfl fun hown => ?_
      rw [hidle] at hown
      cases hown
  · next result hret =>
      cases hturn
      intro a ha
      refine (hold a ha).move rfl rfl rfl fun hown => ?_
      rw [hret] at hown
      cases hown
  · obtain ⟨s'', hinside, heq⟩ := Option.map_eq_some_iff.1 hturn
    cases heq
    exact inside_inUse hguarded hc hold hinside

theorem run_inUse (hrun : Trace (turn prog) s choices seen s')
    (h : Explained prog nbuckets s history order)
    (hold : ∀ a, s.allocated a = true → InUse s a) :
    ∀ a, s'.allocated a = true → InUse s' a := by
  induction hrun generalizing history order with
  | nil s => exact hold
  | cons hturn _ ih =>
      obtain ⟨order', h'⟩ := turn_ok h hturn
      exact ih h' (turn_inUse h hold hturn)

/-- The node that `malloc` returns matters at the call of `malloc` only. -/
theorem inside_addr (hp : ∀ i, s.place t ≠ .create i) (addr addr' : Ref) (call : Call V) :
    inside s t addr call = inside s t addr' call := by
  unfold inside
  cases h : s.place t with
  | create i => exact absurd h (hp i)
  | loop i cur prev => cases cur <;> cases call <;> rfl
  | hit i cur prev => cases prev <;> cases call <;> rfl
  | _ => cases call <;> rfl

/-- A thread is refused its next step only while another one has the lock it wants, or when
`malloc` would have to return a node that is in use. -/
theorem refused_iff (h : Guarded prog s chains b) (hn : 0 < s.map.nbuckets)
    (hc : (prog t)[s.next t]? = some call) (hfresh : s.allocated n = false) :
    turn prog s ⟨t, addr⟩ = none ↔
      (∃ i, s.place t = .lock i ∧ s.map.lock i = true) ∨
        ∃ i, s.place t = .create i ∧ s.allocated addr = true := by
  constructor
  · intro hnone
    by_contra hother
    obtain ⟨hlock, hmalloc⟩ := not_or.1 hother
    have hfree : ∀ i, s.place t = .lock i → s.map.lock i = false := fun i hi =>
      Bool.eq_false_iff.2 fun hheld => hlock ⟨i, hi, hheld⟩
    by_cases haddr : s.allocated addr = true
    · have hsame : turn prog s ⟨t, addr⟩ = turn prog s ⟨t, n⟩ := by
        unfold turn
        simp only [inside_addr (fun i hi => hmalloc ⟨i, hi, haddr⟩) addr n]
      have hsome := turn_isSome h hn hc hfresh hfree
      rw [← hsame, hnone] at hsome
      cases hsome
    · have hsome := turn_isSome h hn hc (Bool.eq_false_iff.2 haddr) hfree
      rw [hnone] at hsome
      cases hsome
  · rintro (⟨i, hp, hheld⟩ | ⟨i, hp, hused⟩)
    · simp [turn, hc, hp, inside, pthreadMutexLock, hheld]
    · obtain ⟨⟨key, value, rfl⟩, -⟩ := h.knows_at hc hp rfl
      simp [turn, hc, hp, inside, hused]

/-- In every state that a schedule leads to, a thread with a call to make is refused its next
step only while another thread has the lock of the bucket, so that no step touches a node that
is not allocated, and every node that is allocated is in one bucket or with one thread that is
about to link it in or to free it.  When all calls have returned, it is in a bucket. -/
theorem memory_safe (prog : T → List (Call V)) (hn : 0 < nbuckets)
    (hrun : Trace (turn prog) (System.init nbuckets) choices seen s) :
    (∀ t addr, s.next t < (prog t).length → s.allocated addr = false →
      (turn prog s ⟨t, addr⟩ = none ↔
        ∃ i u, s.place t = .lock i ∧ u ≠ t ∧ (s.place u).bucket = some i)) ∧
    (∀ a, s.allocated a = true ↔ ∃! holder, Has s a holder) ∧
    (s.Complete prog → ∀ a, s.allocated a = true →
      ∃ i nodes, Chain s.map.next (s.map.head i) nodes ∧ a ∈ nodes) := by
  obtain ⟨order, rfl, -, chains, hguarded⟩ := run_explained hrun (explained_init prog nbuckets)
  have hinUse := run_inUse hrun (explained_init prog _) fun a ha => by cases ha
  refine ⟨fun t addr hlt hfree => ?_, fun a => ⟨fun ha => ?_, ?_⟩, fun hcomplete a ha => ?_⟩
  · rw [refused_iff hguarded hn (List.getElem?_eq_getElem hlt) hfree]
    constructor
    · rintro (⟨i, hp, hheld⟩ | ⟨i, -, hused⟩)
      · -- Somebody has the lock, and it is not the thread that waits.
        have hholder : ∃ u, (s.place u).bucket = some i := by
          by_contra hnone
          have hopen := (hguarded.unheld i fun u hu => hnone ⟨u, hu⟩).1
          rw [hheld] at hopen
          cases hopen
        obtain ⟨u, hu⟩ := hholder
        refine ⟨i, u, hp, ?_, hu⟩
        rintro rfl
        rw [hp] at hu
        cases hu
      · rw [hfree] at hused
        cases hused
    · rintro ⟨i, u, hp, -, hu⟩
      exact Or.inl ⟨i, hp, hguarded.locked u i hu⟩
  · obtain ⟨holder, hholder⟩ := hinUse a ha
    exact ⟨holder, hholder, fun holder' h => hguarded.has_unique h hholder⟩
  · rintro ⟨holder, hholder, -⟩
    exact hguarded.has_allocated hholder
  · obtain ⟨i | t, hholder⟩ := hinUse a ha
    · exact ⟨i, hholder⟩
    · have hown : (s.place t).own = some a := hholder
      rw [(hcomplete t).2] at hown
      cases hown

/-- The second thread waits for the lock that the first one has. -/
theorem memory_safe_race :
    ∃ seen s, Trace (turn raceCalls) (System.init 1) (raceChoices.take 6) seen s ∧
      (turn raceCalls s ⟨1, 5⟩ = none ↔
        ∃ i u, s.place 1 = .lock i ∧ u ≠ 1 ∧ (s.place u).bucket = some i) := by
  have hrun : Trace (turn raceCalls) (System.init 1) (raceChoices.take 6)
      (raceStart.get (by decide)).1 (raceStart.get (by decide)).2 :=
    Trace.of_exec (Option.some_get (show raceStart.isSome by decide)).symm
  exact ⟨_, _, hrun, (memory_safe raceCalls Nat.one_pos hrun).1 1 5 (by decide) (by decide)⟩

end HashMap
end Leetcode
