import Mathlib.Algebra.BigOperators.Ring.Finset
import Leetcode.BoundedQueue.Return
import Leetcode.BoundedQueue.Wakeup

/-!
# The process comes to its end

While `main` has not returned, somebody can go on, even if no thread wakes up by itself: the
consumers make room for the producers, and `main` waits for the producers only.  And the
threads do not go on for ever: a call pushes or pops an item, or the thread falls asleep until
one of the finitely many signals wakes it.

* `Lively` — the invariant behind the first part.
* `State.left` — how many steps may be left, if nobody wakes up by itself.
* `main_returns` — both together.
-/

namespace Leetcode
namespace BoundedQueue

open CLib

variable {T : Type*} {P : Program T} {s s' : State T}

/-! ## How many steps are left -/

/-- How many steps a thread may make, of `n` threads, before it sleeps or needs another item. -/
def Pc.cost (n : ℕ) : Pc → ℕ
  | .asleep => 0
  | .update => 1
  | .test => 2
  | .woken => 3
  | .ready => 4
  | .unborn | .unlock => 5
  | .signal => 3 * n + 6

/-- A bound on the steps that are left, if nobody wakes up by itself. -/
def State.left [Fintype T] (s : State T) : ℕ :=
  ∑ t, (s.pc t).cost (Fintype.card T) + (6 * Fintype.card T + 12) * ∑ t, (s.items t).length +
    (3 * Fintype.card T + 6) * s.count.toNat + s.toJoin.length + (!s.returned).toNat

/-- A thread wakes up by itself. -/
def Event.spurious : Event T → ℕ
  | .wakeup _ => 1
  | _ => 0

/-- What the items that are still to be pushed and those in the queue cost. -/
def State.work [Fintype T] (s : State T) : ℕ :=
  (6 * Fintype.card T + 12) * ∑ t, (s.items t).length + (3 * Fintype.card T + 6) * s.count.toNat

theorem left_init [Fintype T] (P : Program T) :
    (State.init P).left = 5 * Fintype.card T +
      (6 * Fintype.card T + 12) * ∑ t, (P.items t).length +
      (P.threads.filter fun t => P.role t = .producer).length + 1 := by
  have hcost : ∑ _t : T, Pc.cost (Fintype.card T) .unborn = 5 * Fintype.card T := by
    rw [Finset.sum_const_nat fun _ _ => rfl, Finset.card_univ]
    exact Nat.mul_comm _ _
  show ∑ _t : T, Pc.cost (Fintype.card T) .unborn + _ + 0 + _ + 1 = _
  rw [hcost, Nat.add_zero]
  rfl

/-! ## Somebody can go on -/

/-- In a call that has not done its work yet. -/
def Pc.calling : Pc → Bool
  | .test | .asleep | .woken | .update => true
  | _ => false

/-- The holder of the lock is inside, a producer in a call has an item for it, and `main` has
still to create the threads that are not there. -/
structure Lively (P : Program T) (s : State T) : Prop where
  holder : ∀ t, s.owner = some t → (s.pc t).inside = true
  item : ∀ t, P.role t = .producer → (s.pc t).calling = true → s.items t ≠ []
  distinct : s.toCreate.Nodup
  unborn : ∀ t ∈ s.toCreate, s.pc t = .unborn
  created : ∀ t ∈ P.threads, t ∈ s.toCreate ∨ s.pc t ≠ .unborn
  joins : ∀ t ∈ s.toJoin, t ∈ P.threads ∧ P.role t = .producer

theorem lively_init (hdistinct : P.threads.Nodup) : Lively P (State.init P) where
  holder := nofun
  item := nofun
  distinct := hdistinct
  unborn := fun _ _ => rfl
  created := fun _ ht => .inl ht
  joins := fun _ ht => by
    obtain ⟨hmem, hrole⟩ := List.mem_filter.1 ht
    exact ⟨hmem, of_decide_eq_true hrole⟩

/-- Nobody has the lock and nobody asks for it: a thread that is not between two calls sleeps. -/
theorem LockOk.asleep (h : LockOk P s) (howner : s.owner = none)
    (hquiet : ∀ u, ¬ s.enters P u = true) {t : T} (hborn : s.pc t ≠ .unborn)
    (hready : s.pc t ≠ .ready) : s.pc t = .asleep := by
  have hout : (s.pc t).inside = false := by
    refine Bool.eq_false_iff.2 fun hinside => ?_
    have hown := h.mutex t hinside
    rw [howner] at hown
    cases hown
  have hwoken : s.pc t ≠ .woken := fun heq => hquiet t (by simp [State.enters, heq])
  cases hpc : s.pc t with
  | asleep => rfl
  | unborn => exact absurd hpc hborn
  | ready => exact absurd hpc hready
  | woken => exact absurd hpc hwoken
  | test | update | signal | unlock =>
      rw [hpc] at hout
      cases hout

/-- A thread that sleeps when nobody is under way has nothing to do. -/
theorem Covered.avail_le [Fintype T] {ρ : Role} (h : Covered P ρ s) (howner : s.owner = none)
    (hquiet : ∀ u, ¬ s.enters P u = true) {t : T} (hrole : P.role t = ρ)
    (hasleep : s.pc t = .asleep) : s.avail ρ ≤ 0 := by
  have hcount := h ⟨t, hrole, hasleep⟩
  have hwoken : s.wokenCount P ρ = 0 := by
    refine Nat.eq_zero_of_not_pos fun hpos => ?_
    obtain ⟨u, hu⟩ := exists_of_tally_pos hpos
    exact hquiet u (by simp [State.enters, (of_decide_eq_true hu).2])
  rw [hwoken, pending_of_none howner] at hcount
  exact hcount

variable [DecidableEq T]

/-- The thread `t` goes on to `pc`. -/
theorem Lively.move {t : T} {pc : Pc} (h : Lively P s) (hpc : s'.pc = Function.update s.pc t pc)
    (hfrom : s.pc t ≠ .unborn) (hto : pc ≠ .unborn)
    (howner : ∀ u, s'.owner = some u → u = t ∧ pc.inside = true ∨ u ≠ t ∧ s.owner = some u)
    (hitems : ∀ u, u ≠ t → s'.items u = s.items u)
    (hitem : P.role t = .producer → pc.calling = true → s'.items t ≠ [])
    (hcreate : s'.toCreate = s.toCreate) (hjoin : s'.toJoin = s.toJoin) : Lively P s' where
  holder u hu := by
    rw [hpc]
    rcases howner u hu with ⟨rfl, hinside⟩ | ⟨hut, hold⟩
    · rw [Function.update_self]
      exact hinside
    · rw [Function.update_of_ne hut]
      exact h.holder u hold
  item u hrole hcalling := by
    rw [hpc] at hcalling
    by_cases hut : u = t
    · subst hut
      rw [Function.update_self] at hcalling
      exact hitem hrole hcalling
    · rw [Function.update_of_ne hut] at hcalling
      rw [hitems u hut]
      exact h.item u hrole hcalling
  distinct := hcreate ▸ h.distinct
  unborn u hu := by
    rw [hcreate] at hu
    have hut : u ≠ t := by
      rintro rfl
      exact hfrom (h.unborn u hu)
    rw [hpc, Function.update_of_ne hut]
    exact h.unborn u hu
  created u hu := by
    rw [hcreate, hpc]
    by_cases hut : u = t
    · subst hut
      rw [Function.update_self]
      exact .inr hto
    · rw [Function.update_of_ne hut]
      exact h.created u hu
  joins := hjoin ▸ h.joins

/-- The holder of the lock goes on, and keeps or releases it. -/
theorem Lively.hold {t : T} {pc₀ : Pc} (h : Lively P s) (pc : Pc) (hholds : s.holds t pc₀)
    (hfrom : pc₀ ≠ .unborn) (hto : pc ≠ .unborn) (hpc : s'.pc = Function.update s.pc t pc)
    (howner : s'.owner = none ∨ s'.owner = s.owner ∧ pc.inside = true)
    (hitems : ∀ u, u ≠ t → s'.items u = s.items u)
    (hitem : P.role t = .producer → pc.calling = true → s'.items t ≠ [])
    (hcreate : s'.toCreate = s.toCreate) (hjoin : s'.toJoin = s.toJoin) : Lively P s' := by
  obtain ⟨hown, ht⟩ := holds_iff.1 hholds
  refine h.move hpc (by rw [ht]; exact hfrom) hto (fun u hu => ?_) hitems hitem hcreate hjoin
  rcases howner with hnone | ⟨hsame, hinside⟩
  · rw [hnone] at hu
    cases hu
  · rw [hsame, hown] at hu
    exact .inl ⟨(Option.some.inj hu).symm, hinside⟩

/-- Threads that sleep are woken. -/
theorem Lively.signal {t : T} {wake : T → Bool} (h : Lively P s) (hholds : s.holds t .signal)
    (hpc : s'.pc = fun u =>
      if s.waitsFor P (P.role t) u ∧ wake u then .woken else if u = t then .unlock else s.pc u)
    (howner : s'.owner = s.owner) (hitems : s'.items = s.items)
    (hcreate : s'.toCreate = s.toCreate) (hjoin : s'.toJoin = s.toJoin) : Lively P s' := by
  obtain ⟨hown, ht⟩ := holds_iff.1 hholds
  have hwaits : ∀ u, s.waitsFor P (P.role t) u = true → s.pc u = .asleep := by
    intro u hu
    exact (of_decide_eq_true hu).2
  refine ⟨fun u hu => ?_, fun u hrole hcalling => ?_, hcreate ▸ h.distinct, fun u hu => ?_,
    fun u hu => ?_, hjoin ▸ h.joins⟩
  · rw [howner, hown] at hu
    obtain rfl := Option.some.inj hu
    have hawake : s.waitsFor P (P.role t) t = false :=
      Bool.eq_false_iff.2 fun hasleep => by
        rw [hwaits t hasleep] at ht
        cases ht
    simp [hpc, hawake, Pc.inside]
  · rw [hitems]
    simp only [hpc] at hcalling
    split at hcalling
    · next hand => exact h.item u hrole (by rw [hwaits u hand.1]; rfl)
    · split at hcalling
      · cases hcalling
      · exact h.item u hrole hcalling
  · rw [hcreate] at hu
    have hunborn := h.unborn u hu
    have hasleep : ¬ (s.waitsFor P (P.role t) u = true ∧ wake u = true) := by
      rintro ⟨hasleep, -⟩
      rw [hwaits u hasleep] at hunborn
      cases hunborn
    have hut : u ≠ t := by
      rintro rfl
      rw [ht] at hunborn
      cases hunborn
    simp only [hpc, if_neg hasleep, if_neg hut]
    exact hunborn
  · rw [hcreate]
    refine (h.created u hu).imp_right fun hborn => ?_
    simp only [hpc]
    split
    · exact nofun
    · split
      · exact nofun
      · exact hborn

theorem Lively.step (h : Lively P s) (hstep : Step P s s') : Lively P s' := by
  cases hstep with
  | @create t rest htodo hpc =>
      have hnodup := h.distinct
      rw [htodo] at hnodup
      obtain ⟨hnew, hrest⟩ := List.nodup_cons.1 hnodup
      refine ⟨fun u hu => ?_, fun u hrole hcalling => ?_, hrest, fun u hu => ?_, fun u hu => ?_,
        h.joins⟩
      · have hut : u ≠ t := by
          rintro rfl
          have hinside := h.holder u hu
          rw [hpc] at hinside
          cases hinside
        show (Function.update s.pc t .ready u).inside = true
        rw [Function.update_of_ne hut]
        exact h.holder u hu
      · by_cases hut : u = t
        · subst hut
          simp [State.goto, Pc.calling] at hcalling
        · simp only [State.goto, Function.update_of_ne hut] at hcalling
          exact h.item u hrole hcalling
      · have hut : u ≠ t := by
          rintro rfl
          exact hnew hu
        show Function.update s.pc t .ready u = .unborn
        rw [Function.update_of_ne hut]
        exact h.unborn u (by rw [htodo]; exact List.mem_cons_of_mem _ hu)
      · show u ∈ rest ∨ Function.update s.pc t .ready u ≠ .unborn
        by_cases hut : u = t
        · subst hut
          rw [Function.update_self]
          exact .inr (by decide)
        · rw [Function.update_of_ne hut]
          refine (h.created u hu).imp_left fun hmem => ?_
          rw [htodo] at hmem
          exact List.mem_of_ne_of_mem hut hmem
  | @join t rest hdone htodo hfinished =>
      refine ⟨h.holder, h.item, h.distinct, h.unborn, h.created, fun u hu => h.joins u ?_⟩
      rw [htodo]
      exact List.mem_cons_of_mem _ hu
  | ret => exact ⟨h.holder, h.item, h.distinct, h.unborn, h.created, h.joins⟩
  | @lock t hfree henters =>
      have hborn : s.pc t ≠ .unborn := by
        intro heq
        simp [State.enters, heq] at henters
      refine h.move (t := t) rfl hborn (by decide) (fun u hu => ?_) (fun _ _ => rfl) ?_ rfl rfl
      · exact .inl ⟨(Option.some.inj hu).symm, rfl⟩
      · intro hrole _
        have hcases : s.pc t = .woken ∨ s.pc t = .ready ∧
            (P.role t = .consumer ∨ s.items t ≠ []) := by
          simpa [State.enters] using henters
        rcases hcases with hwoken | ⟨-, hconsumer | hitem⟩
        · exact h.item t hrole (by rw [hwoken]; rfl)
        · rw [hrole] at hconsumer
          cases hconsumer
        · exact hitem
  | @sleep t hholds hblocked =>
      refine h.hold .asleep hholds (by decide) (by decide) rfl (.inl rfl) (fun _ _ => rfl) ?_
        rfl rfl
      exact fun hrole _ => h.item t hrole (by rw [(holds_iff.1 hholds).2]; rfl)
  | @pass t hholds hblocked =>
      refine h.hold .update hholds (by decide) (by decide) rfl (.inr ⟨rfl, rfl⟩) (fun _ _ => rfl)
        ?_ rfl rfl
      exact fun hrole _ => h.item t hrole (by rw [(holds_iff.1 hholds).2]; rfl)
  | @push t item rest hholds hrole hitems =>
      exact h.hold .signal hholds (by decide) (by decide) rfl (.inr ⟨rfl, rfl⟩)
        (fun u hut => Function.update_of_ne hut _ _)
        (fun _ hcalling => absurd hcalling Bool.false_ne_true) rfl rfl
  | @pop t hholds hrole =>
      exact h.hold .signal hholds (by decide) (by decide) rfl (.inr ⟨rfl, rfl⟩) (fun _ _ => rfl)
        (fun _ hcalling => absurd hcalling Bool.false_ne_true) rfl rfl
  | @signal t wake hholds hwake => exact h.signal hholds rfl rfl rfl rfl rfl
  | @unlock t hholds =>
      exact h.hold .ready hholds (by decide) (by decide) rfl (.inl rfl) (fun _ _ => rfl)
        (fun _ hcalling => absurd hcalling Bool.false_ne_true) rfl rfl
  | @wakeup t hpc =>
      refine h.move (t := t) rfl (by rw [hpc]; decide) (by decide) (fun u hu => .inr ⟨?_, hu⟩)
        (fun _ _ => rfl) (fun hrole _ => h.item t hrole (by rw [hpc]; rfl)) rfl rfl
      rintro rfl
      have hinside := h.holder u hu
      rw [hpc] at hinside
      cases hinside

variable [Fintype T]

theorem lively_run (hdistinct : P.threads.Nodup) {events : List (Event T)}
    (h : Run (step P) (fun _ _ => True) (State.init P) events s) : Lively P s :=
  h.invariant (lively_init hdistinct) fun _ _ _ hlively _ hstep => hlively.step (.of_step hstep)

/-- The holder of the lock can go on. -/
theorem holder_goes_on (h : Lively P s) {t : T} (howner : s.owner = some t) :
    ∃ e, (∀ u, e ≠ .wakeup u) ∧ (threadStep P s e).isSome := by
  have hinside := h.holder t howner
  have hholds : ∀ {pc}, s.pc t = pc → s.holds t pc = true := fun hpc =>
    holds_iff.2 ⟨howner, hpc⟩
  cases hpc : s.pc t with
  | unborn | ready | asleep | woken =>
      rw [hpc] at hinside
      cases hinside
  | test =>
      refine ⟨.test t, nofun, ?_⟩
      rw [threadStep, if_pos (hholds hpc)]
      split <;> rfl
  | update =>
      refine ⟨.update t, nofun, ?_⟩
      rw [threadStep, if_pos (hholds hpc)]
      split
      · rfl
      · next hrole hitems => exact absurd hitems (h.item t hrole (by rw [hpc]; rfl))
      · rfl
  | signal =>
      refine ⟨.signal t fun _ => true, nofun, ?_⟩
      rw [threadStep, if_pos ⟨hholds hpc, fun ⟨u, hu⟩ => ⟨u, hu, rfl⟩⟩]
      rfl
  | unlock =>
      refine ⟨.unlock t, nofun, ?_⟩
      rw [threadStep, if_pos (hholds hpc)]
      rfl

/-- While `main` has not returned, somebody can go on who has not to wake up for it. -/
theorem somebody_goes_on (hdistinct : P.threads.Nodup)
    (hconsumer : ∃ t ∈ P.threads, P.role t = .consumer) {events : List (Event T)}
    (h : Run (step P) (fun _ _ => True) (State.init P) events s) (hrunning : s.returned = false) :
    ∃ e, (∀ u, e ≠ .wakeup u) ∧ (step P s e).isSome := by
  have hlively := lively_run hdistinct h
  obtain ⟨hlock, hqueue, -⟩ := inv_run h
  have hstep : ∀ {e}, (mainStep s e).isSome ∨ (threadStep P s e).isSome → (step P s e).isSome := by
    intro e he
    rw [step, hrunning, if_neg Bool.false_ne_true, Option.isSome_or]
    simpa using he
  cases htodo : s.toCreate with
  | cons t rest =>
      refine ⟨.create, nofun, hstep (.inl ?_)⟩
      simp only [mainStep, htodo, hlively.unborn t (by rw [htodo]; exact List.mem_cons_self)]
      rfl
  | nil =>
      have hborn : ∀ t ∈ P.threads, s.pc t ≠ .unborn := by
        intro t ht
        have hcreated := hlively.created t ht
        rw [htodo] at hcreated
        exact hcreated.resolve_left List.not_mem_nil
      cases hjoins : s.toJoin with
      | nil => exact ⟨.ret, nofun, hstep (.inl (by simp [mainStep, htodo, hjoins]))⟩
      | cons t rest =>
          by_cases hfinished : s.finished t = true
          · exact ⟨.join, nofun, hstep (.inl (by simp [mainStep, htodo, hjoins, hfinished]))⟩
          · cases howner : s.owner with
            | some u =>
                obtain ⟨e, hspurious, he⟩ := holder_goes_on hlively howner
                exact ⟨e, hspurious, hstep (.inr he)⟩
            | none =>
                by_cases hquiet : ∃ u, s.enters P u = true
                · obtain ⟨u, hu⟩ := hquiet
                  exact ⟨.lock u, nofun, hstep (.inr (by simp [threadStep, howner, hu]))⟩
                · -- A producer and a consumer sleep: the queue is full and empty.
                  have hquiet' : ∀ u, ¬ s.enters P u = true := not_exists.1 hquiet
                  obtain ⟨ht, hrole⟩ := hlively.joins t (by rw [hjoins]; exact List.mem_cons_self)
                  obtain ⟨c, hc, hcrole⟩ := hconsumer
                  have hproducer : s.pc t ≠ .ready := by
                    intro hready
                    by_cases hitems : s.items t = []
                    · exact hfinished (finished_iff.2 ⟨hready, hitems⟩)
                    · exact hquiet' t (by simp [State.enters, hready, hitems])
                  have hready : s.pc c ≠ .ready := fun hready =>
                    hquiet' c (by simp [State.enters, hready, hcrole])
                  have hfull := (covered_run .producer h).avail_le howner hquiet' hrole
                    (hlock.asleep howner hquiet' (hborn t ht) hproducer)
                  have hempty := (covered_run .consumer h).avail_le howner hquiet' hcrole
                    (hlock.asleep howner hquiet' (hborn c hc) hready)
                  have hsize : (0 : Int) < QUEUE_SIZE := by decide
                  simp only [State.avail] at hfull hempty
                  omega

/-! ## They do not go on for ever -/

/-- The thread `t` goes on to `pc`. -/
theorem left_move {t : T} {pc₀ : Pc} (pc : Pc) (hpc₀ : s.pc t = pc₀)
    (hpc : s'.pc = Function.update s.pc t pc) (hjoin : s'.toJoin = s.toJoin)
    (hreturned : s'.returned = s.returned) :
    s'.left + pc₀.cost (Fintype.card T) + s.work = s.left + pc.cost (Fintype.card T) + s'.work := by
  have hsum := sum_update_add s.pc (fun _ pc => pc.cost (Fintype.card T)) t pc
  rw [hpc₀] at hsum
  rw [State.left, State.left, State.work, State.work, hpc, hjoin, hreturned]
  omega

theorem mainStep_left {e : Event T} (hrunning : s.returned = false)
    (h : mainStep s e = some s') : s'.left < s.left := by
  revert h
  fun_cases mainStep s e with
  | case1 t rest htodo hpc =>
      rintro ⟨⟩
      have hmove : (s.goto t .ready).left + 5 + s.work = s.left + 4 + s.work :=
        left_move .ready hpc rfl rfl rfl
      show (s.goto t .ready).left < s.left
      omega
  | case4 t rest htodo hdone hfinished =>
      rintro ⟨⟩
      simp only [State.left, htodo, List.length_cons]
      omega
  | case7 hjoined hdone =>
      rintro ⟨⟩
      simp only [State.left, hrunning, Bool.not_true, Bool.not_false, Bool.toNat_true,
        Bool.toNat_false]
      omega
  | _ =>
      intro h
      cases h

theorem push_left (hinv : Inv P s) {t : T} {item : Int} {rest : List Int}
    (hholds : s.holds t .update) (hitem : s.items t = item :: rest)
    (hpc : s'.pc = Function.update s.pc t .signal)
    (hitems : s'.items = Function.update s.items t rest) (hcount : s'.count = s.count + 1) (hjoin : s'.toJoin = s.toJoin)
    (hreturned : s'.returned = s.returned) : s'.left < s.left := by
  have hmove : s'.left + 1 + s.work = s.left + (3 * Fintype.card T + 6) + s'.work :=
    left_move .signal (holds_iff.1 hholds).2 hpc hjoin hreturned
  have hlength := sum_update_add s.items (fun _ items => items.length) t rest
  rw [hitem, List.length_cons] at hlength
  have hsum : ∑ u, (s.items u).length = ∑ u, (s'.items u).length + 1 := by
    rw [hitems]
    omega
  have htoNat : s'.count.toNat = s.count.toNat + 1 := by
    have hnonneg := hinv.queue.count_nonneg
    omega
  have hwork : s.work + (3 * Fintype.card T + 6) = s'.work + (6 * Fintype.card T + 12) := by
    simp only [State.work, hsum, htoNat, Nat.mul_succ]
    omega
  omega

theorem pop_left (hinv : Inv P s) {t : T} (hholds : s.holds t .update)
    (hrole : P.role t = .consumer) : ((s.take t).goto t .signal).left < s.left := by
  have hmove : ((s.take t).goto t .signal).left + 1 + s.work =
      s.left + (3 * Fintype.card T + 6) + ((s.take t).goto t .signal).work :=
    left_move .signal (holds_iff.1 hholds).2 rfl rfl rfl
  have hcount : s.count.toNat = (s.count - 1).toNat + 1 := by
    have hnonneg := hinv.queue.count_nonneg
    have hsome := hinv.pop_room hholds hrole
    omega
  have hwork : s.work = ((s.take t).goto t .signal).work + (3 * Fintype.card T + 6) := by
    simp only [State.work, State.goto, State.take, hcount, Nat.mul_succ]
    omega
  omega

/-- The signal wakes all others at worst. -/
theorem signal_left {t : T} {wake : T → Bool} (hholds : s.holds t .signal)
    (hpc : s'.pc = fun u =>
      if s.waitsFor P (P.role t) u ∧ wake u then .woken else if u = t then .unlock else s.pc u)
    (hitems : s'.items = s.items) (hcount : s'.count = s.count) (hjoin : s'.toJoin = s.toJoin)
    (hreturned : s'.returned = s.returned) : s'.left < s.left := by
  have ht := (holds_iff.1 hholds).2
  have hcost : ∀ u, (s'.pc u).cost (Fintype.card T) ≤
      (Function.update s.pc t .unlock u).cost (Fintype.card T) + 3 := by
    intro u
    simp only [hpc]
    split
    · exact Nat.le_add_left _ _
    · split
      · next hut =>
          rw [hut, Function.update_self]
          exact Nat.le_add_right _ _
      · next hut =>
          rw [Function.update_of_ne hut]
          exact Nat.le_add_right _ _
  have hsum := Finset.sum_le_sum fun u (_ : u ∈ Finset.univ) => hcost u
  rw [Finset.sum_add_distrib, Finset.sum_const_nat fun _ _ => rfl, Finset.card_univ] at hsum
  have hmove : (s.goto t .unlock).left + (3 * Fintype.card T + 6) + s.work =
      s.left + 5 + s.work := left_move .unlock ht rfl rfl rfl
  have hleft : s'.left + ∑ u, (Function.update s.pc t .unlock u).cost (Fintype.card T) =
      (s.goto t .unlock).left + ∑ u, (s'.pc u).cost (Fintype.card T) := by
    simp only [State.left, State.goto, hitems, hcount, hjoin, hreturned]
    omega
  omega

theorem threadStep_left (hinv : Inv P s) {e : Event T} (h : threadStep P s e = some s') :
    s'.left + 1 ≤ s.left + 4 * e.spurious := by
  revert h
  fun_cases threadStep P s e with
  | case1 t hand =>
      rintro ⟨⟩
      have hmove : (s.goto t .test).left + (s.pc t).cost (Fintype.card T) + s.work =
          s.left + 2 + s.work := left_move .test rfl rfl rfl rfl
      have hcost : 3 ≤ (s.pc t).cost (Fintype.card T) := by
        rcases of_decide_eq_true hand.2 with hpc | ⟨hpc, -⟩
        · rw [hpc]
          exact Nat.le_refl 3
        · rw [hpc]
          exact Nat.le_succ 3
      show (s.goto t .test).left + 1 ≤ s.left + 4 * 0
      omega
  | case3 t hholds hblocked =>
      rintro ⟨⟩
      have hmove : (s.goto t .asleep).left + 2 + s.work = s.left + 0 + s.work :=
        left_move .asleep (holds_iff.1 hholds).2 rfl rfl rfl
      show (s.goto t .asleep).left + 1 ≤ s.left + 4 * 0
      omega
  | case4 t hholds hblocked =>
      rintro ⟨⟩
      have hmove : (s.goto t .update).left + 2 + s.work = s.left + 1 + s.work :=
        left_move .update (holds_iff.1 hholds).2 rfl rfl rfl
      show (s.goto t .update).left + 1 ≤ s.left + 4 * 0
      omega
  | case6 t hholds item rest hitems hrole =>
      rintro ⟨⟩
      exact push_left hinv hholds hitems rfl rfl rfl rfl rfl
  | case8 t hholds hrole =>
      rintro ⟨⟩
      exact pop_left hinv hholds hrole
  | case10 t wake hand =>
      rintro ⟨⟩
      exact signal_left hand.1 rfl rfl rfl rfl rfl
  | case12 t hholds =>
      rintro ⟨⟩
      have hmove : (s.goto t .ready).left + 5 + s.work = s.left + 4 + s.work :=
        left_move .ready (holds_iff.1 hholds).2 rfl rfl rfl
      show (s.goto t .ready).left + 1 ≤ s.left + 4 * 0
      omega
  | case14 t hpc =>
      rintro ⟨⟩
      have hmove : (s.goto t .woken).left + 0 + s.work = s.left + 3 + s.work :=
        left_move .woken hpc rfl rfl rfl
      show (s.goto t .woken).left + 1 ≤ s.left + 4 * 1
      omega
  | _ =>
      intro h
      cases h

/-- Every step uses one of the steps that are left, and one that wakes up by itself adds three
to them. -/
theorem step_left (hinv : Inv P s) {e : Event T} (h : step P s e = some s') :
    s'.left + 1 ≤ s.left + 4 * e.spurious := by
  have hrunning := running_of_step h
  rw [step, hrunning, if_neg Bool.false_ne_true] at h
  rcases Option.or_eq_some_iff.1 h with hmain | ⟨-, hthread⟩
  · exact Nat.le_trans (mainStep_left hrunning hmain) (Nat.le_add_right _ _)
  · exact threadStep_left hinv hthread

theorem run_left {events : List (Event T)} (h : Run (step P) (fun _ _ => True) s events s')
    (hinv : Inv P s) :
    s'.left + events.length ≤ s.left + 4 * (events.map Event.spurious).sum := by
  induction h with
  | nil s => exact Nat.le_refl _
  | cons _ hstep _ ih =>
      have hfirst := step_left hinv hstep
      have hrest := ih (hinv.step (.of_step hstep))
      rw [List.length_cons, List.map_cons, List.sum_cons]
      omega

/-- If there is a consumer, `main` returns: the process is stuck only when `main` has returned,
even if no thread wakes up by itself, from every reachable state the other steps can lead
there, and their number in a run is bounded, but for four more for each thread that wakes up
by itself. -/
theorem main_returns (P : Program T) (hdistinct : P.threads.Nodup)
    (hconsumer : ∃ t ∈ P.threads, P.role t = .consumer) {events : List (Event T)} {s : State T}
    (h : Run (step P) (fun _ _ => True) (State.init P) events s) :
    events.length ≤ 5 * Fintype.card T +
        (6 * Fintype.card T + 12) * ∑ t, (P.items t).length +
        (P.threads.filter fun t => P.role t = .producer).length + 1 +
        4 * (events.map Event.spurious).sum ∧
      ((∀ e, (∀ u, e ≠ .wakeup u) → step P s e = none) ↔ s.returned = true) ∧
      ∃ more s', Run (step P) (fun _ e => ∀ u, e ≠ .wakeup u) s more s' ∧ s'.returned = true := by
  have hinv := inv_run h
  refine ⟨?_, ⟨fun hstuck => ?_, fun hreturned e _ => ?_⟩, ?_⟩
  · have hbound := run_left h (inv_init P)
    rw [left_init] at hbound
    omega
  · by_contra hrunning
    obtain ⟨e, hspurious, he⟩ :=
      somebody_goes_on hdistinct hconsumer h (Bool.eq_false_iff.2 hrunning)
    rw [hstuck e hspurious] at he
    cases he
  · rw [step, if_pos hreturned]
  · refine Run.exists_end (I := fun s => ∃ events, Run (step P) (fun _ _ => True)
      (State.init P) events s) State.left (fun s hs hrunning => ?_) ⟨events, h⟩
    obtain ⟨events, hrun⟩ := hs
    obtain ⟨e, hspurious, he⟩ :=
      somebody_goes_on hdistinct hconsumer hrun (Bool.eq_false_iff.2 hrunning)
    obtain ⟨s', hstep⟩ := Option.isSome_iff_exists.1 he
    have hleft := step_left (inv_run hrun) hstep
    have hzero : e.spurious = 0 := by
      cases e with
      | wakeup u => exact absurd rfl (hspurious u)
      | _ => rfl
    refine ⟨e, s', hspurious, hstep, ⟨events ++ [e], Run.append_iff.2 ⟨s, hrun, ?_⟩⟩, by omega⟩
    exact .cons trivial hstep (.nil s')

/-- The consumer waits for the first item, and the producer has not pushed it. -/
theorem main_returns_pair :
    ∃ s, Run (step pair) (fun _ _ => True) (State.init pair) (pairEvents.take 5) s ∧
      ∃ more s', Run (step pair) (fun _ e => ∀ u, e ≠ .wakeup u) s more s' ∧
        s'.returned = true := by
  have hrun := Run.of_exec (t := Option.get _ (by decide)) (Option.some_get
    (x := exec (step pair) (fun _ _ => True) (State.init pair) (pairEvents.take 5))
      (by decide)).symm
  exact ⟨_, hrun, (main_returns pair (by decide) ⟨false, by decide, rfl⟩ hrun).2.2⟩

end BoundedQueue
end Leetcode
