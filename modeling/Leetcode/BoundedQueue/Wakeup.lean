import Leetcode.BoundedQueue.Lock
import Leetcode.Lib.Tally

/-!
# No lost wakeup

`Covered P ρ s` counts: when a thread in the role `ρ` sleeps, then as many threads in
this role have been woken as the queue has calls for, up to the one that the holder of the
lock is about to make or to signal.  `no_lost_wakeup` is what this says when the lock is
free.
-/

namespace Leetcode
namespace BoundedQueue

open CLib

variable {T : Type*} {P : Program T} {s s' : State T} {ρ : Role}

/-- How many calls in the role `ρ` the queue can serve as it stands. -/
def State.avail (s : State T) : Role → Int
  | .producer => QUEUE_SIZE - s.count
  | .consumer => s.count

/-- What a thread at this place has still to do for a role: a call of its own in the
role, or a signal to the other one. -/
def Pc.credit (same : Bool) : Pc → ℕ
  | .test | .update => same.toNat
  | .signal => (!same).toNat
  | _ => 0

/-- What the holder of the lock has still to do for the role `ρ`. -/
def State.pending (P : Program T) (s : State T) (ρ : Role) : ℕ :=
  match s.owner with
  | some t => (s.pc t).credit (P.role t = ρ)
  | none => 0

theorem pending_of_none (howner : s.owner = none) : s.pending P ρ = 0 := by
  simp [State.pending, howner]

theorem pending_of_some {t : T} (howner : s.owner = some t) :
    s.pending P ρ = (s.pc t).credit (P.role t = ρ) := by
  simp [State.pending, howner]

theorem avail_congr (hcount : s'.count = s.count) : s'.avail ρ = s.avail ρ := by
  cases ρ with
  | producer => exact congrArg (fun count => (QUEUE_SIZE : Int) - count) hcount
  | consumer => exact hcount

/-- A thread that has to wait is not served. -/
theorem avail_of_blocked (hblocked : s.blocked ρ = true) : s.avail ρ = 0 := by
  cases ρ with
  | producer =>
      have hcount : s.count = QUEUE_SIZE := by simpa [State.blocked] using hblocked
      show (QUEUE_SIZE : Int) - s.count = 0
      omega
  | consumer => simpa [State.blocked, State.avail] using hblocked

/-- What is pending for a role, the holder of the lock does: it has a call in the role to
make, or it is about to signal the role. -/
theorem exists_of_pending (hpending : 0 < s.pending P ρ) :
    ∃ t, s.owner = some t ∧
      (P.role t = ρ ∧ (s.pc t).credit true ≠ 0 ∨ P.role t ≠ ρ ∧ s.pc t = .signal) := by
  cases howner : s.owner with
  | none =>
      rw [pending_of_none howner] at hpending
      cases hpending
  | some t =>
      rw [pending_of_some howner] at hpending
      refine ⟨t, rfl, ?_⟩
      by_cases hrole : P.role t = ρ
      · rw [decide_eq_true hrole] at hpending
        exact .inl ⟨hrole, Nat.ne_of_gt hpending⟩
      · refine .inr ⟨hrole, ?_⟩
        revert hpending
        cases s.pc t <;> simp [Pc.credit, hrole]

/-- A thread without a part in the lock goes on to `pc`. -/
theorem pending_goto [DecidableEq T] {t : T} {pc : Pc} (hbefore : ∀ same, (s.pc t).credit same = 0)
    (hafter : ∀ same, pc.credit same = 0) : (s.goto t pc).pending P ρ = s.pending P ρ := by
  cases howner : s.owner with
  | none => rw [pending_of_none howner, pending_of_none (s := s.goto t pc) howner]
  | some u =>
      rw [pending_of_some howner, pending_of_some (s := s.goto t pc) howner, goto_pc]
      by_cases hut : u = t
      · subst hut
        rw [Function.update_self, hbefore, hafter]
      · rw [Function.update_of_ne hut]

variable [Fintype T]

/-- There are threads in the role `ρ`, and all of them sleep. -/
def State.AllAsleep (P : Program T) (s : State T) (ρ : Role) : Prop :=
  (∃ t, P.role t = ρ ∧ s.pc t ≠ .unborn) ∧
    ∀ t, P.role t = ρ → s.pc t ≠ .unborn → s.pc t = .asleep

/-- How many threads in the role `ρ` have been woken and are yet to test again. -/
def State.wokenCount (P : Program T) (s : State T) (ρ : Role) : ℕ :=
  tally s.pc fun t pc => P.role t = ρ ∧ pc = .woken

/-- When a thread in the role `ρ` sleeps, the threads under way can make all calls that
the queue can serve. -/
def Covered (P : Program T) (ρ : Role) (s : State T) : Prop :=
  (∃ t, P.role t = ρ ∧ s.pc t = .asleep) → s.avail ρ ≤ s.wokenCount P ρ + s.pending P ρ

theorem covered_init (P : Program T) (ρ : Role) : Covered P ρ (State.init P) := by
  rintro ⟨t, -, ht⟩
  cases ht

theorem Covered.of_avail (havail : s.avail ρ = 0) : Covered P ρ s := by
  intro _
  omega

/-- When all threads in a role sleep though the queue can serve one, the holder of the
lock is about to signal them. -/
theorem Covered.allAsleep (h : Covered P ρ s) (havail : 0 < s.avail ρ)
    (hasleep : s.AllAsleep P ρ) :
    ∃ t, s.owner = some t ∧ P.role t ≠ ρ ∧ s.pc t = .signal := by
  obtain ⟨⟨t, hrole, hborn⟩, hall⟩ := hasleep
  have hcount := h ⟨t, hrole, hall t hrole hborn⟩
  have hwoken : s.wokenCount P ρ = 0 := by
    refine Nat.eq_zero_of_not_pos fun hpos => ?_
    obtain ⟨u, hu⟩ := exists_of_tally_pos hpos
    obtain ⟨hurole, hupc⟩ := of_decide_eq_true hu
    have huasleep := hall u hurole (by rw [hupc]; nofun)
    rw [hupc] at huasleep
    cases huasleep
  obtain ⟨u, howner, hcase⟩ := exists_of_pending (P := P) (s := s) (ρ := ρ) (by omega)
  rcases hcase with ⟨hurole, hucredit⟩ | hsignal
  · have huborn : s.pc u ≠ .unborn := by
      intro hunborn
      rw [hunborn] at hucredit
      exact hucredit rfl
    rw [hall u hurole huborn] at hucredit
    exact absurd rfl hucredit
  · exact ⟨u, howner, hsignal⟩

variable [DecidableEq T]

/-- The thread `t` goes on to `pc`, and the count of the role goes with it. -/
theorem Covered.move (h : Covered P ρ s) (t : T) (pc : Pc)
    (hpc : s'.pc = Function.update s.pc t pc) (hasleep : P.role t = ρ → pc ≠ .asleep)
    (hcount : s'.avail ρ + (decide (P.role t = ρ ∧ s.pc t = .woken)).toNat + s.pending P ρ ≤
      s.avail ρ + (decide (P.role t = ρ ∧ pc = .woken)).toNat + s'.pending P ρ) :
    Covered P ρ s' := by
  rintro ⟨u, hrole, hu⟩
  have hut : u ≠ t := by
    rintro rfl
    rw [hpc, Function.update_self] at hu
    exact hasleep hrole hu
  rw [hpc, Function.update_of_ne hut] at hu
  have hbefore := h ⟨u, hrole, hu⟩
  have hwoken : s'.wokenCount P ρ + (decide (P.role t = ρ ∧ s.pc t = .woken)).toNat =
      s.wokenCount P ρ + (decide (P.role t = ρ ∧ pc = .woken)).toNat := by
    unfold State.wokenCount
    rw [hpc]
    exact tally_update s.pc (fun t pc => P.role t = ρ ∧ pc = .woken) t pc
  omega

/-- The thread `t` goes on to `pc`, and the queue stays as it is. -/
theorem Covered.stay (h : Covered P ρ s) (t : T) (pc : Pc)
    (hpc : s'.pc = Function.update s.pc t pc) (hasleep : P.role t = ρ → pc ≠ .asleep)
    (hqueue : s'.count = s.count)
    (hcount : (decide (P.role t = ρ ∧ s.pc t = .woken)).toNat + s.pending P ρ ≤
      (decide (P.role t = ρ ∧ pc = .woken)).toNat + s'.pending P ρ) : Covered P ρ s' := by
  refine h.move t pc hpc hasleep ?_
  rw [avail_congr hqueue]
  omega

/-- The holder of the lock goes on from `pc₀` to `pc`, and keeps the lock. -/
theorem Covered.hold {t : T} {pc₀ : Pc} (h : Covered P ρ s) (pc : Pc)
    (hholds : s.holds t pc₀) (hwoken : pc₀ ≠ .woken) (hasleep : pc ≠ .asleep)
    (howner : s'.owner = some t) (hpc : s'.pc = Function.update s.pc t pc)
    (hcount : s'.avail ρ + pc₀.credit (P.role t = ρ) ≤ s.avail ρ + pc.credit (P.role t = ρ)) :
    Covered P ρ s' := by
  obtain ⟨howner₀, hpc₀⟩ := holds_iff.1 hholds
  refine h.move t pc hpc (fun _ => hasleep) ?_
  rw [pending_of_some howner₀, pending_of_some howner, hpc, Function.update_self, hpc₀]
  simp only [hwoken, and_false, decide_false, Bool.toNat_false]
  omega

/-- The signal wakes one of the threads that wait for it. -/
theorem Covered.signal {t : T} {wake : T → Bool} (h : Covered P ρ s) (hholds : s.holds t .signal)
    (hwake : (∃ u, s.waitsFor P (P.role t) u) → ∃ u, s.waitsFor P (P.role t) u ∧ wake u)
    (hpc : s'.pc = fun u =>
      if s.waitsFor P (P.role t) u ∧ wake u then .woken else if u = t then .unlock else s.pc u)
    (hcount : s'.count = s.count) : Covered P ρ s' := by
  obtain ⟨howner, ht⟩ := holds_iff.1 hholds
  have havail : s'.avail ρ = s.avail ρ := avail_congr hcount
  rintro ⟨u, hrole, hu⟩
  have hasleep : s.pc u = .asleep := by
    simp only [hpc] at hu
    split at hu
    · cases hu
    · split at hu
      · cases hu
      · exact hu
  have hbefore := h ⟨u, hrole, hasleep⟩
  -- nobody who has been woken is affected
  have hstay : ∀ v, decide (P.role v = ρ ∧ s.pc v = .woken) = true →
      decide (P.role v = ρ ∧ s'.pc v = .woken) = true := by
    intro v hv
    obtain ⟨hvrole, hvpc⟩ := of_decide_eq_true hv
    have hvt : v ≠ t := by
      rintro rfl
      rw [ht] at hvpc
      cases hvpc
    simp [hpc, hvrole, hvpc, hvt, State.waitsFor]
  rw [pending_of_some howner, ht] at hbefore
  by_cases hsame : P.role t = ρ
  · have hle : s.wokenCount P ρ ≤ s'.wokenCount P ρ := tally_le hstay
    simp only [Pc.credit, hsame, decide_true, Bool.not_true, Bool.toNat_false] at hbefore
    omega
  · have hlt : s.wokenCount P ρ < s'.wokenCount P ρ := by
      have hwaits : s.waitsFor P (P.role t) u = true := by
        simp [State.waitsFor, hasleep, hrole, Ne.symm hsame]
      obtain ⟨v, hv, hvwake⟩ := hwake ⟨u, hwaits⟩
      obtain ⟨hvrole, hvpc⟩ := of_decide_eq_true hv
      have hvρ : P.role v = ρ := by
        revert hvrole hsame
        cases P.role v <;> cases P.role t <;> cases ρ <;> simp
      refine tally_lt hstay ⟨v, ?_, ?_⟩
      · simp [hvpc]
      · simp [hpc, hv, hvwake, hvρ]
    simp only [Pc.credit, hsame, decide_false, Bool.not_false, Bool.toNat_true] at hbefore
    omega

theorem Covered.step (h : Covered P ρ s) (hstep : Step P s s') : Covered P ρ s' := by
  cases hstep with
  | @create t rest htodo hpc =>
      refine h.stay t .ready rfl nofun rfl ?_
      have hpending : (s.goto t .ready).pending P ρ = s.pending P ρ :=
        pending_goto (fun _ => by rw [hpc]; rfl) fun _ => rfl
      show _ ≤ _ + (s.goto t .ready).pending P ρ
      simp [hpc, hpending]
  | join | ret => exact h
  | @lock t hfree henters =>
      refine h.stay t .test rfl nofun rfl ?_
      rw [pending_of_none hfree, pending_of_some (t := t) rfl]
      by_cases hrole : P.role t = ρ <;> simp [hrole, Pc.credit, goto_pc, Bool.toNat_le]
  | @sleep t hholds hblocked =>
      obtain ⟨howner, hpc⟩ := holds_iff.1 hholds
      by_cases hrole : P.role t = ρ
      · rw [hrole] at hblocked
        exact .of_avail ((avail_congr rfl).trans (avail_of_blocked hblocked))
      · refine h.stay t .asleep rfl (fun h => absurd h hrole) rfl ?_
        rw [pending_of_some howner]
        simp [hrole, hpc, Pc.credit]
  | @pass t hholds hblocked =>
      exact h.hold .update hholds nofun nofun (holds_iff.1 hholds).1 rfl (Int.le_refl _)
  | @push t item rest hholds hrole hitems =>
      refine h.hold .signal hholds nofun nofun (holds_iff.1 hholds).1 rfl ?_
      rw [hrole]
      cases ρ with
      | producer =>
          show (QUEUE_SIZE : Int) - (s.count + 1) + 1 ≤ QUEUE_SIZE - s.count + 0
          omega
      | consumer =>
          show s.count + 1 + 0 ≤ s.count + 1
          omega
  | @pop t hholds hrole =>
      refine h.hold .signal hholds nofun nofun (holds_iff.1 hholds).1 rfl ?_
      rw [hrole]
      cases ρ with
      | producer =>
          show (QUEUE_SIZE : Int) - (s.count - 1) + 0 ≤ QUEUE_SIZE - s.count + 1
          omega
      | consumer =>
          show s.count - 1 + 1 ≤ s.count + 0
          omega
  | signal hholds hwake => exact h.signal hholds hwake rfl rfl
  | @unlock t hholds =>
      obtain ⟨howner, hpc⟩ := holds_iff.1 hholds
      refine h.stay t .ready rfl nofun rfl ?_
      rw [pending_of_some howner]
      simp [hpc, Pc.credit]
  | @wakeup t hpc =>
      refine h.stay t .woken rfl nofun rfl ?_
      rw [pending_goto (fun _ => by rw [hpc]; rfl) fun _ => rfl]
      simp [hpc]

theorem covered_run (ρ : Role) {events : List (Event T)}
    (h : Run (step P) (fun _ _ => True) (State.init P) events s) : Covered P ρ s :=
  h.invariant (covered_init P ρ) fun _ _ _ hcovered _ hstep => hcovered.step (.of_step hstep)

/-- In every reachable state with the lock free, when a consumer sleeps, at least as many
consumers as the queue has items have been woken and are yet to test again, and when a
producer sleeps, at least as many producers as it has room for.  So not all consumers
sleep in front of a queue with items, nor all producers in front of one with room; and
while the lock is held they only do so in front of its holder's signal. -/
theorem no_lost_wakeup (P : Program T) {events : List (Event T)} {s : State T}
    (h : Run (step P) (fun _ _ => True) (State.init P) events s) :
    (s.owner = none →
      ((∃ t, P.role t = .consumer ∧ s.pc t = .asleep) → s.count ≤ s.wokenCount P .consumer) ∧
      ((∃ t, P.role t = .producer ∧ s.pc t = .asleep) →
        QUEUE_SIZE - s.count ≤ s.wokenCount P .producer) ∧
      ¬ (0 < s.count ∧ s.AllAsleep P .consumer) ∧
      ¬ (s.count < QUEUE_SIZE ∧ s.AllAsleep P .producer)) ∧
    (0 < s.count ∧ s.AllAsleep P .consumer →
      ∃ t, s.owner = some t ∧ P.role t ≠ .consumer ∧ s.pc t = .signal) ∧
    (s.count < QUEUE_SIZE ∧ s.AllAsleep P .producer →
      ∃ t, s.owner = some t ∧ P.role t ≠ .producer ∧ s.pc t = .signal) := by
  have hconsumer := covered_run .consumer h
  have hproducer := covered_run .producer h
  have hitems : 0 < s.count ∧ s.AllAsleep P .consumer →
      ∃ t, s.owner = some t ∧ P.role t ≠ .consumer ∧ s.pc t = .signal := by
    rintro ⟨hcount, hasleep⟩
    exact hconsumer.allAsleep hcount hasleep
  have hroom : s.count < QUEUE_SIZE ∧ s.AllAsleep P .producer →
      ∃ t, s.owner = some t ∧ P.role t ≠ .producer ∧ s.pc t = .signal := by
    rintro ⟨hcount, hasleep⟩
    exact hproducer.allAsleep (Int.sub_pos_of_lt hcount) hasleep
  refine ⟨fun howner => ⟨fun hasleep => ?_, fun hasleep => ?_, fun hlost => ?_, fun hlost => ?_⟩,
    hitems, hroom⟩
  · have hcount := hconsumer hasleep
    rw [pending_of_none howner] at hcount
    exact hcount
  · have hcount := hproducer hasleep
    rw [pending_of_none howner] at hcount
    exact hcount
  · obtain ⟨t, ht, -⟩ := hitems hlost
    rw [howner] at ht
    cases ht
  · obtain ⟨t, ht, -⟩ := hroom hlost
    rw [howner] at ht
    cases ht

/-- One producer with an item and two consumers. -/
def trio : Program (Fin 3) where
  role := fun t => if t = 0 then .producer else .consumer
  items := fun t => if t = 0 then [7] else []
  threads := [0, 1, 2]

/-- Both consumers sleep when the producer pushes, and it wakes one of them. -/
def trioEvents : List (Event (Fin 3)) :=
  [.create, .create, .create, .lock 1, .test 1, .lock 2, .test 2, .lock 0, .test 0, .update 0,
    .signal 0 fun t => t = 1, .unlock 0]

theorem no_lost_wakeup_trio :
    ∃ s, Run (step trio) (fun _ _ => True) (State.init trio) trioEvents s ∧
      s.pc 2 = .asleep ∧ s.count = 1 ∧ s.count ≤ s.wokenCount trio .consumer := by
  have hrun := Run.of_exec (t := Option.get _ (by decide)) (Option.some_get
    (x := exec (step trio) (fun _ _ => True) (State.init trio) trioEvents) (by decide)).symm
  have hfree := (no_lost_wakeup trio hrun).1 (by decide)
  exact ⟨_, hrun, by decide, by decide, hfree.1 ⟨2, by decide, by decide⟩⟩

end BoundedQueue
end Leetcode
