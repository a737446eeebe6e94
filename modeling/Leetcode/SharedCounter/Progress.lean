import Mathlib.Algebra.BigOperators.Ring.Finset
import Leetcode.SharedCounter.Total

/-!
# All processes exit

`State.left` bounds the steps that are left: every step of the parent or of a child takes one of
them.  The parent never waits for ever, for as long as a child has not exited that child can go
on.  So every schedule comes to an end, in a state where the parent has exited and no child
runs.  This holds for every outcome of the calls that may fail: the children that a failing
`fork` leaves behind count to the end as well.
-/

namespace Leetcode
namespace SharedCounter

open CLib

variable {P : Program} {s s' : State P}

/-- How many steps a child may make, and its parent for it. -/
def Child.left (LOOP_COUNT : ℕ) : Child → ℕ
  | .unborn | .shmat => LOOP_COUNT + 3
  | .loop t => LOOP_COUNT - t + 2
  | .exited _ => 1
  | .reaped _ => 0

/-- How many steps the parent may make. -/
def Parent.left (CHILD_COUNT : ℕ) : Parent → ℕ
  | .shmget => 4 * CHILD_COUNT + 7
  | .shmat => 4 * CHILD_COUNT + 6
  | .store a => CHILD_COUNT - a + 3 * CHILD_COUNT + 5
  | .fork id => CHILD_COUNT - id + 2 * CHILD_COUNT + 4
  | .wait c => CHILD_COUNT - c + CHILD_COUNT + 3
  | .load p _ => CHILD_COUNT - p + 2
  | .remove => 1
  | .exited _ | .overflow => 0

def State.left (s : State P) : ℕ :=
  s.parent.left P.CHILD_COUNT + ∑ id, (s.child id).left P.LOOP_COUNT

theorem left_init (arr : Fin P.CHILD_COUNT → Int32) :
    (State.init arr : State P).left =
      4 * P.CHILD_COUNT + 7 + P.CHILD_COUNT * (P.LOOP_COUNT + 3) := by
  have hsum : ∑ _id : Fin P.CHILD_COUNT, Child.left P.LOOP_COUNT .unborn =
      P.CHILD_COUNT * (P.LOOP_COUNT + 3) := by
    rw [Finset.sum_const, Finset.card_univ, Fintype.card_fin, smul_eq_mul]
    rfl
  exact congrArg (4 * P.CHILD_COUNT + 7 + ·) hsum

/-- One child goes on to `c`. -/
theorem sum_left_put (s : State P) (id : Fin P.CHILD_COUNT) (c : Child) :
    ∑ u, ((s.put id c).child u).left P.LOOP_COUNT + (s.child id).left P.LOOP_COUNT =
      ∑ u, (s.child u).left P.LOOP_COUNT + c.left P.LOOP_COUNT :=
  sum_update_add s.child (fun _ => Child.left P.LOOP_COUNT) id c

theorem parentStep_left (hs : Consistent s) {ok : Bool} (h : parentStep s ok = some s') :
    s'.left < s.left := by
  revert h
  fun_cases parentStep s ok with
  | case7 k hp hlt =>
      rintro ⟨⟩
      have hphase := hs.phase
      rw [hp] at hphase
      have hmove := sum_left_put s ⟨k, hlt⟩ .shmat
      rw [(hphase.1 ⟨k, hlt⟩).2 (Nat.le_refl k)] at hmove
      have hsame : ∑ u, ((s.put ⟨k, hlt⟩ .shmat).child u).left P.LOOP_COUNT =
          ∑ u, (s.child u).left P.LOOP_COUNT := Nat.add_right_cancel hmove
      simp only [State.left, hp, Parent.left, hsame]
      omega
  | case14 p grandTotal hp hlt val =>
      rintro ⟨⟩
      have hnext : (((intResult (grandTotal + val)).map (Parent.load (p + 1))).getD
          .overflow).left P.CHILD_COUNT ≤ P.CHILD_COUNT - (p + 1) + 2 := by
        cases intResult (grandTotal + val) with
        | none => exact Nat.zero_le _
        | some total => exact Nat.le_refl _
      have hless : P.CHILD_COUNT - (p + 1) + 2 < s.parent.left P.CHILD_COUNT := by
        rw [hp]
        show _ < P.CHILD_COUNT - p + 2
        omega
      exact Nat.add_lt_add_right (Nat.lt_of_le_of_lt hnext hless) _
  | case1 | case2 | case3 | case4 | case5 | case6 | case8 | case9 | case11 | case13 | case15
  | case16 =>
      rintro ⟨⟩
      simp only [State.left, State.throwError, Parent.left, *]
      omega
  | case10 | case12 | case17 =>
      intro h
      cases h

theorem reap_left {id : Fin P.CHILD_COUNT} (h : reap s id = some s') : s'.left < s.left := by
  revert h
  fun_cases reap s id with
  | case1 k error hpc hp hlt =>
      rintro ⟨⟩
      have hmove := sum_left_put s id (.reaped error)
      rw [hpc] at hmove
      have hless : ∑ u, ((s.put id (.reaped error)).child u).left P.LOOP_COUNT ≤
          ∑ u, (s.child u).left P.LOOP_COUNT := Nat.le_of_lt (Nat.lt_of_succ_le hmove.le)
      simp only [State.left, hp, Parent.left]
      omega
  | case2 | case3 =>
      intro h
      cases h

theorem childStep_left {id : Fin P.CHILD_COUNT} {ok : Bool} (h : childStep s id ok = some s') :
    s'.left < s.left := by
  have hput : ∀ c : Child, c.left P.LOOP_COUNT < (s.child id).left P.LOOP_COUNT →
      (s.put id c).left < s.left := by
    intro c hlt
    have hmove := sum_left_put s id c
    show s.parent.left _ + _ < s.parent.left _ + _
    omega
  revert h
  fun_cases childStep s id ok with
  | case1 hpc =>
      rintro ⟨⟩
      exact hput _ (by rw [hpc]; exact Nat.lt_succ_self _)
  | case2 hpc =>
      rintro ⟨⟩
      refine hput _ ?_
      rw [hpc]
      exact Nat.lt_of_lt_of_le (by decide : 1 < 3) (Nat.le_add_left 3 _)
  | case3 t hpc hlt =>
      rintro ⟨⟩
      refine hput (.loop (t + 1)) ?_
      rw [hpc]
      simp only [Child.left]
      omega
  | case4 t hpc hlt =>
      rintro ⟨⟩
      refine hput _ ?_
      rw [hpc]
      exact Nat.lt_of_lt_of_le Nat.one_lt_two (Nat.le_add_left 2 _)
  | case5 =>
      intro h
      cases h

theorem step_left (hs : Consistent s) {e : Event P.CHILD_COUNT} (h : step s e = some s') :
    s'.left < s.left := by
  cases e with
  | parent ok => exact parentStep_left hs h
  | reap id => exact reap_left h
  | child id ok => exact childStep_left h

/-! ## Somebody can go on -/

/-- Neither the parent nor a child has anything left to do. -/
def State.Ended (s : State P) : Prop :=
  (∃ error, s.parent = .exited error) ∧ ∀ id, (s.child id).over = true

/-- A child that runs can go on. -/
theorem child_goes_on {id : Fin P.CHILD_COUNT} (h : (s.child id).over = false) :
    (childStep s id true).isSome := by
  cases hc : s.child id with
  | shmat => simp [childStep, hc]
  | loop t =>
      simp only [childStep, hc]
      split
      · rfl
      · rfl
  | unborn | exited | reaped =>
      rw [hc] at h
      cases h

/-- The parent waits only while there is a child that runs, or one that has exited. -/
theorem wait_goes_on {k : ℕ} (hp : s.parent = .wait k) :
    ∃ e, (step s e).isSome := by
  by_cases hk : k < P.CHILD_COUNT
  · by_cases hall : ∀ id, (s.child id).absent = true
    · refine ⟨.parent true, ?_⟩
      simp only [step, parentStep, hp]
      rw [if_pos hk, if_pos hall]
      rfl
    · obtain ⟨id, hid⟩ := not_forall.1 hall
      cases hc : s.child id with
      | exited error =>
          refine ⟨.reap id, ?_⟩
          simp [step, reap, hp, hc, hk]
      | shmat => exact ⟨.child id true, child_goes_on (by rw [hc]; rfl)⟩
      | loop t => exact ⟨.child id true, child_goes_on (by rw [hc]; rfl)⟩
      | unborn | reaped =>
          rw [hc] at hid
          exact absurd rfl hid
  · refine ⟨.parent true, ?_⟩
    simp only [step, parentStep, hp]
    rw [if_neg hk]
    rfl

theorem parent_goes_on (hover : s.parent ≠ .overflow)
    (hrunning : ∀ error, s.parent ≠ .exited error) : ∃ e, (step s e).isSome := by
  cases hp : s.parent with
  | wait k => exact wait_goes_on hp
  | exited error => exact absurd hp (hrunning error)
  | overflow => exact absurd hp hover
  | shmget | shmat | remove =>
      refine ⟨.parent true, ?_⟩
      simp [step, parentStep, hp]
  | store k | fork k =>
      refine ⟨.parent true, ?_⟩
      simp only [step, parentStep, hp]
      split
      · rfl
      · rfl
  | load k grandTotal =>
      refine ⟨.parent true, ?_⟩
      simp only [step, parentStep, hp]
      split
      · rfl
      · rfl

theorem ended_iff (hover : s.parent ≠ .overflow) : (∀ e, step s e = none) ↔ s.Ended := by
  constructor
  · intro hstuck
    have hnone : ∀ e, ¬ (step s e).isSome := fun e => by rw [hstuck e]; exact Bool.false_ne_true
    refine ⟨?_, fun id => ?_⟩
    · by_contra hrunning
      obtain ⟨e, he⟩ := parent_goes_on hover (not_exists.1 hrunning)
      exact hnone e he
    · by_contra hruns
      exact hnone (.child id true) (child_goes_on (Bool.eq_false_iff.2 hruns))
  · rintro ⟨⟨error, hp⟩, hall⟩ e
    cases e with
    | parent ok => cases ok <;> simp [step, parentStep, hp]
    | reap id => simp [step, reap, hp]
    | child id ok =>
        have hover := hall id
        cases hc : s.child id with
        | shmat | loop =>
            rw [hc] at hover
            cases hover
        | unborn | exited | reaped => cases ok <;> simp [step, childStep, hc]

/-! ## Whole runs -/

theorem run_left (hfits : P.CHILD_COUNT * P.LOOP_COUNT < 2 ^ 31)
    {schedule : List (Event P.CHILD_COUNT)} (h : Run step (fun _ _ => True) s schedule s')
    (hs : Consistent s) : s'.left + schedule.length ≤ s.left := by
  induction h with
  | nil s => exact Nat.le_refl _
  | cons _ hstep _ ih =>
      have hfirst := step_left hs hstep
      have hrest := ih (hs.step hfits hstep)
      rw [List.length_cons]
      omega

/-- A child that is over has counted to the end, or has failed before its first step. -/
theorem Consistent.counted (hs : Consistent s) (hfits : P.CHILD_COUNT * P.LOOP_COUNT < 2 ^ 31)
    {id : Fin P.CHILD_COUNT} (hborn : s.child id ≠ .unborn) (hover : (s.child id).over = true) :
    (s.arr id).toInt = if (s.child id).finished then (P.LOOP_COUNT : ℤ) else 0 := by
  have hcount : P.LOOP_COUNT < 2 ^ 31 :=
    Nat.lt_of_le_of_lt (Nat.le_mul_of_pos_left _ (Fin.pos id)) hfits
  have hle := hs.added_le id
  rw [hs.added id (.inl hborn), Int32.toInt_ofNat_of_lt (by omega)]
  cases hc : s.child id with
  | shmat | loop =>
      rw [hc] at hover
      cases hover
  | unborn => exact absurd hc hborn
  | exited error | reaped error => cases error <;> rfl

/-- Whatever the order of the steps is, and whichever calls fail, their number is bounded; no
step is possible if and only if the parent has exited and no child runs, and every run can be
continued until then.  Then every child that has attached the segment has added `LOOP_COUNT` to
its counter, even if the parent has failed to fork the next one, and no other child has added
anything. -/
theorem all_exit (hfits : P.CHILD_COUNT * P.LOOP_COUNT < 2 ^ 31)
    {arr : Fin P.CHILD_COUNT → Int32} {schedule : List (Event P.CHILD_COUNT)} {s : State P}
    (h : Run step (fun _ _ => True) (State.init arr) schedule s) :
    schedule.length ≤ 4 * P.CHILD_COUNT + 7 + P.CHILD_COUNT * (P.LOOP_COUNT + 3) ∧
      ((∀ e, step s e = none) ↔ s.Ended) ∧
      (∃ more s', Run step (fun _ _ => True) s more s' ∧ s'.Ended) ∧
      (s.Ended → ∀ id, s.child id ≠ .unborn →
        (s.arr id).toInt = if (s.child id).finished then (P.LOOP_COUNT : ℤ) else 0) := by
  have hs : Consistent s := Reachable.consistent ⟨arr, schedule, h⟩ hfits
  have hover : ∀ {s : State P}, Consistent s → s.parent ≠ .overflow := by
    intro s hs hp
    have hphase := hs.phase
    rw [hp] at hphase
    exact hphase
  refine ⟨?_, ended_iff (hover hs), ?_, fun hended id hborn => hs.counted hfits hborn (hended.2 id)⟩
  · have hbound := run_left hfits h (consistent_init arr)
    rw [left_init] at hbound
    omega
  · refine Run.exists_end (I := Consistent) State.left (fun s hs hended => ?_) hs
    obtain ⟨e, he⟩ := not_forall.1 fun hstuck => hended ((ended_iff (hover hs)).1 hstuck)
    obtain ⟨s', hstep⟩ := Option.ne_none_iff_exists'.1 he
    exact ⟨e, s', trivial, hstep, hs.step hfits hstep, step_left hs hstep⟩

/-- The second `fork` fails while the first child counts. -/
def forkSchedule : List (Event 2) :=
  [.parent true, .parent true, .parent true, .parent true, .parent true, .parent true,
    .child ⟨0, Nat.zero_lt_two⟩ true, .child ⟨0, Nat.zero_lt_two⟩ true, .parent false]

theorem all_exit_fork :
    ∃ s : State pair, Run step (fun _ _ => True) (State.init fun _ => 7) forkSchedule s ∧
      ∃ more s', Run step (fun _ _ => True) s more s' ∧ s'.Ended := by
  have hrun := Run.of_exec (t := Option.get _ (by decide)) (Option.some_get
    (x := exec step (fun _ _ => True) (State.init fun _ => 7 : State pair) forkSchedule)
      (by decide)).symm
  exact ⟨_, hrun, (all_exit (by decide) hrun).2.2.1⟩

end SharedCounter
end Leetcode
