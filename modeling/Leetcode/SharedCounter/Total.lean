import Mathlib.Algebra.BigOperators.Fin
import Leetcode.SharedCounter.Model
import Leetcode.Lib.Tally

/-!
# What the parent prints

A counter is written by one process at a time: by the parent before it forks the child with the
same number, and by that child until it exits (`Consistent.added`).  The parent reads the
counters when `wait` has returned every child, so what it prints is what the children have
added in all: `LOOP_COUNT` for each child that has attached the segment, and nothing for the
others (`total_exact`).  If it exits with an error it prints nothing, and the segment stays.
-/

namespace Leetcode
namespace SharedCounter

open CLib

variable {P : Program} {s s' : State P} {id : Fin P.CHILD_COUNT} {c : Child}

/-! ## The invariant -/

/-- Returned by `wait`. -/
def Child.waited : Child → Bool
  | .reaped _ => true
  | .unborn | .shmat | .loop _ | .exited _ => false

/-- What the children have added, in the order of their numbers. -/
def State.counts (s : State P) : List ℕ :=
  (List.finRange P.CHILD_COUNT).map fun id => (s.child id).added P.LOOP_COUNT

/-- What the parent has printed when it is where it is. -/
def State.printed (s : State P) : Parent → List String
  | .load p _ => (lines P fun id => (s.child id).added P.LOOP_COUNT).take p
  | .remove | .exited none =>
      lines P (fun id => (s.child id).added P.LOOP_COUNT) ++ [P.totalLine s.counts.sum]
  | _ => []

/-- The parent has set the counter with this number to 0, and reads it later. -/
def Parent.stored (id : ℕ) : Parent → Prop
  | .store a => id < a
  | .fork _ | .wait _ | .load _ _ | .remove => True
  | .shmget | .shmat | .exited _ | .overflow => False

/-- Which children there are when the parent is where it is, and what it has added up. -/
def State.Phase (s : State P) : Parent → Prop
  | .shmget | .shmat | .store _ => ∀ id, s.child id = .unborn
  | .fork k => (∀ id, s.child id = .unborn ↔ k ≤ id) ∧ tally s.child (fun _ => Child.waited) = 0
  | .wait k => (∀ id, s.child id ≠ .unborn) ∧ tally s.child (fun _ => Child.waited) = k
  | .load p grandTotal => (∀ id, (s.child id).waited = true) ∧ p ≤ P.CHILD_COUNT ∧
      grandTotal = (s.counts.take p).sum
  | .remove | .exited none => ∀ id, (s.child id).waited = true
  | .exited (some _) => True
  | .overflow => False

structure Consistent (s : State P) : Prop where
  added : ∀ id, s.child id ≠ .unborn ∨ s.parent.stored id →
    s.arr id = Int32.ofNat ((s.child id).added P.LOOP_COUNT)
  rounds : ∀ id t, s.child id = .loop t → t ≤ P.LOOP_COUNT
  phase : s.Phase s.parent
  output : s.output = s.printed s.parent
  segment : s.segment = .removed ↔ s.parent = .exited none

theorem consistent_init (arr : Fin P.CHILD_COUNT → Int32) : Consistent (State.init arr) where
  added _ h := h.elim (absurd rfl) False.elim
  rounds := nofun
  phase := fun _ => rfl
  output := rfl
  segment := ⟨nofun, nofun⟩

/-! ## The children -/

theorem Child.waited_of_absent (h : c.absent = true) (hborn : c ≠ .unborn) : c.waited = true := by
  cases c with
  | unborn => exact absurd rfl hborn
  | reaped => rfl
  | shmat | loop | exited => cases h

theorem Child.added_le {LOOP_COUNT : ℕ} (h : ∀ t, c = .loop t → t ≤ LOOP_COUNT) :
    c.added LOOP_COUNT ≤ LOOP_COUNT := by
  unfold added
  split
  · exact h _ rfl
  · split
    · exact Nat.le_refl _
    · exact Nat.zero_le _

theorem Child.waited_of_runs (h : c.over = false) : c.waited = false := by
  cases c with
  | reaped => cases h
  | unborn | shmat | loop | exited => rfl

/-- A child runs after it has been forked and before it has been waited for. -/
theorem Consistent.parent_of_runs (h : Consistent s) (hruns : (s.child id).over = false) :
    (∃ k, s.parent = .fork k) ∨ (∃ k, s.parent = .wait k) ∨
      ∃ msg, s.parent = .exited (some msg) := by
  have hborn : s.child id ≠ .unborn := by
    intro hunborn
    rw [hunborn] at hruns
    cases hruns
  have hunwaited : ¬ (s.child id).waited = true :=
    Bool.eq_false_iff.1 (Child.waited_of_runs hruns)
  have hphase := h.phase
  cases hp : s.parent with
  | fork k => exact .inl ⟨k, rfl⟩
  | wait k => exact .inr (.inl ⟨k, rfl⟩)
  | shmget | shmat | store =>
      rw [hp] at hphase
      exact absurd (hphase id) hborn
  | load =>
      rw [hp] at hphase
      exact absurd (hphase.1 id) hunwaited
  | remove =>
      rw [hp] at hphase
      exact absurd (hphase id) hunwaited
  | exited error =>
      cases error with
      | some msg => exact .inr (.inr ⟨msg, rfl⟩)
      | none =>
          rw [hp] at hphase
          exact absurd (hphase id) hunwaited
  | overflow =>
      rw [hp] at hphase
      exact hphase.elim

/-- A child that runs goes on to `c`, and its counter with it. -/
theorem Consistent.child (h : Consistent s) (hruns : (s.child id).over = false)
    (hc : c.absent = false) (hrounds : ∀ t, c = .loop t → t ≤ P.LOOP_COUNT)
    (hchild : s'.child = Function.update s.child id c)
    (harr : s'.arr = Function.update s.arr id (Int32.ofNat (c.added P.LOOP_COUNT)))
    (hparent : s'.parent = s.parent) (hsegment : s'.segment = s.segment)
    (houtput : s'.output = s.output) : Consistent s' := by
  have hborn : ∀ u, s'.child u = .unborn ↔ s.child u = .unborn := by
    intro u
    rw [hchild]
    by_cases hne : u = id
    · subst hne
      rw [Function.update_self]
      refine iff_of_false (fun hunborn => ?_) fun hunborn => ?_
      · rw [hunborn] at hc
        cases hc
      · rw [hunborn] at hruns
        cases hruns
    · rw [Function.update_of_ne hne]
  have hwaited : tally s'.child (fun _ => Child.waited) = tally s.child fun _ => Child.waited := by
    have hcwaited : c.waited = false := by
      cases c with
      | reaped => cases hc
      | unborn | shmat | loop | exited => rfl
    have hmove := tally_update s.child (fun _ => Child.waited) id c
    rw [hcwaited, Child.waited_of_runs hruns] at hmove
    rw [hchild]
    exact hmove
  refine ⟨fun u hu => ?_, fun u t ht => ?_, ?_, ?_, ?_⟩
  · rw [Ne, hborn, hparent] at hu
    rw [harr, hchild]
    by_cases hne : u = id
    · subst hne
      rw [Function.update_self, Function.update_self]
    · rw [Function.update_of_ne hne, Function.update_of_ne hne]
      exact h.added u hu
  · rw [hchild] at ht
    by_cases hne : u = id
    · subst hne
      rw [Function.update_self] at ht
      exact hrounds t ht
    · rw [Function.update_of_ne hne] at ht
      exact h.rounds u t ht
  · have hphase := h.phase
    rw [hparent]
    rcases h.parent_of_runs hruns with ⟨k, hp⟩ | ⟨k, hp⟩ | ⟨msg, hp⟩
    · rw [hp] at hphase ⊢
      exact ⟨fun u => (hborn u).trans (hphase.1 u), hwaited.trans hphase.2⟩
    · rw [hp] at hphase ⊢
      exact ⟨fun u => (not_congr (hborn u)).2 (hphase.1 u), hwaited.trans hphase.2⟩
    · rw [hp]
      trivial
  · rw [houtput, h.output, hparent]
    rcases h.parent_of_runs hruns with ⟨k, hp⟩ | ⟨k, hp⟩ | ⟨msg, hp⟩
    · rw [hp]
      rfl
    · rw [hp]
      rfl
    · rw [hp]
      rfl
  · rw [hsegment, hparent]
    exact h.segment

theorem Consistent.childStep {ok : Bool} (h : Consistent s)
    (hstep : childStep s id ok = some s') : Consistent s' := by
  have hadded : ∀ d, s.child id = d → d ≠ .unborn →
      s.arr id = Int32.ofNat (d.added P.LOOP_COUNT) := by
    rintro d rfl hd
    exact h.added id (.inl hd)
  have hsame : ∀ v, s.arr id = v → s.arr = Function.update s.arr id v := by
    rintro v rfl
    exact (Function.update_eq_self id s.arr).symm
  revert hstep
  fun_cases SharedCounter.childStep s id ok with
  | case1 hpc =>
      rintro ⟨⟩
      refine h.child (c := .loop 0) (by rw [hpc]; rfl) rfl ?_ rfl ?_ rfl rfl rfl
      · rintro t ⟨⟩
        exact Nat.zero_le _
      · exact hsame _ (hadded .shmat hpc (by decide))
  | case2 hpc =>
      rintro ⟨⟩
      refine h.child (c := .exited (some P.childError)) (by rw [hpc]; rfl) rfl ?_ rfl ?_ rfl rfl rfl
      · rintro t ⟨⟩
      · exact hsame _ (hadded .shmat hpc (by decide))
  | case3 t hpc hlt =>
      rintro ⟨⟩
      refine h.child (c := .loop (t + 1)) (by rw [hpc]; rfl) rfl ?_ rfl ?_ rfl rfl rfl
      · rintro u ⟨⟩
        exact hlt
      · show Function.update s.arr id (s.arr id + 1) = _
        rw [hadded _ hpc (by intro hunborn; cases hunborn)]
        exact congrArg _ (Int32.ofNat_add t 1).symm
  | case4 t hpc hlt =>
      rintro ⟨⟩
      have ht : t = P.LOOP_COUNT :=
        Nat.le_antisymm (h.rounds id t hpc) (Nat.le_of_not_lt hlt)
      refine h.child (c := .exited none) (by rw [hpc]; rfl) rfl ?_ rfl ?_ rfl rfl rfl
      · rintro u ⟨⟩
      · refine hsame _ ((hadded _ hpc (by intro hunborn; cases hunborn)).trans ?_)
        exact congrArg Int32.ofNat ht
  | case5 => exact nofun

theorem Consistent.reap (h : Consistent s) (hstep : reap s id = some s') : Consistent s' := by
  revert hstep
  fun_cases SharedCounter.reap s id with
  | case1 k error hpc hp hlt =>
      rintro ⟨⟩
      have hphase := h.phase
      rw [hp] at hphase
      have hadded : ∀ u, Child.added P.LOOP_COUNT
          (Function.update s.child id (.reaped error) u) = (s.child u).added P.LOOP_COUNT := by
        intro u
        by_cases hne : u = id
        · subst hne
          rw [Function.update_self, hpc]
          cases error <;> rfl
        · rw [Function.update_of_ne hne]
      have hmove := tally_update s.child (fun _ => Child.waited) id (.reaped error)
      rw [hpc] at hmove
      refine ⟨fun u _ => ?_, fun u t ht => ?_, ⟨fun u => ?_, ?_⟩, ?_, ?_⟩
      · show s.arr u = Int32.ofNat (Child.added P.LOOP_COUNT (Function.update s.child id _ u))
        rw [hadded]
        exact h.added u (.inr (by rw [hp]; trivial))
      · by_cases hne : u = id
        · subst hne
          simp [State.put] at ht
        · exact h.rounds u t (by simpa [State.put, hne] using ht)
      · by_cases hne : u = id
        · subst hne
          simp [State.put]
        · simpa [State.put, hne] using hphase.1 u
      · exact hmove.trans (congrArg (· + 1) hphase.2)
      · have hold := h.output
        rw [hp] at hold
        exact hold
      · refine iff_of_false (fun hremoved => ?_) (by intro hexit; cases hexit)
        have hexit := h.segment.1 hremoved
        rw [hp] at hexit
        cases hexit
  | case2 => exact nofun
  | case3 => exact nofun

/-! ## The parent -/

/-- Only the parent goes on, and writes no counter. -/
theorem Consistent.parent (h : Consistent s) (hchild : s'.child = s.child) (harr : s'.arr = s.arr)
    (hstored : ∀ id : Fin P.CHILD_COUNT, s'.parent.stored id → s.parent.stored id)
    (hphase : s'.Phase s'.parent)
    (houtput : s'.output = s'.printed s'.parent)
    (hsegment : s'.segment = .removed ↔ s'.parent = .exited none) :
    Consistent s' where
  added id hid := by
    rw [hchild] at hid ⊢
    rw [harr]
    exact h.added id (hid.imp_right (hstored id))
  rounds := hchild ▸ h.rounds
  phase := hphase
  output := houtput
  segment := hsegment

/-- Before its end the parent has not removed the segment. -/
theorem Consistent.not_removed (h : Consistent s) (hp : s.parent ≠ .exited none) :
    s.segment ≠ .removed := fun hremoved => hp (h.segment.1 hremoved)

/-- The parent exits with an error before it has printed anything. -/
theorem Consistent.throwError (h : Consistent s) (msg : String) (hsegment : s.segment ≠ .removed)
    (houtput : s.output = []) : Consistent (s.throwError msg) :=
  h.parent rfl rfl (fun _ hfalse => hfalse.elim) trivial houtput
    (iff_of_false hsegment (by intro hexit; cases hexit))

theorem counts_length (s : State P) : s.counts.length = P.CHILD_COUNT := by
  rw [State.counts, List.length_map, List.length_finRange]

theorem counts_getElem (s : State P) {p : ℕ} (h : p < P.CHILD_COUNT)
    (hp : p < s.counts.length) : s.counts[p] = (s.child ⟨p, h⟩).added P.LOOP_COUNT := by
  simp [State.counts]

theorem Consistent.added_le (h : Consistent s) (id : Fin P.CHILD_COUNT) :
    (s.child id).added P.LOOP_COUNT ≤ P.LOOP_COUNT := Child.added_le (h.rounds id)

/-- What is added up is an `int`. -/
theorem Consistent.sum_lt (h : Consistent s) (hfits : P.CHILD_COUNT * P.LOOP_COUNT < 2 ^ 31)
    (p : ℕ) : (s.counts.take p).sum < 2 ^ 31 := by
  have hle : (s.counts.take p).sum ≤ s.counts.sum :=
    (List.take_sublist p s.counts).sum_le_sum fun _ _ => Nat.zero_le _
  have hall : s.counts.sum ≤ s.counts.length • P.LOOP_COUNT := by
    refine List.sum_le_card_nsmul _ _ fun n hn => ?_
    obtain ⟨id, -, rfl⟩ := List.mem_map.1 hn
    exact h.added_le id
  rw [counts_length, smul_eq_mul] at hall
  omega

/-- The load of a counter. -/
theorem Consistent.load (h : Consistent s) (hfits : P.CHILD_COUNT * P.LOOP_COUNT < 2 ^ 31)
    {p : ℕ} {grandTotal : ℤ} (hp : s.parent = .load p grandTotal) (hlt : p < P.CHILD_COUNT) :
    (s.arr ⟨p, hlt⟩).toInt = (s.child ⟨p, hlt⟩).added P.LOOP_COUNT ∧
      intResult (grandTotal + (s.arr ⟨p, hlt⟩).toInt) =
        some ((s.counts.take (p + 1)).sum : ℤ) := by
  have hphase := h.phase
  rw [hp] at hphase
  obtain ⟨-, -, rfl⟩ := hphase
  have hlength : p < s.counts.length := by rwa [counts_length]
  have hsucc := List.sum_take_succ s.counts p hlength
  rw [counts_getElem s hlt] at hsucc
  have hsum := h.sum_lt hfits (p + 1)
  have hval : (s.arr ⟨p, hlt⟩).toInt = (s.child ⟨p, hlt⟩).added P.LOOP_COUNT := by
    rw [h.added ⟨p, hlt⟩ (.inr (by rw [hp]; trivial))]
    exact Int32.toInt_ofNat_of_lt (by omega)
  refine ⟨hval, ?_⟩
  rw [hval, ← Int.natCast_add, ← hsucc]
  refine intResult_ok ⟨?_, ?_⟩
  · omega
  · omega

/-- A counter is set to 0 before there is a child that counts in it. -/
theorem Consistent.store (h : Consistent s) {a : ℕ} (hp : s.parent = .store a)
    (hlt : a < P.CHILD_COUNT) :
    Consistent { s with arr := Function.update s.arr ⟨a, hlt⟩ 0, parent := .store (a + 1) } := by
  have hphase := h.phase
  have hold := h.output
  rw [hp] at hphase hold
  refine ⟨fun u hu => ?_, h.rounds, hphase, hold, ?_⟩
  · by_cases hne : u = ⟨a, hlt⟩
    · subst hne
      show Function.update s.arr _ 0 _ = Int32.ofNat ((s.child _).added P.LOOP_COUNT)
      rw [Function.update_self, hphase]
      rfl
    · show Function.update s.arr _ 0 u = _
      rw [Function.update_of_ne hne]
      refine h.added u (hu.imp_right fun hstored => ?_)
      rw [hp]
      exact Nat.lt_of_le_of_ne (Nat.le_of_lt_succ hstored) fun heq => hne (Fin.ext heq)
  · exact iff_of_false (h.not_removed (by simp [hp])) (by simp)

theorem Consistent.fork (h : Consistent s) {k : ℕ} (hp : s.parent = .fork k)
    (hlt : k < P.CHILD_COUNT) :
    Consistent { s.put ⟨k, hlt⟩ .shmat with parent := .fork (k + 1) } := by
  have hphase := h.phase
  have hold := h.output
  rw [hp] at hphase hold
  have hnew : s.child ⟨k, hlt⟩ = .unborn := (hphase.1 _).2 (Nat.le_refl k)
  have hmove := tally_update s.child (fun _ => Child.waited) ⟨k, hlt⟩ .shmat
  rw [hnew, hphase.2] at hmove
  refine ⟨fun u _ => ?_, fun u t ht => ?_, ⟨fun u => ?_, hmove⟩, hold, ?_⟩
  · have hu := h.added u (.inr (by rw [hp]; trivial))
    by_cases hne : u = ⟨k, hlt⟩
    · subst hne
      rw [hnew] at hu
      simp only [State.put, Function.update_self]
      exact hu
    · simpa [State.put, hne] using hu
  · by_cases hne : u = ⟨k, hlt⟩
    · subst hne
      simp [State.put] at ht
    · exact h.rounds u t (by simpa [State.put, hne] using ht)
  · by_cases hne : u = ⟨k, hlt⟩
    · subst hne
      simp [State.put]
    · have hval : u.val ≠ k := fun heq => hne (Fin.ext heq)
      simp only [State.put, Function.update_of_ne hne, hphase.1 u]
      omega
  · exact iff_of_false (h.not_removed (by simp [hp])) (by simp)

theorem lines_length (P : Program) (added : Fin P.CHILD_COUNT → ℕ) :
    (lines P added).length = P.CHILD_COUNT := by
  rw [lines, List.length_map, List.length_finRange]

theorem take_lines_succ (P : Program) (added : Fin P.CHILD_COUNT → ℕ) {p : ℕ}
    (h : p < P.CHILD_COUNT) :
    (lines P added).take (p + 1) =
      (lines P added).take p ++ [P.childLine p (added ⟨p, h⟩)] := by
  have hlength : p < (lines P added).length := by rwa [lines_length]
  rw [List.take_add_one, List.getElem?_eq_getElem hlength]
  simp [lines]

/-- When `wait` has returned so many children, none is left. -/
theorem waited_of_tally (h : tally s.child (fun _ => Child.waited) = P.CHILD_COUNT)
    (id : Fin P.CHILD_COUNT) : (s.child id).waited = true := by
  have hall : (Finset.univ.filter fun u => (s.child u).waited = true) = Finset.univ :=
    Finset.eq_univ_of_card _ (h.trans (Fintype.card_fin _).symm)
  exact (Finset.filter_eq_self.1 hall) id (Finset.mem_univ id)

theorem Consistent.parentStep (h : Consistent s) (hfits : P.CHILD_COUNT * P.LOOP_COUNT < 2 ^ 31)
    {ok : Bool} (hstep : parentStep s ok = some s') : Consistent s' := by
  have hphase := h.phase
  have hold := h.output
  have hgone : ∀ {p q : Parent}, s.parent = p → p ≠ .exited none → q ≠ .exited none →
      (s.segment = .removed ↔ q = .exited none) := by
    rintro p q rfl hp hq
    exact iff_of_false (h.not_removed hp) hq
  revert hstep
  fun_cases SharedCounter.parentStep s ok with
  | case1 hp =>
      rintro ⟨⟩
      rw [hp] at hphase hold
      exact h.parent rfl rfl (fun _ hfalse => hfalse.elim) hphase hold
        (iff_of_false (by simp) (by simp))
  | case2 hp =>
      rintro ⟨⟩
      rw [hp] at hold
      exact h.throwError _ (h.not_removed (by simp [hp])) hold
  | case3 hp =>
      rintro ⟨⟩
      rw [hp] at hphase hold
      exact h.parent rfl rfl (fun _ hlt => absurd hlt (Nat.not_lt_zero _)) hphase hold
        (hgone hp (by simp) (by simp))
  | case4 hp =>
      rintro ⟨⟩
      rw [hp] at hold
      exact h.throwError _ (h.not_removed (by simp [hp])) hold
  | case5 a hp hlt =>
      rintro ⟨⟩
      exact h.store hp hlt
  | case6 a hp hlt =>
      rintro ⟨⟩
      rw [hp] at hphase hold
      refine h.parent rfl rfl (fun u _ => ?_) ⟨fun u => ?_, ?_⟩ hold (hgone hp (by simp) (by simp))
      · rw [hp]
        exact Nat.lt_of_lt_of_le u.isLt (Nat.le_of_not_lt hlt)
      · exact iff_of_true (hphase u) (Nat.zero_le _)
      · have hnobody : ∀ u, (s.child u).waited = false := fun u => by rw [hphase u]; rfl
        simp [tally, hnobody]
  | case7 k hp hlt =>
      rintro ⟨⟩
      exact h.fork hp hlt
  | case8 k hp hlt =>
      rintro ⟨⟩
      rw [hp] at hphase hold
      refine h.parent rfl rfl (fun u _ => ?_) ⟨fun u hunborn => ?_, hphase.2⟩ hold
        (hgone hp (by simp) (by simp))
      · rw [hp]
        trivial
      · have hle := (hphase.1 u).1 hunborn
        have hu := u.isLt
        omega
  | case9 k hp hlt =>
      rintro ⟨⟩
      rw [hp] at hold
      exact h.throwError _ (h.not_removed (by simp [hp])) hold
  | case11 k hp hlt habsent =>
      -- Every child has been forked and not all of them returned: there is one to wait for.
      rw [hp] at hphase
      refine absurd ?_ (Nat.ne_of_lt hlt)
      rw [← hphase.2]
      have hall : ∀ u, (s.child u).waited = true := fun u =>
        Child.waited_of_absent (habsent u) (hphase.1 u)
      simp [tally, hall]
  | case13 k hp hlt =>
      rintro ⟨⟩
      rw [hp] at hphase hold
      have hle : tally s.child (fun _ => Child.waited) ≤ P.CHILD_COUNT :=
        (Finset.card_le_univ _).trans_eq (Fintype.card_fin _)
      refine h.parent rfl rfl (fun u _ => ?_) ⟨waited_of_tally ?_, Nat.zero_le _, rfl⟩ hold
        (hgone hp (by simp) (by simp))
      · rw [hp]
        trivial
      · show tally s.child _ = _
        have hk := hphase.2
        omega
  | case14 p grandTotal hp hlt val =>
      rintro ⟨⟩
      obtain ⟨hval, hsum⟩ := h.load hfits hp hlt
      rw [hp] at hphase hold
      have hnext : ((intResult (grandTotal + val)).map (Parent.load (p + 1))).getD .overflow =
          .load (p + 1) (s.counts.take (p + 1)).sum := by
        rw [hsum]
        rfl
      rw [hnext]
      refine h.parent rfl rfl (fun u _ => ?_) ⟨hphase.1, hlt, rfl⟩ ?_ (hgone hp (by simp) (by simp))
      · rw [hp]
        trivial
      · show s.output ++ [P.childLine p (s.arr ⟨p, hlt⟩).toInt] = _
        rw [hold, hval]
        exact (take_lines_succ P _ hlt).symm
  | case15 p grandTotal hp hlt =>
      rintro ⟨⟩
      rw [hp] at hphase hold
      obtain ⟨hall, hle, rfl⟩ := hphase
      have hp' : p = P.CHILD_COUNT := Nat.le_antisymm hle (Nat.le_of_not_lt hlt)
      refine h.parent rfl rfl (fun u _ => ?_) hall ?_ (hgone hp (by simp) (by simp))
      · rw [hp]
        trivial
      · show s.output ++ [P.totalLine (s.counts.take p).sum] = _
        rw [hold]
        show (lines P _).take p ++ _ = lines P _ ++ _
        rw [List.take_of_length_le (by rw [lines_length, hp']),
          List.take_of_length_le (by rw [counts_length, hp'])]
        rfl
  | case16 hp =>
      rintro ⟨⟩
      rw [hp] at hphase hold
      exact h.parent rfl rfl (fun _ hfalse => hfalse.elim) hphase hold (iff_of_true rfl rfl)
  | case10 | case12 | case17 => exact nofun

theorem Consistent.step (h : Consistent s) (hfits : P.CHILD_COUNT * P.LOOP_COUNT < 2 ^ 31)
    {e : Event P.CHILD_COUNT} (hstep : step s e = some s') : Consistent s' := by
  cases e with
  | parent ok => exact h.parentStep hfits hstep
  | reap id => exact h.reap hstep
  | child id ok => exact h.childStep hstep

theorem Reachable.consistent (h : Reachable s) (hfits : P.CHILD_COUNT * P.LOOP_COUNT < 2 ^ 31) :
    Consistent s := by
  obtain ⟨arr, schedule, hrun⟩ := h
  exact hrun.invariant (consistent_init arr) fun _ _ _ hs _ hstep => hs.step hfits hstep

/-! ## The sum -/

theorem Child.added_of_waited {LOOP_COUNT : ℕ} (h : c.waited = true) :
    c.added LOOP_COUNT = if c = .reaped none then LOOP_COUNT else 0 := by
  cases c with
  | reaped error => cases error <;> rfl
  | unborn | shmat | loop | exited => cases h

/-- What is added up when every child has been waited for. -/
theorem sum_counts (hall : ∀ id, (s.child id).waited = true) :
    s.counts.sum =
      (Finset.univ.filter fun id => s.child id = .reaped none).card * P.LOOP_COUNT := by
  have hadded : ∀ id, (s.child id).added P.LOOP_COUNT =
      if s.child id = .reaped none then P.LOOP_COUNT else 0 := fun id =>
    Child.added_of_waited (hall id)
  rw [State.counts, ← Fin.sum_univ_def, Finset.sum_congr rfl fun id _ => hadded id,
    ← Finset.sum_filter, Finset.sum_const, smul_eq_mul]

/-- Whatever the order of the steps is, and whichever calls fail: the sum is an `int`; when the
parent has come to its end every child has been waited for, and the parent has printed
`LOOP_COUNT` for each child that has attached the segment, 0 for the others, and the sum of
these; and when it has exited with an error it has printed nothing and has not removed the
segment. -/
theorem total_exact (hfits : P.CHILD_COUNT * P.LOOP_COUNT < 2 ^ 31) (h : Reachable s) :
    s.parent ≠ .overflow ∧
      (s.parent = .exited none →
        (∀ id, ∃ error, s.child id = .reaped error) ∧ s.segment = .removed ∧
          s.output =
            lines P (fun id => if s.child id = .reaped none then P.LOOP_COUNT else 0) ++
              [P.totalLine
                ((Finset.univ.filter fun id => s.child id = .reaped none).card *
                  P.LOOP_COUNT : ℕ)]) ∧
      ∀ msg, s.parent = .exited (some msg) → s.output = [] ∧ s.segment ≠ .removed := by
  have hs := h.consistent hfits
  have hphase := hs.phase
  have houtput := hs.output
  refine ⟨fun hp => ?_, fun hp => ?_, fun msg hp => ?_⟩
  · rw [hp] at hphase
    exact hphase
  · rw [hp] at hphase houtput
    refine ⟨fun id => ?_, hs.segment.2 hp, ?_⟩
    · have hwaited := hphase id
      cases hc : s.child id with
      | reaped error => exact ⟨error, rfl⟩
      | unborn | shmat | loop | exited =>
          rw [hc] at hwaited
          cases hwaited
    · have hadded : (fun id => (s.child id).added P.LOOP_COUNT) =
          fun id => if s.child id = .reaped none then P.LOOP_COUNT else 0 :=
        funext fun id => Child.added_of_waited (hphase id)
      rw [houtput, State.printed, hadded, sum_counts hphase]
  · rw [hp] at houtput
    exact ⟨houtput, hs.not_removed (by simp [hp])⟩

/-- Two children that count to two. -/
def pair : Program := { children with CHILD_COUNT := 2, LOOP_COUNT := 2 }

/-- The second child cannot attach the segment, and is the first to exit. -/
def pairSchedule : List (Event 2) :=
  let first := ⟨0, Nat.zero_lt_two⟩
  let second := ⟨1, Nat.one_lt_two⟩
  [.parent true, .parent true, .parent true, .parent true, .parent true, .parent true,
    .child first true, .parent true, .child first true, .child second false, .parent true,
    .reap second, .child first true, .child first true, .reap first, .parent true, .parent true,
    .parent true, .parent true, .parent true]

theorem total_exact_pair :
    ∃ s : State pair, Reachable s ∧ s.parent = .exited none ∧
      s.output = lines pair (fun id => if s.child id = .reaped none then 2 else 0) ++
        [pair.totalLine
          ((Finset.univ.filter fun id => s.child id = .reaped none).card * 2 : ℕ)] := by
  have hrun := Run.of_exec (t := Option.get _ (by decide)) (Option.some_get
    (x := exec step (fun _ _ => True) (State.init fun _ => 7 : State pair) pairSchedule)
      (by decide)).symm
  have hend : (Option.get (exec step (fun _ _ => True) (State.init fun _ => 7 : State pair)
    pairSchedule) (by decide)).parent = .exited none := by decide
  exact ⟨_, ⟨_, _, hrun⟩, hend, ((total_exact (by decide) ⟨_, _, hrun⟩).2.1 hend).2.2⟩

end SharedCounter
end Leetcode
