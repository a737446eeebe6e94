import Leetcode.BoundedQueue.Model

/-!
# The lock of the queue

`Step` lists what the steps do, one rule for each outcome.  `LockOk` says that only the
holder of the lock is between `lock` and `unlock`, and that the test still holds behind
the loop; every step keeps it.
-/

namespace Leetcode
namespace BoundedQueue

open CLib

variable {T : Type*} {P : Program T} {s s' : State T}

/-! ## The lock -/

/-- Between `lock` and `unlock`. -/
def Pc.inside : Pc → Bool
  | .test | .update | .signal | .unlock => true
  | _ => false

/-- Only the holder of the lock is inside, and behind the loop it need not wait. -/
structure LockOk (P : Program T) (s : State T) : Prop where
  mutex : ∀ t, (s.pc t).inside = true → s.owner = some t
  room : ∀ t, s.pc t = .update → s.blocked (P.role t) = false

theorem lockOk_init (P : Program T) : LockOk P (State.init P) where
  mutex := by
    intro t ht
    cases ht
  room := by
    intro t ht
    cases ht

/-- When nobody else holds the lock, nobody else is inside. -/
theorem LockOk.alone {t : T} (h : LockOk P s) (howner : s.owner = none ∨ s.owner = some t) :
    ∀ u, u ≠ t → (s.pc u).inside = false := by
  intro u hne
  apply Bool.eq_false_iff.2
  intro hu
  have huowner := h.mutex u hu
  rcases howner with hnone | hsome
  · rw [huowner] at hnone
    cases hnone
  · rw [huowner] at hsome
    exact hne (Option.some.inj hsome)

/-! ## The steps -/

variable [DecidableEq T]

/-- What a step does, one rule for each outcome. -/
inductive Step (P : Program T) (s : State T) : State T → Prop
  | create {t : T} {rest : List T} (htodo : s.toCreate = t :: rest) (hpc : s.pc t = .unborn) :
      Step P s { s.goto t .ready with toCreate := rest }
  | join {t : T} {rest : List T} (hdone : s.toCreate = []) (htodo : s.toJoin = t :: rest)
      (hfinished : s.finished t) : Step P s { s with toJoin := rest }
  | ret (hdone : s.toCreate = []) (hjoined : s.toJoin = []) : Step P s { s with returned := true }
  | lock {t : T} (hfree : s.owner = none) (henters : s.enters P t) :
      Step P s { s.goto t .test with owner := some t }
  | sleep {t : T} (hholds : s.holds t .test) (hblocked : s.blocked (P.role t) = true) :
      Step P s { s.goto t .asleep with owner := none }
  | pass {t : T} (hholds : s.holds t .test) (hblocked : s.blocked (P.role t) = false) :
      Step P s (s.goto t .update)
  | push {t : T} {item : Int} {rest : List Int} (hholds : s.holds t .update)
      (hrole : P.role t = .producer) (hitems : s.items t = item :: rest) :
      Step P s
        { (s.store t item).goto t .signal with items := Function.update s.items t rest }
  | pop {t : T} (hholds : s.holds t .update) (hrole : P.role t = .consumer) :
      Step P s ((s.take t).goto t .signal)
  | signal {t : T} {wake : T → Bool} (hholds : s.holds t .signal)
      (hwake : (∃ u, s.waitsFor P (P.role t) u) → ∃ u, s.waitsFor P (P.role t) u ∧ wake u) :
      Step P s { s with
        pc := fun u =>
          if s.waitsFor P (P.role t) u ∧ wake u then .woken
          else if u = t then .unlock else s.pc u }
  | unlock {t : T} (hholds : s.holds t .unlock) :
      Step P s { s.goto t .ready with owner := none }
  | wakeup {t : T} (hpc : s.pc t = .asleep) : Step P s (s.goto t .woken)

variable {e : Event T}

theorem Step.of_mainStep (h : mainStep s e = some s') : Step P s s' := by
  revert h
  fun_cases mainStep s e with
  | case1 t rest htodo hpc =>
      rintro ⟨⟩
      exact .create htodo hpc
  | case4 t rest htodo hdone hfinished =>
      rintro ⟨⟩
      exact .join hdone htodo hfinished
  | case7 hjoined hdone =>
      rintro ⟨⟩
      exact .ret hdone hjoined
  | _ => exact nofun

theorem Step.of_threadStep [Fintype T] (h : threadStep P s e = some s') : Step P s s' := by
  revert h
  fun_cases threadStep P s e with
  | case1 t hand =>
      rintro ⟨⟩
      exact .lock hand.1 hand.2
  | case3 t hholds hblocked =>
      rintro ⟨⟩
      exact .sleep hholds hblocked
  | case4 t hholds hblocked =>
      rintro ⟨⟩
      exact .pass hholds (Bool.eq_false_iff.2 hblocked)
  | case6 t hholds item rest hitems hrole =>
      rintro ⟨⟩
      exact .push hholds hrole hitems
  | case8 t hholds hrole =>
      rintro ⟨⟩
      exact .pop hholds hrole
  | case10 t wake hand =>
      rintro ⟨⟩
      exact .signal hand.1 hand.2
  | case12 t hholds =>
      rintro ⟨⟩
      exact .unlock hholds
  | case14 t hpc =>
      rintro ⟨⟩
      exact .wakeup hpc
  | _ => exact nofun

/-- Every step is one of the rules. -/
theorem Step.of_step [Fintype T] (h : step P s e = some s') : Step P s s' := by
  unfold step at h
  split at h
  · cases h
  · rcases Option.or_eq_some_iff.1 h with hmain | ⟨-, hthread⟩
    · exact .of_mainStep hmain
    · exact .of_threadStep hthread

theorem goto_pc (s : State T) (t : T) (pc : Pc) :
    (s.goto t pc).pc = Function.update s.pc t pc := rfl

theorem holds_iff {t : T} {pc : Pc} : s.holds t pc = true ↔ s.owner = some t ∧ s.pc t = pc := by
  simp [State.holds]

/-- The only thread inside goes on to `pc`. -/
theorem LockOk.move {t : T} {pc : Pc} (halone : ∀ u, u ≠ t → (s.pc u).inside = false)
    (hpc : s'.pc = Function.update s.pc t pc) (howner : pc.inside = true → s'.owner = some t)
    (hroom : pc = .update → s'.blocked (P.role t) = false) : LockOk P s' where
  mutex := by
    intro u hu
    by_cases hut : u = t
    · subst hut
      rw [hpc, Function.update_self] at hu
      exact howner hu
    · rw [hpc, Function.update_of_ne hut, halone u hut] at hu
      cases hu
  room := by
    intro u hu
    by_cases hut : u = t
    · subst hut
      rw [hpc, Function.update_self] at hu
      exact hroom hu
    · rw [hpc, Function.update_of_ne hut] at hu
      have hout := halone u hut
      rw [hu] at hout
      cases hout

/-- A thread outside goes on to `pc`, and stays outside. -/
theorem LockOk.aside {t : T} {pc : Pc} (h : LockOk P s) (hout : pc.inside = false) :
    LockOk P (s.goto t pc) where
  mutex := by
    intro u hu
    by_cases hut : u = t
    · subst hut
      rw [goto_pc, Function.update_self, hout] at hu
      cases hu
    · rw [goto_pc, Function.update_of_ne hut] at hu
      exact h.mutex u hu
  room := by
    intro u hu
    by_cases hut : u = t
    · subst hut
      rw [goto_pc, Function.update_self] at hu
      rw [hu] at hout
      cases hout
    · rw [goto_pc, Function.update_of_ne hut] at hu
      exact h.room u hu

theorem LockOk.step (h : LockOk P s) (hstep : Step P s s') : LockOk P s' := by
  cases hstep with
  | @create t rest htodo hpc =>
      have haside : LockOk P (s.goto t .ready) := h.aside rfl
      exact ⟨haside.mutex, haside.room⟩
  | join | ret => exact ⟨h.mutex, h.room⟩
  | @lock t hfree henters =>
      exact .move (h.alone (t := t) (.inl hfree)) rfl (fun _ => rfl) nofun
  | @sleep t hholds hblocked =>
      exact .move (h.alone (t := t) (.inr (holds_iff.1 hholds).1)) rfl nofun nofun
  | @pass t hholds hblocked =>
      obtain ⟨howner, -⟩ := holds_iff.1 hholds
      exact .move (h.alone (t := t) (.inr howner)) rfl (fun _ => howner) fun _ => hblocked
  | @push t item rest hholds hrole hitems =>
      obtain ⟨howner, -⟩ := holds_iff.1 hholds
      exact .move (h.alone (t := t) (.inr howner)) rfl (fun _ => howner) nofun
  | @pop t hholds hrole =>
      obtain ⟨howner, -⟩ := holds_iff.1 hholds
      exact .move (h.alone (t := t) (.inr howner)) rfl (fun _ => howner) nofun
  | @signal t wake hholds hwake =>
      obtain ⟨howner, -⟩ := holds_iff.1 hholds
      constructor
      · intro u hu
        dsimp only at hu
        split at hu
        · cases hu
        · split at hu
          · next hut => rw [hut, ← howner]
          · exact h.mutex u hu
      · intro u hu
        dsimp only at hu
        split at hu
        · cases hu
        · split at hu
          · cases hu
          · exact h.room u hu
  | @unlock t hholds =>
      exact .move (h.alone (t := t) (.inr (holds_iff.1 hholds).1)) rfl nofun nofun
  | wakeup hpc => exact h.aside rfl

end BoundedQueue
end Leetcode
