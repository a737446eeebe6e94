import Mathlib.Logic.Function.Basic

/-!
# A critical section

`place t` is where the thread `t` is, and `inside` says which places are between the lock and
the unlock of a mutex.  `Guarded` says that the mutex is held by who is inside; there is a lemma
for each kind of step of one thread.
-/

namespace CLib

variable {T α : Type*} {place : T → α} {inside : α → Bool} {owner : Option T} {t u : T} {a : α}

/-- The holder of the mutex is inside, and nobody else. -/
def Guarded (place : T → α) (inside : α → Bool) (owner : Option T) : Prop :=
  ∀ t, inside (place t) = true ↔ owner = some t

theorem guarded_of_nobody (h : ∀ t, inside (place t) = false) : Guarded place inside none := by
  intro t
  rw [h t]
  exact ⟨nofun, nofun⟩

theorem Guarded.alone (h : Guarded place inside owner) (ht : inside (place t) = true)
    (hu : inside (place u) = true) : u = t :=
  Option.some.inj (((h u).1 hu).symm.trans ((h t).1 ht))

variable [DecidableEq T]

/-- A thread that stays inside, or outside. -/
theorem Guarded.stay (h : Guarded place inside owner) (ha : inside a = inside (place t)) :
    Guarded (Function.update place t a) inside owner := by
  intro u
  by_cases hut : u = t
  · subst hut
    rw [Function.update_self, ha]
    exact h u
  · rw [Function.update_of_ne hut]
    exact h u

/-- A thread takes the mutex. -/
theorem Guarded.lock (h : Guarded place inside none) (t : T) (ha : inside a = true) :
    Guarded (Function.update place t a) inside (some t) := by
  intro u
  by_cases hut : u = t
  · subst hut
    rw [Function.update_self]
    exact ⟨fun _ => rfl, fun _ => ha⟩
  · rw [Function.update_of_ne hut, h u]
    exact ⟨nofun, fun howner => absurd (Option.some.inj howner).symm hut⟩

/-- The holder gives the mutex back. -/
theorem Guarded.unlock (h : Guarded place inside owner) (ht : inside (place t) = true)
    (ha : inside a = false) : Guarded (Function.update place t a) inside none := by
  intro u
  by_cases hut : u = t
  · subst hut
    rw [Function.update_self, ha]
    exact ⟨nofun, nofun⟩
  · rw [Function.update_of_ne hut]
    exact ⟨fun hu => absurd (h.alone ht hu) hut, nofun⟩

end CLib
