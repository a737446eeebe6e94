import Mathlib.Data.List.Basic

/-!
# Balanced strings

`close o` is the closing bracket of an opening one, and `none` for everything else.  A
string is `Balanced` if the grammar `S → ε | o S c S` has it, with `c` the closing bracket of `o`.

`Closes os s` says that `s` is what may still follow when the brackets `os` are open, the last
one first.  It goes along with a stack: an opening bracket is pushed (`closes_open`), a closing
one has to fit the top (`closes_close`), and at the end the stack is empty (`closes_end`).
-/

namespace CLib

variable {α : Type*}

/-- `S → ε | o S c S` -/
inductive Balanced (close : α → Option α) : List α → Prop
  | nil : Balanced close []
  | wrap {o c : α} {s t : List α} (hclose : close o = some c) (hs : Balanced close s)
      (ht : Balanced close t) : Balanced close (o :: (s ++ c :: t))

/-- The string closes the open brackets, with balanced strings in between. -/
def Closes (close : α → Option α) : List α → List α → Prop
  | [], s => Balanced close s
  | o :: os, s =>
      ∃ s₁ c s₂, s = s₁ ++ c :: s₂ ∧ close o = some c ∧ Balanced close s₁ ∧ Closes close os s₂

variable {close : α → Option α} {o x : α} {os s : List α}

/-- A balanced string starts with an opening bracket, which is closed in it. -/
theorem balanced_cons : Balanced close (o :: s) ↔ Closes close [o] s := by
  constructor
  · intro h
    cases h with
    | wrap hclose hs ht => exact ⟨_, _, _, rfl, hclose, hs, ht⟩
  · rintro ⟨s₁, c, s₂, rfl, hclose, hs, ht⟩
    exact .wrap hclose hs ht

theorem closes_end : Closes close os [] ↔ os = [] := by
  cases os with
  | nil => exact iff_of_true .nil rfl
  | cons o os =>
      refine iff_of_false ?_ (List.cons_ne_nil o os)
      rintro ⟨s₁, c, s₂, hsplit, -⟩
      exact List.append_ne_nil_of_right_ne_nil s₁ (List.cons_ne_nil c s₂) hsplit.symm

/-- Where no bracket is open, none is closed. -/
theorem closes_none (hx : close x = none) : ¬Closes close [] (x :: s) := by
  intro h
  obtain ⟨s₁, c, s₂, -, hclose, -⟩ := balanced_cons.1 h
  rw [hx] at hclose
  cases hclose

/-- A closing bracket fits the bracket that was opened last. -/
theorem closes_close (hx : close x = none) :
    Closes close (o :: os) (x :: s) ↔ close o = some x ∧ Closes close os s := by
  constructor
  · rintro ⟨s₁, c, s₂, hsplit, hclose, hs₁, hs₂⟩
    cases s₁ with
    | nil =>
        obtain ⟨rfl, rfl⟩ := List.cons.inj hsplit
        exact ⟨hclose, hs₂⟩
    | cons y s₁ =>
        -- A string that starts with the closing bracket is not balanced.
        obtain ⟨rfl, -⟩ := List.cons.inj hsplit
        exact absurd hs₁ (closes_none hx)
  · rintro ⟨hclose, hs⟩
    exact ⟨[], x, s, rfl, hclose, .nil, hs⟩

/-- An opening bracket is one more that is open. -/
theorem closes_open (hdisjoint : ∀ o c, close o = some c → close c = none)
    (ho : (close o).isSome = true) : Closes close os (o :: s) ↔ Closes close (o :: os) s := by
  cases os with
  | nil => exact balanced_cons
  | cons p os =>
      constructor
      · rintro ⟨s₁, c, s₂, hsplit, hclose, hs₁, hs₂⟩
        cases s₁ with
        | nil =>
            obtain ⟨rfl, -⟩ := List.cons.inj hsplit
            rw [hdisjoint p o hclose] at ho
            cases ho
        | cons y s₁ =>
            obtain ⟨rfl, rfl⟩ := List.cons.inj hsplit
            obtain ⟨t₁, d, t₂, rfl, hclose', ht₁, ht₂⟩ := balanced_cons.1 hs₁
            exact ⟨t₁, d, t₂ ++ c :: s₂, by simp, hclose', ht₁, t₂, c, s₂, rfl, hclose, ht₂, hs₂⟩
      · rintro ⟨s₁, c, s₂, rfl, hclose, hs₁, t₁, d, t₂, rfl, hclose', ht₁, ht₂⟩
        exact ⟨o :: (s₁ ++ c :: t₁), d, t₂, by simp, hclose', .wrap hclose hs₁ ht₁, ht₂⟩

end CLib
