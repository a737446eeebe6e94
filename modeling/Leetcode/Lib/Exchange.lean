import Mathlib.Data.List.Sort
import Mathlib.Order.Basic

/-!
# The exchange sort

Two nested loops compare every one of the first `len` places with every later one of them and
exchange the two elements when the first one is the larger, by a key `f`.

* `exchangeSort_perm` — the elements stay the same.
* `exchangeSort_drop` — those behind the first `len` stay where they are.
* `exchangeSort_pairwise_iff` — when the keys come out in order.
* `eq_iff_perm_of_pairwise` — when different elements have different keys, two lists in order are
  the same just when they have the same elements.
-/

namespace CLib

variable {α β : Type*} [LinearOrder β] {f : α → β} {l : List α} {i j m len : ℕ}

/-- `if (l[i] > l[j])` exchange the two. -/
def compareSwap (f : α → β) (i j : ℕ) (l : List α) : List α :=
  match l[i]?, l[j]? with
  | some a, some b => if f b < f a then (l.set i b).set j a else l
  | _, _ => l

/-- `for (j = i + 1; j < len; j++)` -/
def exchangeRound (f : α → β) (len : ℕ) (l : List α) (i : ℕ) : List α :=
  (List.range' (i + 1) (len - (i + 1))).foldl (fun l j => compareSwap f i j l) l

/-- `for (i = 0; i < len - 1; i++)` -/
def exchangeSort (f : α → β) (len : ℕ) (l : List α) : List α :=
  (List.range (len - 1)).foldl (exchangeRound f len) l

/-! ## The elements -/

theorem compareSwap_perm (f : α → β) (i j : ℕ) (l : List α) : (compareSwap f i j l).Perm l := by
  unfold compareSwap
  split
  · next a b hi hj =>
      split
      · obtain ⟨hi', rfl⟩ := List.getElem?_eq_some_iff.1 hi
        obtain ⟨hj', rfl⟩ := List.getElem?_eq_some_iff.1 hj
        exact List.set_set_perm hi' hj'
      · exact List.Perm.refl l
  · exact List.Perm.refl l

theorem foldl_perm {ι : Type*} {step : List α → ι → List α} (h : ∀ l i, (step l i).Perm l)
    (is : List ι) (l : List α) : (is.foldl step l).Perm l := by
  induction is generalizing l with
  | nil => exact List.Perm.refl l
  | cons i is ih => exact (ih (step l i)).trans (h l i)

theorem exchangeRound_perm (f : α → β) (len : ℕ) (l : List α) (i : ℕ) :
    (exchangeRound f len l i).Perm l :=
  foldl_perm (fun l j => compareSwap_perm f i j l) _ l

theorem exchangeSort_perm (f : α → β) (len : ℕ) (l : List α) : (exchangeSort f len l).Perm l :=
  foldl_perm (fun l i => exchangeRound_perm f len l i) _ l

/-! ## The elements behind the first ones -/

theorem compareSwap_drop (f : α → β) (l : List α) (hi : i < len) (hj : j < len) :
    (compareSwap f i j l).drop len = l.drop len := by
  unfold compareSwap
  split
  · split
    · rw [List.drop_set_of_lt hj, List.drop_set_of_lt hi]
    · rfl
  · rfl

theorem foldl_drop {ι : Type*} {step : List α → ι → List α} (is : List ι)
    (h : ∀ i ∈ is, ∀ l, (step l i).drop len = l.drop len) (l : List α) :
    (is.foldl step l).drop len = l.drop len := by
  induction is generalizing l with
  | nil => rfl
  | cons i is ih =>
      rw [List.foldl_cons, ih fun j hj => h j (List.mem_cons_of_mem i hj)]
      exact h i List.mem_cons_self l

theorem exchangeSort_drop (f : α → β) (len : ℕ) (l : List α) :
    (exchangeSort f len l).drop len = l.drop len := by
  refine foldl_drop _ (fun i hi l => foldl_drop _ (fun j hj l => ?_) l) l
  rw [List.mem_range] at hi
  rw [List.mem_range'_1] at hj
  exact compareSwap_drop f l (by omega) (by omega)

theorem exchangeSort_take_perm (f : α → β) (len : ℕ) (l : List α) :
    ((exchangeSort f len l).take len).Perm (l.take len) := by
  have hperm := exchangeSort_perm f len l
  rw [← List.take_append_drop len (exchangeSort f len l), exchangeSort_drop] at hperm
  have hsplit := List.Perm.of_eq (List.take_append_drop len l).symm
  exact (List.perm_append_right_iff _).1 (hperm.trans hsplit)

/-! ## The order -/

/-- The element at `i` is the least one of those from `i` up to `m`. -/
def LeastUpTo (f : α → β) (l : List α) (i m : ℕ) : Prop :=
  ∀ j, i < j → j < m → ∀ a b, l[i]? = some a → l[j]? = some b → f a ≤ f b

/-- What one comparison leaves behind. -/
theorem compareSwap_cases (f : α → β) (hij : i < j) (hj : j < l.length) :
    ∃ a b, (compareSwap f i j l)[i]? = some a ∧ (compareSwap f i j l)[j]? = some b ∧ f a ≤ f b ∧
      (∀ k, k ≠ i → k ≠ j → (compareSwap f i j l)[k]? = l[k]?) ∧
      (l[i]? = some a ∧ l[j]? = some b ∨ l[i]? = some b ∧ l[j]? = some a) := by
  have hi : i < l.length := by omega
  have hgeti : l[i]? = some l[i] := List.getElem?_eq_getElem hi
  have hgetj : l[j]? = some l[j] := List.getElem?_eq_getElem hj
  unfold compareSwap
  rw [hgeti, hgetj]
  by_cases hlt : f l[j] < f l[i]
  · simp only [hlt, if_true]
    refine ⟨l[j], l[i], ?_, ?_, le_of_lt hlt, fun k hki hkj => ?_, Or.inr ⟨rfl, rfl⟩⟩
    · rw [List.getElem?_set_ne (by omega), List.getElem?_set_self hi]
    · rw [List.getElem?_set_self (by rw [List.length_set]; exact hj)]
    · rw [List.getElem?_set_ne (Ne.symm hkj), List.getElem?_set_ne (Ne.symm hki)]
  · simp only [hlt, if_false]
    exact ⟨l[i], l[j], hgeti, hgetj, le_of_not_gt hlt, fun _ _ _ => trivial, Or.inl ⟨rfl, rfl⟩⟩

/-- A place in front keeps its element and the elements behind it. -/
theorem leastUpTo_before {k : ℕ} (hij : i < j) (hj : j < len) (hlen : len ≤ l.length) (hk : k < i)
    (h : LeastUpTo f l k len) : LeastUpTo f (compareSwap f i j l) k len := by
  obtain ⟨a, b, hi', hj', -, hsame, hswap⟩ := compareSwap_cases f hij (by omega : j < l.length)
  intro n hkn hn x y hx hy
  rw [hsame k (by omega) (by omega)] at hx
  by_cases hni : n = i
  · rw [hni, hi'] at hy
    cases hy
    rcases hswap with ⟨hold, -⟩ | ⟨-, hold⟩
    · exact h i hk (by omega) x a hx hold
    · exact h j (by omega) hj x a hx hold
  · by_cases hnj : n = j
    · rw [hnj, hj'] at hy
      cases hy
      rcases hswap with ⟨-, hold⟩ | ⟨hold, -⟩
      · exact h j (by omega) hj x b hx hold
      · exact h i hk (by omega) x b hx hold
    · rw [hsame n hni hnj] at hy
      exact h n hkn hn x y hx hy

/-- One more place has been compared. -/
theorem leastUpTo_step (hij : i < j) (hj : j < l.length) (h : LeastUpTo f l i j) :
    LeastUpTo f (compareSwap f i j l) i (j + 1) := by
  obtain ⟨a, b, hi', hj', hle, hsame, hswap⟩ := compareSwap_cases f hij hj
  intro n hin hn x y hx hy
  rw [hi'] at hx
  cases hx
  by_cases hnj : n = j
  · rw [hnj, hj'] at hy
    cases hy
    exact hle
  · rw [hsame n (by omega) hnj] at hy
    rcases hswap with ⟨hold, -⟩ | ⟨hold, -⟩
    · exact h n hin (by omega) a y hold hy
    · exact hle.trans (h n hin (by omega) b y hold hy)

/-- The inner loop from the place `j` on. -/
theorem round_least {n : ℕ} (hij : i < j) (hj : j + n = len) (hlen : len ≤ l.length)
    (hbefore : ∀ k < i, LeastUpTo f l k len) (h : LeastUpTo f l i j) :
    ∀ k ≤ i, LeastUpTo f ((List.range' j n).foldl (fun l j => compareSwap f i j l) l) k len := by
  induction n generalizing j l with
  | zero =>
      intro k hk
      rcases Nat.lt_or_eq_of_le hk with hlt | heq
      · exact hbefore k hlt
      · rw [heq, ← hj]
        exact h
  | succ n ih =>
      have hlength : (compareSwap f i j l).length = l.length :=
        (compareSwap_perm f i j l).length_eq
      rw [List.range'_succ, List.foldl_cons]
      refine ih (by omega) (by omega) (by omega) (fun k hk => ?_)
        (leastUpTo_step hij (by omega) h)
      exact leastUpTo_before hij (by omega) hlen hk (hbefore k hk)

/-- The outer loop after `n` rounds. -/
theorem rounds_least {n : ℕ} (hlen : len ≤ l.length) (hn : n ≤ len - 1) :
    ∀ k < n, LeastUpTo f ((List.range n).foldl (exchangeRound f len) l) k len := by
  induction n with
  | zero => exact fun k hk => absurd hk (Nat.not_lt_zero k)
  | succ n ih =>
      have hlength : ((List.range n).foldl (exchangeRound f len) l).length = l.length :=
        (foldl_perm (fun l i => exchangeRound_perm f len l i) _ l).length_eq
      rw [List.range_succ, List.foldl_concat, exchangeRound]
      intro k hk
      refine round_least (Nat.lt_succ_self n) (by omega) (by omega)
        (fun k hk => ih (by omega) k hk) ?_ k (by omega)
      intro j hnj hj
      omega

theorem exchangeSort_take_pairwise (f : α → β) (hlen : len ≤ l.length) :
    ((exchangeSort f len l).take len).Pairwise fun a b => f a ≤ f b := by
  have hlength : (exchangeSort f len l).length = l.length := (exchangeSort_perm f len l).length_eq
  rw [List.pairwise_iff_getElem]
  intro i j hi hj hij
  rw [List.length_take] at hi hj
  have hi' : i < (exchangeSort f len l).length := by omega
  have hj' : j < (exchangeSort f len l).length := by omega
  rw [List.getElem_take, List.getElem_take]
  exact rounds_least hlen (Nat.le_refl _) i (by omega) j hij (by omega) _ _
    (List.getElem?_eq_getElem hi') (List.getElem?_eq_getElem hj')

/-- The keys come out in order if and only if those behind the first `len` are in order and not
less than these. -/
theorem exchangeSort_pairwise_iff (f : α → β) (hlen : len ≤ l.length) :
    (exchangeSort f len l).Pairwise (fun a b => f a ≤ f b) ↔
      (l.drop len).Pairwise (fun a b => f a ≤ f b) ∧
        ∀ a ∈ l.take len, ∀ b ∈ l.drop len, f a ≤ f b := by
  have hperm := exchangeSort_take_perm f len l
  rw [← List.take_append_drop len (exchangeSort f len l), exchangeSort_drop, List.pairwise_append,
    and_iff_right (exchangeSort_take_pairwise f hlen)]
  simp only [hperm.mem_iff]

theorem eq_iff_perm_of_pairwise (hf : Function.Injective f) {l₁ l₂ : List α}
    (h₁ : l₁.Pairwise fun a b => f a ≤ f b) (h₂ : l₂.Pairwise fun a b => f a ≤ f b) :
    l₁ = l₂ ↔ l₁.Perm l₂ :=
  ⟨List.Perm.of_eq, fun h =>
    h.eq_of_pairwise (fun _ _ _ _ hab hba => hf (le_antisymm hab hba)) h₁ h₂⟩

end CLib
