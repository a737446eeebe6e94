import Leetcode.Lib.Loop
import Leetcode.TwoSum.Model

/-!
# Which pair `twoSum` returns

The `break` ends a row at its first hit, and a later row writes over an earlier one, so the
answer is the first hit of the last row that has one (`Last`).  A hit is a pair whose sum is the
target up to a multiple of `2 ^ 32` (`add_eq_iff`): the pair with the exact sum is returned if
and only if the ones that wrap around come before its row or behind it in its row.
-/

namespace Leetcode
namespace TwoSum

open CLib

/-- The entries at `i` and at `j` behind it are there and in the relation `R`. -/
def Pair (R : Int32 → Int32 → Prop) (nums : List Int32) (i j : ℕ) : Prop :=
  i < j ∧ ∃ a ∈ nums[i]?, ∃ b ∈ nums[j]?, R a b

instance (R : Int32 → Int32 → Prop) [DecidableRel R] (nums : List Int32) (i j : ℕ) :
    Decidable (Pair R nums i j) := inferInstanceAs (Decidable (_ ∧ _))

/-- The exact sum is `t`. -/
abbrev SumsTo (nums : List Int32) (i j : ℕ) (t : ℤ) : Prop :=
  Pair (fun a b => a.toInt + b.toInt = t) nums i j

/-- The test of the inner loop succeeds. -/
abbrev Hit (nums : List Int32) (target : Int32) (i j : ℕ) : Prop :=
  Pair (fun a b => a + b = target) nums i j

variable {nums : List Int32} {target : Int32} {i j : ℕ}

/-- A sum of two `int`s that wraps is off by `2 ^ 32`. -/
theorem add_eq_iff (a b target : Int32) :
    a + b = target ↔ a.toInt + b.toInt = target.toInt ∨
      a.toInt + b.toInt = target.toInt + 2 ^ 32 ∨ a.toInt + b.toInt = target.toInt - 2 ^ 32 := by
  have ha := a.le_toInt
  have ha' := a.toInt_lt
  have hb := b.le_toInt
  have hb' := b.toInt_lt
  have ht := target.le_toInt
  have ht' := target.toInt_lt
  rw [← Int32.toInt_inj, Int32.toInt_add, Int.bmod_def]
  omega

/-! ## Pairs of entries -/

variable {R S : Int32 → Int32 → Prop}

theorem Pair.lt_length (h : Pair R nums i j) : j < nums.length := by
  obtain ⟨-, a, -, b, hb, -⟩ := h
  exact (List.getElem?_eq_some_iff.1 hb).1

theorem pair_iff {a b : Int32} (hij : i < j) (ha : nums[i]? = some a) (hb : nums[j]? = some b) :
    Pair R nums i j ↔ R a b := by
  constructor
  · rintro ⟨-, a', ha', b', hb', h⟩
    obtain rfl := Option.mem_unique ha' ha
    obtain rfl := Option.mem_unique hb' hb
    exact h
  · intro h
    exact ⟨hij, a, ha, b, hb, h⟩

theorem pair_or :
    Pair (fun a b => R a b ∨ S a b) nums i j ↔ Pair R nums i j ∨ Pair S nums i j := by
  constructor
  · rintro ⟨hij, a, ha, b, hb, h | h⟩
    · exact Or.inl ⟨hij, a, ha, b, hb, h⟩
    · exact Or.inr ⟨hij, a, ha, b, hb, h⟩
  · rintro (⟨hij, a, ha, b, hb, h⟩ | ⟨hij, a, ha, b, hb, h⟩)
    · exact ⟨hij, a, ha, b, hb, Or.inl h⟩
    · exact ⟨hij, a, ha, b, hb, Or.inr h⟩

/-- The exact sum of a hit is the target, or off by `2 ^ 32`. -/
theorem hit_iff :
    Hit nums target i j ↔ SumsTo nums i j target.toInt ∨
      SumsTo nums i j (target.toInt + 2 ^ 32) ∨ SumsTo nums i j (target.toInt - 2 ^ 32) := by
  have hsum : (fun a b : Int32 => a + b = target) = fun a b =>
      a.toInt + b.toInt = target.toInt ∨ a.toInt + b.toInt = target.toInt + 2 ^ 32 ∨
        a.toInt + b.toInt = target.toInt - 2 ^ 32 := by
    ext a b
    exact add_eq_iff a b target
  rw [Hit, hsum, pair_or, pair_or]

/-- One pair of entries does not have two sums. -/
theorem sum_unique {t t' : ℤ} (h : SumsTo nums i j t) (h' : SumsTo nums i j t') : t = t' := by
  obtain ⟨hij, a, ha, b, hb, rfl⟩ := h
  exact (pair_iff hij ha hb).1 h'

/-! ## The loops -/

/-- What the first `rows` rows have left: the first hit of the last of them that has one. -/
def Last (nums : List Int32) (target : Int32) (junk : List ℤ) (rows : ℕ)
    (returnValues : List ℤ) : Prop :=
  (returnValues = junk ∧ ∀ i j, i < rows → ¬Hit nums target i j) ∨
    ∃ i j : ℕ, returnValues = [(i : ℤ), (j : ℤ)] ∧ i < rows ∧ Hit nums target i j ∧
      ∀ i' j', i' < rows → Hit nums target i' j' → i' < i ∨ i' = i ∧ j ≤ j'

/-- One row stops at its first hit. -/
theorem rowLoop_ok (target : Int32) (x y : ℤ) {rounds : ℕ} (hij : i < j)
    (hn : j + rounds = nums.length) :
    ((∀ j', j ≤ j' → ¬Hit nums target i j') ∧
        rowLoop nums target i rounds j [x, y] = some [x, y]) ∨
      ∃ m : ℕ, Hit nums target i m ∧ (∀ j', j ≤ j' → Hit nums target i j' → m ≤ j') ∧
        rowLoop nums target i rounds j [x, y] = some [(i : ℤ), (m : ℤ)] := by
  induction rounds generalizing j with
  | zero =>
      refine Or.inl ⟨fun j' hj' hhit => ?_, rfl⟩
      have hlt := hhit.lt_length
      omega
  | succ rounds ih =>
      have hi : i < nums.length := by omega
      have hj : j < nums.length := by omega
      have ha : nums[i]? = some nums[i] := List.getElem?_eq_getElem hi
      have hb : nums[j]? = some nums[j] := List.getElem?_eq_getElem hj
      rw [rowLoop, load_natCast, ha, Option.bind_some, load_natCast, hb, Option.bind_some]
      by_cases hsum : nums[i] + nums[j] = target
      · rw [if_pos hsum]
        exact Or.inr ⟨j, (pair_iff hij ha hb).2 hsum, fun j' hj' _ => hj', rfl⟩
      · rw [if_neg hsum]
        have hmiss : ¬Hit nums target i j := fun hhit => hsum ((pair_iff hij ha hb).1 hhit)
        have hfrom : ∀ j', j ≤ j' → Hit nums target i j' → j + 1 ≤ j' := by
          intro j' hj' hhit
          rcases Nat.lt_or_eq_of_le hj' with hlt | rfl
          · exact hlt
          · exact absurd hhit hmiss
        rcases ih (Nat.lt_succ_of_lt hij) (by omega) with ⟨hnone, hrow⟩ | ⟨m, hm, hfirst, hrow⟩
        · exact Or.inl ⟨fun j' hj' hhit => hnone j' (hfrom j' hj' hhit) hhit, hrow⟩
        · exact Or.inr ⟨m, hm, fun j' hj' hhit => hfirst j' (hfrom j' hj' hhit) hhit, hrow⟩

/-- One more row. -/
theorem last_step {x y : ℤ} {returnValues : List ℤ} {row : ℕ} (hrow : row < nums.length)
    (h : Last nums target [x, y] row returnValues) :
    ∃ returnValues', rowLoop nums target row (nums.length - (row + 1)) (row + 1) returnValues =
        some returnValues' ∧ Last nums target [x, y] (row + 1) returnValues' := by
  have hpair : ∃ u v, returnValues = [u, v] := by
    rcases h with ⟨rfl, -⟩ | ⟨i, j, rfl, -⟩
    · exact ⟨x, y, rfl⟩
    · exact ⟨i, j, rfl⟩
  obtain ⟨u, v, rfl⟩ := hpair
  have hn : row + 1 + (nums.length - (row + 1)) = nums.length := by omega
  rcases rowLoop_ok target u v (Nat.lt_succ_self row) hn with
    ⟨hnone, hloop⟩ | ⟨m, hm, hfirst, hloop⟩
  · -- The row has no hit, so the answer of the earlier rows stays.
    have hbefore : ∀ i' j', i' < row + 1 → Hit nums target i' j' → i' < row := by
      intro i' j' hi' hhit
      rcases Nat.lt_or_eq_of_le (Nat.le_of_lt_succ hi') with hlt | rfl
      · exact hlt
      · exact absurd hhit (hnone j' hhit.1)
    refine ⟨[u, v], hloop, ?_⟩
    rcases h with ⟨hjunk, hmiss⟩ | ⟨i, j, hpair, hi, hhit, hlast⟩
    · exact Or.inl ⟨hjunk, fun i' j' hi' hhit => hmiss i' j' (hbefore i' j' hi' hhit) hhit⟩
    · exact Or.inr ⟨i, j, hpair, Nat.lt_succ_of_lt hi, hhit, fun i' j' hi' hhit' =>
        hlast i' j' (hbefore i' j' hi' hhit') hhit'⟩
  · refine ⟨[(row : ℤ), (m : ℤ)], hloop, Or.inr ⟨row, m, rfl, Nat.lt_succ_self row, hm, ?_⟩⟩
    intro i' j' hi' hhit
    rcases Nat.lt_or_eq_of_le (Nat.le_of_lt_succ hi') with hlt | rfl
    · exact Or.inl hlt
    · exact Or.inr ⟨rfl, hfirst j' hhit.1 hhit⟩

/-- The answer is the first hit of the last row with a hit. -/
theorem twoSum_last (junk : ℕ → ℤ) (hhit : Hit nums target i j) :
    ∃ i' j' : ℕ, twoSum junk nums target = some ([(i' : ℤ), (j' : ℤ)], 2) ∧
      Hit nums target i' j' ∧
      ∀ i'' j'', Hit nums target i'' j'' → i'' < i' ∨ i'' = i' ∧ j' ≤ j'' := by
  -- A hit has a column behind its row, so the last row has none.
  have hrows : ∀ i j, Hit nums target i j → i < nums.length - 1 := by
    intro i j h
    have hlt := h.lt_length
    have hij := h.1
    omega
  have hinit : Last nums target [junk 0, junk 1] 0 [junk 0, junk 1] :=
    Or.inl ⟨rfl, fun i j hi => absurd hi (Nat.not_lt_zero i)⟩
  obtain ⟨returnValues, hloop, hlast⟩ :=
    foldlM_range_ok (n := nums.length - 1) hinit fun row s hrow h => last_step (by omega) h
  rcases hlast with ⟨-, hnone⟩ | ⟨i', j', rfl, -, hhit', hbest⟩
  · exact absurd hhit (hnone i j (hrows i j hhit))
  · refine ⟨i', j', ?_, hhit', fun i'' j'' h => hbest i'' j'' (hrows i'' j'' h) h⟩
    exact congrArg (Option.map fun returnValues => (returnValues, (2 : ℤ))) hloop

/-- When just one pair has the exact sum, `twoSum` returns it if and only if no pair whose sum
wraps to the target is in a later row, or further left in the same row. -/
theorem twoSum_returns_iff (junk : ℕ → ℤ) (hpair : SumsTo nums i j target.toInt)
    (hunique : ∀ i' j', SumsTo nums i' j' target.toInt → i' = i ∧ j' = j) :
    twoSum junk nums target = some ([(i : ℤ), (j : ℤ)], 2) ↔
      ∀ i' j', SumsTo nums i' j' (target.toInt + 2 ^ 32) ∨
          SumsTo nums i' j' (target.toInt - 2 ^ 32) →
        i' < i ∨ i' = i ∧ j < j' := by
  have hhit : Hit nums target i j := hit_iff.2 (Or.inl hpair)
  obtain ⟨i₀, j₀, hreturn, hhit₀, hbest⟩ := twoSum_last junk hhit
  rw [hreturn]
  constructor
  · intro heq i' j' hwraps
    have hij : i₀ = i ∧ j₀ = j := by simpa using heq
    obtain ⟨rfl, rfl⟩ := hij
    rcases hbest i' j' (hit_iff.2 (Or.inr hwraps)) with hlt | ⟨rfl, hle⟩
    · exact Or.inl hlt
    · refine Or.inr ⟨rfl, Nat.lt_of_le_of_ne hle ?_⟩
      rintro rfl
      rcases hwraps with h | h
      · have hsum := sum_unique hpair h
        omega
      · have hsum := sum_unique hpair h
        omega
  · intro hwraps
    have hfirst := hbest i j hhit
    rcases hit_iff.1 hhit₀ with hexact | hwrap
    · obtain ⟨rfl, rfl⟩ := hunique i₀ j₀ hexact
      rfl
    · have hbefore := hwraps i₀ j₀ hwrap
      omega

/-- The pair in the front has the sum, and the one at the end wraps to it. -/
theorem twoSum_wraps :
    SumsTo [-1, -1, 2147483647, 2147483647] 0 1 (-2) ∧
      (∀ i j, SumsTo [-1, -1, 2147483647, 2147483647] i j (-2) → i = 0 ∧ j = 1) ∧
      twoSum (fun _ => 0) [-1, -1, 2147483647, 2147483647] (-2) = some ([2, 3], 2) := by
  have hbounded : ∀ i < 4, ∀ j < 4, SumsTo [-1, -1, 2147483647, 2147483647] i j (-2) →
      i = 0 ∧ j = 1 := by decide
  refine ⟨by decide, fun i j h => ?_, by decide⟩
  exact hbounded i (h.1.trans h.lt_length) j h.lt_length h

/-- A pair that wraps in an earlier row. -/
theorem twoSum_returns_iff_earlier_row :
    twoSum (fun _ => 0) [2147483647, 2147483647, -1, -1] (-2) =
        some ([((2 : ℕ) : ℤ), ((3 : ℕ) : ℤ)], 2) ↔
      ∀ i' j', SumsTo [2147483647, 2147483647, -1, -1] i' j' ((-2 : Int32).toInt + 2 ^ 32) ∨
          SumsTo [2147483647, 2147483647, -1, -1] i' j' ((-2 : Int32).toInt - 2 ^ 32) →
        i' < 2 ∨ i' = 2 ∧ 3 < j' := by
  have hbounded : ∀ i < 4, ∀ j < 4,
      SumsTo [2147483647, 2147483647, -1, -1] i j (-2 : Int32).toInt → i = 2 ∧ j = 3 := by decide
  refine twoSum_returns_iff (i := 2) (j := 3) (fun _ => 0) (by decide) fun i j h => ?_
  exact hbounded i (h.1.trans h.lt_length) j h.lt_length h

end TwoSum
end Leetcode
