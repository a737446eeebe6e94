import Leetcode.CreateSorted.Model
import Leetcode.Lib.Fenwick
import Leetcode.Lib.Loop

/-!
# What `createSortedArray` returns

`bit` is a Fenwick tree of how often each value has come so far.  A query is then the number of
earlier elements up to a value, which leaves equal elements out on both sides.

* `queryWith_ok`, `updateWith_ok` — the two functions on a Fenwick tree, when the results that they
  need are those of unbounded integers.
* `Counted` — the invariant of the loop over the instructions.
-/

namespace Leetcode
namespace CreateSorted

open CLib

/-! ## `query` and `update` -/

theorem read_ok (bit : Bit) {n : ℕ} (h : n ≤ MAX_VAL) : read bit n = some (bit n) := by
  have hrange : (0 : ℤ) ≤ n ∧ (n : ℤ) < MAX_VAL + 2 := by omega
  rw [read, if_pos hrange, Int.toNat_natCast]

theorem lowbit_ok {n : ℕ} (h : 0 < n) : lowbit n = low n := land_neg h

section

variable {result : ℤ → Option ℤ} {bit : Bit} {a : ℕ → ℤ} {n : ℕ}

/-- Behind the last entry the loop of `update` stops. -/
theorem updateWith_beyond (val : ℤ) (fuel : ℕ) (hn : MAX_VAL < n) :
    ∃ bit', updateWith result val (fuel + 1) bit n = some bit' ∧
      ∀ i, i ≤ MAX_VAL → bit' i = bit i + if Covers i n then val else 0 := by
  refine ⟨bit, ?_, fun i hi => ?_⟩
  · rw [updateWith, if_neg (by omega)]
  · have hnot : ¬Covers i n := fun h => by
      have hle := h.1
      omega
    rw [if_neg hnot, add_zero]

variable (hindex : ∀ n : ℕ, n ≤ 2 * MAX_VAL → result n = some (n : ℤ))

include hindex

/-- The loop of `query`, on its way down from `i`. -/
theorem queryLoop_ok (h : Fenwick MAX_VAL bit a) {i : ℕ} (hi : i ≤ MAX_VAL)
    (hsum : ∀ j, Descends i j →
      result (∑ x ∈ Finset.Ioc j i, a x) = some (∑ x ∈ Finset.Ioc j i, a x))
    {fuel : ℕ} (hn : Descends i n) (hfuel : n < fuel) :
    queryLoop result bit fuel (∑ x ∈ Finset.Ioc n i, a x) n =
      some (∑ x ∈ Finset.Ioc 0 i, a x) := by
  induction fuel generalizing n with
  | zero => exact absurd hfuel (Nat.not_lt_zero n)
  | succ fuel ih =>
      rw [queryLoop]
      rcases Nat.eq_zero_or_pos n with rfl | hpos
      · rfl
      obtain ⟨hlow, hle⟩ := low_pos_le hpos
      have hni := hn.le
      have hnext : (n : ℤ) - lowbit n = (n - low n : ℕ) := by
        rw [lowbit_ok hpos]
        omega
      rw [if_pos (by omega), read_ok bit (by omega), Option.bind_some, h.sum_next hpos hni hi,
        hsum _ (hn.next hpos), Option.bind_some, hnext, hindex _ (by omega), Option.bind_some]
      exact ih (hn.next hpos) (by omega)

/-- `query` returns a prefix sum. -/
theorem queryWith_ok (h : Fenwick MAX_VAL bit a) (hn : n ≤ MAX_VAL)
    (hsum : ∀ j, Descends n j →
      result (∑ x ∈ Finset.Ioc j n, a x) = some (∑ x ∈ Finset.Ioc j n, a x)) :
    queryWith result bit n = some (∑ x ∈ Finset.Ioc 0 n, a x) := by
  have hloop := queryLoop_ok hindex h hn hsum .refl (Nat.lt_succ_of_le hn)
  rw [Finset.Ioc_self, Finset.sum_empty] at hloop
  exact hloop

/-- The loop of `update` goes through the entries that cover its index. -/
theorem updateLoop_ok (val : ℤ) (fuel : ℕ) (hn : 0 < n) (hfuel : MAX_VAL < n + fuel)
    (hval : ∀ i ≤ MAX_VAL, Covers i n → result (bit i + val) = some (bit i + val)) :
    ∃ bit', updateWith result val (fuel + 1) bit n = some bit' ∧
      ∀ i, i ≤ MAX_VAL → bit' i = bit i + if Covers i n then val else 0 := by
  induction fuel generalizing n bit with
  | zero => exact updateWith_beyond val 0 hfuel
  | succ fuel ih =>
      by_cases hin : MAX_VAL < n
      · exact updateWith_beyond val _ hin
      obtain ⟨hlow, hle⟩ := low_pos_le hn
      have hself : Covers n n := ⟨le_rfl, by omega⟩
      have hnext : (n : ℤ) + lowbit n = (n + low n : ℕ) := by rw [lowbit_ok hn, Nat.cast_add]
      -- The entries that come next cover `n` too, and are not the one just written.
      have hval' : ∀ i ≤ MAX_VAL, Covers i (n + low n) →
          result (Function.update bit n (bit n + val) i + val) =
            some (Function.update bit n (bit n + val) i + val) := by
        intro i hi hcovers
        have hlater := hcovers.1
        rw [Function.update_of_ne (by omega)]
        exact hval i hi ((covers_next hn i).2 (Or.inr hcovers))
      obtain ⟨bit', hupdate, hbit⟩ := ih (by omega) (by omega) hval'
      refine ⟨bit', ?_, fun i hi => ?_⟩
      · rw [updateWith, if_pos (by omega), read_ok bit (not_lt.1 hin), Option.bind_some,
          hval n (not_lt.1 hin) hself, Option.bind_some, hnext, hindex _ (by omega),
          Option.bind_some, Int.toNat_natCast]
        exact hupdate
      · rw [hbit i hi]
        by_cases heq : i = n
        · subst heq
          have hlater : ¬Covers i (i + low i) := fun h => by
            have hle := h.1
            omega
          rw [Function.update_self, if_neg hlater, if_pos hself, add_zero]
        · have hsame : Covers i n ↔ Covers i (n + low n) := by
            rw [covers_next hn, or_iff_right heq]
          rw [Function.update_of_ne heq, if_congr hsame rfl rfl]

/-- `update` adds to the value at its index, when the entries of the new values can be formed. -/
theorem updateWith_ok (h : Fenwick MAX_VAL bit a) (hn : 0 < n) (val : ℤ)
    (hval : ∀ i, 0 < i → i ≤ MAX_VAL →
      let entry := ∑ x ∈ Finset.Ioc (i - low i) i, Function.update a n (a n + val) x
      result entry = some entry) :
    ∃ bit', updateWith result val (MAX_VAL + 1) bit n = some bit' ∧
      Fenwick MAX_VAL bit' (Function.update a n (a n + val)) := by
  have htree : Fenwick MAX_VAL (fun i => bit i + if Covers i n then val else 0)
      (Function.update a n (a n + val)) := h.add val fun _ _ _ => rfl
  have hval' : ∀ i ≤ MAX_VAL, Covers i n → result (bit i + val) = some (bit i + val) := by
    intro i hi hcovers
    have hpos : 0 < i := Nat.lt_of_lt_of_le hn hcovers.1
    have hentry := htree i hpos hi
    simp only [if_pos hcovers] at hentry
    rw [hentry]
    exact hval i hpos hi
  obtain ⟨bit', hupdate, hbit⟩ := updateLoop_ok hindex val MAX_VAL hn (by omega) hval'
  exact ⟨bit', hupdate, h.add val fun i _ hle => hbit i hle⟩

end

theorem query_ok {bit : Bit} {a : ℕ → ℤ} (h : Fenwick MAX_VAL bit a) {n : ℕ} (hn : n ≤ MAX_VAL) :
    query bit n = some (∑ x ∈ Finset.Ioc 0 n, a x) :=
  queryWith_ok (fun _ _ => rfl) h hn fun _ _ => rfl

theorem update_ok {bit : Bit} {a : ℕ → ℤ} (h : Fenwick MAX_VAL bit a) {n : ℕ} (hn : 0 < n)
    (val : ℤ) :
    ∃ bit', update val (MAX_VAL + 1) bit n = some bit' ∧
      Fenwick MAX_VAL bit' (Function.update a n (a n + val)) :=
  updateWith_ok (fun _ _ => rfl) h hn val fun _ _ _ => rfl

/-! ## Counting -/

/-- How often a value has come. -/
def tallyOf (done : List ℤ) (x : ℕ) : ℤ := done.count (x : ℤ)

/-- The elements up to `n` are counted value by value. -/
theorem sum_tallyOf {done : List ℤ} (hpos : ∀ x ∈ done, 1 ≤ x) (n : ℕ) :
    ∑ x ∈ Finset.Ioc 0 n, tallyOf done x = done.countP (· ≤ (n : ℤ)) := by
  induction done with
  | nil => simp [tallyOf]
  | cons y done ih =>
      obtain ⟨hy, hdone⟩ := List.forall_mem_cons.1 hpos
      obtain ⟨k, rfl⟩ : ∃ k : ℕ, y = k := ⟨y.toNat, by omega⟩
      have hcons : ∀ x : ℕ, tallyOf (k :: done) x = tallyOf done x + if k = x then 1 else 0 := by
        intro x
        rw [tallyOf, List.count_cons, tallyOf, Nat.cast_add]
        simp
      rw [Finset.sum_congr rfl fun x _ => hcons x, Finset.sum_add_distrib, ih hdone,
        Finset.sum_ite_eq, List.countP_cons, Nat.cast_add]
      congr 1
      by_cases hle : k ≤ n
      · have hmem : k ∈ Finset.Ioc 0 n := Finset.mem_Ioc.2 ⟨by omega, hle⟩
        simp [hmem, hle]
      · have hmem : k ∉ Finset.Ioc 0 n := fun h => hle (Finset.mem_Ioc.1 h).2
        simp [hmem, hle]

theorem tallyOf_concat (done : List ℤ) (n : ℕ) :
    Function.update (tallyOf done) n (tallyOf done n + 1) = tallyOf (done ++ [(n : ℤ)]) := by
  funext x
  by_cases heq : x = n
  · subst heq
    simp [tallyOf]
  · have hne : ((n : ℤ) == x) = false := by
      rw [beq_eq_false_iff_ne, Ne, Nat.cast_inj]
      exact fun h => heq h.symm
    simp [tallyOf, Function.update_of_ne heq, List.count_singleton, hne]

/-! ## The cost -/

/-- For every position the fewer of the earlier elements that are less and that are greater. -/
def insertCost (l : List ℤ) : ℕ :=
  ∑ i ∈ Finset.range l.length,
    min ((l.take i).countP (· < l.getD i 0)) ((l.take i).countP (l.getD i 0 < ·))

theorem insertCost_concat (l : List ℤ) (x : ℤ) :
    insertCost (l ++ [x]) = insertCost l + min (l.countP (· < x)) (l.countP (x < ·)) := by
  rw [insertCost, List.length_append, List.length_singleton, Finset.sum_range_succ, insertCost]
  congr 1
  · refine Finset.sum_congr rfl fun i hi => ?_
    have hlt := Finset.mem_range.1 hi
    rw [List.take_append_of_le_length hlt.le, List.getD_append _ _ _ _ hlt]
  · simp

/-- The state when the instructions `done` have been carried out. -/
structure Counted (done : List ℤ) (s : State) : Prop where
  tree : Fenwick MAX_VAL s.bit (tallyOf done)
  cost : s.cost = ((insertCost done % 1000000007 : ℕ) : ℤ)
  i : s.i = done.length

theorem counted_init (bit : Bit) : Counted [] ⟨clear bit, 0, 0⟩ where
  tree := fenwick_zero MAX_VAL fun _ _ hi => if_pos hi
  cost := rfl
  i := rfl

/-- The new cost, from the old one and the two counts. -/
theorem cost_next (done : List ℤ) (n : ℤ) :
    (((insertCost done % 1000000007 : ℕ) : ℤ) +
        if (done.countP (· < n) : ℤ) < done.countP (n < ·) then (done.countP (· < n) : ℤ)
        else done.countP (n < ·)).tmod MOD =
      (insertCost (done ++ [n]) % 1000000007 : ℕ) := by
  have hmin : ∀ a b : ℕ, (if (a : ℤ) < b then (a : ℤ) else b) = (min a b : ℕ) := by
    intro a b
    split <;> omega
  have hmod : MOD = (1000000007 : ℕ) := rfl
  rw [hmin, hmod, ← Nat.cast_add, ← Int.ofNat_tmod, Nat.mod_add_mod, insertCost_concat]

theorem counted_step {done : List ℤ} {s : State} (h : Counted done s) (hpos : ∀ x ∈ done, 1 ≤ x)
    {x : ℤ} (hx : 1 ≤ x ∧ x ≤ MAX_VAL) :
    ∃ s', insertRound s x = some s' ∧ Counted (done ++ [x]) s' := by
  obtain ⟨htree, hcost, hi⟩ := h
  obtain ⟨n, rfl⟩ : ∃ n : ℕ, x = n := ⟨x.toNat, by omega⟩
  have hprev : (n : ℤ) - 1 = (n - 1 : ℕ) := by omega
  -- The elements up to `n - 1` are those less than `n`.
  have hless : query s.bit (n - 1) = some (done.countP (· < (n : ℤ)) : ℤ) := by
    rw [hprev, query_ok htree (by omega), sum_tallyOf hpos, ← hprev]
    simp only [Int.le_sub_one_iff]
  have hupTo : query s.bit n = some (done.countP (· ≤ (n : ℤ)) : ℤ) := by
    rw [query_ok htree (by omega), sum_tallyOf hpos]
  have hgreater : s.i - (done.countP (· ≤ (n : ℤ)) : ℤ) = done.countP ((n : ℤ) < ·) := by
    have hsplit := List.length_eq_countP_add_countP (· ≤ (n : ℤ)) (l := done)
    simp only [decide_eq_true_eq, not_le] at hsplit
    rw [hi]
    omega
  obtain ⟨bit', hupdate, htree'⟩ := update_ok htree (show 0 < n by omega) 1
  rw [tallyOf_concat] at htree'
  refine ⟨⟨bit', (insertCost (done ++ [(n : ℤ)]) % 1000000007 : ℕ), s.i + 1⟩, ?_, htree', rfl, ?_⟩
  · rw [insertRound, hless, Option.bind_some, hupTo, Option.bind_some]
    simp only [hgreater, hupdate, Option.map_some, hcost, cost_next]
  · rw [hi, List.length_append, List.length_singleton, Nat.cast_add]
    rfl

theorem counted_run (instructions : List ℤ) {s : State} (h : Counted [] s)
    (hrange : ∀ x ∈ instructions, 1 ≤ x ∧ x ≤ MAX_VAL) :
    ∃ s', instructions.foldlM insertRound s = some s' ∧ Counted instructions s' := by
  have hstep : ∀ done s x, x ∈ instructions → (∀ y ∈ done, 1 ≤ y) ∧ Counted done s →
      ∃ s', insertRound s x = some s' ∧ (∀ y ∈ done ++ [x], 1 ≤ y) ∧ Counted (done ++ [x]) s' := by
    rintro done s x hx ⟨hpos, h⟩
    obtain ⟨s', hround, h'⟩ := counted_step h hpos (hrange x hx)
    refine ⟨s', hround, fun y hy => ?_, h'⟩
    rcases List.mem_append.1 hy with hy | hy
    · exact hpos y hy
    · rw [List.mem_singleton.1 hy]
      exact (hrange x hx).1
  obtain ⟨s', hrun, -, h'⟩ := foldlM_ok (I := fun done s => (∀ y ∈ done, 1 ≤ y) ∧ Counted done s)
    instructions ⟨by simp, h⟩ hstep
  exact ⟨s', hrun, h'⟩

/-- `createSortedArray` returns the cost of all instructions, whatever `bit` holds before. -/
theorem createSortedArray_exact (bit : Bit) (instructions : List ℤ)
    (hrange : ∀ x ∈ instructions, 1 ≤ x ∧ x ≤ MAX_VAL) :
    ∃ bit', createSortedArray bit instructions =
      some (((insertCost instructions % 1000000007 : ℕ) : ℤ), bit') := by
  obtain ⟨s, hrun, h⟩ := counted_run instructions (counted_init bit) hrange
  refine ⟨s.bit, ?_⟩
  rw [createSortedArray, hrun, Option.map_some, h.cost]

theorem createSortedArray_exact_ties :
    ∃ bit', createSortedArray (fun _ => 7) [1, 3, 3, 3, 2, 4, 2, 1, 2] =
      some (((insertCost [1, 3, 3, 3, 2, 4, 2, 1, 2] % 1000000007 : ℕ) : ℤ), bit') :=
  createSortedArray_exact (fun _ => 7) [1, 3, 3, 3, 2, 4, 2, 1, 2] (by simp [MAX_VAL])

end CreateSorted
end Leetcode
