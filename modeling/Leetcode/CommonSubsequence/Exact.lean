import Leetcode.CommonSubsequence.Model
import Leetcode.Lib.CommonSublist
import Leetcode.Lib.Loop

/-!
# What `longestCommonSubsequence` returns

The entry `dp[i][j]` is the greatest length of a common subsequence of the first `i` bytes of one
string and the first `j` of the other.  `Filled` says that of all entries in front of one, in the
order in which the loops store them.
-/

namespace Leetcode
namespace CommonSubsequence

open CLib

variable {text1 text2 : Bytes} {dp : Table} {i j : ℕ}

theorem max_natCast (a b : ℕ) : max a b = (Max.max a b : ℕ) := by
  rw [max]
  split <;> omega

theorem read_ok (m n : ℕ) (dp : Table) {i j : ℕ} (hi : i ≤ m) (hj : j ≤ n) :
    read m n dp i j = some (dp i j) := by
  rw [read, if_pos]
  omega

theorem write_ok (m n : ℕ) (dp : Table) {i j : ℕ} (hi : i ≤ m) (hj : j ≤ n) (x : ℤ) :
    ∃ dp', write m n dp i j x = some dp' ∧ dp' i j = x ∧
      ∀ i' j' : ℕ, ¬(i' = i ∧ j' = j) → dp' i' j' = dp i' j' := by
  refine ⟨_, if_pos (by omega), if_pos ⟨rfl, rfl⟩, fun i' j' hne => if_neg ?_⟩
  rwa [Nat.cast_inj, Nat.cast_inj]

/-- The entry is the greatest length for two initial parts. -/
def Right (text1 text2 : Bytes) (dp : Table) (i j : ℕ) : Prop :=
  ∃ l : ℕ, dp i j = l ∧ LongestCommon (text1.take i) (text2.take j) l

/-- All entries in front of `dp[i][j]` are right. -/
def Filled (text1 text2 : Bytes) (i j : ℕ) (dp : Table) : Prop :=
  ∀ i' j', j' ≤ text2.length → i' < i ∨ i' = i ∧ j' < j → Right text1 text2 dp i' j'

/-- The value for the next entry, which is no larger than the strings are long. -/
theorem entry_ok (h : Filled text1 text2 i j dp) (hlen : text1.length + 1 < 2 ^ 31)
    (hi : i ≤ text1.length) (hj : j ≤ text2.length) :
    ∃ l : ℕ, entry text1 text2 text1.length text2.length dp i j = some (l : ℤ) ∧
      LongestCommon (text1.take i) (text2.take j) l := by
  cases i with
  | zero =>
      refine ⟨0, ?_, longestCommon_nil_left _⟩
      rw [entry, if_pos (Or.inl Nat.cast_zero), Nat.cast_zero]
  | succ i =>
      cases j with
      | zero =>
          refine ⟨0, ?_, longestCommon_nil_right _⟩
          rw [entry, if_pos (Or.inr Nat.cast_zero), Nat.cast_zero]
      | succ j =>
          have hne : ¬(((i + 1 : ℕ) : ℤ) = 0 ∨ ((j + 1 : ℕ) : ℤ) = 0) := by omega
          have hi' : ((i + 1 : ℕ) : ℤ) - 1 = i := by omega
          have hj' : ((j + 1 : ℕ) : ℤ) - 1 = j := by omega
          have htake1 : text1.take (i + 1) = text1.take i ++ [text1[i]] :=
            List.take_succ_eq_append_getElem hi
          have htake2 : text2.take (j + 1) = text2.take j ++ [text2[j]] :=
            List.take_succ_eq_append_getElem hj
          rw [entry, if_neg hne, hi', hj', load_natCast, load_natCast,
            List.getElem?_eq_getElem hi, List.getElem?_eq_getElem hj, Option.bind_some,
            Option.bind_some, htake1, htake2]
          by_cases heq : text1[i] = text2[j]
          · obtain ⟨l, hl, hlongest⟩ := h i j (by omega) (Or.inl (Nat.lt_succ_self i))
            have hle : l ≤ i := hlongest.le_length_left.trans (List.length_take_le i text1)
            refine ⟨1 + l, ?_, ?_⟩
            · rw [if_pos heq, read_ok _ _ _ (by omega) (by omega), Option.bind_some, hl,
                intResult_ok ⟨by omega, by omega⟩, Nat.cast_add, Nat.cast_one]
            · rw [heq]
              exact hlongest.concat_eq
          · obtain ⟨l₁, hl₁, habove⟩ := h i (j + 1) hj (Or.inl (Nat.lt_succ_self i))
            obtain ⟨l₂, hl₂, hbefore⟩ :=
              h (i + 1) j (by omega) (Or.inr ⟨rfl, Nat.lt_succ_self j⟩)
            rw [htake2] at habove
            rw [htake1] at hbefore
            refine ⟨Max.max l₁ l₂, ?_, habove.concat_ne heq hbefore⟩
            rw [if_neg heq, read_ok _ _ _ (by omega) hj, Option.bind_some,
              read_ok _ _ _ hi (by omega), Option.map_some, hl₁, hl₂, max_natCast]

theorem filled_step (h : Filled text1 text2 i j dp) (hlen : text1.length + 1 < 2 ^ 31)
    (hi : i ≤ text1.length) (hj : j ≤ text2.length) :
    ∃ dp', fillEntry text1 text2 text1.length text2.length i dp j = some dp' ∧
      Filled text1 text2 i (j + 1) dp' := by
  obtain ⟨l, hentry, hlongest⟩ := entry_ok h hlen hi hj
  obtain ⟨dp', hwrite, hself, hothers⟩ := write_ok text1.length text2.length dp hi hj l
  refine ⟨dp', by rw [fillEntry, hentry, Option.bind_some, hwrite], ?_⟩
  intro i' j' hle hbefore
  by_cases heq : i' = i ∧ j' = j
  · obtain ⟨rfl, rfl⟩ := heq
    exact ⟨l, hself, hlongest⟩
  · rw [Right, hothers i' j' heq]
    exact h i' j' hle (by omega)

theorem filled_row (h : Filled text1 text2 i 0 dp) (hlen : text1.length + 1 < 2 ^ 31)
    (hi : i ≤ text1.length) :
    ∃ dp', fillRow text1 text2 text1.length text2.length dp i = some dp' ∧
      Filled text1 text2 (i + 1) 0 dp' := by
  obtain ⟨dp', hrow, h'⟩ := foldlM_range_ok (I := fun j => Filled text1 text2 i j) h
    (fun j dp hj h => filled_step h hlen hi (Nat.le_of_lt_succ hj))
  refine ⟨dp', hrow, ?_⟩
  intro i' j' hle hbefore
  exact h' i' j' hle (by omega)

/-- `longestCommonSubsequence` returns the greatest length of a common subsequence, of two strings
for which `m + 1` and `n + 1` are `int`s. -/
theorem longestCommonSubsequence_exact (text1 text2 : Bytes) (junk : Table)
    (hlen1 : text1.length + 1 < 2 ^ 31) (hlen2 : text2.length + 1 < 2 ^ 31) :
    ∃ l : ℕ, longestCommonSubsequence text1 text2 junk = some (l : ℤ) ∧
      IsGreatest {n | ∃ c : Bytes, c.Sublist text1 ∧ c.Sublist text2 ∧ c.length = n} l := by
  have hinit : Filled text1 text2 0 0 junk := fun i' j' _ hbefore => by omega
  obtain ⟨dp, hfill, h⟩ := foldlM_range_ok (I := fun i => Filled text1 text2 i 0) hinit
    (fun i dp hi h => filled_row h hlen1 (Nat.le_of_lt_succ hi))
  obtain ⟨l, hl, hlongest⟩ :=
    h text1.length text2.length le_rfl (Or.inl (Nat.lt_succ_self text1.length))
  rw [List.take_length, List.take_length] at hlongest
  refine ⟨l, ?_, hlongest⟩
  have hm : intOfSize text1.length = text1.length := intOfSize_eq (by omega)
  have hn : intOfSize text2.length = text2.length := intOfSize_eq (by omega)
  have hrows : ((text1.length : ℤ) + 1).toNat = text1.length + 1 := rfl
  rw [longestCommonSubsequence, hm, hn, intResult_ok ⟨by omega, by omega⟩, Option.bind_some,
    intResult_ok ⟨by omega, by omega⟩, Option.bind_some, if_pos (by omega), hrows, hfill,
    Option.bind_some, read_ok _ _ _ le_rfl le_rfl, hl]

theorem longestCommonSubsequence_exact_abc :
    ∃ l : ℕ, longestCommonSubsequence (ascii "abcbdab") (ascii "bdcaba") (fun _ _ => -1) =
        some (l : ℤ) ∧
      IsGreatest {n | ∃ c : Bytes, c.Sublist (ascii "abcbdab") ∧ c.Sublist (ascii "bdcaba") ∧
        c.length = n} l :=
  longestCommonSubsequence_exact (ascii "abcbdab") (ascii "bdcaba") (fun _ _ => -1) (by decide)
    (by decide)

end CommonSubsequence
end Leetcode
