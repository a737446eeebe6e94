import Leetcode.Lib.Loop
import Leetcode.UniqueChar.Model

/-!
# What `firstUniqChar` returns

* `Counts` — the invariant of the first loop: the array has the number of times that each letter
  has occurred so far.
* `countLetters_ok`, `countLetters_letters` — it succeeds exactly if all characters are letters.
* `findUnique_ok` — what the second loop finds.
-/

namespace Leetcode
namespace UniqueChar

open CLib

/-- A character from `a` to `z`. -/
def Letter (b : UInt8) : Prop := 97 ≤ b.toNat ∧ b.toNat ≤ 122

instance (b : UInt8) : Decidable (Letter b) := inferInstanceAs (Decidable (_ ∧ _))

/-- All characters are letters. -/
def Letters (s : Bytes) : Prop := ∀ b ∈ s, Letter b

instance (s : Bytes) : Decidable (Letters s) := List.decidableBAll Letter s

/-- The place of a letter in the array. -/
def place (b : UInt8) : ℕ := b.toNat - 97

variable {s : Bytes} {freq freq' : List ℤ} {b c : UInt8} {i left : ℕ} {k : ℤ}

theorem charValue_letter (h : Letter b) : charValue b - 97 = place b := by
  obtain ⟨hlow, hhigh⟩ := h
  rw [charValue_eq, if_pos (by omega), place]
  omega

theorem place_lt (h : Letter b) : place b < 26 := by
  obtain ⟨-, hhigh⟩ := h
  rw [place]
  omega

theorem place_inj (hb : Letter b) (hc : Letter c) : place b = place c ↔ b = c := by
  refine ⟨fun h => UInt8.toNat.inj ?_, fun h => by rw [h]⟩
  obtain ⟨hb, -⟩ := hb
  obtain ⟨hc, -⟩ := hc
  rw [place, place] at h
  show b.toNat = c.toNat
  omega

/-- An index inside of the array comes from a letter. -/
theorem letter_of_index (hlow : 0 ≤ charValue b - 97) (hhigh : charValue b - 97 < 26) :
    Letter b := by
  have hbyte := b.toNat_lt
  rw [charValue_eq] at hlow hhigh
  split at hlow <;> constructor <;> omega

/-! ## Counting -/

/-- What the first loop has counted in front of `i`. -/
structure Counts (s : Bytes) (i : ℕ) (freq : List ℤ) : Prop where
  length : freq.length = 26
  count : ∀ b, Letter b → freq[place b]? = some ((s.take i).count b : ℤ)

theorem counts_init (s : Bytes) : Counts s 0 (List.replicate 26 0) := by
  refine ⟨List.length_replicate, fun b hb => ?_⟩
  rw [List.getElem?_replicate, if_pos (place_lt hb), List.take_zero, List.count_nil]
  rfl

theorem countRound_ok (h : Counts s i freq) (hi : i < s.length) (hlen : s.length < 2 ^ 31)
    (hletter : Letter s[i]) :
    ∃ freq', countRound s freq i = some freq' ∧ Counts s (i + 1) freq' := by
  have hlt := place_lt hletter
  have hcount := List.count_le_length (l := s.take i) (a := s[i])
  rw [List.length_take] at hcount
  have hindex : letterIndex s i = some (place s[i] : ℤ) := by
    rw [letterIndex, List.getElem?_eq_getElem hi, Option.map_some, charValue_letter hletter]
  refine ⟨freq.set (place s[i]) ((s.take i).count s[i] + 1), ?_, ?_, fun b hb => ?_⟩
  · rw [countRound, hindex, Option.bind_some, load_natCast, h.count _ hletter, Option.bind_some,
      intResult_ok ⟨by omega, by omega⟩, Option.bind_some,
      store_ok (Int.natCast_nonneg _) (by rw [h.length]; omega), Int.toNat_natCast]
  · rw [List.length_set, h.length]
  · rw [List.getElem?_set, List.take_add_one, List.getElem?_eq_getElem hi, Option.toList_some,
      List.count_append, List.count_singleton]
    by_cases heq : s[i] = b
    · subst heq
      rw [if_pos rfl, if_pos (by rw [h.length]; exact hlt)]
      simp
    · rw [if_neg (mt (place_inj hletter hb).1 heq), h.count b hb]
      simp [heq]

theorem countLetters_ok (hlen : s.length < 2 ^ 31) (hletters : Letters s) :
    ∃ freq, countLetters s s.length = some freq ∧ Counts s s.length freq :=
  foldlM_range_ok (counts_init s) fun _ _ hi h =>
    countRound_ok h hi hlen (hletters _ (List.getElem_mem hi))

theorem countRound_some (h : freq.length = 26) (hround : countRound s freq i = some freq') :
    freq'.length = 26 ∧ ∃ b, s[i]? = some b ∧ Letter b := by
  obtain ⟨k, hindex, hround⟩ := Option.bind_eq_some_iff.1 hround
  obtain ⟨n, hload, hround⟩ := Option.bind_eq_some_iff.1 hround
  obtain ⟨n', -, hstore⟩ := Option.bind_eq_some_iff.1 hround
  obtain ⟨b, hb, rfl⟩ := Option.map_eq_some_iff.1 hindex
  rw [store] at hstore
  split at hstore
  · next hin =>
      cases hstore
      rw [h] at hin
      exact ⟨by rw [List.length_set, h], b, hb, letter_of_index hin.1 hin.2⟩
  · cases hstore

/-- The first loop fails at a character that is not a letter. -/
theorem countLetters_letters {len : ℕ} (h : countLetters s len = some freq) :
    freq.length = 26 ∧ ∀ i < len, ∃ b, s[i]? = some b ∧ Letter b := by
  induction len generalizing freq with
  | zero =>
      cases h
      exact ⟨List.length_replicate, fun i hi => absurd hi (Nat.not_lt_zero i)⟩
  | succ len ih =>
      rw [countLetters, List.range_succ, List.foldlM_append] at h
      obtain ⟨freq₁, hrun, hround⟩ := Option.bind_eq_some_iff.1 h
      obtain ⟨hlength, hletters⟩ := ih hrun
      have hlast : countRound s freq₁ len = some freq := by
        rw [List.foldlM_cons] at hround
        obtain ⟨freq₂, hround, hnil⟩ := Option.bind_eq_some_iff.1 hround
        cases hnil
        exact hround
      obtain ⟨hlength', hletter⟩ := countRound_some hlength hlast
      refine ⟨hlength', fun i hi => ?_⟩
      rcases Nat.lt_succ_iff_lt_or_eq.1 hi with hlt | rfl
      · exact hletters i hlt
      · exact hletter

/-! ## Finding -/

/-- The index that is returned. -/
def answer (offset : ℕ) : Option ℕ → ℤ
  | none => -1
  | some i => (offset + i : ℕ)

theorem findUnique_ok (h : Counts s s.length freq) (hletters : Letters s)
    (hleft : i + left = s.length) :
    findUnique s freq left i =
      some (answer i ((s.drop i).findIdx? fun b => s.count b = 1)) := by
  induction left generalizing i with
  | zero =>
      rw [List.drop_eq_nil_of_le (by omega)]
      rfl
  | succ left ih =>
      have hi : i < s.length := by omega
      have hletter := hletters s[i] (List.getElem_mem hi)
      have hindex : letterIndex s i = some (place s[i] : ℤ) := by
        rw [letterIndex, List.getElem?_eq_getElem hi, Option.map_some, charValue_letter hletter]
      have hcount := h.count _ hletter
      rw [List.take_length] at hcount
      rw [findUnique, hindex, Option.bind_some, load_natCast, hcount, Option.bind_some,
        List.drop_eq_getElem_cons hi, List.findIdx?_cons]
      by_cases hone : s.count s[i] = 1
      · rw [if_pos (by rw [hone]; rfl), if_pos (decide_eq_true hone)]
        rfl
      · rw [if_neg (by omega), if_neg (by simpa using hone), ih (by omega)]
        cases (s.drop (i + 1)).findIdx? fun b => s.count b = 1 with
        | none => rfl
        | some j =>
            rw [Option.map_some, answer, answer, Nat.add_assoc, Nat.add_comm 1]

/-- The result is the least index of a character that occurs once, or -1 if there is none. It is
undefined exactly if some character is not a letter from `a` to `z`: the array is accessed outside
of its bounds then. -/
theorem firstUniqChar_exact (s : Bytes) (hlen : s.length < 2 ^ 31) :
    firstUniqChar s =
      if Letters s then some (answer 0 (s.findIdx? fun b => s.count b = 1)) else none := by
  have hsize : (intOfSize s.length).toNat = s.length := by
    rw [intOfSize_eq hlen, Int.toNat_natCast]
  rw [firstUniqChar, hsize]
  split
  · next hletters =>
      obtain ⟨freq, hcount, h⟩ := countLetters_ok hlen hletters
      show (countLetters s s.length).bind _ = _
      rw [hcount, Option.bind_some, findUnique_ok h hletters (Nat.zero_add _), List.drop_zero]
  · next hnot =>
      show (countLetters s s.length).bind _ = _
      cases hcount : countLetters s s.length with
      | none => rfl
      | some freq =>
          refine absurd (fun b hb => ?_) hnot
          obtain ⟨i, hi, rfl⟩ := List.mem_iff_getElem.1 hb
          obtain ⟨b, hget, hletter⟩ := (countLetters_letters hcount).2 i hi
          rw [List.getElem?_eq_getElem hi] at hget
          cases hget
          exact hletter

/-- The letters `aabcb`. -/
theorem firstUniqChar_exact_letters : firstUniqChar [97, 97, 98, 99, 98] = some 3 :=
  (firstUniqChar_exact [97, 97, 98, 99, 98] (by decide)).trans (by decide)

end UniqueChar
end Leetcode
