import Leetcode.WordCount.Chunks

/-!
# The parallel count

The threads add their counts in any order.  With a byte for each thread they count the
parts of the buffer, and with fewer bytes the first word is counted by every thread.
`parallel_iff` says when the result is the number of words.
-/

namespace Leetcode
namespace WordCount

open CLib

variable {buffer : Bytes} {order : List (Fin MAX_THREADS)}

/-! ## Adding the counts -/

theorem addCounts_some {count : Fin MAX_THREADS → Option Int} {n : ℕ → Int}
    {l : List (Fin MAX_THREADS)} (h : ∀ i ∈ l, count i = some (n i)) (wordCount : Int) :
    l.foldlM (fun acc i => (count i).map (acc + ·)) wordCount =
      some (wordCount + (l.map fun i : Fin MAX_THREADS => n i).sum) := by
  induction l generalizing wordCount with
  | nil => simp
  | cons i l ih =>
      rw [List.foldlM_cons, h i List.mem_cons_self, List.map_cons, List.sum_cons, ← Int.add_assoc]
      exact ih (fun j hj => h j (List.mem_cons_of_mem _ hj)) _

theorem addCounts_none {count : Fin MAX_THREADS → Option Int} {l : List (Fin MAX_THREADS)}
    {i : Fin MAX_THREADS} (hi : i ∈ l) (hnone : count i = none) (wordCount : Int) :
    l.foldlM (fun acc i => (count i).map (acc + ·)) wordCount = none := by
  induction l generalizing wordCount with
  | nil => cases hi
  | cons j l ih =>
      rw [List.foldlM_cons]
      rcases List.mem_cons.1 hi with rfl | hrest
      · rw [hnone]
        rfl
      · cases count j with
        | none => rfl
        | some n => exact ih hrest _

/-- The order does not matter to the sum. -/
theorem main_of_counts {n : ℕ → Int} (horder : order.Perm (List.finRange MAX_THREADS))
    (h : ∀ i : Fin MAX_THREADS, countWords buffer (start buffer i) (stop buffer i) = some (n i)) :
    main buffer order = some (n 0 + n 1 + n 2 + n 3) := by
  have hsum : (order.map fun i : Fin MAX_THREADS => n i).sum = n 0 + n 1 + n 2 + n 3 := by
    rw [(horder.map fun i : Fin MAX_THREADS => n i).sum_eq]
    show n 0 + (n 1 + (n 2 + (n 3 + 0))) = n 0 + n 1 + n 2 + n 3
    omega
  rw [main, addCounts_some (fun i _ => h i), hsum, Int.zero_add]

/-! ## A byte for each thread -/

/-- The number of words of the part of thread `i`. -/
def stretchWords (buffer : Bytes) (i : ℕ) : ℕ := (words isWordChar (stretch buffer i)).length

theorem sum_stretchWords : (words isWordChar buffer).length = stretchWords buffer 0 +
    stretchWords buffer 1 + stretchWords buffer 2 + stretchWords buffer 3 := by
  have hsum : (words isWordChar buffer).length = stretchWords buffer 0 +
      (stretchWords buffer 1 + (stretchWords buffer 2 + (stretchWords buffer 3 + 0))) :=
    words_stretches
  omega

theorem count_of_long {i : ℕ} (hi : i < MAX_THREADS) (hlong : MAX_THREADS ≤ buffer.length) :
    countWords buffer (start buffer i) (stop buffer i) =
      if (stretchWords buffer i : Int) ≤ INT_MAX then some (stretchWords buffer i : Int)
      else none := by
  rw [start_eq hi hlong, stop_eq hi]
  exact countWords_eq (cut_le_succ hi) (cut_le hi)

theorem main_of_long (horder : order.Perm (List.finRange MAX_THREADS))
    (hlong : MAX_THREADS ≤ buffer.length) :
    main buffer order = some ((words isWordChar buffer).length : Int) ↔
      ∀ i < MAX_THREADS, (stretchWords buffer i : Int) ≤ INT_MAX := by
  constructor
  · intro hmain i hi
    by_contra hover
    have hnone : countWords buffer (start buffer i) (stop buffer i) = none := by
      rw [count_of_long hi hlong, if_neg hover]
    have hmem : ⟨i, hi⟩ ∈ order := horder.mem_iff.2 (List.mem_finRange _)
    rw [main, addCounts_none hmem hnone] at hmain
    cases hmain
  · intro hfits
    rw [main_of_counts (n := fun i => stretchWords buffer i) horder fun i => by
      rw [count_of_long i.isLt hlong, if_pos (hfits i i.isLt)], sum_stretchWords]
    push_cast
    rfl

/-! ## Fewer bytes than threads -/

/-- The bytes in front of the first cut have a word when the buffer begins with one. -/
theorem words_first_eq_zero_iff :
    (words isWordChar (buffer.take (behindWord buffer 0))).length = 0 ↔
      ∀ c, buffer.head? = some c → isWordChar c = false := by
  have hprefix := List.takeWhile_prefix isWordChar (l := buffer)
  have htake : buffer.take (behindWord buffer 0) = buffer.takeWhile isWordChar := by
    rw [behindWord, List.drop_zero, Nat.zero_add]
    exact (List.prefix_iff_eq_take.1 hprefix).symm
  rw [htake]
  cases buffer with
  | nil => simp
  | cons c rest =>
      cases hword : isWordChar c with
      | true =>
          rw [List.takeWhile_cons_of_pos hword, words_takeWhile hword]
          simp [hword]
      | false =>
          rw [List.takeWhile_cons_of_neg (by rw [hword]; exact Bool.false_ne_true)]
          simp [hword]

/-- An `int` can count the words of a buffer with fewer bytes than threads. -/
theorem short_le {n : ℕ} (hshort : buffer.length < MAX_THREADS) (hn : n ≤ buffer.length) :
    (n : Int) ≤ INT_MAX := by
  have hmax : (MAX_THREADS : Int) ≤ INT_MAX := by decide
  omega

theorem count_of_short {i : ℕ} (hi : i < MAX_THREADS) (hshort : buffer.length < MAX_THREADS) :
    countWords buffer (start buffer i) (stop buffer i) =
      some ((words isWordChar (buffer.take (cut buffer (i + 1)))).length : Int) := by
  have hle : (words isWordChar (buffer.take (cut buffer (i + 1)))).length ≤ buffer.length :=
    (length_words_le _).trans (List.length_take_le' _ _)
  rw [start_of_short hshort, stop_eq hi, countWords_eq (Nat.zero_le _) (cut_le hi)]
  exact if_pos (short_le hshort hle)

/-- The threads but the last count the first word, and the last one counts all. -/
theorem main_of_short (horder : order.Perm (List.finRange MAX_THREADS))
    (hshort : buffer.length < MAX_THREADS) :
    main buffer order =
      some (3 * ((words isWordChar (buffer.take (behindWord buffer 0))).length : Int) +
        ((words isWordChar buffer).length : Int)) := by
  have hchunks : chunks buffer = 0 := Nat.div_eq_of_lt hshort
  have hcut : ∀ i, 0 < i → i < MAX_THREADS → cut buffer i = behindWord buffer 0 := by
    intro i hpos hi
    rw [cut_of_inner hpos hi, hchunks, Nat.mul_zero]
  have hlast : buffer.take (cut buffer (3 + 1)) = buffer := by
    rw [show cut buffer (3 + 1) = buffer.length from cut_last, List.take_length]
  rw [main_of_counts horder (n := fun i =>
    ((words isWordChar (buffer.take (cut buffer (i + 1)))).length : Int)) fun i =>
      count_of_short i.isLt hshort]
  rw [hcut (0 + 1) (by decide) (by decide), hcut (1 + 1) (by decide) (by decide),
    hcut (2 + 1) (by decide) (by decide), hlast]
  congr 1
  omega

/-! ## The two -/

/-- The buffer `a`: all four threads count its one word. -/
theorem parallel_letter :
    main (ascii "a") (List.finRange MAX_THREADS) = some 4 ∧
      main (ascii "a") (List.finRange MAX_THREADS) ≠
        some ((words isWordChar (ascii "a")).length : Int) := by
  decide

/-- In whatever order the threads add their counts, the result is the number of words of
the buffer exactly when a buffer with fewer bytes than threads does not begin with a
word, and no part between two cuts has more than `INT_MAX` words. -/
theorem parallel_iff (buffer : Bytes) (order : List (Fin MAX_THREADS))
    (horder : order.Perm (List.finRange MAX_THREADS)) :
    main buffer order = some ((words isWordChar buffer).length : Int) ↔
      (buffer.length < MAX_THREADS → ∀ c, buffer.head? = some c → isWordChar c = false) ∧
      ∀ i < MAX_THREADS, ((words isWordChar (stretch buffer i)).length : Int) ≤ INT_MAX := by
  rcases Nat.lt_or_ge buffer.length MAX_THREADS with hshort | hlong
  · have hfits : ∀ i < MAX_THREADS,
        ((words isWordChar (stretch buffer i)).length : Int) ≤ INT_MAX := by
      intro i hi
      have hle : (words isWordChar (stretch buffer i)).length ≤ buffer.length :=
        (length_words_le _).trans (length_part_le _ _)
      exact short_le hshort hle
    rw [main_of_short horder hshort, ← words_first_eq_zero_iff]
    constructor
    · intro hmain
      have hsum := Option.some.inj hmain
      exact ⟨fun _ => by omega, hfits⟩
    · rintro ⟨hfirst, -⟩
      rw [hfirst hshort]
      congr 1
      omega
  · rw [main_of_long horder hlong]
    exact ⟨fun hfits => ⟨fun hshort => absurd hlong (Nat.not_le_of_lt hshort), hfits⟩, And.right⟩

/-- The threads add in another order than they are created, and a word spans two marks. -/
theorem parallel_iff_words :
    main (ascii "ab cde, f") [2, 0, 3, 1] =
      some ((words isWordChar (ascii "ab cde, f")).length : Int) :=
  (parallel_iff (ascii "ab cde, f") [2, 0, 3, 1] (by decide)).2
    ⟨fun hshort => absurd hshort (by decide), by decide⟩

end WordCount
end Leetcode
