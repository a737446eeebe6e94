import Leetcode.WordCount.Model

/-!
# What the threads count

`cut` are the positions between the parts of the threads: the quarter marks of the
buffer, moved behind the word they are in.  No word is cut there, so the words of the
parts are the words of the buffer.
-/

namespace Leetcode
namespace WordCount

open CLib

variable {buffer : Bytes}

/-! ## Skipping a word -/

/-- The position, moved behind the word it is in. -/
def behindWord (buffer : Bytes) (pos : ℕ) : ℕ :=
  pos + ((buffer.drop pos).takeWhile isWordChar).length

theorem behindWord_le {pos : ℕ} (hpos : pos ≤ buffer.length) :
    behindWord buffer pos ≤ buffer.length := by
  have hle := (List.takeWhile_prefix isWordChar (l := buffer.drop pos)).length_le
  rw [List.length_drop] at hle
  unfold behindWord
  omega

/-- Behind a word there is no element of a word. -/
theorem not_word_behindWord {pos : ℕ} {c : UInt8}
    (hc : (buffer.drop (behindWord buffer pos)).head? = some c) : isWordChar c = false := by
  have hsplit := List.takeWhile_append_dropWhile (p := isWordChar) (l := buffer.drop pos)
  have hdrop : buffer.drop (behindWord buffer pos) = (buffer.drop pos).dropWhile isWordChar := by
    rw [behindWord, ← List.drop_drop]
    nth_rewrite 2 [← hsplit]
    exact List.drop_left
  rw [hdrop] at hc
  exact head?_dropWhile_not hc

theorem drop_of_getElem? {pos : ℕ} {c : UInt8} (hc : buffer[pos]? = some c) :
    buffer.drop pos = c :: buffer.drop (pos + 1) := by
  obtain ⟨hlt, rfl⟩ := List.getElem?_eq_some_iff.1 hc
  exact List.drop_eq_getElem_cons hlt

theorem behindWord_of_word {pos : ℕ} {c : UInt8} (hc : buffer[pos]? = some c)
    (hword : isWordChar c = true) : behindWord buffer pos = behindWord buffer (pos + 1) := by
  rw [behindWord, drop_of_getElem? hc, List.takeWhile_cons_of_pos hword, List.length_cons,
    behindWord]
  omega

theorem behindWord_of_not {pos : ℕ} {c : UInt8} (hc : buffer[pos]? = some c)
    (hword : isWordChar c = false) : behindWord buffer pos = pos := by
  rw [behindWord, drop_of_getElem? hc, List.takeWhile_cons_of_neg (by rw [hword]; nofun)]
  rfl

theorem behindWord_of_none {pos : ℕ} (hpos : buffer[pos]? = none) :
    behindWord buffer pos = pos := by
  rw [behindWord, List.drop_eq_nil_iff.2 (List.getElem?_eq_none_iff.1 hpos)]
  rfl

theorem behindWord_mono {p q : ℕ} (hle : p ≤ q) : behindWord buffer p ≤ behindWord buffer q := by
  refine monotone_nat_of_le_succ (fun pos => ?_) hle
  have hself : pos + 1 ≤ behindWord buffer (pos + 1) := Nat.le_add_right _ _
  cases hc : buffer[pos]? with
  | none =>
      rw [behindWord_of_none hc]
      omega
  | some c =>
      cases hword : isWordChar c with
      | true => exact Nat.le_of_eq (behindWord_of_word hc hword)
      | false =>
          rw [behindWord_of_not hc hword]
          omega

/-- The loop of `main` moves the position behind the word. -/
theorem skipWord_eq (fuel pos : ℕ) (hfuel : buffer.length ≤ pos + fuel) :
    skipWord buffer fuel pos = behindWord buffer pos := by
  fun_induction skipWord buffer fuel pos with
  | case1 pos => exact (behindWord_of_none (List.getElem?_eq_none_iff.2 hfuel)).symm
  | case2 pos fuel c hc hword ih =>
      rw [ih (by omega)]
      exact (behindWord_of_word hc hword).symm
  | case3 pos fuel c hc hword => exact (behindWord_of_not hc (Bool.eq_false_iff.2 hword)).symm
  | case4 pos fuel hc => exact (behindWord_of_none hc).symm

/-! ## A part of the buffer -/

/-- The bytes from `a` to in front of `b`. -/
def part (buffer : Bytes) (a b : ℕ) : Bytes := (buffer.take b).drop a

/-- A cut where no word goes on cuts no word. -/
theorem words_take_part {a b : ℕ} (hle : a ≤ b)
    (hcut : ∀ c, (buffer.drop a).head? = some c → isWordChar c = false) :
    words isWordChar (buffer.take b) =
      words isWordChar (buffer.take a) ++ words isWordChar (part buffer a b) := by
  have hsplit := List.take_append_drop a (buffer.take b)
  rw [List.take_take, Nat.min_eq_left hle] at hsplit
  nth_rewrite 1 [← hsplit]
  refine words_append fun c hc => hcut c ?_
  rw [List.head?_drop] at hc ⊢
  rw [List.getElem?_take] at hc
  split at hc
  · exact hc
  · cases hc

theorem length_part_le (a b : ℕ) : (part buffer a b).length ≤ buffer.length := by
  rw [part, List.length_drop, List.length_take]
  omega

theorem part_self (a : ℕ) : part buffer a a = [] :=
  List.drop_eq_nil_iff.2 (List.length_take_le a buffer)

theorem part_succ {a n : ℕ} {c : UInt8} (hc : buffer[a]? = some c) :
    part buffer a (a + (n + 1)) = c :: part buffer (a + 1) (a + 1 + n) := by
  have hlt : a < a + (n + 1) := by omega
  have htake : (buffer.take (a + (n + 1)))[a]? = some c := by
    rw [List.getElem?_take_of_lt hlt, hc]
  rw [part, drop_of_getElem? htake, part, Nat.add_assoc, Nat.add_comm 1]

/-- The loop of a thread from `a` on, when it has counted `count` words. -/
theorem countLoop_eq (n : ℕ) {a : ℕ} {count : Int} (inWord : Bool) (hn : a + n ≤ buffer.length)
    (hcount : count ≤ INT_MAX) :
    ((List.range' a n).foldlM (countRound buffer) (count, inWord)).map Prod.fst =
      if count + starts isWordChar inWord (part buffer a (a + n)) ≤ INT_MAX then
        some (count + starts isWordChar inWord (part buffer a (a + n)))
      else none := by
  induction n generalizing a count inWord with
  | zero =>
      have hzero : starts isWordChar inWord (part buffer a (a + 0)) = 0 := by
        rw [Nat.add_zero, part_self]
        rfl
      rw [hzero, if_pos (by simpa using hcount)]
      simp
  | succ n ih =>
      have hlt : a < buffer.length := by omega
      have hc : buffer[a]? = some buffer[a] := List.getElem?_eq_getElem hlt
      have hrest : a + 1 + n ≤ buffer.length := by omega
      rw [List.range'_succ, List.foldlM_cons, part_succ hc, starts, countRound, hc,
        Option.bind_some]
      cases hword : isWordChar buffer[a] with
      | false =>
          rw [if_neg Bool.false_ne_true, if_neg Bool.false_ne_true]
          exact ih false hrest hcount
      | true =>
          rw [if_pos rfl, if_pos rfl]
          cases inWord with
          | true =>
              rw [if_pos rfl, Bool.not_true, Bool.toNat_false, Nat.zero_add]
              exact ih true hrest hcount
          | false =>
              have hsum : count + ((!false).toNat +
                    starts isWordChar true (part buffer (a + 1) (a + 1 + n)) : ℕ) =
                  count + 1 + starts isWordChar true (part buffer (a + 1) (a + 1 + n)) := by
                rw [Bool.not_false, Bool.toNat_true]
                omega
              rw [if_neg Bool.false_ne_true, hsum]
              by_cases hroom : count < INT_MAX
              · rw [if_pos hroom]
                exact ih true hrest hroom
              · rw [if_neg hroom, if_neg (by omega)]
                rfl

/-- A thread counts the words of its part, if an `int` can. -/
theorem countWords_eq {a b : ℕ} (hle : a ≤ b) (hb : b ≤ buffer.length) :
    countWords buffer a b =
      if ((words isWordChar (part buffer a b)).length : Int) ≤ INT_MAX then
        some ((words isWordChar (part buffer a b)).length : Int)
      else none := by
  have hstop : a + (b - a) = b := by omega
  have hend : a + (b - a) ≤ buffer.length := by omega
  have hloop := countLoop_eq (b - a) false hend (by decide : (0 : Int) ≤ INT_MAX)
  rw [hstop, starts_false, Int.zero_add] at hloop
  exact hloop

/-! ## The parts of the threads -/

/-- Where the part of thread `i` begins, in a buffer with a byte for each thread. -/
def cut (buffer : Bytes) (i : ℕ) : ℕ :=
  if i = 0 then 0
  else if i = MAX_THREADS then buffer.length
  else behindWord buffer (i * chunks buffer)

/-- The part of thread `i`. -/
def stretch (buffer : Bytes) (i : ℕ) : Bytes := part buffer (cut buffer i) (cut buffer (i + 1))

theorem mul_chunks_le {i : ℕ} (hi : i ≤ MAX_THREADS) : i * chunks buffer ≤ buffer.length :=
  (Nat.mul_le_mul_right _ hi).trans (Nat.mul_div_le _ _)

theorem cut_le {i : ℕ} (hi : i ≤ MAX_THREADS) : cut buffer i ≤ buffer.length := by
  unfold cut
  split
  · exact Nat.zero_le _
  · split
    · exact Nat.le_refl _
    · exact behindWord_le (mul_chunks_le hi)

theorem cut_of_inner {i : ℕ} (hpos : 0 < i) (hi : i < MAX_THREADS) :
    cut buffer i = behindWord buffer (i * chunks buffer) := by
  rw [cut, if_neg (Nat.ne_of_gt hpos), if_neg (Nat.ne_of_lt hi)]

theorem cut_last : cut buffer MAX_THREADS = buffer.length := by
  rw [cut, if_neg (by decide), if_pos rfl]

theorem cut_le_succ {i : ℕ} (hi : i < MAX_THREADS) : cut buffer i ≤ cut buffer (i + 1) := by
  rcases Nat.eq_zero_or_pos i with rfl | hpos
  · exact Nat.zero_le _
  · rcases Nat.eq_or_lt_of_le (Nat.succ_le_of_lt hi) with hlast | hinner
    · rw [Nat.succ_eq_add_one] at hlast
      rw [hlast, cut_last]
      exact cut_le (Nat.le_of_lt hi)
    · rw [cut_of_inner hpos hi, cut_of_inner (Nat.succ_pos i) hinner]
      exact behindWord_mono (Nat.mul_le_mul_right _ (Nat.le_succ i))

/-- No word goes on at a cut. -/
theorem not_word_cut {i : ℕ} (hpos : 0 < i) (hi : i < MAX_THREADS) {c : UInt8}
    (hc : (buffer.drop (cut buffer i)).head? = some c) : isWordChar c = false := by
  rw [cut_of_inner hpos hi] at hc
  exact not_word_behindWord hc

/-- The words of the parts are the words in front of the cut. -/
theorem words_take_cut {i : ℕ} (hi : i ≤ MAX_THREADS) :
    (words isWordChar (buffer.take (cut buffer i))).length =
      ((List.range i).map fun j => (words isWordChar (stretch buffer j)).length).sum := by
  induction i with
  | zero => rfl
  | succ i ih =>
      have hstep : words isWordChar (buffer.take (cut buffer (i + 1))) =
          words isWordChar (buffer.take (cut buffer i)) ++
            words isWordChar (stretch buffer i) := by
        rcases Nat.eq_zero_or_pos i with rfl | hpos
        · exact (List.nil_append _).symm
        · exact words_take_part (cut_le_succ hi) fun c hc => not_word_cut hpos hi hc
      rw [hstep, List.length_append, ih (Nat.le_of_lt hi), List.range_succ, List.map_append,
        List.sum_append, List.map_singleton, List.sum_singleton]

/-- The words of all parts are the words of the buffer. -/
theorem words_stretches :
    (words isWordChar buffer).length =
      ((List.range MAX_THREADS).map fun i =>
        (words isWordChar (stretch buffer i)).length).sum := by
  rw [← words_take_cut (Nat.le_refl MAX_THREADS), cut_last, List.take_length]

/-! ## What `main` gives to the threads -/

theorem stop_eq {i : ℕ} (hi : i < MAX_THREADS) : stop buffer i = cut buffer (i + 1) := by
  rcases Nat.eq_or_lt_of_le (Nat.succ_le_of_lt hi) with hlast | hinner
  · obtain rfl : i = MAX_THREADS - 1 := by omega
    have hend : chunkEnd buffer (MAX_THREADS - 1) = buffer.length := if_pos rfl
    rw [stop, hend, if_neg (Nat.lt_irrefl _)]
    exact cut_last.symm
  · have hend : chunkEnd buffer i = (i + 1) * chunks buffer := if_neg (by omega)
    rw [stop, hend, cut_of_inner (Nat.succ_pos i) hinner]
    split
    · exact skipWord_eq _ _ (Nat.le_add_left _ _)
    · next hle =>
        have hnone : buffer[(i + 1) * chunks buffer]? = none :=
          List.getElem?_eq_none_iff.2 (Nat.le_of_not_lt hle)
        exact (behindWord_of_none hnone).symm

/-- With a byte for each thread, every thread but the first starts behind a word. -/
theorem start_eq {i : ℕ} (hi : i < MAX_THREADS) (hlong : MAX_THREADS ≤ buffer.length) :
    start buffer i = cut buffer i := by
  have hchunks : 0 < chunks buffer := Nat.div_pos hlong (by decide)
  rcases Nat.eq_zero_or_pos i with rfl | hpos
  · rw [start, Nat.zero_mul, if_neg (Nat.lt_irrefl 0)]
    rfl
  · rw [start, if_pos (Nat.mul_pos hpos hchunks), cut_of_inner hpos hi]
    exact skipWord_eq _ _ (Nat.le_add_left _ _)

/-- With fewer bytes than threads, every thread starts at the beginning. -/
theorem start_of_short {i : ℕ} (hshort : buffer.length < MAX_THREADS) : start buffer i = 0 := by
  have hchunks : chunks buffer = 0 := Nat.div_eq_of_lt hshort
  rw [start, hchunks, Nat.mul_zero, if_neg (Nat.lt_irrefl 0)]

end WordCount
end Leetcode
