import Leetcode.Wal.Model

/-!
# What `recover` does with a line

`replay` is the loop of `recover` from an arbitrary offset.  The module proves
its three reading rules (a line with its newline, a piece that fills the
buffer, the unterminated end of the file) and classifies the three records of
`write_transaction`.  Every later result about the log rests on these rules
only, not on the loop.
-/

namespace Leetcode
namespace Wal

open CLib

/-- The calls made by the rest of the loop when `s` is still to be read. -/
def replay (pos : Nat) (inTx : Bool) (s : Bytes) : List DbAppend :=
  recoverLoop s.length ⟨pos, s⟩ inTx

/-- The flag after a line. -/
def lineTx (inTx : Bool) (line : Bytes) : Bool :=
  if isBeginLine line then true else if isCommitLine line then false else inTx

/-- The call made for a line, if any. -/
def lineCalls (pos : Nat) (inTx : Bool) (line : Bytes) : List DbAppend :=
  if inTx && isSetLine line then [⟨pos, line⟩] else []

/-- A line the text format can carry: no newline, no NUL, and short enough for
the buffer. -/
structure TextLine (line : Bytes) : Prop where
  noNewline : newline ∉ line
  noNul : (0 : UInt8) ∉ line
  fits : line.length ≤ MAX_LINE - 1

/-! ## The tests on lines -/

theorem isBeginLine_iff (line : Bytes) :
    isBeginLine line = true ↔
      ascii "TRANSACTION" <+: line ∧ ascii "BEGIN" <:+: line := by
  have hpre := strncmp_eq_zero_iff line (ascii "TRANSACTION") (by decide)
  rw [show (ascii "TRANSACTION").length = 11 from rfl] at hpre
  simp [isBeginLine, hpre, strstr_isSome_iff]

theorem isCommitLine_iff (line : Bytes) :
    isCommitLine line = true ↔
      ascii "TRANSACTION" <+: line ∧ ascii "COMMIT" <:+: line := by
  have hpre := strncmp_eq_zero_iff line (ascii "TRANSACTION") (by decide)
  rw [show (ascii "TRANSACTION").length = 11 from rfl] at hpre
  simp [isCommitLine, hpre, strstr_isSome_iff]

theorem isSetLine_iff (line : Bytes) : isSetLine line = true ↔ ascii "SET" <+: line := by
  have hpre := strncmp_eq_zero_iff line (ascii "SET") (by decide)
  rw [show (ascii "SET").length = 3 from rfl] at hpre
  simp [isSetLine, hpre]

/-- Two literals with different first bytes are not prefixes of one line. -/
theorem not_prefix_of_ne {a b : UInt8} (hab : a ≠ b) (s t line : Bytes) (h : a :: s <+: line) :
    ¬ b :: t <+: line := by
  intro h'
  obtain ⟨_, rfl⟩ := h
  rw [List.cons_append, List.cons_prefix_cons] at h'
  exact hab h'.1.symm

theorem isBeginLine_eq_false_of_set {line : Bytes} (h : isSetLine line = true) :
    isBeginLine line = false := by
  refine Bool.eq_false_iff.mpr fun hbegin => ?_
  exact not_prefix_of_ne (by decide) _ _ _ ((isSetLine_iff line).mp h)
    ((isBeginLine_iff line).mp hbegin).1

theorem isCommitLine_eq_false_of_set {line : Bytes} (h : isSetLine line = true) :
    isCommitLine line = false := by
  refine Bool.eq_false_iff.mpr fun hcommit => ?_
  exact not_prefix_of_ne (by decide) _ _ _ ((isSetLine_iff line).mp h)
    ((isCommitLine_iff line).mp hcommit).1

/-- A `SET` line leaves the flag as it is. -/
theorem lineTx_of_set {line : Bytes} (inTx : Bool) (h : isSetLine line = true) :
    lineTx inTx line = inTx := by
  simp [lineTx, isBeginLine_eq_false_of_set h, isCommitLine_eq_false_of_set h]

@[simp] theorem lineCalls_nil (pos : Nat) (inTx : Bool) : lineCalls pos inTx [] = [] := by
  cases inTx <;> rfl

@[simp] theorem lineTx_nil (inTx : Bool) : lineTx inTx [] = inTx := by
  cases inTx <;> rfl

@[simp] theorem lineCalls_false (pos : Nat) (line : Bytes) : lineCalls pos false line = [] := rfl

/-! ## The loop, one line at a time -/

theorem recoverLoop_eof (fuel pos : Nat) (inTx : Bool) :
    recoverLoop fuel ⟨pos, []⟩ inTx = [] := by
  cases fuel <;> simp [recoverLoop, fgets]

/-- The fuel of `recoverLoop` does not matter once it covers the unread bytes. -/
theorem recoverLoop_fuel (fuel fuel' : Nat) (fp : Stream) (inTx : Bool)
    (hfuel : fp.rest.length ≤ fuel) (hfuel' : fp.rest.length ≤ fuel') :
    recoverLoop fuel fp inTx = recoverLoop fuel' fp inTx := by
  induction fuel generalizing fuel' fp inTx with
  | zero =>
      obtain ⟨pos, rest⟩ := fp
      have hnil : rest = [] := List.length_eq_zero_iff.mp (Nat.le_zero.mp hfuel)
      subst hnil
      rw [recoverLoop_eof, recoverLoop_eof]
  | succ fuel ih =>
      obtain ⟨pos, rest⟩ := fp
      cases rest with
      | nil => rw [recoverLoop_eof, recoverLoop_eof]
      | cons b s =>
          cases fuel' with
          | zero => simp at hfuel'
          | succ fuel' =>
              have hle := readLine_rest_length (show 0 < 255 by omega) b s
              simp only [List.length_cons] at hfuel hfuel'
              have hrest : ∀ pos' tx, recoverLoop fuel ⟨pos', (readLine 255 (b :: s)).2⟩ tx
                  = recoverLoop fuel' ⟨pos', (readLine 255 (b :: s)).2⟩ tx := fun pos' tx =>
                ih fuel' ⟨pos', (readLine 255 (b :: s)).2⟩ tx (by simp only; omega)
                  (by simp only; omega)
              simp only [recoverLoop, fgets, MAX_LINE, Nat.add_one_sub_one, hrest]

@[simp] theorem replay_nil (pos : Nat) (inTx : Bool) : replay pos inTx [] = [] := rfl

/-- One round of the loop: read, act on the line, go on behind it. -/
theorem replay_cons (pos : Nat) (inTx : Bool) (b : UInt8) (s : Bytes) :
    replay pos inTx (b :: s) =
      lineCalls pos inTx (chomp (readLine 255 (b :: s)).1) ++
        replay (pos + (readLine 255 (b :: s)).1.length)
          (lineTx inTx (chomp (readLine 255 (b :: s)).1)) (readLine 255 (b :: s)).2 := by
  have hle := readLine_rest_length (show 0 < 255 by omega) b s
  have hrest : ∀ pos' tx, recoverLoop s.length ⟨pos', (readLine 255 (b :: s)).2⟩ tx
      = replay pos' tx (readLine 255 (b :: s)).2 := fun pos' tx =>
    recoverLoop_fuel _ _ _ _ (by simp only; omega) (by simp only; omega)
  set line := chomp (readLine 255 (b :: s)).1 with hline
  have hround : replay pos inTx (b :: s) =
      if isBeginLine line then replay (pos + (readLine 255 (b :: s)).1.length) true
          (readLine 255 (b :: s)).2
      else if isCommitLine line then replay (pos + (readLine 255 (b :: s)).1.length) false
          (readLine 255 (b :: s)).2
      else if inTx && isSetLine line then
        ⟨pos, line⟩ :: replay (pos + (readLine 255 (b :: s)).1.length) inTx
          (readLine 255 (b :: s)).2
      else replay (pos + (readLine 255 (b :: s)).1.length) inTx (readLine 255 (b :: s)).2 := by
    simp only [← hrest, hline]
    rfl
  rw [hround]
  by_cases hset : isSetLine line = true
  · simp only [lineTx_of_set inTx hset, isBeginLine_eq_false_of_set hset,
      isCommitLine_eq_false_of_set hset, lineCalls, hset, Bool.and_true]
    cases inTx <;> simp
  · have hset' : isSetLine line = false := Bool.eq_false_iff.mpr hset
    simp only [lineTx, lineCalls, hset', Bool.and_false, Bool.false_eq_true, if_false,
      List.nil_append]
    split
    · rfl
    · split <;> rfl

/-- A line without newline and NUL is what `recover` sees of it, with or
without its line end. -/
theorem chomp_text {line : Bytes} (hnl : newline ∉ line) (hnul : (0 : UInt8) ∉ line) :
    chomp line = line := by
  simp [chomp, cstring_eq_self hnul, strcspn_text hnl]

theorem chomp_terminated {line : Bytes} (hnl : newline ∉ line) (hnul : (0 : UInt8) ∉ line) :
    chomp (line ++ [newline]) = line := by
  have hnul' : (0 : UInt8) ∉ line ++ [newline] := by
    simpa [newline] using hnul
  simp [chomp, cstring_eq_self hnul', strcspn_line hnl]

/-- A piece that fills the buffer is handled on its own. -/
theorem replay_full {piece : Bytes} (hpiece : TextLine piece) (hfull : piece.length = 255)
    (pos : Nat) (inTx : Bool) (rest : Bytes) :
    replay pos inTx (piece ++ rest) =
      lineCalls pos inTx piece ++ replay (pos + 255) (lineTx inTx piece) rest := by
  have hread := readLine_full hpiece.noNewline rest
  rw [hfull] at hread
  cases piece with
  | nil => simp at hfull
  | cons b piece =>
      rw [List.cons_append] at hread ⊢
      rw [replay_cons, hread, chomp_text hpiece.noNewline hpiece.noNul, hfull]

/-- A line and its newline; a line of 255 bytes takes two reads, of which the
second sees the empty line. -/
theorem replay_line {line : Bytes} (hline : TextLine line) (pos : Nat) (inTx : Bool)
    (rest : Bytes) :
    replay pos inTx (line ++ newline :: rest) =
      lineCalls pos inTx line ++ replay (pos + (line.length + 1)) (lineTx inTx line) rest := by
  have hempty : ∀ pos' tx, replay pos' tx (newline :: rest) = replay (pos' + 1) tx rest := by
    intro pos' tx
    rw [replay_cons]
    simp [readLine, chomp, cstring, newline, strcspn]
  have hfits : line.length ≤ 255 := hline.fits
  rcases Nat.lt_or_eq_of_le hfits with hshort | hfull
  · cases line with
    | nil => simpa using hempty pos inTx
    | cons b line =>
        have hread := readLine_line hline.noNewline rest hshort
        rw [List.cons_append] at hread ⊢
        rw [replay_cons, hread]
        simp only [chomp_terminated hline.noNewline hline.noNul, List.length_append,
          List.length_cons, List.length_nil]
  · rw [replay_full hline hfull, hempty, hfull]

/-- The end of the file without a newline. -/
theorem replay_eof {line : Bytes} (hline : TextLine line) (pos : Nat) (inTx : Bool) :
    replay pos inTx line = lineCalls pos inTx line := by
  cases line with
  | nil => simp
  | cons b line =>
      have hfits : (b :: line).length ≤ 255 := hline.fits
      rw [replay_cons, readLine_eof hline.noNewline hfits,
        chomp_text hline.noNewline hline.noNul]
      simp

/-- Every call belongs to the bytes it was read from. -/
theorem mem_replay_pos {pos : Nat} {inTx : Bool} {s : Bytes} {call : DbAppend}
    (h : call ∈ replay pos inTx s) : pos ≤ call.pos ∧ call.pos < pos + s.length := by
  induction hlen : s.length using Nat.strong_induction_on generalizing pos inTx s with
  | _ len ih =>
      cases s with
      | nil => simp at h
      | cons b s =>
          have happ := congrArg List.length (readLine_append 255 (b :: s))
          have hpos := List.length_pos_of_ne_nil (readLine_ne_nil (show 0 < 255 by omega) b s)
          rw [List.length_append, hlen] at happ
          rw [replay_cons, List.mem_append] at h
          rcases h with h | h
          · rw [lineCalls] at h
            split at h
            · rw [List.mem_singleton.mp h]
              simp only
              omega
            · simp at h
          · have hrest := ih _ (by omega) h rfl
            omega

end Wal
end Leetcode
