import Leetcode.Wal.Records

/-!
# A crash while the WAL is written

After a crash the WAL holds a byte prefix of what the `write_transaction` calls
append.  The prefix ends inside at most one transaction.  `recover` applies a
`SET` line as soon as it reads one with the flag open, and learns only from a
later line whether the `COMMIT` record exists; so the cut transaction leaves a
line in the DB exactly when the cut lies behind the first three bytes of its
`SET` line and in front of the end of its `COMMIT` text.
-/

namespace Leetcode
namespace Wal

open CLib

theorem TextLine.of_isPrefix {line part : Bytes} (hline : TextLine line) (h : part <+: line) :
    TextLine part where
  noNewline := fun hmem => hline.noNewline (h.subset hmem)
  noNul := fun hmem => hline.noNul (h.subset hmem)
  fits := h.length_le.trans hline.fits

/-- The first `n` bytes of `line ++ "\n" ++ rest`, once they reach the newline. -/
theorem take_line {line rest : Bytes} {n : Nat} (hn : line.length + 1 ≤ n) :
    (line ++ newline :: rest).take n =
      line ++ newline :: rest.take (n - (line.length + 1)) := by
  obtain ⟨k, rfl⟩ := Nat.exists_eq_add_of_le hn
  have hk : line.length + 1 + k - line.length = k + 1 := by omega
  rw [List.take_append, List.take_of_length_le (by omega), hk, List.take_succ_cons,
    Nat.add_sub_cancel_left]

/-- What `recover` applies of a transaction whose bytes are cut after `n`. -/
def tornCalls (pos : Nat) (t : Transaction) (n : Nat) : List DbAppend :=
  if t.setOffset + 3 ≤ n then [⟨pos + t.setOffset, t.setLine.take (n - t.setOffset)⟩] else []

theorem isSetLine_take (t : Transaction) (n : Nat) :
    isSetLine (t.setLine.take n) = decide (3 ≤ n) := by
  have hset := (isSetLine_iff _).mp (isSetLine_setLine t)
  have hlen : (ascii "SET").length = 3 := rfl
  rw [Bool.eq_iff_iff, isSetLine_iff, List.prefix_take_iff, hlen, decide_eq_true_eq]
  exact and_iff_right hset

theorem lineCalls_take_commitText (pos : Nat) (inTx : Bool) (id : Int32) (n : Nat) :
    lineCalls pos inTx ((commitText id).take n) = [] := by
  have hset : isSetLine ((commitText id).take n) = false := by
    refine Bool.eq_false_iff.mpr fun h => ?_
    have hfull := (isSetLine_iff _).mpr (((isSetLine_iff _).mp h).trans (List.take_prefix _ _))
    rw [isSetLine_of_prefix_transaction (prefix_transaction_commitText id)] at hfull
    exact absurd hfull (by decide)
  simp [lineCalls, hset]

/-- The end of the file inside a transaction. -/
theorem replay_take_text (t : Transaction) (pos : Nat) {n : Nat} (hn : n < t.text.length) :
    replay pos false (t.text.take n) = tornCalls pos t n := by
  rw [Transaction.length_text] at hn
  have hoff : t.setOffset = (beginText t.transactionId).length + 1 := rfl
  by_cases hbegin : n < t.setOffset
  -- the cut is in the `BEGIN` record: the flag was never opened
  · have htake : t.text.take n = (beginText t.transactionId).take n :=
      List.take_append_of_le_length (by omega)
    have hline := (textLine_beginText t.transactionId).of_isPrefix (List.take_prefix n _)
    rw [htake, replay_eof hline, lineCalls_false, tornCalls, if_neg (by omega)]
  · have htake : t.text.take n = beginText t.transactionId ++ newline ::
        (t.setLine ++ newline :: (commitText t.transactionId ++ [newline])).take
          (n - t.setOffset) := take_line (by omega)
    rw [htake, replay_line (textLine_beginText _), lineCalls_beginText, lineTx_beginText,
      List.nil_append, ← hoff]
    by_cases hset : n - t.setOffset < t.setLine.length + 1
    -- the cut is in the `SET` line, which is now the unterminated last line
    · have hline := t.textLine_setLine.of_isPrefix (List.take_prefix (n - t.setOffset) _)
      rw [List.take_append_of_le_length (by omega), replay_eof hline, lineCalls, isSetLine_take,
        tornCalls]
      by_cases h3 : 3 ≤ n - t.setOffset
      · rw [if_pos (show t.setOffset + 3 ≤ n by omega)]
        simp [h3]
      · rw [if_neg (show ¬ t.setOffset + 3 ≤ n by omega)]
        simp [h3]
    -- the `SET` line is complete and applied; the cut is in the `COMMIT` record
    · have hle : t.setLine.length ≤ n - t.setOffset := by omega
      have hfive := t.five_le_length_setLine
      have hline := (textLine_commitText t.transactionId).of_isPrefix
        (List.take_prefix (n - t.setOffset - (t.setLine.length + 1)) _)
      rw [take_line (by omega), replay_line t.textLine_setLine, lineCalls_setLine,
        lineTx_setLine, List.take_append_of_le_length (by omega), replay_eof hline,
        lineCalls_take_commitText, List.append_nil, tornCalls, if_pos (by omega),
        List.take_of_length_le hle]

/-- A transaction cut off by the crash leaves no trace: after the crash at byte
`n`, none of the lines that `recover` appends was read from the bytes of a
transaction whose `COMMIT` text is not completely inside the prefix. -/
def LeavesNoTrace (txns : List Transaction) (n : Nat) : Prop :=
  ∀ before t after, txns = before ++ t :: after →
    n < (walText before).length + t.commitOffset →
    appendedFrom (recoverCalls ((writeAll txns []).take n)) (walText before).length
      t.text.length = []

/-- The crash point lies, for no transaction, behind the first three bytes of
its `SET` line and in front of the end of its `COMMIT` text. -/
def CrashClear (txns : List Transaction) (n : Nat) : Prop :=
  ∀ before t after, txns = before ++ t :: after →
    n < (walText before).length + t.setOffset + 3 ∨
      (walText before).length + t.commitOffset ≤ n

/-- The log cut inside the transaction `t`. -/
theorem recoverCalls_take (before : List Transaction) (t : Transaction)
    (after : List Transaction) {n : Nat} (hn : n < t.text.length) :
    recoverCalls ((writeAll (before ++ t :: after) []).take ((walText before).length + n)) =
      wholeCalls 0 before ++ tornCalls (walText before).length t n := by
  have htake : (writeAll (before ++ t :: after) []).take ((walText before).length + n)
      = walText before ++ t.text.take n := by
    rw [writeAll_eq, List.nil_append, walText_append, walText_cons, List.take_length_add_append,
      List.take_append_of_le_length (by omega)]
  have hreplay := replay_walText before 0 (t.text.take n)
  rw [Nat.zero_add, replay_take_text t _ hn] at hreplay
  rw [htake]
  exact hreplay

theorem appendedFrom_tornCalls (start : Nat) (t : Transaction) (n : Nat) :
    appendedFrom (tornCalls start t n) start t.text.length = [] ↔ n < t.setOffset + 3 := by
  have hoff := t.commitOffset_lt
  rw [Transaction.commitOffset] at hoff
  rw [tornCalls]
  by_cases h : t.setOffset + 3 ≤ n
  · rw [if_pos h, appendedFrom_singleton (by simp only; omega)]
    simp only [List.cons_ne_nil, false_iff]
    omega
  · rw [if_neg h, appendedFrom_nil]
    simp only [true_iff]
    omega

/-- **Crash atomicity, exactly.**  The crash leaves no trace of a cut
transaction if and only if the crash point is clear. -/
theorem leavesNoTrace_iff (txns : List Transaction) (n : Nat) :
    LeavesNoTrace txns n ↔ CrashClear txns n := by
  have hsplit : ∀ before t after, txns = before ++ t :: after →
      n < (walText before).length + t.commitOffset →
      (appendedFrom (recoverCalls ((writeAll txns []).take n)) (walText before).length
        t.text.length = [] ↔ n < (walText before).length + t.setOffset + 3) := by
    rintro before t after rfl hn
    have hlt := t.commitOffset_lt
    rcases Nat.lt_or_ge n (walText before).length with hearly | hlate
    -- the prefix ends before the transaction begins
    · refine iff_of_true (appendedFrom_eq_nil fun call hcall => ?_) (by omega)
      have hpos := mem_replay_pos hcall
      have hlen := List.length_take_le n (writeAll (before ++ t :: after) [])
      omega
    · obtain ⟨k, rfl⟩ := Nat.exists_eq_add_of_le hlate
      rw [recoverCalls_take before t after (by omega), appendedFrom_append,
        appendedFrom_wholeCalls_outside (by omega), List.nil_append, appendedFrom_tornCalls]
      omega
  constructor
  · intro h before t after hsp
    by_cases hn : n < (walText before).length + t.commitOffset
    · exact Or.inl ((hsplit before t after hsp hn).mp (h before t after hsp hn))
    · exact Or.inr (by omega)
  · intro h before t after hsp hn
    refine (hsplit before t after hsp hn).mpr ?_
    rcases h before t after hsp with h | h <;> omega

/-- The call `write_transaction("k", "v", ...)` of a fresh process. -/
def sampleTransaction : Transaction where
  transactionId := 1
  key := ascii "k"
  value := ascii "v"
  key_noNul := by decide
  value_noNul := by decide
  key_noNewline := by decide
  value_noNewline := by decide
  fits := by decide

/-- A crash right behind the text `SET k v`: no `COMMIT` record exists, and yet
`recover` appends the line. -/
theorem leavesNoTrace_fails : ¬ LeavesNoTrace [sampleTransaction] 27 := by
  intro h
  have hline := h [] sampleTransaction [] rfl (by decide)
  revert hline
  decide

end Wal
end Leetcode
