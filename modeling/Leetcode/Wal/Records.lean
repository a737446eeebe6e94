import Leetcode.Wal.Replay

/-!
# The records of `write_transaction` under `recover`

The three records are text lines.  A `BEGIN` record opens the flag, a `COMMIT`
record closes it, a `SET` record is applied while the flag is open, whatever
its key and value contain.  From this the replay of whole transactions is an
equation: each contributes its `SET` line, read at a known offset, and leaves
the flag closed.
-/

namespace Leetcode
namespace Wal

open CLib

/-! ## The record texts -/

/-- The common shape of the two frame records. -/
theorem frame_length_le (id : Int32) {suffix : Bytes} (hsuffix : suffix.length ≤ 7) :
    (ascii "TRANSACTION " ++ (decimal id.toInt ++ suffix)).length ≤ 30 := by
  have hid := decimal_length_le id
  have hpre : (ascii "TRANSACTION ").length = 12 := rfl
  simp only [List.length_append, hpre]
  omega

theorem beginText_eq (id : Int32) :
    beginText id = ascii "TRANSACTION " ++ (decimal id.toInt ++ ascii " BEGIN") := by
  refine List.take_of_length_le ?_
  exact (frame_length_le id (by decide)).trans (by decide)

theorem commitText_eq (id : Int32) :
    commitText id = ascii "TRANSACTION " ++ (decimal id.toInt ++ ascii " COMMIT") := by
  refine List.take_of_length_le ?_
  exact (frame_length_le id (by decide)).trans (by decide)

theorem beginText_length_le (id : Int32) : (beginText id).length ≤ 30 := by
  rw [beginText_eq]
  exact frame_length_le id (by decide)

theorem commitText_length_le (id : Int32) : (commitText id).length ≤ 30 := by
  rw [commitText_eq]
  exact frame_length_le id (by decide)

/-- A byte of a numeral is none of the given one when that is no digit and no
minus sign. -/
theorem notMem_decimal (n : Int) {b : UInt8} (hminus : b ≠ 45)
    (hdigit : ¬ (48 ≤ b.toNat ∧ b.toNat ≤ 57)) : b ∉ decimal n := fun hmem =>
  (mem_decimal hmem).elim hminus hdigit

theorem notMem_beginText (id : Int32) {b : UInt8} (hminus : b ≠ 45)
    (hdigit : ¬ (48 ≤ b.toNat ∧ b.toNat ≤ 57))
    (hframe : b ∉ ascii "TRANSACTION " ∧ b ∉ ascii " BEGIN") : b ∉ beginText id := by
  rw [beginText_eq]
  simp [hframe, notMem_decimal _ hminus hdigit]

theorem notMem_commitText (id : Int32) {b : UInt8} (hminus : b ≠ 45)
    (hdigit : ¬ (48 ≤ b.toNat ∧ b.toNat ≤ 57))
    (hframe : b ∉ ascii "TRANSACTION " ∧ b ∉ ascii " COMMIT") : b ∉ commitText id := by
  rw [commitText_eq]
  simp [hframe, notMem_decimal _ hminus hdigit]

theorem textLine_beginText (id : Int32) : TextLine (beginText id) where
  noNewline := notMem_beginText id (by decide) (by decide) (by decide)
  noNul := notMem_beginText id (by decide) (by decide) (by decide)
  fits := (beginText_length_le id).trans (by decide)

theorem textLine_commitText (id : Int32) : TextLine (commitText id) where
  noNewline := notMem_commitText id (by decide) (by decide) (by decide)
  noNul := notMem_commitText id (by decide) (by decide) (by decide)
  fits := (commitText_length_le id).trans (by decide)

namespace Transaction

variable (t : Transaction)

theorem setLine_eq : t.setLine = ascii "SET " ++ (t.key ++ (ascii " " ++ t.value)) :=
  List.take_of_length_le t.fits

theorem textLine_setLine : TextLine t.setLine where
  noNewline := by
    rw [setLine_eq]
    simp only [List.mem_append, not_or]
    exact ⟨by decide, t.key_noNewline, by decide, t.value_noNewline⟩
  noNul := by
    rw [setLine_eq]
    simp only [List.mem_append, not_or]
    exact ⟨by decide, t.key_noNul, by decide, t.value_noNul⟩
  fits := by
    rw [setLine_eq]
    exact t.fits

theorem five_le_length_setLine : 5 ≤ t.setLine.length := by
  have hset : (ascii "SET ").length = 4 := rfl
  have hspace : (ascii " ").length = 1 := rfl
  rw [setLine_eq]
  simp only [List.length_append, hset, hspace]
  omega

theorem length_text : t.text.length =
    (beginText t.transactionId).length + 1 + (t.setLine.length + 1 +
      ((commitText t.transactionId).length + 1)) := by
  simp only [text, List.length_append, List.length_cons, List.length_nil]
  omega

end Transaction

/-! ## Their classification -/

theorem prefix_transaction_beginText (id : Int32) : ascii "TRANSACTION" <+: beginText id := by
  rw [beginText_eq]
  exact (show ascii "TRANSACTION" <+: ascii "TRANSACTION " by decide).trans
    (List.prefix_append _ _)

theorem prefix_transaction_commitText (id : Int32) : ascii "TRANSACTION" <+: commitText id := by
  rw [commitText_eq]
  exact (show ascii "TRANSACTION" <+: ascii "TRANSACTION " by decide).trans
    (List.prefix_append _ _)

theorem infix_begin_beginText (id : Int32) : ascii "BEGIN" <:+: beginText id := by
  rw [beginText_eq, ← List.append_assoc]
  exact (show ascii "BEGIN" <:+ ascii " BEGIN" by decide).isInfix.trans
    (List.suffix_append _ _).isInfix

theorem isBeginLine_beginText (id : Int32) : isBeginLine (beginText id) = true :=
  (isBeginLine_iff _).mpr ⟨prefix_transaction_beginText id, infix_begin_beginText id⟩

/-- A `COMMIT` record has no `B`, hence is no `BEGIN` record. -/
theorem isBeginLine_commitText (id : Int32) : isBeginLine (commitText id) = false := by
  refine Bool.eq_false_iff.mpr fun h => ?_
  have hB : (66 : UInt8) ∈ commitText id :=
    ((isBeginLine_iff _).mp h).2.subset (by decide)
  exact notMem_commitText id (by decide) (by decide) (by decide) hB

theorem isCommitLine_commitText (id : Int32) : isCommitLine (commitText id) = true := by
  refine (isCommitLine_iff _).mpr ⟨prefix_transaction_commitText id, ?_⟩
  rw [commitText_eq, ← List.append_assoc]
  exact (show ascii "COMMIT" <:+ ascii " COMMIT" by decide).isInfix.trans
    (List.suffix_append _ _).isInfix

/-- A line that starts with `T` is applied in no state. -/
theorem isSetLine_eq_false {line : Bytes} {b : UInt8} (hb : b ≠ 83) (h : [b] <+: line) :
    isSetLine line = false := by
  refine Bool.eq_false_iff.mpr fun hset => ?_
  exact not_prefix_of_ne (Ne.symm hb) _ _ _ ((isSetLine_iff line).mp hset) h

theorem isSetLine_of_prefix_transaction {line : Bytes} (h : ascii "TRANSACTION" <+: line) :
    isSetLine line = false :=
  isSetLine_eq_false (b := 84) (by decide)
    ((show [84] <+: ascii "TRANSACTION" by decide).trans h)

theorem isSetLine_setLine (t : Transaction) : isSetLine t.setLine = true := by
  rw [isSetLine_iff, Transaction.setLine_eq]
  exact (show ascii "SET" <+: ascii "SET " by decide).trans (List.prefix_append _ _)

@[simp] theorem lineCalls_beginText (pos : Nat) (inTx : Bool) (id : Int32) :
    lineCalls pos inTx (beginText id) = [] := by
  simp [lineCalls, isSetLine_of_prefix_transaction (prefix_transaction_beginText id)]

@[simp] theorem lineCalls_commitText (pos : Nat) (inTx : Bool) (id : Int32) :
    lineCalls pos inTx (commitText id) = [] := by
  simp [lineCalls, isSetLine_of_prefix_transaction (prefix_transaction_commitText id)]

@[simp] theorem lineCalls_setLine (pos : Nat) (t : Transaction) :
    lineCalls pos true t.setLine = [⟨pos, t.setLine⟩] := by
  simp [lineCalls, isSetLine_setLine]

@[simp] theorem lineTx_beginText (inTx : Bool) (id : Int32) :
    lineTx inTx (beginText id) = true := by
  simp [lineTx, isBeginLine_beginText]

@[simp] theorem lineTx_commitText (inTx : Bool) (id : Int32) :
    lineTx inTx (commitText id) = false := by
  simp [lineTx, isBeginLine_commitText, isCommitLine_commitText]

@[simp] theorem lineTx_setLine (inTx : Bool) (t : Transaction) :
    lineTx inTx t.setLine = inTx :=
  lineTx_of_set inTx (isSetLine_setLine t)

/-! ## Whole transactions -/

/-- Offset of the `SET` line inside the transaction's bytes. -/
def Transaction.setOffset (t : Transaction) : Nat := (beginText t.transactionId).length + 1

/-- Offset just behind the text of the `COMMIT` record, its newline left out. -/
def Transaction.commitOffset (t : Transaction) : Nat :=
  t.setOffset + (t.setLine.length + 1) + (commitText t.transactionId).length

theorem Transaction.commitOffset_lt (t : Transaction) : t.commitOffset < t.text.length := by
  rw [Transaction.length_text, Transaction.commitOffset, Transaction.setOffset]
  omega

/-- A whole transaction is applied from any state of the flag and closes it. -/
theorem replay_text (t : Transaction) (pos : Nat) (inTx : Bool) (rest : Bytes) :
    replay pos inTx (t.text ++ rest) =
      ⟨pos + t.setOffset, t.setLine⟩ :: replay (pos + t.text.length) false rest := by
  have hassoc : t.text ++ rest = beginText t.transactionId ++ newline ::
      (t.setLine ++ newline :: (commitText t.transactionId ++ newline :: rest)) := by
    simp [Transaction.text]
  rw [hassoc, replay_line (textLine_beginText _), lineCalls_beginText, lineTx_beginText,
    replay_line t.textLine_setLine, lineCalls_setLine, lineTx_setLine,
    replay_line (textLine_commitText _), lineCalls_commitText, lineTx_commitText]
  have hend : pos + ((beginText t.transactionId).length + 1) + (t.setLine.length + 1)
      + ((commitText t.transactionId).length + 1) = pos + t.text.length := by
    rw [Transaction.length_text]
    omega
  rw [hend]
  rfl

/-- The calls for a sequence of whole transactions whose bytes start at `pos`. -/
def wholeCalls : Nat → List Transaction → List DbAppend
  | _, [] => []
  | pos, t :: txns => ⟨pos + t.setOffset, t.setLine⟩ :: wholeCalls (pos + t.text.length) txns

@[simp] theorem wholeCalls_line (pos : Nat) (txns : List Transaction) :
    (wholeCalls pos txns).map DbAppend.line = txns.map Transaction.setLine := by
  induction txns generalizing pos with
  | nil => rfl
  | cons t txns ih => simp [wholeCalls, ih]

theorem wholeCalls_append (pos : Nat) (txns later : List Transaction) :
    wholeCalls pos (txns ++ later) =
      wholeCalls pos txns ++ wholeCalls (pos + (walText txns).length) later := by
  induction txns generalizing pos with
  | nil => simp [wholeCalls]
  | cons t txns ih => simp [wholeCalls, ih, Nat.add_assoc]

/-- Whole transactions written while the flag is closed are replayed one by
one, and what follows is read with the flag closed. -/
theorem replay_walText (txns : List Transaction) (pos : Nat) (rest : Bytes) :
    replay pos false (walText txns ++ rest) =
      wholeCalls pos txns ++ replay (pos + (walText txns).length) false rest := by
  induction txns generalizing pos with
  | nil => simp [wholeCalls]
  | cons t txns ih =>
      rw [walText_cons, List.append_assoc, replay_text, ih]
      simp [wholeCalls, Nat.add_assoc]

/-- Whole transactions at the end of the file. -/
theorem replay_walText_eof (txns : List Transaction) (pos : Nat) :
    replay pos false (walText txns) = wholeCalls pos txns := by
  have h := replay_walText txns pos []
  rwa [List.append_nil, replay_nil, List.append_nil] at h

/-- Replaying an intact log applies every transaction, in order. -/
theorem recoverCalls_walText (txns : List Transaction) :
    recoverCalls (walText txns) = wholeCalls 0 txns :=
  replay_walText_eof txns 0

/-! ## The bytes a call was made for -/

/-- The lines among `calls` that were read from the `len` bytes at `start`. -/
def appendedFrom (calls : List DbAppend) (start len : Nat) : List Bytes :=
  (calls.filter fun call => decide (start ≤ call.pos ∧ call.pos < start + len)).map
    DbAppend.line

@[simp] theorem appendedFrom_nil (start len : Nat) : appendedFrom [] start len = [] := rfl

theorem appendedFrom_append (calls later : List DbAppend) (start len : Nat) :
    appendedFrom (calls ++ later) start len =
      appendedFrom calls start len ++ appendedFrom later start len := by
  simp [appendedFrom]

/-- Calls made for other bytes do not count. -/
theorem appendedFrom_eq_nil {calls : List DbAppend} {start len : Nat}
    (h : ∀ call ∈ calls, ¬ (start ≤ call.pos ∧ call.pos < start + len)) :
    appendedFrom calls start len = [] := by
  rw [appendedFrom, List.filter_eq_nil_iff.mpr, List.map_nil]
  intro call hcall
  simpa using h call hcall

theorem appendedFrom_singleton {call : DbAppend} {start len : Nat}
    (h : start ≤ call.pos ∧ call.pos < start + len) :
    appendedFrom [call] start len = [call.line] := by
  simp [appendedFrom, h]

theorem mem_wholeCalls_pos {pos : Nat} {txns : List Transaction} {call : DbAppend}
    (h : call ∈ wholeCalls pos txns) :
    pos ≤ call.pos ∧ call.pos < pos + (walText txns).length := by
  induction txns generalizing pos with
  | nil => simp [wholeCalls] at h
  | cons t txns ih =>
      have hoff := t.commitOffset_lt
      rw [Transaction.commitOffset] at hoff
      rw [walText_cons, List.length_append]
      rcases List.mem_cons.mp h with rfl | h
      · simp only
        omega
      · have hrest := ih h
        omega

/-- Whole transactions in front of or behind a stretch of the file leave nothing for it. -/
theorem appendedFrom_wholeCalls_outside {pos start len : Nat} {txns : List Transaction}
    (h : pos + (walText txns).length ≤ start ∨ start + len ≤ pos) :
    appendedFrom (wholeCalls pos txns) start len = [] := by
  refine appendedFrom_eq_nil fun call hcall => ?_
  have hpos := mem_wholeCalls_pos hcall
  omega

theorem mem_wholeCalls_line {pos : Nat} {txns : List Transaction} {call : DbAppend}
    (h : call ∈ wholeCalls pos txns) : ∃ t ∈ txns, call.line = t.setLine := by
  have hline := List.mem_map_of_mem (f := DbAppend.line) h
  rw [wholeCalls_line, List.mem_map] at hline
  obtain ⟨t, ht, heq⟩ := hline
  exact ⟨t, ht, heq.symm⟩

/-- Among the calls for whole transactions, exactly one belongs to each. -/
theorem appendedFrom_wholeCalls (pos : Nat) (before : List Transaction) (t : Transaction)
    (after : List Transaction) :
    appendedFrom (wholeCalls pos (before ++ t :: after)) (pos + (walText before).length)
      t.text.length = [t.setLine] := by
  have hoff := t.commitOffset_lt
  rw [Transaction.commitOffset] at hoff
  rw [wholeCalls_append, appendedFrom_append]
  rw [appendedFrom_wholeCalls_outside (by omega), List.nil_append, wholeCalls,
    ← List.singleton_append, appendedFrom_append, appendedFrom_wholeCalls_outside (by omega),
    List.append_nil]
  exact appendedFrom_singleton (by simp only; omega)

end Wal
end Leetcode
