import Leetcode.Wal.Crash

/-!
# Writing behind a torn record

A run that is cut leaves a fragment without a newline, and the next run's
`BEGIN` record is appended to it: the two form one line.  What this line is to
`recover` depends on where the cut lies.

* Inside the word `TRANSACTION` of a `BEGIN` record the merged line is no
  record at all, the flag stays closed, and the `SET` line of the first later
  transaction is lost.
* Inside the `SET` record the merged line is applied to the DB as it stands
  (its first 255 bytes), and the swallowed `BEGIN` does no harm because the
  flag is already open.
* Everywhere else the merged line acts as the swallowed `BEGIN` record.
-/

namespace Leetcode
namespace Wal

open CLib

/-- The WAL when the run that wrote `before` and `torn` was cut `cut` bytes
into the records of `torn`, and `later` was appended behind the fragment. -/
def tornWal (before : List Transaction) (torn : Transaction) (cut : Nat)
    (later : List Transaction) : Bytes :=
  writeAll later ((writeAll (before ++ [torn]) []).take ((walText before).length + cut))

/-- `recover` appends, for every transaction all of whose records were
completely appended, exactly its `SET` line, and no line that no
`write_transaction` call wrote. -/
structure Durable (before : List Transaction) (torn : Transaction) (cut : Nat)
    (later : List Transaction) : Prop where
  earlier : ∀ pre t post, before = pre ++ t :: post →
    appendedFrom (recoverCalls (tornWal before torn cut later)) (walText pre).length
      t.text.length = [t.setLine]
  uncut : torn.text.length ≤ cut →
    appendedFrom (recoverCalls (tornWal before torn cut later)) (walText before).length
      torn.text.length = [torn.setLine]
  behind : ∀ pre t post, later = pre ++ t :: post →
    appendedFrom (recoverCalls (tornWal before torn cut later))
      ((walText before).length + min cut torn.text.length + (walText pre).length)
      t.text.length = [t.setLine]
  written : ∀ call ∈ recoverCalls (tornWal before torn cut later),
    ∃ t ∈ before ++ torn :: later, call.line = t.setLine

/-- The `BEGIN` record that lands on the torn line. -/
def nextBegin : List Transaction → Bytes
  | [] => []
  | t :: _ => beginText t.transactionId

/-- What `recover` reads at the start of a torn `SET` record. -/
def tornLine (torn : Transaction) (cut : Nat) (later : List Transaction) : Bytes :=
  (torn.setLine.take (cut - torn.setOffset) ++ nextBegin later).take 255

/-- The cut does not lie inside the word `TRANSACTION` of the `BEGIN` record
when a transaction follows; and when it lies inside the `SET` record, the line
read there does not start with `SET` or is the `SET` line of a call. -/
def TailClear (before : List Transaction) (torn : Transaction) (cut : Nat)
    (later : List Transaction) : Prop :=
  (later ≠ [] → ¬ (0 < cut ∧ cut < 11)) ∧
    (torn.setOffset ≤ cut → cut ≤ torn.setOffset + torn.setLine.length →
      isSetLine (tornLine torn cut later) = true →
      ∃ t ∈ before ++ torn :: later, tornLine torn cut later = t.setLine)

/-! ## Merged lines -/

/-- The part of a transaction's bytes behind its `BEGIN` record. -/
def Transaction.afterBegin (t : Transaction) : Bytes :=
  t.setLine ++ newline :: (commitText t.transactionId ++ [newline])

theorem Transaction.text_eq (t : Transaction) :
    t.text = beginText t.transactionId ++ newline :: t.afterBegin := rfl

/-- Without its `BEGIN` record the transaction is applied only if the flag is
open already. -/
theorem replay_afterBegin (t : Transaction) (txns : List Transaction) (pos : Nat)
    (inTx : Bool) :
    replay (pos + t.setOffset) inTx (t.afterBegin ++ walText txns) =
      lineCalls (pos + t.setOffset) inTx t.setLine ++
        wholeCalls (pos + t.text.length) txns := by
  have hassoc : t.afterBegin ++ walText txns =
      t.setLine ++ newline :: (commitText t.transactionId ++ newline :: walText txns) := by
    simp [Transaction.afterBegin]
  have hend : pos + t.setOffset + (t.setLine.length + 1)
      + ((commitText t.transactionId).length + 1) = pos + t.text.length := by
    rw [Transaction.length_text, Transaction.setOffset]
    omega
  have hrest := replay_walText_eof txns (pos + t.text.length)
  rw [hassoc, replay_line t.textLine_setLine, lineTx_setLine,
    replay_line (textLine_commitText _), lineCalls_commitText, lineTx_commitText, hend, hrest]
  rfl

/-- A line of up to two buffers: the first 255 bytes, then the rest. -/
theorem replay_two_pieces {line : Bytes} (hnl : newline ∉ line) (hnul : (0 : UInt8) ∉ line)
    (hlen : line.length ≤ 510) (pos : Nat) (inTx : Bool) (rest : Bytes) :
    replay pos inTx (line ++ newline :: rest) =
      lineCalls pos inTx (line.take 255) ++
        (lineCalls (pos + 255) (lineTx inTx (line.take 255)) (line.drop 255) ++
          replay (pos + (line.length + 1))
            (lineTx (lineTx inTx (line.take 255)) (line.drop 255)) rest) := by
  rcases Nat.lt_or_ge 255 line.length with hlong | hshort
  · have hfirst : TextLine (line.take 255) :=
      ⟨fun h => hnl (List.mem_of_mem_take h), fun h => hnul (List.mem_of_mem_take h),
        List.length_take_le 255 line⟩
    have hsecond : TextLine (line.drop 255) :=
      ⟨fun h => hnl (List.mem_of_mem_drop h), fun h => hnul (List.mem_of_mem_drop h), by
        rw [List.length_drop]
        exact (by omega : line.length - 255 ≤ 255)⟩
    have hfull : (line.take 255).length = 255 := by
      rw [List.length_take]
      omega
    have hend : pos + 255 + ((line.drop 255).length + 1) = pos + (line.length + 1) := by
      rw [List.length_drop]
      omega
    have hsplit : line ++ newline :: rest
        = line.take 255 ++ (line.drop 255 ++ newline :: rest) := by
      rw [← List.append_assoc, List.take_append_drop]
    rw [hsplit, replay_full hfirst hfull, replay_line hsecond, hend]
  · rw [List.take_of_length_le hshort, List.drop_of_length_le hshort, lineCalls_nil, lineTx_nil,
      List.nil_append]
    exact replay_line ⟨hnl, hnul, hshort⟩ pos inTx rest

/-- A line that does not start with `T` leaves the flag as it is. -/
theorem lineTx_of_not_transaction {line : Bytes} (inTx : Bool)
    (h : ¬ ascii "TRANSACTION" <+: line) : lineTx inTx line = inTx := by
  have hbegin : isBeginLine line = false :=
    Bool.eq_false_iff.mpr fun hb => h ((isBeginLine_iff line).mp hb).1
  have hcommit : isCommitLine line = false :=
    Bool.eq_false_iff.mpr fun hc => h ((isCommitLine_iff line).mp hc).1
  simp [lineTx, hbegin, hcommit]

/-- A line with `BEGIN` in it never closes the flag. -/
theorem lineTx_of_begin {line : Bytes} (h : ascii "BEGIN" <:+: line) :
    lineTx true line = true := by
  by_cases hpre : ascii "TRANSACTION" <+: line
  · simp [lineTx, (isBeginLine_iff line).mpr ⟨hpre, h⟩]
  · exact lineTx_of_not_transaction true hpre

/-- A piece of a `BEGIN` record starts no `SET` line: its only `S` is followed
by an `A`. -/
theorem isSetLine_of_infix_beginText {id : Int32} {part : Bytes} (h : part <:+: beginText id) :
    isSetLine part = false := by
  refine Bool.eq_false_iff.mpr fun hset => ?_
  obtain ⟨u, v, huv⟩ := ((isSetLine_iff part).mp hset).isInfix.trans h
  have hshape : beginText id = ascii "TRAN" ++ 83 :: (ascii "ACTION " ++
      (decimal id.toInt ++ ascii " BEGIN")) := beginText_eq id
  have hsplit : u ++ 83 :: (ascii "ET" ++ v) = ascii "TRAN" ++ 83 :: (ascii "ACTION " ++
      (decimal id.toInt ++ ascii " BEGIN")) := by
    rw [← hshape, ← huv, List.append_assoc]
    rfl
  have hnum : (83 : UInt8) ∉ decimal id.toInt := notMem_decimal _ (by decide) (by decide)
  have htail : (83 : UInt8) ∉ ascii "ACTION " ++ (decimal id.toInt ++ ascii " BEGIN") := by
    simp only [List.mem_append, not_or]
    exact ⟨by decide, hnum, by decide⟩
  have hhead : (83 : UInt8) ∉ ascii "TRAN" := by decide
  obtain ⟨-, -, heq⟩ :=
    (List.append_cons_inj_of_notMem hhead htail).mp hsplit.symm
  exact absurd (List.cons.inj heq).1 (by decide)

/-! ## The log with the fragment -/

theorem tornWal_eq (before : List Transaction) (torn : Transaction) (cut : Nat)
    (later : List Transaction) :
    tornWal before torn cut later = walText before ++ (torn.text.take cut ++ walText later) := by
  rw [tornWal, writeAll_eq, writeAll_eq, List.nil_append, walText_append, walText_cons,
    walText_nil, List.append_nil, List.take_length_add_append, List.append_assoc]

theorem recoverCalls_tornWal (before : List Transaction) (torn : Transaction) (cut : Nat)
    (later : List Transaction) :
    recoverCalls (tornWal before torn cut later) = wholeCalls 0 before ++
      replay (walText before).length false (torn.text.take cut ++ walText later) := by
  have h := replay_walText before 0 (torn.text.take cut ++ walText later)
  rw [Nat.zero_add] at h
  rw [tornWal_eq]
  exact h

/-- A fragment merged with the next `BEGIN` record. -/
theorem replay_fragment_cons {frag : Bytes} (hnl : newline ∉ frag) (hnul : (0 : UInt8) ∉ frag)
    (hlen : frag.length ≤ 255) (t : Transaction) (txns : List Transaction) (pos : Nat)
    (inTx : Bool) :
    replay pos inTx (frag ++ walText (t :: txns)) =
      lineCalls pos inTx ((frag ++ beginText t.transactionId).take 255) ++
        (lineCalls (pos + 255) (lineTx inTx ((frag ++ beginText t.transactionId).take 255))
            ((frag ++ beginText t.transactionId).drop 255) ++
          replay (pos + frag.length + t.setOffset)
            (lineTx (lineTx inTx ((frag ++ beginText t.transactionId).take 255))
              ((frag ++ beginText t.transactionId).drop 255))
            (t.afterBegin ++ walText txns)) := by
  have hbegin := textLine_beginText t.transactionId
  have hbeginLen := beginText_length_le t.transactionId
  have hline : frag ++ walText (t :: txns) = (frag ++ beginText t.transactionId) ++
      newline :: (t.afterBegin ++ walText txns) := by
    simp [Transaction.text_eq]
  have hend : pos + ((frag ++ beginText t.transactionId).length + 1)
      = pos + frag.length + t.setOffset := by
    rw [List.length_append, Transaction.setOffset]
    omega
  rw [hline, replay_two_pieces _ _ _ pos inTx, hend]
  · simp only [List.mem_append, not_or]
    exact ⟨hnl, hbegin.noNewline⟩
  · simp only [List.mem_append, not_or]
    exact ⟨hnul, hbegin.noNul⟩
  · rw [List.length_append]
    omega

/-- A fragment that starts like a frame record: with `BEGIN` merged into it,
it applies nothing and leaves the flag open if the merged line is a `BEGIN`
record or the flag was open. -/
theorem replay_frame_fragment {frag : Bytes} (hfrag : TextLine frag) (hlen : frag.length ≤ 30)
    (hhead : frag = [] ∨ [84] <+: frag) (t : Transaction) (txns : List Transaction) (pos : Nat)
    (inTx : Bool) :
    replay pos inTx (frag ++ walText (t :: txns)) =
      replay (pos + frag.length + t.setOffset)
        (lineTx inTx (frag ++ beginText t.transactionId)) (t.afterBegin ++ walText txns) := by
  have hbeginLen := beginText_length_le t.transactionId
  have hshort : (frag ++ beginText t.transactionId).length ≤ 255 := by
    rw [List.length_append]
    omega
  have hset : isSetLine (frag ++ beginText t.transactionId) = false := by
    rcases hhead with rfl | hhead
    · exact isSetLine_of_prefix_transaction (prefix_transaction_beginText _)
    · exact isSetLine_eq_false (by decide) (hhead.trans (List.prefix_append _ _))
  rw [replay_fragment_cons hfrag.noNewline hfrag.noNul (by omega),
    List.take_of_length_le hshort, List.drop_of_length_le hshort, lineCalls_nil, lineTx_nil,
    lineCalls, hset, Bool.and_false]
  rfl

/-! ## The four regions of the cut -/

theorem lineTx_of_infix_beginText {id : Int32} {part : Bytes} (h : part <:+: beginText id) :
    lineTx true part = true := by
  have hcommit : isCommitLine part = false := by
    refine Bool.eq_false_iff.mpr fun hc => ?_
    have hM : (77 : UInt8) ∈ beginText id :=
      (((isCommitLine_iff part).mp hc).2.trans h).subset (by decide)
    exact notMem_beginText id (by decide) (by decide) (by decide) hM
  simp [lineTx, hcommit]

theorem head_prefix_take {frame : Bytes} (hframe : ascii "TRANSACTION" <+: frame) (n : Nat) :
    frame.take n = [] ∨ [84] <+: frame.take n := by
  cases n with
  | zero => exact Or.inl rfl
  | succ n =>
      have hhead : [84] <+: frame := (show [84] <+: ascii "TRANSACTION" by decide).trans hframe
      exact Or.inr (List.prefix_take_iff.mpr ⟨hhead, by simp⟩)

/-- Two or more whole words `TRANSACTION` cannot start inside one another. -/
theorem not_prefix_merged {cut : Nat} (hpos : 0 < cut) (hcut : cut < 11) (id id' : Int32) :
    ¬ ascii "TRANSACTION" <+: (beginText id).take cut ++ beginText id' := by
  intro h
  have hword : ∀ n < 11, 0 < n →
      ((ascii "TRANSACTION").take n ++ ascii "TRANSACTION").take 11 ≠ ascii "TRANSACTION" := by
    decide
  have hlen : (ascii "TRANSACTION").length = 11 := rfl
  obtain ⟨s, hs⟩ := prefix_transaction_beginText id
  obtain ⟨s', hs'⟩ := prefix_transaction_beginText id'
  have htake : (beginText id).take cut = (ascii "TRANSACTION").take cut := by
    rw [← hs, List.take_append_of_le_length (by omega)]
  have hfirst := List.prefix_iff_eq_take.mp h
  rw [htake, ← hs', hlen, ← List.append_assoc, List.take_append_of_le_length] at hfirst
  · exact hword cut hcut hpos hfirst.symm
  · rw [List.length_append, hlen]
    omega

/-- The cut lies inside the `BEGIN` record: the part of it that is there makes one line with the
next `BEGIN` record. -/
theorem replay_torn_first (torn t : Transaction) (txns : List Transaction) (pos : Nat)
    {cut : Nat} (hcut : cut ≤ (beginText torn.transactionId).length) :
    replay pos false (torn.text.take cut ++ walText (t :: txns)) =
      lineCalls (pos + cut + t.setOffset)
          (lineTx false ((beginText torn.transactionId).take cut ++ beginText t.transactionId))
          t.setLine ++
        wholeCalls (pos + cut + t.text.length) txns := by
  have hpre := prefix_transaction_beginText torn.transactionId
  have hlen := beginText_length_le torn.transactionId
  have htake : torn.text.take cut = (beginText torn.transactionId).take cut :=
    List.take_append_of_le_length hcut
  have hfrag := (textLine_beginText torn.transactionId).of_isPrefix (List.take_prefix cut _)
  have hfragLen : ((beginText torn.transactionId).take cut).length = cut := by
    rw [List.length_take]
    omega
  rw [htake, replay_frame_fragment hfrag (by omega) (head_prefix_take hpre cut), hfragLen,
    replay_afterBegin]

/-- The cut lies inside the `BEGIN` record, behind the word `TRANSACTION`: the
merged line is a `BEGIN` record. -/
theorem replay_torn_begin (torn t : Transaction) (txns : List Transaction) (pos : Nat)
    {cut : Nat} (hword : 11 ≤ cut) (hcut : cut < torn.setOffset) :
    replay pos false (torn.text.take cut ++ walText (t :: txns)) =
      wholeCalls (pos + cut) (t :: txns) := by
  rw [Transaction.setOffset] at hcut
  have hpre := prefix_transaction_beginText torn.transactionId
  have hmerged : lineTx false ((beginText torn.transactionId).take cut ++
      beginText t.transactionId) = true := by
    have htrans : ascii "TRANSACTION" <+: (beginText torn.transactionId).take cut ++
        beginText t.transactionId :=
      (List.prefix_take_iff.mpr ⟨hpre, hword⟩).trans (List.prefix_append _ _)
    have hbegin : ascii "BEGIN" <:+: (beginText torn.transactionId).take cut ++
        beginText t.transactionId :=
      (infix_begin_beginText _).trans (List.suffix_append _ _).isInfix
    simp [lineTx, (isBeginLine_iff _).mpr ⟨htrans, hbegin⟩]
  rw [replay_torn_first torn t txns pos (by omega), hmerged, lineCalls_setLine]
  rfl

/-- The cut lies inside the word `TRANSACTION`: the first transaction behind
it is lost. -/
theorem replay_torn_word (torn t : Transaction) (txns : List Transaction) (pos : Nat)
    {cut : Nat} (hpos : 0 < cut) (hcut : cut < 11) :
    replay pos false (torn.text.take cut ++ walText (t :: txns)) =
      wholeCalls (pos + cut + t.text.length) txns := by
  have hword : 11 ≤ (beginText torn.transactionId).length :=
    (prefix_transaction_beginText torn.transactionId).length_le
  have hmerged := lineTx_of_not_transaction false
    (not_prefix_merged hpos hcut torn.transactionId t.transactionId)
  rw [replay_torn_first torn t txns pos (by omega), hmerged]
  rfl

/-- The cut lies in the `SET` record: its part of the line, with the next
`BEGIN` merged into it, is applied if it starts with `SET`. -/
theorem replay_torn_set (torn t : Transaction) (txns : List Transaction) (pos : Nat) {j : Nat}
    (hj : j ≤ torn.setLine.length) :
    replay (pos + torn.setOffset) true (torn.setLine.take j ++ walText (t :: txns)) =
      lineCalls (pos + torn.setOffset) true
          ((torn.setLine.take j ++ beginText t.transactionId).take 255) ++
        wholeCalls (pos + torn.setOffset + j) (t :: txns) := by
  have hset := torn.textLine_setLine
  have hfits : torn.setLine.length ≤ 255 := hset.fits
  have hfrag := hset.of_isPrefix (List.take_prefix j _)
  have hfragLen : (torn.setLine.take j).length = j := by
    rw [List.length_take]
    omega
  -- the rest of the merged line is a piece of the `BEGIN` record
  have hrest : (torn.setLine.take j ++ beginText t.transactionId).drop 255 <:+:
      beginText t.transactionId := by
    rw [List.drop_append, List.drop_of_length_le (by omega), List.nil_append]
    exact (List.drop_suffix _ _).isInfix
  have hfirst : lineTx true ((torn.setLine.take j ++ beginText t.transactionId).take 255)
      = true := by
    cases j with
    | zero => exact lineTx_of_infix_beginText (List.take_prefix _ _).isInfix
    | succ j =>
        refine lineTx_of_not_transaction true fun h => ?_
        have hS : [83] <+: (torn.setLine.take (j + 1) ++ beginText t.transactionId).take 255 := by
          have hhead : [83] <+: torn.setLine := (show [83] <+: ascii "SET" by decide).trans
            ((isSetLine_iff _).mp (isSetLine_setLine torn))
          refine List.prefix_take_iff.mpr ⟨?_, by simp⟩
          exact (List.prefix_take_iff.mpr ⟨hhead, by simp⟩).trans (List.prefix_append _ _)
        exact not_prefix_of_ne (by decide) _ _ _ h hS
  rw [replay_fragment_cons hfrag.noNewline hfrag.noNul (by omega), hfirst,
    lineTx_of_infix_beginText hrest, lineCalls, lineCalls, isSetLine_of_infix_beginText hrest,
    hfragLen, replay_afterBegin, lineCalls_setLine]
  rfl

/-- The cut lies in the `COMMIT` record: the merged line keeps the flag open. -/
theorem replay_torn_commit (torn t : Transaction) (txns : List Transaction) (pos : Nat)
    {m : Nat} (hm : m ≤ (commitText torn.transactionId).length) :
    replay pos true ((commitText torn.transactionId).take m ++ walText (t :: txns)) =
      wholeCalls (pos + m) (t :: txns) := by
  have hpre := prefix_transaction_commitText torn.transactionId
  have hlen := commitText_length_le torn.transactionId
  have hfrag := (textLine_commitText torn.transactionId).of_isPrefix (List.take_prefix m _)
  have hfragLen : ((commitText torn.transactionId).take m).length = m := by
    rw [List.length_take]
    omega
  have hbegin : ascii "BEGIN" <:+: (commitText torn.transactionId).take m ++
      beginText t.transactionId :=
    (infix_begin_beginText _).trans (List.suffix_append _ _).isInfix
  rw [replay_frame_fragment hfrag (by omega) (head_prefix_take hpre m), hfragLen,
    lineTx_of_begin hbegin, replay_afterBegin, lineCalls_setLine]
  rfl

/-- What `recover` applies of the bytes of the torn transaction. -/
def mergedCalls (pos : Nat) (torn : Transaction) (cut : Nat) (later : List Transaction) :
    List DbAppend :=
  if cut < torn.setOffset then []
  else if cut ≤ torn.setOffset + torn.setLine.length then
    lineCalls (pos + torn.setOffset) true (tornLine torn cut later)
  else [⟨pos + torn.setOffset, torn.setLine⟩]

/-- The bytes of a transaction up to a cut behind its `BEGIN` record. -/
theorem replay_take_behind_begin (torn : Transaction) (pos : Nat) {cut : Nat}
    (hcut : torn.setOffset ≤ cut) (rest : Bytes) :
    replay pos false (torn.text.take cut ++ rest) =
      replay (pos + torn.setOffset) true (torn.afterBegin.take (cut - torn.setOffset) ++ rest) := by
  have htake : torn.text.take cut = beginText torn.transactionId ++
      newline :: torn.afterBegin.take (cut - torn.setOffset) := take_line hcut
  rw [htake, List.append_assoc, List.cons_append, replay_line (textLine_beginText _),
    lineCalls_beginText, lineTx_beginText]
  rfl

/-- A cut inside the `BEGIN` record, unless the first transaction behind it is lost. -/
theorem replay_cut_begin (torn : Transaction) (later : List Transaction) (pos : Nat) {cut : Nat}
    (hbegin : cut < torn.setOffset) (hclear : later ≠ [] → ¬ (0 < cut ∧ cut < 11)) :
    replay pos false (torn.text.take cut ++ walText later) = wholeCalls (pos + cut) later := by
  have hlen := torn.length_text
  have hoff : torn.setOffset = (beginText torn.transactionId).length + 1 := rfl
  cases later with
  | nil =>
      rw [walText_nil, List.append_nil, replay_take_text torn pos (by omega), tornCalls,
        if_neg (by omega)]
      rfl
  | cons t txns =>
      rcases Nat.eq_zero_or_pos cut with rfl | hpos
      · simpa using replay_walText_eof (t :: txns) pos
      · have hword : ¬ cut < 11 := fun h => hclear (by simp) ⟨hpos, h⟩
        exact replay_torn_begin torn t txns pos (by omega) hbegin

/-- A cut inside the `SET` record, `j` bytes of which are there. -/
theorem replay_cut_set (torn : Transaction) (later : List Transaction) (pos : Nat) {j : Nat}
    (hj : j ≤ torn.setLine.length) :
    replay (pos + torn.setOffset) true (torn.afterBegin.take j ++ walText later) =
      lineCalls (pos + torn.setOffset) true ((torn.setLine.take j ++ nextBegin later).take 255) ++
        wholeCalls (pos + torn.setOffset + j) later := by
  have htake : torn.afterBegin.take j = torn.setLine.take j := List.take_append_of_le_length hj
  rw [htake]
  cases later with
  | nil =>
      have hline := torn.textLine_setLine.of_isPrefix (List.take_prefix j _)
      have hfragLen : (torn.setLine.take j).length ≤ 255 := hline.fits
      rw [walText_nil, List.append_nil, replay_eof hline, nextBegin, List.append_nil,
        List.take_of_length_le hfragLen]
      simp [wholeCalls]
  | cons t txns => exact replay_torn_set torn t txns pos hj

/-- A cut inside or behind the `COMMIT` record, `m` bytes behind the `SET` record. -/
theorem replay_cut_commit (torn : Transaction) (later : List Transaction) (pos m : Nat) :
    replay pos true ((commitText torn.transactionId ++ [newline]).take m ++ walText later) =
      wholeCalls (pos + min m ((commitText torn.transactionId).length + 1)) later := by
  rcases Nat.lt_or_ge (commitText torn.transactionId).length m with hwhole | hcut
  · rw [List.take_of_length_le (by rw [List.length_append, List.length_singleton]; omega),
      List.append_assoc, List.singleton_append, replay_line (textLine_commitText _),
      lineCalls_commitText, lineTx_commitText, Nat.min_eq_right (by omega), replay_walText_eof]
    rfl
  · rw [List.take_append_of_le_length hcut, Nat.min_eq_left (by omega)]
    cases later with
    | nil =>
        have hline := (textLine_commitText torn.transactionId).of_isPrefix (List.take_prefix m _)
        rw [walText_nil, List.append_nil, replay_eof hline, lineCalls_take_commitText]
        rfl
    | cons t txns => exact replay_torn_commit torn t txns pos hcut

/-- The fragment and the later transactions, unless the first of these is lost. -/
theorem replay_torn (torn : Transaction) (cut : Nat) (later : List Transaction) (pos : Nat)
    (hclear : later ≠ [] → ¬ (0 < cut ∧ cut < 11)) :
    replay pos false (torn.text.take cut ++ walText later) =
      mergedCalls pos torn cut later ++
        wholeCalls (pos + min cut torn.text.length) later := by
  have hlen := torn.length_text
  have hoff : torn.setOffset = (beginText torn.transactionId).length + 1 := rfl
  rcases Nat.lt_or_ge cut torn.setOffset with hbegin | hbehind
  · rw [mergedCalls, if_pos hbegin, List.nil_append, Nat.min_eq_left (by omega)]
    exact replay_cut_begin torn later pos hbegin hclear
  · rw [mergedCalls, if_neg (by omega), replay_take_behind_begin torn pos hbehind]
    rcases Nat.lt_or_ge (torn.setOffset + torn.setLine.length) cut with hcommit | hset
    · have htake : torn.afterBegin.take (cut - torn.setOffset) = torn.setLine ++ newline ::
          (commitText torn.transactionId ++ [newline]).take
            (cut - torn.setOffset - (torn.setLine.length + 1)) := take_line (by omega)
      rw [if_neg (by omega), htake, List.append_assoc, List.cons_append,
        replay_line torn.textLine_setLine, lineCalls_setLine, lineTx_setLine, replay_cut_commit]
      congr 2
      omega
    · have hpos : pos + torn.setOffset + (cut - torn.setOffset) = pos + cut := by omega
      rw [if_pos hset, replay_cut_set torn later pos (by omega), hpos, Nat.min_eq_left (by omega)]
      rfl

/-! ## Durability -/

/-- A cut right behind the `BEGIN` record leaves no `SET` line there. -/
theorem isSetLine_tornLine_setOffset (torn : Transaction) (later : List Transaction) :
    isSetLine (tornLine torn torn.setOffset later) = false := by
  have hline : tornLine torn torn.setOffset later = (nextBegin later).take 255 := by
    simp [tornLine]
  rw [hline]
  cases later with
  | nil => rfl
  | cons t txns => exact isSetLine_of_infix_beginText (List.take_prefix _ _).isInfix

theorem mem_mergedCalls_pos {pos : Nat} {torn : Transaction} {cut : Nat}
    {later : List Transaction} {call : DbAppend} (h : call ∈ mergedCalls pos torn cut later) :
    pos ≤ call.pos ∧ call.pos < pos + min cut torn.text.length := by
  have hlen := torn.length_text
  have hoff : torn.setOffset = (beginText torn.transactionId).length + 1 := rfl
  rw [mergedCalls] at h
  split at h
  · simp at h
  · have hbehind : torn.setOffset < cut := by
      refine Nat.lt_of_le_of_ne (by omega) fun heq => ?_
      subst heq
      rw [if_pos (by omega), lineCalls, isSetLine_tornLine_setOffset] at h
      simp at h
    have hpos : call.pos = pos + torn.setOffset := by
      split at h
      · rw [lineCalls] at h
        split at h
        · rw [List.mem_singleton.mp h]
        · simp at h
      · rw [List.mem_singleton.mp h]
    omega

/-- What `recover` applies, if no later transaction is lost. -/
theorem recoverCalls_clear {before : List Transaction} {torn : Transaction} {cut : Nat}
    {later : List Transaction} (hword : later ≠ [] → ¬ (0 < cut ∧ cut < 11)) :
    recoverCalls (tornWal before torn cut later) = wholeCalls 0 before ++
      (mergedCalls (walText before).length torn cut later ++
        wholeCalls ((walText before).length + min cut torn.text.length) later) := by
  rw [recoverCalls_tornWal, replay_torn torn cut later _ hword]

theorem appendedFrom_mergedCalls_outside {pos start len cut : Nat} {torn : Transaction}
    {later : List Transaction}
    (h : pos + min cut torn.text.length ≤ start ∨ start + len ≤ pos) :
    appendedFrom (mergedCalls pos torn cut later) start len = [] := by
  refine appendedFrom_eq_nil fun call hcall => ?_
  have hpos := mem_mergedCalls_pos hcall
  omega

/-- A cut inside the word `TRANSACTION` loses the next transaction. -/
theorem not_durable_word {before : List Transaction} {torn : Transaction} {cut : Nat}
    {later : List Transaction} (hne : later ≠ []) (hpos : 0 < cut) (hcut : cut < 11) :
    ¬ Durable before torn cut later := by
  intro hdur
  obtain ⟨t, txns, rfl⟩ := List.exists_cons_of_ne_nil hne
  have hlen := torn.length_text
  have hwordLen : 11 ≤ (beginText torn.transactionId).length :=
    (prefix_transaction_beginText torn.transactionId).length_le
  have hown := hdur.behind [] t txns rfl
  rw [recoverCalls_tornWal, replay_torn_word torn t txns _ hpos hcut, Nat.min_eq_left (by omega),
    walText_nil, List.length_nil, appendedFrom_append,
    appendedFrom_wholeCalls_outside (by omega), appendedFrom_wholeCalls_outside (by omega)] at hown
  cases hown

/-- The merged line is one that a call wrote, if the tail is clear. -/
theorem mergedCalls_written {before : List Transaction} {torn : Transaction} {cut : Nat}
    {later : List Transaction} (hclear : TailClear before torn cut later) {pos : Nat}
    {call : DbAppend} (h : call ∈ mergedCalls pos torn cut later) :
    ∃ t ∈ before ++ torn :: later, call.line = t.setLine := by
  rw [mergedCalls] at h
  split at h
  · cases h
  · next hbehind =>
      split at h
      · next hset =>
          rw [lineCalls] at h
          split at h
          · next hline =>
              rw [List.mem_singleton.mp h]
              exact hclear.2 (by omega) hset (by simpa using hline)
          · cases h
      · rw [List.mem_singleton.mp h]
        exact ⟨torn, by simp, rfl⟩

/-- With a clear tail every completely appended transaction is recovered and
nothing is forged. -/
theorem durable_of_tailClear {before : List Transaction} {torn : Transaction} {cut : Nat}
    {later : List Transaction} (hclear : TailClear before torn cut later) :
    Durable before torn cut later := by
  have hoff : torn.setOffset = (beginText torn.transactionId).length + 1 := rfl
  have hlen := torn.length_text
  have hcalls : recoverCalls (tornWal before torn cut later) = _ := recoverCalls_clear hclear.1
  constructor
  · rintro pre t post rfl
    have hinside : (walText pre).length + t.text.length ≤
        (walText (pre ++ t :: post)).length := by
      simp only [walText_append, walText_cons, List.length_append]
      omega
    have hown := appendedFrom_wholeCalls 0 pre t post
    rw [Nat.zero_add] at hown
    rw [hcalls, appendedFrom_append, hown, appendedFrom_append,
      appendedFrom_mergedCalls_outside (by omega), appendedFrom_wholeCalls_outside (by omega)]
    rfl
  · intro hwhole
    have hmerged : mergedCalls (walText before).length torn cut later =
        [⟨(walText before).length + torn.setOffset, torn.setLine⟩] := by
      rw [mergedCalls, if_neg (by omega), if_neg (by omega)]
    rw [hcalls, appendedFrom_append, appendedFrom_append, hmerged,
      appendedFrom_wholeCalls_outside (by omega), appendedFrom_wholeCalls_outside (by omega),
      List.nil_append, List.append_nil]
    exact appendedFrom_singleton (by simp only; omega)
  · rintro pre t post rfl
    rw [hcalls, appendedFrom_append, appendedFrom_append,
      appendedFrom_wholeCalls_outside (by omega), appendedFrom_mergedCalls_outside (by omega),
      List.nil_append, List.nil_append]
    exact appendedFrom_wholeCalls _ pre t post
  · intro call hcall
    rw [hcalls, List.mem_append, List.mem_append] at hcall
    rcases hcall with hcall | hcall | hcall
    · obtain ⟨t, ht, hline⟩ := mem_wholeCalls_line hcall
      exact ⟨t, List.mem_append_left _ ht, hline⟩
    · exact mergedCalls_written hclear hcall
    · obtain ⟨t, ht, hline⟩ := mem_wholeCalls_line hcall
      exact ⟨t, by simp [ht], hline⟩

/-- **Durability behind a torn record, exactly.**  Every completely appended
transaction is recovered and nothing is forged if and only if the tail is
clear. -/
theorem durable_iff (before : List Transaction) (torn : Transaction) (cut : Nat)
    (later : List Transaction) :
    Durable before torn cut later ↔ TailClear before torn cut later := by
  refine ⟨fun hdur => ?_, durable_of_tailClear⟩
  have hword : later ≠ [] → ¬ (0 < cut ∧ cut < 11) := by
    intro hne hcut
    exact not_durable_word hne hcut.1 hcut.2 hdur
  refine ⟨hword, fun hbehind hset hline => ?_⟩
  have hmem : (⟨(walText before).length + torn.setOffset, tornLine torn cut later⟩ : DbAppend) ∈
      recoverCalls (tornWal before torn cut later) := by
    rw [recoverCalls_clear hword, mergedCalls, if_neg (by omega), if_pos hset, lineCalls, hline]
    simp
  exact hdur.written _ hmem

/-- The first run was cut after the three bytes `TRA`; the transaction that a
later run appends behind them is not recovered. -/
theorem durable_fails : ¬ Durable [] sampleTransaction 3 [sampleTransaction] := by
  intro h
  have hown := h.behind [] sampleTransaction [] rfl
  revert hown
  decide

end Wal
end Leetcode
