import Leetcode.Wal.Recovery

/-!
# What a log says about the calls that wrote it

Keys and values are arbitrary C strings here: they may contain newlines, look like records,
or be longer than the buffer.  Whatever they are, a `BEGIN` record opens the flag for the text
of the call's own `SET` record and a `COMMIT` record closes it, so what `recover` appends for a
call depends on that text alone.  How far the text determines the pair is the second half.
-/

namespace Leetcode
namespace Wal

open CLib

/-- One `write_transaction(key, value, sync)` call and the value of `transaction_id` it is
made at. -/
structure WriteCall where
  transactionId : Int32
  key : CStr
  value : CStr

/-- The WAL after the given calls, which start with an empty one. -/
def writeLog (calls : List WriteCall) : Bytes :=
  calls.foldl (fun wal c => (writeTransaction ⟨c.transactionId, wal⟩ c.key c.value).wal) []

/-- The lines that `recover` takes from lines it reads with the given flag. -/
def setLinesFrom : Bool → List Bytes → List Bytes
  | _, [] => []
  | inTx, line :: lines =>
      (if inTx && isSetLine line then [line] else []) ++ setLinesFrom (lineTx inTx line) lines

namespace WriteCall

variable (c : WriteCall)

def pair : CStr × CStr := (c.key, c.value)

/-- The text of the `SET` record, which may have several lines. -/
def setRecord : Bytes := setText c.key c.value

/-- The lines of the `SET` record that `recover` appends. -/
def applied : List Bytes := setLinesFrom true (c.setRecord.splitOn newline)

/-- The lines that the call adds to the WAL. -/
def lines : List Bytes :=
  beginText c.transactionId :: (c.setRecord.splitOn newline ++ [commitText c.transactionId])

/-- Neither the key nor the value has a newline. -/
def OneLine : Prop := newline ∉ c.key.1 ∧ newline ∉ c.value.1

/-- The byte `' '`. -/
def space : UInt8 := 32

/-- The record is one line, the key ends at its first space, and nothing is cut off. -/
structure Plain : Prop where
  oneLine : c.OneLine
  noSpace : space ∉ c.key.1
  fits : (ascii "SET " ++ (c.key.1 ++ (ascii " " ++ c.value.1))).length ≤ MAX_LINE - 1

instance : Decidable c.OneLine := inferInstanceAs (Decidable (_ ∧ _))

instance : Decidable c.Plain :=
  decidable_of_iff
    (c.OneLine ∧ space ∉ c.key.1 ∧
      (ascii "SET " ++ (c.key.1 ++ (ascii " " ++ c.value.1))).length ≤ MAX_LINE - 1)
    ⟨fun h => ⟨h.1, h.2.1, h.2.2⟩, fun h => ⟨h.oneLine, h.noSpace, h.fits⟩⟩

end WriteCall

/-- If the logs of the two sequences recover to the same file, the sequences of pairs are the
same. -/
def Separates (calls later : List WriteCall) : Prop :=
  recover (writeLog calls) [] = recover (writeLog later) [] →
    calls.map WriteCall.pair = later.map WriteCall.pair

/-! ## Lines of a text -/

/-- The lines of a text, each with a newline, are the text with a newline. -/
theorem dbText_splitOn (text : Bytes) : dbText (text.splitOn newline) = text ++ [newline] := by
  induction text with
  | nil => rfl
  | cons b text ih =>
      rw [List.splitOn_cons_eq_if_modifyHead]
      by_cases hb : b = newline
      · subst hb
        have hcons : dbText ([] :: text.splitOn newline) =
            newline :: dbText (text.splitOn newline) := rfl
        simp only [beq_self_eq_true, if_true, hcons, ih, List.cons_append]
      · obtain ⟨line, lines, hsplit⟩ :=
          List.exists_cons_of_ne_nil (List.splitOn_ne_nil newline text)
        rw [hsplit] at ih ⊢
        have hcons : dbText ((b :: line) :: lines) = b :: dbText (line :: lines) := rfl
        simp only [beq_iff_eq, hb, if_false, List.modifyHead_cons, hcons, ih, List.cons_append]

/-- A line of a text is part of the text and has no newline. -/
theorem mem_splitOn {text line : Bytes} (h : line ∈ text.splitOn newline) :
    newline ∉ line ∧ line.Sublist text := by
  induction text generalizing line with
  | nil =>
      rw [List.splitOn_nil, List.mem_singleton] at h
      subst h
      simp
  | cons b text ih =>
      rw [List.splitOn_cons_eq_if_modifyHead] at h
      by_cases hb : b = newline
      · rw [if_pos (by simpa using hb), List.mem_cons] at h
        rcases h with rfl | h
        · simp
        · exact ⟨(ih h).1, (ih h).2.cons b⟩
      · rw [if_neg (by simpa using hb)] at h
        obtain ⟨first, lines, hsplit⟩ :=
          List.exists_cons_of_ne_nil (List.splitOn_ne_nil newline text)
        rw [hsplit] at ih h
        rw [List.modifyHead_cons, List.mem_cons] at h
        rcases h with rfl | h
        · have hfirst := ih List.mem_cons_self
          refine ⟨?_, hfirst.2.cons_cons b⟩
          rw [List.mem_cons, not_or]
          exact ⟨Ne.symm hb, hfirst.1⟩
        · have hline := ih (List.mem_cons_of_mem _ h)
          exact ⟨hline.1, hline.2.cons b⟩

/-- A file of newline-free lines can be read back. -/
theorem splitOn_dbText {lines : List Bytes} (h : ∀ line ∈ lines, newline ∉ line) :
    (dbText lines).splitOn newline = lines ++ [[]] := by
  induction lines with
  | nil => rfl
  | cons line lines ih =>
      have hcons : dbText (line :: lines) = line ++ newline :: dbText lines := by
        simp [dbText]
      rw [hcons, List.splitOn_append_cons_self_of_not_mem (h line List.mem_cons_self),
        ih fun l hl => h l (List.mem_cons_of_mem _ hl), List.cons_append]

theorem dbText_inj {lines later : List Bytes} (hlines : ∀ line ∈ lines, newline ∉ line)
    (hlater : ∀ line ∈ later, newline ∉ line) : dbText lines = dbText later ↔ lines = later := by
  constructor
  · intro h
    have hsplit := splitOn_dbText hlines
    rw [h, splitOn_dbText hlater] at hsplit
    exact (List.append_cancel_right hsplit).symm
  · intro h
    rw [h]

/-! ## Reading the log -/

/-- The loop over whole lines: what it appends, and the flag it goes on with. -/
theorem replay_lines {lines : List Bytes} (hlines : ∀ line ∈ lines, TextLine line) (pos : Nat)
    (inTx : Bool) (rest : Bytes) :
    (replay pos inTx (dbText lines ++ rest)).map DbAppend.line =
      setLinesFrom inTx lines ++
        (replay (pos + (dbText lines).length) (lines.foldl lineTx inTx) rest).map
          DbAppend.line := by
  induction lines generalizing pos inTx with
  | nil => rfl
  | cons line lines ih =>
      have htext : dbText (line :: lines) ++ rest = line ++ newline :: (dbText lines ++ rest) := by
        simp [dbText]
      have hlength : (dbText (line :: lines)).length =
          line.length + 1 + (dbText lines).length := by
        rw [← List.append_nil (dbText (line :: lines)), ← List.append_nil (dbText lines)]
        simp [dbText]
        omega
      have hcall : (lineCalls pos inTx line).map DbAppend.line =
          if inTx && isSetLine line then [line] else [] := by
        rw [lineCalls]
        split <;> rfl
      rw [htext, replay_line (hlines line List.mem_cons_self), List.map_append, hcall,
        ih fun l hl => hlines l (List.mem_cons_of_mem _ hl), hlength, setLinesFrom,
        List.append_assoc, List.foldl_cons, Nat.add_assoc]

theorem setLinesFrom_append (inTx : Bool) (lines later : List Bytes) :
    setLinesFrom inTx (lines ++ later) =
      setLinesFrom inTx lines ++ setLinesFrom (lines.foldl lineTx inTx) later := by
  induction lines generalizing inTx with
  | nil => rfl
  | cons line lines ih =>
      simp only [List.cons_append, setLinesFrom, ih, List.append_assoc, List.foldl_cons]

theorem mem_setLinesFrom {inTx : Bool} {lines : List Bytes} {line : Bytes}
    (h : line ∈ setLinesFrom inTx lines) : line ∈ lines := by
  induction lines generalizing inTx with
  | nil => exact h
  | cons first lines ih =>
      rw [setLinesFrom, List.mem_append] at h
      rcases h with h | h
      · split at h
        · rw [List.mem_singleton.1 h]
          exact List.mem_cons_self
        · exact absurd h List.not_mem_nil
      · exact List.mem_cons_of_mem _ (ih h)

namespace WriteCall

variable (c : WriteCall)

/-- The whole text of the record before it is cut. -/
theorem setRecord_eq : c.setRecord =
    ascii "SET " ++ (c.key.1 ++ (ascii " " ++ c.value.1)).take 251 := by
  rw [setRecord, setText, snprintf, List.take_append]
  rfl

theorem length_setRecord_le : c.setRecord.length ≤ MAX_LINE - 1 := List.length_take_le _ _

theorem noNul_setRecord : (0 : UInt8) ∉ c.setRecord := by
  have hkey := c.key.2
  have hvalue := c.value.2
  intro h
  have hmem := List.mem_of_mem_take h
  simp only [List.mem_append] at hmem
  rcases hmem with h | h | h | h
  · exact absurd h (by decide)
  · exact hkey h
  · exact absurd h (by decide)
  · exact hvalue h

theorem noNewline_setRecord {c : WriteCall} (hline : c.OneLine) : newline ∉ c.setRecord := by
  intro h
  have hmem := List.mem_of_mem_take h
  simp only [List.mem_append] at hmem
  rcases hmem with h | h | h | h
  · exact absurd h (by decide)
  · exact hline.1 h
  · exact absurd h (by decide)
  · exact hline.2 h

theorem isSetLine_setRecord : isSetLine c.setRecord = true := by
  rw [isSetLine_iff, setRecord_eq]
  exact (show ascii "SET" <+: ascii "SET " by decide).trans (List.prefix_append _ _)

/-- Every line of the record fits the buffer of `recover`. -/
theorem textLine_of_mem_setRecord {line : Bytes} (h : line ∈ c.setRecord.splitOn newline) :
    TextLine line where
  noNewline := (mem_splitOn h).1
  noNul := fun hnul => c.noNul_setRecord ((mem_splitOn h).2.subset hnul)
  fits := (mem_splitOn h).2.length_le.trans c.length_setRecord_le

theorem textLine_of_mem_lines {line : Bytes} (h : line ∈ c.lines) : TextLine line := by
  rw [lines, List.mem_cons, List.mem_append, List.mem_singleton] at h
  rcases h with rfl | h | rfl
  · exact textLine_beginText _
  · exact c.textLine_of_mem_setRecord h
  · exact textLine_commitText _

/-- The frame of the call sets the flag for its record and adds no line. -/
theorem setLinesFrom_lines (inTx : Bool) : setLinesFrom inTx c.lines = c.applied := by
  have hbegin : isSetLine (beginText c.transactionId) = false :=
    isSetLine_of_prefix_transaction (prefix_transaction_beginText _)
  have hcommit : isSetLine (commitText c.transactionId) = false :=
    isSetLine_of_prefix_transaction (prefix_transaction_commitText _)
  rw [lines, setLinesFrom, setLinesFrom_append, hbegin, lineTx_beginText]
  simp [setLinesFrom, hcommit, applied]

theorem noNewline_of_mem_applied {line : Bytes} (h : line ∈ c.applied) : newline ∉ line :=
  (mem_splitOn (mem_setLinesFrom h)).1

/-- A record of one line is what `recover` appends, whatever its words are. -/
theorem applied_eq {c : WriteCall} (hline : c.OneLine) : c.applied = [c.setRecord] := by
  rw [applied, List.splitOn_eq_singleton (noNewline_setRecord hline)]
  simp [setLinesFrom, isSetLine_setRecord]

/-- The first space behind `SET ` ends the key. -/
theorem pair_eq {c d : WriteCall} (hc : c.Plain) (hd : d.Plain)
    (h : c.setRecord = d.setRecord) : c.pair = d.pair := by
  have hcut : ∀ {key : Bytes}, space ∉ key → ∀ value : Bytes,
      (key ++ (ascii " " ++ value)).takeWhile (fun b => b != space) = key := by
    intro key hkey value
    rw [List.takeWhile_append_of_pos fun b hb => by
      simpa using fun heq : b = space => hkey (heq ▸ hb)]
    have hstop : (ascii " " ++ value).takeWhile (fun b => b != space) = [] := rfl
    rw [hstop, List.append_nil]
  have htext : c.key.1 ++ (ascii " " ++ c.value.1) = d.key.1 ++ (ascii " " ++ d.value.1) := by
    have hwhole : setText c.key c.value = setText d.key d.value := h
    rw [setText, setText, snprintf, snprintf, List.take_of_length_le hc.fits,
      List.take_of_length_le hd.fits] at hwhole
    exact List.append_cancel_left hwhole
  have hkey : c.key.1 = d.key.1 := by
    rw [← hcut hc.noSpace c.value.1, htext, hcut hd.noSpace]
  rw [hkey] at htext
  have hvalue : c.value.1 = d.value.1 :=
    List.append_cancel_left (List.append_cancel_left htext)
  exact Prod.ext (Subtype.ext hkey) (Subtype.ext hvalue)

end WriteCall

/-- The log is the lines of its calls, each with a newline. -/
theorem writeLog_eq (calls : List WriteCall) :
    writeLog calls = dbText (calls.flatMap WriteCall.lines) := by
  have hfold : ∀ wal : Bytes,
      calls.foldl (fun wal c => (writeTransaction ⟨c.transactionId, wal⟩ c.key c.value).wal) wal =
        wal ++ dbText (calls.flatMap WriteCall.lines) := by
    induction calls with
    | nil => intro wal; simp [dbText]
    | cons c calls ih =>
        intro wal
        have hcall : (writeTransaction ⟨c.transactionId, wal⟩ c.key c.value).wal =
            wal ++ dbText c.lines := by
          rw [WriteCall.lines, ← List.singleton_append, dbText_append, dbText_append,
            dbText_splitOn]
          simp [writeTransaction, appendFile, dbText, WriteCall.setRecord]
        rw [List.foldl_cons, ih, hcall, List.flatMap_cons, dbText_append, List.append_assoc]
  exact hfold []

/-- `recover` appends the lines of one call after those of the other. -/
theorem setLinesFrom_flatMap (calls : List WriteCall) (inTx : Bool) :
    setLinesFrom inTx (calls.flatMap WriteCall.lines) = calls.flatMap WriteCall.applied := by
  induction calls generalizing inTx with
  | nil => rfl
  | cons c calls ih =>
      rw [List.flatMap_cons, setLinesFrom_append, c.setLinesFrom_lines, ih, List.flatMap_cons]

theorem recover_writeLog (calls : List WriteCall) (db : Bytes) :
    recover (writeLog calls) db = db ++ dbText (calls.flatMap WriteCall.applied) := by
  have htext : ∀ line ∈ calls.flatMap WriteCall.lines, TextLine line := by
    intro line hline
    obtain ⟨c, -, hc⟩ := List.mem_flatMap.1 hline
    exact c.textLine_of_mem_lines hc
  have hreplay := replay_lines htext 0 false []
  rw [List.append_nil, replay_nil, List.map_nil, List.append_nil, ← writeLog_eq,
    setLinesFrom_flatMap] at hreplay
  rw [recover, foldl_appendFile]
  exact congrArg (fun lines => db ++ dbText lines) hreplay

/-- Two logs recover to the same file if and only if the same lines are taken from their
calls. -/
theorem recover_writeLog_eq_iff (calls later : List WriteCall) :
    recover (writeLog calls) [] = recover (writeLog later) [] ↔
      calls.flatMap WriteCall.applied = later.flatMap WriteCall.applied := by
  have hline : ∀ {calls : List WriteCall}, ∀ line ∈ calls.flatMap WriteCall.applied,
      newline ∉ line := by
    intro calls line h
    obtain ⟨c, -, hc⟩ := List.mem_flatMap.1 h
    exact c.noNewline_of_mem_applied hc
  rw [recover_writeLog, recover_writeLog, List.nil_append, List.nil_append]
  exact dbText_inj hline hline

theorem flatMap_applied {calls : List WriteCall} (h : ∀ c ∈ calls, c.OneLine) :
    calls.flatMap WriteCall.applied = calls.map WriteCall.setRecord := by
  induction calls with
  | nil => rfl
  | cons c calls ih =>
      rw [List.flatMap_cons, WriteCall.applied_eq (h c List.mem_cons_self),
        ih fun d hd => h d (List.mem_cons_of_mem _ hd), List.map_cons, List.singleton_append]

/-- Without newlines, two logs recover to the same file if and only if the cut texts of their
`SET` records are the same, one by one. -/
theorem recover_oneLine_iff {calls later : List WriteCall} (hcalls : ∀ c ∈ calls, c.OneLine)
    (hlater : ∀ c ∈ later, c.OneLine) :
    recover (writeLog calls) [] = recover (writeLog later) [] ↔
      calls.map WriteCall.setRecord = later.map WriteCall.setRecord := by
  rw [recover_writeLog_eq_iff, flatMap_applied hcalls, flatMap_applied hlater]

/-- The records of plain calls determine the pairs. -/
theorem pairs_eq {calls later : List WriteCall} (hcalls : ∀ c ∈ calls, c.Plain)
    (hlater : ∀ c ∈ later, c.Plain)
    (h : calls.map WriteCall.setRecord = later.map WriteCall.setRecord) :
    calls.map WriteCall.pair = later.map WriteCall.pair := by
  induction calls generalizing later with
  | nil =>
      cases later with
      | nil => rfl
      | cons d later => simp at h
  | cons c calls ih =>
      cases later with
      | nil => simp at h
      | cons d later =>
          obtain ⟨hhead, htail⟩ := List.cons.inj h
          rw [List.map_cons, List.map_cons,
            WriteCall.pair_eq (hcalls c List.mem_cons_self) (hlater d List.mem_cons_self) hhead,
            ih (fun e he => hcalls e (List.mem_cons_of_mem _ he))
              (fun e he => hlater e (List.mem_cons_of_mem _ he)) htail]

/-! ## What the framing keeps apart -/

/-- **Framing.**  `recover` appends for each call, in order, the lines of its own record.  So
two logs recover to the same file if and only if their calls give the same lines; without
newlines, if and only if the records, cut to the buffer, are the same one by one; and if the
keys have no space and nothing is cut, only if the pairs are the same. -/
theorem framing_separates (calls later : List WriteCall) :
    (∀ db, recover (writeLog calls) db = db ++ dbText (calls.flatMap WriteCall.applied)) ∧
      (recover (writeLog calls) [] = recover (writeLog later) [] ↔
        calls.flatMap WriteCall.applied = later.flatMap WriteCall.applied) ∧
      ((∀ c ∈ calls, c.OneLine) → (∀ c ∈ later, c.OneLine) →
        (recover (writeLog calls) [] = recover (writeLog later) [] ↔
          calls.map WriteCall.setRecord = later.map WriteCall.setRecord)) ∧
      ((∀ c ∈ calls, c.Plain) → (∀ c ∈ later, c.Plain) → Separates calls later) := by
  refine ⟨recover_writeLog calls, recover_writeLog_eq_iff calls later, recover_oneLine_iff, ?_⟩
  intro hcalls hlater hrecover
  have hrecords := (recover_oneLine_iff (fun c hc => (hcalls c hc).oneLine)
    (fun c hc => (hlater c hc).oneLine)).1 hrecover
  exact pairs_eq hcalls hlater hrecords

/-- Two keys that look like records, with values that have spaces. -/
def recordLike (transactionId : Int32) : List WriteCall :=
  [⟨transactionId, ⟨ascii "TRANSACTION", by decide⟩, ⟨ascii "1 COMMIT", by decide⟩⟩,
    ⟨transactionId, ⟨ascii "SET", by decide⟩, ⟨ascii "TRANSACTION 2 BEGIN", by decide⟩⟩]

theorem framing_separates_recordLike : Separates (recordLike 1) (recordLike 7) :=
  (framing_separates (recordLike 1) (recordLike 7)).2.2.2 (by decide) (by decide)

/-- A value of `n` bytes `'x'`. -/
def longValue (n : ℕ) : CStr := ⟨List.replicate n 120, by simp [List.mem_replicate]⟩

/-- Of a long value the record keeps 249 bytes behind a key of one byte. -/
theorem setText_longValue {n : ℕ} (h : 249 ≤ n) :
    setText (ascii "k") (longValue n) = ascii "SET k " ++ List.replicate 249 120 := by
  have hshape : ascii "SET " ++ (ascii "k" ++ (ascii " " ++ (longValue n).1)) =
      ascii "SET k " ++ List.replicate n 120 := rfl
  have hroom : MAX_LINE - 1 - (ascii "SET k ").length = 249 := rfl
  rw [setText, snprintf, hshape, List.take_append, hroom, List.take_replicate,
    Nat.min_eq_left h]
  rfl

/-- A space in a key, a newline in a value and a value that is cut each make two different
sequences of pairs recover to the same file. -/
theorem framing_collides :
    ¬ Separates [⟨1, ⟨ascii "a", by decide⟩, ⟨ascii "b c", by decide⟩⟩]
        [⟨1, ⟨ascii "a b", by decide⟩, ⟨ascii "c", by decide⟩⟩] ∧
      ¬ Separates [⟨1, ⟨ascii "a", by decide⟩, ⟨ascii "x\nSET b y", by decide⟩⟩]
        [⟨1, ⟨ascii "a", by decide⟩, ⟨ascii "x", by decide⟩⟩,
          ⟨2, ⟨ascii "b", by decide⟩, ⟨ascii "y", by decide⟩⟩] ∧
      ¬ Separates [⟨1, ⟨ascii "k", by decide⟩, longValue 249⟩]
        [⟨1, ⟨ascii "k", by decide⟩, longValue 250⟩] := by
  refine ⟨fun h => ?_, fun h => ?_, fun h => ?_⟩
  · have hpairs := h ((recover_writeLog_eq_iff _ _).2 (by decide))
    exact absurd hpairs (by decide)
  · have hpairs := h ((recover_writeLog_eq_iff _ _).2 (by decide))
    exact absurd hpairs (by decide)
  -- The texts of the records are the same, so all lines that come from them are.
  · have hrecord : setText (ascii "k") (longValue 249) = setText (ascii "k") (longValue 250) :=
      (setText_longValue (by omega)).trans (setText_longValue (by omega)).symm
    have hpairs := h ((recover_writeLog_eq_iff _ _).2 (by
      simp only [List.flatMap_cons, WriteCall.applied, WriteCall.setRecord, hrecord]))
    have hlength : (longValue 249).1.length = (longValue 250).1.length := by
      simp only [List.map_cons, List.map_nil, List.cons.injEq, WriteCall.pair, Prod.mk.injEq]
        at hpairs
      rw [hpairs.1.2]
    simp only [longValue, List.length_replicate] at hlength
    omega

end Wal
end Leetcode
