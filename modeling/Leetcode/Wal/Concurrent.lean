import Leetcode.Lib.Interleave
import Leetcode.Wal.Crash

/-!
# Several processes writing one WAL

Every process appends the three records of its transactions in order, one
`append_file` call at a time; the calls of different processes interleave.
The reader keeps one flag for all of them, so a `SET` record is applied if and
only if the nearest frame record before it, whoever wrote it, is a `BEGIN`.
-/

namespace Leetcode
namespace Wal

open CLib

/-- A record of the WAL and the transaction it was written for. -/
inductive Record where
  | beginOf (t : Transaction)
  | setOf (t : Transaction)
  | commitOf (t : Transaction)

namespace Record

/-- The text of the record. -/
def text : Record → Bytes
  | beginOf t => beginText t.transactionId
  | setOf t => t.setLine
  | commitOf t => commitText t.transactionId

/-- `BEGIN` and `COMMIT` records. -/
def isFrame : Record → Bool
  | setOf _ => false
  | _ => true

/-- The `SET` line of a `SET` record. -/
def setLine? : Record → Option Bytes
  | setOf t => some t.setLine
  | _ => none

end Record

/-- The three `append_file` calls of `write_transaction`. -/
def Transaction.records (t : Transaction) : List Record := [.beginOf t, .setOf t, .commitOf t]

/-- The `append_file` calls of a process that makes the given
`write_transaction` calls one after the other. -/
def processRecords (txns : List Transaction) : List Record := txns.flatMap Transaction.records

/-- The WAL after the given `append_file` calls. -/
def appendRecords (records : List Record) : Bytes :=
  records.foldl (fun wal r => appendFile wal r.text) []

/-- The nearest `BEGIN` or `COMMIT` record, searched backwards. -/
def lastFrame (records : List Record) : Option Record := records.reverse.find? Record.isFrame

/-- The nearest frame record is a `BEGIN`. -/
def insideFrame (records : List Record) : Bool :=
  match lastFrame records with
  | some (.beginOf _) => true
  | _ => false

/-- The lines `recover` appends when the WAL holds the given records. -/
def recoveredLines (records : List Record) : List Bytes :=
  (recoverCalls (appendRecords records)).map DbAppend.line

/-- `recover` appends the `SET` line of every one of the transactions exactly
once, in whatever order. -/
def AllRecovered (processes : List (List Transaction)) (records : List Record) : Prop :=
  (recoveredLines records).Perm (processes.flatten.map Transaction.setLine)

/-- The nearest frame record before every `SET` record is a `BEGIN`. -/
def SetsInsideFrames (records : List Record) : Prop :=
  ∀ before t after, records = before ++ .setOf t :: after → insideFrame before = true

/-! ## The reader over records -/

/-- The flag of `recover` after the given records. -/
def flagAfter : Bool → List Record → Bool
  | inTx, [] => inTx
  | _, .beginOf _ :: records => flagAfter true records
  | inTx, .setOf _ :: records => flagAfter inTx records
  | _, .commitOf _ :: records => flagAfter false records

/-- The lines `recover` appends for the given records. -/
def applied : Bool → List Record → List Bytes
  | _, [] => []
  | _, .beginOf _ :: records => applied true records
  | inTx, .setOf t :: records =>
      if inTx then t.setLine :: applied inTx records else applied inTx records
  | _, .commitOf _ :: records => applied false records

/-- The bytes of the records, each with its newline. -/
def recordsText (records : List Record) : Bytes := records.flatMap fun r => r.text ++ [newline]

theorem appendRecords_eq (records : List Record) : appendRecords records = recordsText records := by
  have hfold : ∀ wal : Bytes, records.foldl (fun wal r => appendFile wal r.text) wal
      = wal ++ recordsText records := by
    induction records with
    | nil => simp [recordsText]
    | cons r records ih =>
        intro wal
        rw [List.foldl_cons, ih]
        simp [recordsText, appendFile]
  exact hfold []

theorem Record.textLine (r : Record) : TextLine r.text := by
  cases r with
  | beginOf t => exact textLine_beginText _
  | setOf t => exact t.textLine_setLine
  | commitOf t => exact textLine_commitText _

theorem replay_recordsText (records : List Record) (pos : Nat) (inTx : Bool) :
    (replay pos inTx (recordsText records)).map DbAppend.line = applied inTx records := by
  induction records generalizing pos inTx with
  | nil => rfl
  | cons r records ih =>
      have htext : recordsText (r :: records) = r.text ++ newline :: recordsText records := by
        simp [recordsText]
      rw [htext, replay_line r.textLine, List.map_append, ih]
      cases r with
      | beginOf t => simp [Record.text, applied]
      | setOf t => cases inTx <;> simp [Record.text, applied]
      | commitOf t => simp [Record.text, applied]

theorem recoveredLines_eq (records : List Record) :
    recoveredLines records = applied false records := by
  rw [recoveredLines, appendRecords_eq]
  exact replay_recordsText records 0 false

/-- Nothing but `SET` lines of the log is applied, each at most once and in
file order. -/
theorem applied_sublist (inTx : Bool) (records : List Record) :
    (applied inTx records).Sublist (records.filterMap Record.setLine?) := by
  induction records generalizing inTx with
  | nil => exact List.Sublist.refl _
  | cons r records ih =>
      cases r with
      | beginOf t => exact ih true
      | setOf t =>
          cases inTx with
          | false => exact (ih false).cons _
          | true => exact (ih true).cons_cons _
      | commitOf t => exact ih false

theorem flagAfter_append (inTx : Bool) (records later : List Record) :
    flagAfter inTx (records ++ later) = flagAfter (flagAfter inTx records) later := by
  induction records generalizing inTx with
  | nil => rfl
  | cons r records ih => cases r <;> exact ih _

theorem applied_append (inTx : Bool) (records later : List Record) :
    applied inTx (records ++ later) =
      applied inTx records ++ applied (flagAfter inTx records) later := by
  induction records generalizing inTx with
  | nil => rfl
  | cons r records ih =>
      cases r with
      | beginOf t => exact ih true
      | setOf t => cases inTx <;> simp [applied, flagAfter, ih]
      | commitOf t => exact ih false

/-- The flag is open exactly behind a `BEGIN` with no frame record in between. -/
theorem flagAfter_eq_insideFrame (records : List Record) :
    flagAfter false records = insideFrame records := by
  induction records using List.reverseRecOn with
  | nil => rfl
  | append_singleton records r ih =>
      rw [flagAfter_append]
      cases r with
      | beginOf t => simp [flagAfter, insideFrame, lastFrame, List.find?_cons, Record.isFrame]
      | setOf t =>
          have hlast : lastFrame (records ++ [.setOf t]) = lastFrame records := by
            simp [lastFrame, Record.isFrame]
          rw [insideFrame, hlast]
          exact ih
      | commitOf t => simp [flagAfter, insideFrame, lastFrame, List.find?_cons, Record.isFrame]

/-- All `SET` lines are applied if and only if the flag is open at each. -/
theorem applied_length_iff (inTx : Bool) (records : List Record) :
    (applied inTx records).length = (records.filterMap Record.setLine?).length ↔
      ∀ before t after, records = before ++ .setOf t :: after → flagAfter inTx before = true := by
  induction records generalizing inTx with
  | nil => simp [applied]
  | cons r records ih =>
      have hsplit : (∀ before t after, r :: records = before ++ .setOf t :: after →
            flagAfter inTx before = true) ↔
          ((∀ t, r = .setOf t → inTx = true) ∧
            ∀ before t after, records = before ++ .setOf t :: after →
              flagAfter inTx (r :: before) = true) := by
        constructor
        · intro h
          exact ⟨fun t ht => h [] t records (by rw [ht]; rfl),
            fun before t after hr => h (r :: before) t after (by rw [hr]; rfl)⟩
        · rintro ⟨hhead, htail⟩ before t after hr
          cases before with
          | nil => exact hhead t (List.cons.inj hr).1
          | cons r' before =>
              obtain ⟨rfl, hrest⟩ := List.cons.inj hr
              exact htail before t after hrest
      rw [hsplit]
      cases r with
      | beginOf t => simpa [applied, flagAfter, List.filterMap_cons, Record.setLine?] using ih true
      | commitOf t =>
          simpa [applied, flagAfter, List.filterMap_cons, Record.setLine?] using ih false
      | setOf t =>
          cases inTx with
          | true => simpa [applied, flagAfter, Record.setLine?] using ih true
          | false =>
              have hle := (applied_sublist false records).length_le
              simp only [applied, Record.setLine?, List.filterMap_cons, List.length_cons]
              constructor
              · intro h
                simp only [Bool.false_eq_true, if_false] at h
                omega
              · rintro ⟨hopen, -⟩
                exact absurd (hopen t rfl) (by decide)

/-- An interleaving carries exactly the `SET` lines of its transactions. -/
theorem setLines_perm {processes : List (List Transaction)} {records : List Record}
    (h : Interleaves (processes.map processRecords) records) :
    (records.filterMap Record.setLine?).Perm (processes.flatten.map Transaction.setLine) := by
  have hprocess : ∀ txns : List Transaction, (processRecords txns).filterMap Record.setLine?
      = txns.map Transaction.setLine := by
    intro txns
    induction txns with
    | nil => rfl
    | cons t txns ih =>
        have hstep : processRecords (t :: txns) = t.records ++ processRecords txns := rfl
        rw [hstep, List.filterMap_append, ih]
        rfl
  have hflat : (processes.map processRecords).flatten.filterMap Record.setLine?
      = processes.flatten.map Transaction.setLine := by
    rw [List.filterMap_flatten, List.map_map, List.map_flatten]
    exact congrArg List.flatten (List.map_congr_left fun txns _ => hprocess txns)
  rw [← hflat]
  exact h.perm.filterMap _

/-- **Concurrent writers.**  Under every interleaving, `recover` appends only
`SET` lines of the log, each at most once and in file order.  It appends the
line of a `SET` record if and only if the nearest frame record before it is a
`BEGIN`; so it appends every transaction's line exactly once if and only if
this is so for all `SET` records. -/
theorem concurrent_recovery (processes : List (List Transaction)) (records : List Record)
    (h : Interleaves (processes.map processRecords) records) :
    (recoveredLines records).Sublist (records.filterMap Record.setLine?) ∧
      (∀ before t after, records = before ++ .setOf t :: after →
        recoveredLines (before ++ [.setOf t]) =
            recoveredLines before ++ (if insideFrame before then [t.setLine] else []) ∧
          recoveredLines (before ++ [.setOf t]) <+: recoveredLines records) ∧
      (AllRecovered processes records ↔ SetsInsideFrames records) := by
  have hsub := applied_sublist false records
  have hperm := setLines_perm h
  refine ⟨?_, ?_, ?_⟩
  · rw [recoveredLines_eq]
    exact hsub
  · rintro before t after rfl
    have hsplit : before ++ .setOf t :: after = (before ++ [.setOf t]) ++ after := by simp
    rw [hsplit]
    simp only [recoveredLines_eq, applied_append false _ after, applied_append false before,
      flagAfter_eq_insideFrame]
    refine ⟨?_, List.prefix_append _ _⟩
    cases insideFrame before <;> rfl
  · have hflag : SetsInsideFrames records ↔ (applied false records).length
        = (records.filterMap Record.setLine?).length := by
      rw [applied_length_iff, SetsInsideFrames]
      simp only [flagAfter_eq_insideFrame]
    rw [AllRecovered, recoveredLines_eq, hflag]
    refine ⟨fun hall => hall.length_eq.trans hperm.length_eq.symm, fun hlen => ?_⟩
    rw [hsub.eq_of_length hlen]
    exact hperm

/-- One process after the other: nothing is lost. -/
theorem concurrent_recovery_sequential :
    AllRecovered [[sampleTransaction], [sampleTransaction]]
      (processRecords [sampleTransaction, sampleTransaction]) := by
  have h : Interleaves ([[sampleTransaction], [sampleTransaction]].map processRecords)
      (processRecords [sampleTransaction, sampleTransaction]) := by
    refine .step (k := 0) rfl (.step (k := 0) rfl (.step (k := 0) rfl (.step (k := 1) rfl
      (.step (k := 1) rfl (.step (k := 1) rfl (.done ?_))))))
    decide
  refine (concurrent_recovery _ _ h).2.2.mpr fun before t after hsplit => ?_
  rw [← flagAfter_eq_insideFrame]
  have hall : (applied false (processRecords [sampleTransaction, sampleTransaction])).length
      = ((processRecords [sampleTransaction, sampleTransaction]).filterMap
        Record.setLine?).length := rfl
  exact (applied_length_iff false _).mp hall before t after hsplit

/-- Two processes with one transaction each, one running inside the other. -/
def nestedRecords : List Record :=
  [.beginOf sampleTransaction, .beginOf sampleTransaction, .setOf sampleTransaction,
    .commitOf sampleTransaction, .setOf sampleTransaction, .commitOf sampleTransaction]

theorem interleaves_nestedRecords :
    Interleaves ([[sampleTransaction], [sampleTransaction]].map processRecords) nestedRecords := by
  refine .step (k := 0) rfl (.step (k := 1) rfl (.step (k := 1) rfl (.step (k := 1) rfl
    (.step (k := 0) rfl (.step (k := 0) rfl (.done ?_))))))
  decide

/-- The update of the outer process is lost: the inner `COMMIT` lies between
its `BEGIN` and its `SET`. -/
theorem allRecovered_fails :
    Interleaves ([[sampleTransaction], [sampleTransaction]].map processRecords) nestedRecords ∧
      ¬ AllRecovered [[sampleTransaction], [sampleTransaction]] nestedRecords := by
  refine ⟨interleaves_nestedRecords, fun h => ?_⟩
  have hlen := h.length_eq
  revert hlen
  decide

end Wal
end Leetcode
