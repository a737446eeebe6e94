import Leetcode.Wal.Crash

/-!
# Running `recover` more than once

`recover` never looks at the DB file and never shortens the WAL.  A run that
is stopped between two `append_file` calls leaves a first part of what a
complete run appends, and the next run starts again at the first line.  The
DB file after a schedule of runs is therefore a known concatenation, and it
holds every line exactly once only if all runs but the last appended nothing.
One complete run on an empty DB file is the simplest schedule (`recover_intact`).
-/

namespace Leetcode
namespace Wal

open CLib

/-- One run of `recover`: complete, or stopped after the given number of
`append_file` calls. -/
inductive RecoverRun where
  | complete
  | stoppedAfter (calls : Nat)
  deriving DecidableEq, Repr

/-- The DB file after one run. -/
def runRecover (wal db : Bytes) : RecoverRun → Bytes
  | .complete => recover wal db
  | .stoppedAfter calls =>
      ((recoverCalls wal).take calls).foldl (fun db call => appendFile db call.line) db

/-- The DB file after a schedule of runs on one WAL. -/
def runSchedule (wal db : Bytes) (runs : List RecoverRun) : Bytes :=
  runs.foldl (runRecover wal) db

/-- The file that holds the given lines. -/
def dbText (lines : List Bytes) : Bytes := lines.flatMap fun line => line ++ [newline]

/-- The lines that one run appends for the given transactions. -/
def RecoverRun.lines (txns : List Transaction) : RecoverRun → List Bytes
  | .complete => txns.map Transaction.setLine
  | .stoppedAfter calls => (txns.map Transaction.setLine).take calls

/-- After the schedule, whose last run is complete, the DB file holds each
committed transaction's `SET` line exactly once and in commit order. -/
def ExactlyOnce (txns : List Transaction) (runs : List RecoverRun) : Prop :=
  runSchedule (writeAll txns []) [] (runs ++ [.complete]) = dbText (txns.map Transaction.setLine)

instance (txns : List Transaction) (runs : List RecoverRun) : Decidable (ExactlyOnce txns runs) :=
  inferInstanceAs (Decidable (_ = _))

@[simp] theorem dbText_append (lines later : List Bytes) :
    dbText (lines ++ later) = dbText lines ++ dbText later := by
  simp [dbText]

theorem dbText_eq_nil_iff (lines : List Bytes) : dbText lines = [] ↔ lines = [] := by
  cases lines <;> simp [dbText]

theorem foldl_appendFile (calls : List DbAppend) (db : Bytes) :
    calls.foldl (fun db call => appendFile db call.line) db =
      db ++ dbText (calls.map DbAppend.line) := by
  induction calls generalizing db with
  | nil => simp [dbText]
  | cons call calls ih =>
      rw [List.foldl_cons, ih]
      simp [dbText, appendFile]

theorem recoverCalls_writeAll_lines (txns : List Transaction) :
    (recoverCalls (writeAll txns [])).map DbAppend.line = txns.map Transaction.setLine := by
  rw [writeAll_eq, List.nil_append, recoverCalls_walText, wholeCalls_line]

/-- What one run does to the DB file. -/
theorem runRecover_writeAll (txns : List Transaction) (db : Bytes) (run : RecoverRun) :
    runRecover (writeAll txns []) db run = db ++ dbText (run.lines txns) := by
  cases run with
  | complete =>
      rw [runRecover, recover, foldl_appendFile, recoverCalls_writeAll_lines]
      rfl
  | stoppedAfter calls =>
      rw [runRecover, foldl_appendFile, List.map_take, recoverCalls_writeAll_lines]
      rfl

/-- One complete run on the WAL of completed calls writes the lines of the calls in their order
to an empty DB file, and nothing else. -/
theorem recover_intact (txns : List Transaction) :
    recover (writeAll txns []) [] =
      txns.flatMap fun t =>
        (ascii "SET " ++ (t.key ++ (ascii " " ++ t.value))) ++ [newline] := by
  have hrun := runRecover_writeAll txns [] .complete
  have hlines : dbText (txns.map Transaction.setLine) =
      txns.flatMap fun t =>
        (ascii "SET " ++ (t.key ++ (ascii " " ++ t.value))) ++ [newline] := by
    rw [dbText, List.flatMap_map]
    exact congrArg (txns.flatMap ·) (funext fun t => by rw [t.setLine_eq])
  rw [← hlines]
  exact hrun

/-- What a schedule does to the DB file. -/
theorem runSchedule_writeAll (txns : List Transaction) (db : Bytes) (runs : List RecoverRun) :
    runSchedule (writeAll txns []) db runs =
      db ++ dbText (runs.flatMap (RecoverRun.lines txns)) := by
  induction runs generalizing db with
  | nil => simp [runSchedule, dbText]
  | cons run runs ih =>
      have hstep : runSchedule (writeAll txns []) db (run :: runs) =
          runSchedule (writeAll txns []) (runRecover (writeAll txns []) db run) runs := rfl
      rw [hstep, ih, runRecover_writeAll]
      simp

/-- **Repeated recovery.**  The DB file holds what each earlier run appended,
followed by every committed transaction's line in commit order.  Each line is
there exactly once if and only if every earlier run was stopped before its
first append or had nothing to append; and one more complete run appends all
lines again. -/
theorem repeated_recovery (txns : List Transaction) (runs : List RecoverRun) :
    runSchedule (writeAll txns []) [] (runs ++ [.complete]) =
        dbText (runs.flatMap (RecoverRun.lines txns) ++ txns.map Transaction.setLine) ∧
      (ExactlyOnce txns runs ↔ ∀ run ∈ runs, run.lines txns = []) ∧
      ∀ db, recover (writeAll txns []) db = db ++ dbText (txns.map Transaction.setLine) := by
  have hfile : runSchedule (writeAll txns []) [] (runs ++ [.complete]) =
      dbText (runs.flatMap (RecoverRun.lines txns) ++ txns.map Transaction.setLine) := by
    rw [runSchedule_writeAll]
    simp [RecoverRun.lines]
  refine ⟨hfile, ?_, fun db => runRecover_writeAll txns db .complete⟩
  rw [ExactlyOnce, hfile, dbText_append, List.append_left_eq_self, dbText_eq_nil_iff,
    List.flatMap_eq_nil_iff]

/-- A second complete run doubles the DB file of one committed transaction. -/
theorem exactlyOnce_fails : ¬ ExactlyOnce [sampleTransaction] [.complete] := by
  decide

end Wal
end Leetcode
