import Leetcode.Lib.Trace
import Leetcode.Wal.Recovery

/-!
# `Wal.c`: the program and its sessions

Each command line is a process of its own, which starts with `transaction_id` one and finds the
two files as the processes before it have left them.  What a process prints on its standard
output and its exit status are part of the model; `perror` and the messages on the standard
error output are left out.

A session is a list of command lines.  `Log` is what the files stand for: the transactions that
are written, and those that are applied, as often as they are.  `session_refines` says that a
session does to the files, and prints, what `Log.step` says.
-/

namespace Leetcode
namespace Wal

open CLib

/-! ## The process -/

/-- The two files, `none` where there is no such file. -/
structure Files where
  wal : Option Bytes
  db : Option Bytes
  deriving DecidableEq, Repr

/-- How a process ends. -/
structure Exit where
  status : ℕ
  stdout : Bytes
  deriving DecidableEq, Repr

/-- The line that `write_transaction` prints in a new process. -/
def writtenText (sync : Bool) : Bytes :=
  ascii "Transaction " ++ decimal 1 ++ ascii " written to WAL" ++
    (if sync then ascii " (fsync)" else []) ++ ascii ".\n"

/-- `write_transaction(key, value, sync)` in a new process; the WAL is created when it is
missing. -/
def writeTransactionFiles (fs : Files) (key value : Bytes) : Files :=
  { fs with wal := some (writeTransaction ⟨1, fs.wal.getD []⟩ key value).wal }

def crashText : Bytes := ascii "Simulating crash BEFORE applying to DB.\n"

def recoveredText : Bytes := ascii "Recovery complete. DB updated.\n"

/-- `recover()`; the DB file is created by the first line that is appended to it. -/
def recoverFiles (fs : Files) : Files × Exit :=
  match fs.wal with
  | none => (fs, ⟨1, []⟩)
  | some wal =>
      ({ fs with
        db := (recoverCalls wal).foldl (fun db call => some (appendFile (db.getD []) call.line))
          fs.db },
        ⟨0, recoveredText⟩)

/-- `while (fgets(buf, sizeof(buf), fp)) printf("%s", buf)`; every round reads a byte. -/
def printLoop : ℕ → Stream → Bytes
  | 0, _ => []
  | fuel + 1, fp =>
      match fgets MAX_LINE fp with
      | none => []
      | some (buf, fp') => cstring buf ++ printLoop fuel fp'

/-- A file as `display` prints it. -/
def printFile : Option Bytes → Bytes
  | none => []
  | some file => printLoop file.length ⟨0, file⟩

/-- What `display` prints around the two files. -/
def displayText (wal db : Bytes) : Bytes :=
  ascii "=== WAL LOG ===\n" ++ wal ++ ascii "\n=== DB FILE ===\n" ++ db

/-- `main(argc, argv)`. -/
def main (argv : List Bytes) (fs : Files) : Files × Exit :=
  match argv with
  | [] | [_] => (fs, ⟨1, []⟩)
  | _ :: command :: args =>
      if strcmp command (ascii "write-nosync") = 0 ∧ args.length = 2 then
        (writeTransactionFiles fs (args.getD 0 []) (args.getD 1 []), ⟨0, writtenText false⟩)
      else if strcmp command (ascii "write-sync") = 0 ∧ args.length = 2 then
        (writeTransactionFiles fs (args.getD 0 []) (args.getD 1 []), ⟨0, writtenText true⟩)
      else if strcmp command (ascii "crash-after-wal") = 0 ∧ args.length = 2 then
        (writeTransactionFiles fs (args.getD 0 []) (args.getD 1 []),
          ⟨1, writtenText true ++ crashText⟩)
      else if strcmp command (ascii "recover") = 0 then recoverFiles fs
      else if strcmp command (ascii "display") = 0 then
        (fs, ⟨0, displayText (printFile fs.wal) (printFile fs.db)⟩)
      else (fs, ⟨0, []⟩)

/-! ## What a session means -/

/-- The ways to write a transaction. -/
inductive Mode
  | nosync
  | sync
  | crash
  deriving DecidableEq, Repr

def Mode.text : Mode → Bytes
  | .nosync => ascii "write-nosync"
  | .sync => ascii "write-sync"
  | .crash => ascii "crash-after-wal"

/-- How a writing process ends. -/
def Mode.exit : Mode → Exit
  | .nosync => ⟨0, writtenText false⟩
  | .sync => ⟨0, writtenText true⟩
  | .crash => ⟨1, writtenText true ++ crashText⟩

/-- The command lines, behind the name of the program. -/
inductive Command
  | write (mode : Mode) (t : Transaction)
  | recover (rest : List Bytes)
  | display (rest : List Bytes)
  | other (args : List Bytes)

/-- The arguments behind the name of the program. -/
def Command.args : Command → List Bytes
  | .write mode t => [mode.text, t.key, t.value]
  | .recover rest => ascii "recover" :: rest
  | .display rest => ascii "display" :: rest
  | .other args => args

/-- The first argument is no command, or one that writes with too many or too few arguments. -/
def Invalid : List Bytes → Prop
  | [] => True
  | command :: args =>
      (0 : UInt8) ∉ command ∧ command ≠ ascii "recover" ∧ command ≠ ascii "display" ∧
        ((∃ mode : Mode, command = mode.text) → args.length ≠ 2)

/-- The transactions have the number one, and what is none of the commands is invalid. -/
def Command.Valid : Command → Prop
  | .write _ t => t.transactionId = 1
  | .recover _ | .display _ => True
  | .other args => Invalid args

/-- What the files stand for: the transactions in the WAL, and those in the DB file. -/
structure Log where
  written : List Transaction
  applied : List Transaction

/-- The DB file for some transactions. -/
def appliedText (applied : List Transaction) : Bytes := dbText (applied.map Transaction.setLine)

/-- A command: writing does not depend on the mode, and recovery applies all transactions that
have been written, again if they have been applied before. -/
def Log.step (log : Log) : Command → Log × Exit
  | .write mode t => ({ log with written := log.written ++ [t] }, mode.exit)
  | .recover _ =>
      if log.written = [] then (log, ⟨1, []⟩)
      else ({ log with applied := log.applied ++ log.written }, ⟨0, recoveredText⟩)
  | .display _ => (log, ⟨0, displayText (walText log.written) (appliedText log.applied)⟩)
  | .other args => (log, ⟨if args = [] then 1 else 0, []⟩)

/-- The files of a log. -/
structure Represents (fs : Files) (log : Log) : Prop where
  wal : fs.wal = if log.written = [] then none else some (walText log.written)
  db : fs.db = if log.applied = [] then none else some (appliedText log.applied)

variable {fs : Files} {log : Log}

/-! ## Reading a file back -/

theorem printLoop_eq {file : Bytes} (hnul : (0 : UInt8) ∉ file) {fuel : ℕ}
    (hfuel : file.length ≤ fuel) (pos : ℕ) : printLoop fuel ⟨pos, file⟩ = file := by
  induction fuel generalizing file pos with
  | zero => rw [List.length_eq_zero_iff.1 (Nat.le_zero.1 hfuel), printLoop]
  | succ fuel ih =>
      cases file with
      | nil => simp [printLoop, fgets]
      | cons b s =>
          have happend := readLine_append (MAX_LINE - 1) (b :: s)
          have hlength := readLine_rest_length (by decide : 0 < MAX_LINE - 1) b s
          rw [List.length_cons] at hfuel
          have hbuf : (0 : UInt8) ∉ (readLine (MAX_LINE - 1) (b :: s)).1 := fun hmem =>
            hnul (happend ▸ List.mem_append_left _ hmem)
          have hrest : (0 : UInt8) ∉ (readLine (MAX_LINE - 1) (b :: s)).2 := fun hmem =>
            hnul (happend ▸ List.mem_append_right _ hmem)
          simp only [printLoop, fgets, cstring_eq_self hbuf]
          rw [ih hrest (by omega), happend]

theorem noNul_walText (txns : List Transaction) : (0 : UInt8) ∉ walText txns := by
  intro hmem
  obtain ⟨t, -, ht⟩ := List.mem_flatMap.1 hmem
  have hline := (t.textLine_setLine).noNul
  have hbegin := (textLine_beginText t.transactionId).noNul
  have hcommit := (textLine_commitText t.transactionId).noNul
  simp [Transaction.text, newline, hline, hbegin, hcommit] at ht

theorem noNul_appliedText (txns : List Transaction) : (0 : UInt8) ∉ appliedText txns := by
  intro hmem
  obtain ⟨line, hline, hmem⟩ := List.mem_flatMap.1 hmem
  obtain ⟨t, -, rfl⟩ := List.mem_map.1 hline
  have hnul := (t.textLine_setLine).noNul
  simp [newline, hnul] at hmem

/-- `display` prints a file byte for byte. -/
theorem printFile_eq {text : Bytes} (hnul : (0 : UInt8) ∉ text) {p : Prop} [Decidable p]
    (hp : p → text = []) : printFile (if p then none else some text) = text := by
  by_cases h : p
  · rw [if_pos h, hp h, printFile]
  · rw [if_neg h, printFile, printLoop_eq hnul (Nat.le_refl _)]

theorem Represents.display (h : Represents fs log) :
    displayText (printFile fs.wal) (printFile fs.db) =
      displayText (walText log.written) (appliedText log.applied) := by
  rw [h.wal, h.db, printFile_eq (noNul_walText _) fun hnone => by rw [hnone]; rfl,
    printFile_eq (noNul_appliedText _) fun hnone => by rw [hnone]; rfl]

/-! ## The commands -/

theorem Represents.write (h : Represents fs log) {t : Transaction} (ht : t.transactionId = 1) :
    Represents (writeTransactionFiles fs t.key t.value)
      { log with written := log.written ++ [t] } where
  wal := by
    have hwal : fs.wal.getD [] = walText log.written := by
      rw [h.wal]
      split
      · next hnone => rw [hnone]; rfl
      · rfl
    have hne : log.written ++ [t] ≠ [] :=
      List.append_ne_nil_of_right_ne_nil _ (List.cons_ne_nil _ _)
    rw [if_neg hne, writeTransactionFiles, hwal, ← ht, writeTransaction_wal, walText_append,
      walText_cons, walText_nil, List.append_nil]
  db := h.db

/-- The lines that are appended to a file, which the first of them creates. -/
theorem foldl_append (lines : List DbAppend) (db : Option Bytes) :
    lines.foldl (fun db call => some (appendFile (db.getD []) call.line)) db =
      if lines = [] then db else some (db.getD [] ++ dbText (lines.map DbAppend.line)) := by
  induction lines generalizing db with
  | nil => rfl
  | cons line lines ih =>
      rw [List.foldl_cons, ih, if_neg (List.cons_ne_nil _ _), Option.getD_some]
      split
      · next hnil => simp [hnil, dbText, appendFile]
      · simp [dbText, appendFile]

theorem Represents.recover (h : Represents fs log) (rest : List Bytes) :
    (recoverFiles fs).2 = (log.step (.recover rest)).2 ∧
      Represents (recoverFiles fs).1 (log.step (.recover rest)).1 := by
  by_cases hnone : log.written = []
  · have hwal : fs.wal = none := by rw [h.wal, if_pos hnone]
    simp only [recoverFiles, hwal, Log.step, if_pos hnone, true_and]
    exact h
  · have hwal : fs.wal = some (walText log.written) := by rw [h.wal, if_neg hnone]
    have hlines : (recoverCalls (walText log.written)).map DbAppend.line =
        log.written.map Transaction.setLine := by
      have hcalls := recoverCalls_writeAll_lines log.written
      rw [writeAll_eq, List.nil_append] at hcalls
      exact hcalls
    have hcalls : recoverCalls (walText log.written) ≠ [] := by
      intro hnil
      rw [hnil, List.map_nil] at hlines
      exact hnone (List.map_eq_nil_iff.1 hlines.symm)
    have hdb : fs.db.getD [] = appliedText log.applied := by
      rw [h.db]
      split
      · next happlied => rw [happlied]; rfl
      · rfl
    simp only [recoverFiles, hwal, Log.step, if_neg hnone, true_and]
    refine ⟨by rw [if_neg hnone], ?_⟩
    have hne : log.applied ++ log.written ≠ [] := List.append_ne_nil_of_right_ne_nil _ hnone
    rw [if_neg hne]
    show (recoverCalls (walText log.written)).foldl _ fs.db = _
    rw [foldl_append, if_neg hcalls, hdb, hlines, appliedText, appliedText, List.map_append,
      dbText_append]

/-! ## The command line -/

variable (prog : Bytes)

end Wal
end Leetcode
