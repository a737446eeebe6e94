import Leetcode.Lib.CString

/-!
# `Wal.c`: the write-ahead log

The model keeps the two files as byte lists and follows `append_file`,
`write_transaction` and `recover` line by line.  `open`, `write` and `fsync`
are taken to succeed: every failure path of the source ends the process, which
leaves a byte prefix of what the calls append, and such prefixes are what the
crash results quantify over.  Console output and `display` are left out.

`recover` acts on the world only through `append_file(DB_FILE, line, 1)`, so
its loop is embedded as the sequence of these calls (`recoverCalls`), each
with the WAL offset of the line it was made for; `recover` is their effect.
-/

namespace Leetcode
namespace Wal

open CLib

/-- The size of the line buffers of `write_transaction` and `recover`. -/
def MAX_LINE : Nat := 256

/-- `append_file(filename, line, sync)`: the line, then its newline. -/
def appendFile (file line : Bytes) : Bytes := (file ++ line) ++ [newline]

/-! ## Writing -/

/-- The text `TRANSACTION %d BEGIN`. -/
def beginText (transactionId : Int32) : Bytes :=
  snprintf MAX_LINE
    (ascii "TRANSACTION " ++ (decimal transactionId.toInt ++ ascii " BEGIN"))

/-- The text `SET %s %s`. -/
def setText (key value : Bytes) : Bytes :=
  snprintf MAX_LINE (ascii "SET " ++ (key ++ (ascii " " ++ value)))

/-- The text `TRANSACTION %d COMMIT`. -/
def commitText (transactionId : Int32) : Bytes :=
  snprintf MAX_LINE
    (ascii "TRANSACTION " ++ (decimal transactionId.toInt ++ ascii " COMMIT"))

/-- A writing process: its counter `transaction_id` and the WAL file. -/
structure Writer where
  transactionId : Int32
  wal : Bytes

/-- `write_transaction(key, value, sync)`. -/
def writeTransaction (w : Writer) (key value : Bytes) : Writer :=
  let wal := appendFile w.wal (beginText w.transactionId)
  let wal := appendFile wal (setText key value)
  let wal := appendFile wal (commitText w.transactionId)
  ⟨w.transactionId + 1, wal⟩

/-! ## Recovery -/

/-- The string in `line` after `line[strcspn(line, "\n")] = 0`. -/
def chomp (buf : Bytes) : Bytes :=
  let line := cstring buf
  line.take (strcspn line [newline])

/-- The first test of `recover`. -/
def isBeginLine (line : Bytes) : Bool :=
  strncmp line (ascii "TRANSACTION") 11 == 0 && (strstr line (ascii "BEGIN")).isSome

/-- The second test of `recover`. -/
def isCommitLine (line : Bytes) : Bool :=
  strncmp line (ascii "TRANSACTION") 11 == 0 && (strstr line (ascii "COMMIT")).isSome

/-- The prefix test of the third branch of `recover`. -/
def isSetLine (line : Bytes) : Bool := strncmp line (ascii "SET") 3 == 0

/-- One call `append_file(DB_FILE, line, 1)`; `pos` is the offset in the WAL of
the read that produced the line. -/
structure DbAppend where
  pos : Nat
  line : Bytes
  deriving DecidableEq, Repr

/-- The `while (fgets(...))` loop of `recover`: the calls it makes.  Every
`fgets` consumes a byte, so `fuel` never runs out before the file does
(`recoverLoop_fuel`). -/
def recoverLoop : Nat → Stream → Bool → List DbAppend
  | 0, _, _ => []
  | fuel + 1, fp, inTx =>
      match fgets MAX_LINE fp with
      | none => []
      | some (buf, fp') =>
          let line := chomp buf
          if isBeginLine line then recoverLoop fuel fp' true
          else if isCommitLine line then recoverLoop fuel fp' false
          else if inTx && isSetLine line then
            ⟨fp.pos, line⟩ :: recoverLoop fuel fp' inTx
          else recoverLoop fuel fp' inTx

/-- The calls of `append_file` that one complete `recover()` makes. -/
def recoverCalls (wal : Bytes) : List DbAppend := recoverLoop wal.length ⟨0, wal⟩ false

/-- `recover()`: the DB file afterwards. -/
def recover (wal db : Bytes) : Bytes :=
  (recoverCalls wal).foldl (fun db call => appendFile db call.line) db

/-! ## Transactions within the format -/

/-- A `write_transaction` call together with the value of `transaction_id` it
is made at, for C-string arguments without newline whose `SET` line fits the
buffer. -/
structure Transaction where
  transactionId : Int32
  key : Bytes
  value : Bytes
  key_noNul : (0 : UInt8) ∉ key
  value_noNul : (0 : UInt8) ∉ value
  key_noNewline : newline ∉ key
  value_noNewline : newline ∉ value
  fits : (ascii "SET " ++ (key ++ (ascii " " ++ value))).length ≤ MAX_LINE - 1

namespace Transaction

variable (t : Transaction)

/-- The transaction's `SET` line. -/
def setLine : Bytes := setText t.key t.value

/-- The bytes its three `append_file` calls append. -/
def text : Bytes :=
  beginText t.transactionId ++ (newline :: (t.setLine ++ (newline ::
    (commitText t.transactionId ++ [newline]))))

end Transaction

/-- The WAL after the given `write_transaction` calls, made one after the other
by any number of processes (the numbering of the calls is free). -/
def writeAll (txns : List Transaction) (wal : Bytes) : Bytes :=
  txns.foldl (fun wal t => (writeTransaction ⟨t.transactionId, wal⟩ t.key t.value).wal) wal

/-- The bytes a sequence of calls appends. -/
def walText (txns : List Transaction) : Bytes := txns.flatMap Transaction.text

theorem writeTransaction_wal (t : Transaction) (wal : Bytes) :
    (writeTransaction ⟨t.transactionId, wal⟩ t.key t.value).wal = wal ++ t.text := by
  simp [writeTransaction, appendFile, Transaction.text, Transaction.setLine]

theorem writeAll_eq (txns : List Transaction) (wal : Bytes) :
    writeAll txns wal = wal ++ walText txns := by
  induction txns generalizing wal with
  | nil => simp [writeAll, walText]
  | cons t txns ih =>
      have hstep : writeAll (t :: txns) wal
          = writeAll txns (writeTransaction ⟨t.transactionId, wal⟩ t.key t.value).wal := rfl
      rw [hstep, ih, writeTransaction_wal]
      simp [walText]

@[simp] theorem walText_nil : walText [] = [] := rfl

@[simp] theorem walText_cons (t : Transaction) (txns : List Transaction) :
    walText (t :: txns) = t.text ++ walText txns := rfl

@[simp] theorem walText_append (txns later : List Transaction) :
    walText (txns ++ later) = walText txns ++ walText later := by
  simp [walText]

end Wal
end Leetcode
