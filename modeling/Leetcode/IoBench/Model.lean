import Leetcode.Lib.CInt
import Leetcode.Lib.File
import Leetcode.Lib.Scan

/-!
# `io-direct-vs-buffered.c`: two ways to write and to read a file

`main` writes a file twice, with and without the cache, and then reads it twice.  What the calls
to the system do, the clock included, is an input for each of these phases.  A `read` that has
bytes left and does not fail transfers at least one of them.  An arithmetic operation that
overflows, and a division by zero, is `none`.

Of a line that is printed the model has the numbers in it; of the line with the result it has the
integers from which the floating-point numbers in it are computed.  The descriptors and the
buffers that `main` closes and frees at its end are left out.
-/

namespace Leetcode
namespace IoBench

open CLib

/-! ## Times -/

structure Timespec where
  tvSec : ℤ
  tvNsec : ℤ
  deriving DecidableEq, Repr

def toNs (t : Timespec) : Option ℤ :=
  (longResult (t.tvSec * 1000000000)).bind fun n => longResult (n + t.tvNsec)

/-- `diff_ns(&a, &b)` -/
def diffNs (a b : Timespec) : Option ℤ :=
  (toNs b).bind fun b => (toNs a).bind fun a => longResult (b - a)

/-- The variables `min`, `max` and `sum`. -/
structure Times where
  min : ℤ
  max : ℤ
  sum : ℤ
  deriving DecidableEq, Repr

def Times.init : Times := ⟨2 ^ 62, 0, 0⟩

/-- The end of a round that has taken `ns`. -/
def Times.add (t : Times) (ns : ℤ) : Option Times :=
  (longResult (t.sum + ns)).map fun sum =>
    ⟨if ns < t.min then ns else t.min, if ns > t.max then ns else t.max, sum⟩

/-! ## The output -/

inductive Line
  | params (file : Bytes) (wsize iters : ℕ)
  | write (label : String) (wsize iters : ℕ) (doFsync : Bool)
  | read (label : String) (rsize iters : ℕ)
  | result (label : String) (ops size : ℕ) (times : Times)
  | done
  deriving DecidableEq

/-- A line on the standard error output. -/
inductive Message
  | badParams
  | perror (msg : String)
  | shortWrite (w wsize : ℕ)
  | shortRead (r rsize : ℕ)
  deriving DecidableEq

/-- The content of the file, and what has been printed. -/
structure Out where
  file : Bytes
  stdout : List Line
  stderr : List Message
  deriving DecidableEq

def Out.print (out : Out) (line : Line) : Out := { out with stdout := out.stdout ++ [line] }

def Out.complain (out : Out) (msg : Message) : Out := { out with stderr := out.stderr ++ [msg] }

/-! ## The phases -/

/-- The outcomes of the calls in one round of a loop: the two readings of the clock, how many bytes
can be transferred, and `fsync`. -/
structure Round where
  t0 : Option Timespec
  transfer : Option ℕ
  fsync : Bool
  t1 : Option Timespec

/-- The outcomes of the calls of a phase. -/
structure Phase where
  opened : Bool
  allocated : Bool
  lseek : Bool
  rounds : ℕ → Round

/-- How a loop ends: with `fatal(msg)`, with a short transfer, or at its end. -/
inductive Ended
  | fatal (msg : String)
  | short (n : ℕ)
  | finished (times : Times)
  deriving DecidableEq

/-- What comes behind the transfer of a round: the times behind it, or the call that failed. -/
def finishRound (round : Round) (doFsync : Bool) (t0 : Timespec) (times : Times) :
    Option (Except String Times) :=
  if doFsync ∧ !round.fsync then some (.error "fsync")
  else
    match round.t1 with
    | none => some (.error "clock_gettime")
    | some t1 => (diffNs t0 t1).bind fun ns => (times.add ns).map .ok

/-- The loop of `bench_write`, with so many rounds left from the round `i` on. -/
def writeRounds (rounds : ℕ → Round) (buf : Bytes) (wsize : ℕ) (doFsync : Bool) :
    ℕ → ℕ → Times → File → Option (Ended × File)
  | 0, _, times, fd => some (.finished times, fd)
  | left + 1, i, times, fd =>
      match (rounds i).t0 with
      | none => some (.fatal "clock_gettime", fd)
      | some t0 =>
          match (rounds i).transfer with
          | none => some (.fatal "write", fd)
          | some n =>
              let bytes := (buf.take wsize).take n
              let fd := fd.write bytes
              if bytes.length ≠ wsize then some (.short bytes.length, fd)
              else
                (finishRound (rounds i) doFsync t0 times).bind fun
                  | .error msg => some (.fatal msg, fd)
                  | .ok times => writeRounds rounds buf wsize doFsync left (i + 1) times fd

/-- The loop of `bench_read` on a file with this content, from an offset on; the buffer is part of
the result. -/
def readRounds (rounds : ℕ → Round) (content : Bytes) (rsize : ℕ) :
    ℕ → ℕ → Times → ℕ → Bytes → Option (Ended × Bytes)
  | 0, _, times, _, buf => some (.finished times, buf)
  | left + 1, i, times, offset, buf =>
      match (rounds i).t0 with
      | none => some (.fatal "clock_gettime", buf)
      | some t0 =>
          match (rounds i).transfer with
          | none => some (.fatal "read", buf)
          | some k =>
              let bytes := (content.drop offset).take (min (k + 1) rsize)
              let buf := bytes ++ buf.drop bytes.length
              if bytes.length ≠ rsize then some (.short bytes.length, buf)
              else
                (finishRound (rounds i) false t0 times).bind fun
                  | .error msg => some (.fatal msg, buf)
                  | .ok times =>
                      readRounds rounds content rsize left (i + 1) times (offset + bytes.length) buf

/-- A part of `main`: what it leaves, or what has been left when it calls `exit`. -/
abbrev Part := Out → Option (Except Out Out)

def Part.andThen (p q : Part) : Part := fun out =>
  (p out).bind fun
    | .error out => some (.error out)
    | .ok out => q out

/-- `if (!ok) fatal(msg);` -/
def check (ok : Bool) (msg : String) : Part := fun out =>
  some (if ok then .ok out else .error (out.complain (.perror msg)))

/-- `open(file, O_CREAT | O_WRONLY | O_TRUNC, 0644)` -/
def openTrunc (phase : Phase) (msg : String) : Part :=
  (check phase.opened msg).andThen fun out => some (.ok { out with file := [] })

/-- `bench_write(label, fd, buf, wsize, iters, do_fsync)` -/
def benchWrite (label : String) (phase : Phase) (buf : Bytes) (wsize iters : ℕ)
    (doFsync : Bool) : Part := fun out =>
  let out := out.print (.write label wsize iters doFsync)
  (writeRounds phase.rounds buf wsize doFsync iters 0 .init ⟨out.file, 0⟩).map fun r =>
    let out := { out with file := r.2.content }
    match r.1 with
    | .fatal msg => .error (out.complain (.perror msg))
    | .short w => .ok (out.complain (.shortWrite w wsize))
    | .finished times => .ok (out.print (.result label iters wsize times))

/-- `bench_read(label, fd, buf, rsize, iters)` -/
def benchRead (label : String) (phase : Phase) (buf : Bytes) (rsize iters : ℕ) : Part := fun out =>
  let out := out.print (.read label rsize iters)
  if !phase.lseek then some (.error (out.complain (.perror "lseek")))
  else
    (readRounds phase.rounds out.file rsize iters 0 .init 0 buf).map fun r =>
      match r.1 with
      | .fatal msg => .error (out.complain (.perror msg))
      | .short n => .ok (out.complain (.shortRead n rsize))
      | .finished times => .ok (out.print (.result label iters rsize times))

/-! ## The program -/

/-- `fill_buf(buf, len)`: the buffer behind it. -/
def fillBuf (len : ℕ) : Bytes := (List.range len).map fun i => UInt8.ofNat (i % 256)

/-- `(size_t)atoi(s)` -/
def sizeOfArg (s : Bytes) : Option ℕ :=
  (intResult ((scanInt s).getD 0)).map fun n => (n % 2 ^ 64).toNat

/-- The outcomes for the phases, in their order, and what the buffers of the last two hold before
they are read into. -/
structure Host where
  buffered : Phase
  direct : Phase
  cold : Phase
  directRead : Phase
  junk : Bytes

/-- What `main` does behind its first line. -/
def phases (host : Host) (wsize iters : ℕ) : Part :=
  (openTrunc host.buffered "open buf").andThen <|
  (check host.buffered.allocated "malloc").andThen <|
  (benchWrite "buffered" host.buffered (fillBuf wsize) wsize iters true).andThen <|
  (openTrunc host.direct "open direct").andThen <|
  (check host.direct.allocated "posix_memalign").andThen <|
  (benchWrite "direct" host.direct (fillBuf wsize) wsize iters true).andThen <|
  (check host.cold.opened "open rbuf").andThen <|
  (check host.cold.allocated "malloc").andThen <|
  (benchRead "buf(cold)" host.cold host.junk wsize iters).andThen <|
  (check host.directRead.opened "open rdir").andThen <|
  (check host.directRead.allocated "posix_memalign rdbuf").andThen <|
  benchRead "direct" host.directRead host.junk wsize iters

/-- How the program ends: its status, what it has printed, and the file. -/
structure Exit where
  status : ℕ
  out : Out
  deriving DecidableEq

/-- `exit(EXIT_FAILURE)` in one of the parts, or the end of `main`. -/
def finish : Except Out Out → Exit
  | .error out => ⟨1, out⟩
  | .ok out => ⟨0, out.print .done⟩

/-- The variable `wsize`, behind the two tests of `argc`. -/
def wsizeOf (argv : List Bytes) : Option ℕ :=
  match argv[2]? with
  | none => some 4096
  | some s => sizeOfArg s

/-- `main(argc, argv)`, where the file has the content `old` at first. -/
def main (argv : List Bytes) (host : Host) (old : Bytes) : Option Exit :=
  let file := argv.getD 1 (ascii "/tmp/test_direct_io.bin")
  (wsizeOf argv).bind fun wsize =>
    if wsize = 0 then none
    else
      let iters := 64 * 1024 * 1024 / wsize
      if iters = 0 then some ⟨1, ⟨old, [], [.badParams]⟩⟩
      else (phases host wsize iters ⟨old, [.params file wsize iters], []⟩).map finish

end IoBench
end Leetcode
