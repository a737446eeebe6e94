import Leetcode.IoBench.Report

/-!
# The benchmark on a machine that does what it is asked to do

* `Steady` — the calls of the rounds of a phase succeed and transfer what they are asked to, and
  the clock does not go back.
* `writeRounds_full`, `readRounds_full` — such a loop comes to its end; the sum of its times is no
  more than what the clock shows, so it does not overflow.
* `main_succeeds` — every phase has a result.
-/

namespace Leetcode
namespace IoBench

open CLib

/-- The nanoseconds of a reading. -/
def ns (t : Timespec) : ℤ := t.tvSec * 1000000000 + t.tvNsec

/-- A reading that fits into a `long long`. -/
structure Timespec.Valid (t : Timespec) : Prop where
  sec : 0 ≤ t.tvSec
  nsec : 0 ≤ t.tvNsec
  fits : ns t < 2 ^ 63

/-- The rounds in which `size` bytes are to be transferred, with the readings of the clock. -/
structure Steady (rounds : ℕ → Round) (size iters : ℕ) (clock : ℕ → Timespec) : Prop where
  round : ∀ i < iters, ∃ n, size ≤ n ∧
    rounds i = ⟨some (clock (2 * i)), some n, true, some (clock (2 * i + 1))⟩
  valid : ∀ k < 2 * iters, (clock k).Valid
  forward : ∀ k, k + 1 < 2 * iters → ns (clock k) ≤ ns (clock (k + 1))

/-- No call of the phase fails. -/
structure Succeeds (phase : Phase) (size iters : ℕ) : Prop where
  opened : phase.opened = true
  allocated : phase.allocated = true
  lseek : phase.lseek = true
  steady : ∃ clock, Steady phase.rounds size iters clock

variable {rounds : ℕ → Round} {buf content : Bytes} {size iters left i offset : ℕ}
  {doFsync : Bool} {times : Times} {fd : File} {clock : ℕ → Timespec} {t0 t1 : Timespec}
  {out : Out} {phase : Phase} {label : String}

/-! ## The clock -/

theorem toNs_ok (h : t0.Valid) : toNs t0 = some (ns t0) := by
  obtain ⟨hsec, hnsec, hfits⟩ := h
  rw [ns] at hfits ⊢
  rw [toNs, longResult_ok (by omega) (by omega), Option.bind_some,
    longResult_ok (by omega) (by omega)]

theorem diffNs_ok (h0 : t0.Valid) (h1 : t1.Valid) (hle : ns t0 ≤ ns t1) :
    diffNs t0 t1 = some (ns t1 - ns t0) := by
  have hlow : 0 ≤ ns t0 := by
    obtain ⟨hsec, hnsec, -⟩ := h0
    rw [ns]
    omega
  have hhigh := h1.fits
  rw [diffNs, toNs_ok h1, Option.bind_some, toNs_ok h0, Option.bind_some,
    longResult_ok (by omega) (by omega)]

theorem Times.add_ok {d : ℤ} (hlow : 0 ≤ times.sum + d) (hhigh : times.sum + d < 2 ^ 63) :
    ∃ times', times.add d = some times' ∧ times'.sum = times.sum + d := by
  rw [Times.add, longResult_ok (by omega) hhigh]
  exact ⟨_, rfl, rfl⟩

/-- The sum of the times so far is no more than what the clock shows. -/
structure Behind (clock : ℕ → Timespec) (iters i : ℕ) (times : Times) : Prop where
  nonneg : 0 ≤ times.sum
  le : i < iters → times.sum ≤ ns (clock (2 * i))

theorem Steady.init (h : Steady rounds size iters clock) : Behind clock iters 0 .init := by
  refine ⟨Int.le_refl 0, fun hi => ?_⟩
  obtain ⟨hsec, hnsec, -⟩ := h.valid (2 * 0) (by omega)
  show 0 ≤ ns (clock (2 * 0))
  rw [ns]
  omega

theorem Steady.finishRound (h : Steady rounds size iters clock) (hi : i < iters)
    (htimes : Behind clock iters i times) {round : Round} (hfsync : round.fsync = true)
    (ht1 : round.t1 = some (clock (2 * i + 1))) :
    ∃ times', finishRound round doFsync (clock (2 * i)) times = some (.ok times') ∧
      Behind clock iters (i + 1) times' := by
  have hforward := h.forward (2 * i) (by omega)
  have hvalid := h.valid (2 * i + 1) (by omega)
  have hdiff := diffNs_ok (h.valid (2 * i) (by omega)) hvalid hforward
  have hnonneg := htimes.nonneg
  have hle := htimes.le hi
  have hfits := hvalid.fits
  obtain ⟨times', hadd, hsum⟩ : ∃ times',
      times.add (ns (clock (2 * i + 1)) - ns (clock (2 * i))) = some times' ∧
        times'.sum = times.sum + (ns (clock (2 * i + 1)) - ns (clock (2 * i))) :=
    Times.add_ok (by omega) (by omega)
  refine ⟨times', ?_, by omega, fun hnext => ?_⟩
  · rw [IoBench.finishRound, hfsync, if_neg (by simp), ht1]
    simp only [hdiff, hadd, Option.bind_some, Option.map_some]
  · have hnext' := h.forward (2 * i + 1) (by omega)
    rw [show 2 * (i + 1) = 2 * i + 1 + 1 by omega]
    omega

/-! ## The loops -/

theorem writeRounds_full (h : Steady rounds size iters clock) (hbuf : buf.length = size)
    (hleft : i + left = iters) (htimes : Behind clock iters i times) :
    ∃ times' fd', writeRounds rounds buf size doFsync left i times fd =
      some (.finished times', fd') := by
  induction left generalizing i times fd with
  | zero => exact ⟨times, fd, rfl⟩
  | succ left ih =>
      have hi : i < iters := by omega
      obtain ⟨n, hn, hround⟩ := h.round i hi
      obtain ⟨times', hfinish, htimes'⟩ :
          ∃ times', finishRound (rounds i) doFsync (clock (2 * i)) times = some (.ok times') ∧
            Behind clock iters (i + 1) times' :=
        h.finishRound hi htimes (by rw [hround]) (by rw [hround])
      obtain ⟨times'', fd', hrest⟩ : ∃ times'' fd',
          writeRounds rounds buf size doFsync left (i + 1) times' (fd.write buf) =
            some (.finished times'', fd') := ih (by omega) htimes'
      refine ⟨times'', fd', ?_⟩
      rw [← hrest, writeRounds, hround]
      rw [hround] at hfinish
      simp only [hbuf, List.take_of_length_le hbuf.le, List.take_of_length_le (hbuf.trans_le hn),
        hfinish, Option.bind_some, ne_eq, not_true_eq_false, if_false]

theorem readRounds_full (h : Steady rounds size iters clock) (hleft : i + left = iters)
    (hlen : offset + left * size ≤ content.length) (htimes : Behind clock iters i times) :
    ∃ times' buf', readRounds rounds content size left i times offset buf =
      some (.finished times', buf') := by
  induction left generalizing i times offset buf with
  | zero => exact ⟨times, buf, rfl⟩
  | succ left ih =>
      have hi : i < iters := by omega
      rw [Nat.succ_mul] at hlen
      obtain ⟨n, hn, hround⟩ := h.round i hi
      obtain ⟨times', hfinish, htimes'⟩ :
          ∃ times', finishRound (rounds i) false (clock (2 * i)) times = some (.ok times') ∧
            Behind clock iters (i + 1) times' :=
        h.finishRound hi htimes (by rw [hround]) (by rw [hround])
      have hbytes : ((content.drop offset).take (min (n + 1) size)).length = size := by
        rw [List.length_take, List.length_drop]
        omega
      obtain ⟨times'', buf', hrest⟩ : ∃ times'' buf',
          readRounds rounds content size left (i + 1) times' (offset + size)
            ((content.drop offset).take (min (n + 1) size) ++ buf.drop size) =
            some (.finished times'', buf') := ih (by omega) (by omega) htimes'
      refine ⟨times'', buf', ?_⟩
      rw [← hrest, readRounds, hround]
      rw [hround] at hfinish
      simp only [hbytes, hfinish, Option.bind_some, ne_eq, not_true_eq_false, if_false]

/-! ## The phases -/

theorem benchWrite_full (h : Succeeds phase size iters) (hbuf : buf.length = size)
    (hfile : out.file = []) :
    ∃ out', benchWrite label phase buf size iters doFsync out = some (.ok out') ∧
      out'.stderr = out.stderr ∧ out'.file.length = iters * size := by
  obtain ⟨clock, hsteady⟩ := h.steady
  obtain ⟨times, fd', hloop⟩ : ∃ times' fd', writeRounds phase.rounds buf size doFsync iters 0
      .init ⟨out.file, 0⟩ = some (.finished times', fd') :=
    writeRounds_full hsteady hbuf (Nat.zero_add iters) hsteady.init
  have hwrote := writeRounds_ok hbuf hloop (by rw [hfile]; rfl) sound_init
  refine ⟨⟨fd'.content, out.stdout ++ [.write label size iters doFsync] ++
    [.result label iters size times], out.stderr⟩, ?_, rfl, ?_⟩
  · show (writeRounds phase.rounds buf size doFsync iters 0 .init ⟨out.file, 0⟩).map _ = _
    rw [hloop]
    rfl
  · show fd'.content.length = _
    rw [hwrote.1, hfile, List.nil_append, List.length_flatten, List.map_replicate,
      List.sum_replicate, hbuf, smul_eq_mul]

theorem benchRead_full (h : Succeeds phase size iters) (hlen : iters * size ≤ out.file.length) :
    ∃ out', benchRead label phase buf size iters out = some (.ok out') ∧
      out'.stderr = out.stderr ∧ out'.file = out.file := by
  obtain ⟨clock, hsteady⟩ := h.steady
  obtain ⟨times, buf', hloop⟩ : ∃ times' buf', readRounds phase.rounds out.file size iters 0
      .init 0 buf = some (.finished times', buf') :=
    readRounds_full hsteady (Nat.zero_add iters) (by omega) hsteady.init
  refine ⟨⟨out.file, out.stdout ++ [.read label size iters] ++ [.result label iters size times],
    out.stderr⟩, ?_, rfl, rfl⟩
  rw [benchRead, h.lseek]
  show (readRounds phase.rounds out.file size iters 0 .init 0 buf).map _ = _
  rw [hloop]
  rfl

theorem check_pass {msg : String} {ok : Bool} (hok : ok = true) (q : Part) :
    (check ok msg).andThen q out = q out := by
  rw [hok]
  rfl

theorem openTrunc_pass {msg : String} (hopened : phase.opened = true) (q : Part) :
    (openTrunc phase msg).andThen q out = q { out with file := [] } := by
  rw [Part.andThen, openTrunc, check_pass hopened]
  rfl

theorem phases_full {host : Host} (h₁ : Succeeds host.buffered size iters)
    (h₂ : Succeeds host.direct size iters) (h₃ : Succeeds host.cold size iters)
    (h₄ : Succeeds host.directRead size iters) :
    ∃ out', phases host size iters out = some (.ok out') ∧ out'.stderr = out.stderr := by
  obtain ⟨o₁, hbench₁, hstderr₁, -⟩ : ∃ o₁, benchWrite "buffered" host.buffered (fillBuf size)
      size iters true { out with file := [] } = some (.ok o₁) ∧ o₁.stderr = out.stderr ∧
      o₁.file.length = iters * size := benchWrite_full h₁ (fillBuf_length size) rfl
  obtain ⟨o₂, hbench₂, hstderr₂, hfile₂⟩ : ∃ o₂, benchWrite "direct" host.direct (fillBuf size)
      size iters true { o₁ with file := [] } = some (.ok o₂) ∧ o₂.stderr = o₁.stderr ∧
      o₂.file.length = iters * size := benchWrite_full h₂ (fillBuf_length size) rfl
  obtain ⟨o₃, hbench₃, hstderr₃, hfile₃⟩ : ∃ o₃, benchRead "buf(cold)" host.cold host.junk size
      iters o₂ = some (.ok o₃) ∧ o₃.stderr = o₂.stderr ∧ o₃.file = o₂.file :=
    benchRead_full h₃ hfile₂.ge
  obtain ⟨o₄, hbench₄, hstderr₄, -⟩ : ∃ o₄, benchRead "direct" host.directRead host.junk size
      iters o₃ = some (.ok o₄) ∧ o₄.stderr = o₃.stderr ∧ o₄.file = o₃.file :=
    benchRead_full h₄ (by rw [hfile₃]; exact hfile₂.ge)
  refine ⟨o₄, ?_, by rw [hstderr₄, hstderr₃, hstderr₂, hstderr₁]⟩
  rw [phases, openTrunc_pass h₁.opened, check_pass h₁.allocated]
  refine andThen_ok.2 ⟨o₁, hbench₁, ?_⟩
  rw [openTrunc_pass h₂.opened, check_pass h₂.allocated]
  refine andThen_ok.2 ⟨o₂, hbench₂, ?_⟩
  rw [check_pass h₃.opened, check_pass h₃.allocated]
  refine andThen_ok.2 ⟨o₃, hbench₃, ?_⟩
  rw [check_pass h₄.opened, check_pass h₄.allocated]
  exact hbench₄

/-- A block size that `main` accepts, on a machine on which no call fails and no transfer is
short: `main` returns 0, and every phase has its result. -/
theorem main_succeeds (argv : List Bytes) (host : Host) (old : Bytes) {wsize : ℕ}
    (hwsize : wsizeOf argv = some wsize) (hpos : 0 < wsize) (hle : wsize ≤ 64 * 1024 * 1024)
    (h₁ : Succeeds host.buffered wsize (64 * 1024 * 1024 / wsize))
    (h₂ : Succeeds host.direct wsize (64 * 1024 * 1024 / wsize))
    (h₃ : Succeeds host.cold wsize (64 * 1024 * 1024 / wsize))
    (h₄ : Succeeds host.directRead wsize (64 * 1024 * 1024 / wsize)) :
    ∃ out r₁ r₂ r₃ r₄, main argv host old = some ⟨0, out⟩ ∧ out.stderr = [] ∧
      Reports (argv.getD 1 (ascii "/tmp/test_direct_io.bin")) wsize (64 * 1024 * 1024 / wsize)
        (some r₁) (some r₂) (some r₃) (some r₄) out := by
  have hiters : 64 * 1024 * 1024 / wsize ≠ 0 := (Nat.div_pos hle hpos).ne'
  obtain ⟨out, hphases, hstderr⟩ : ∃ out, phases host wsize (64 * 1024 * 1024 / wsize)
      ⟨old, [.params (argv.getD 1 (ascii "/tmp/test_direct_io.bin")) wsize
        (64 * 1024 * 1024 / wsize)], []⟩ = some (.ok out) ∧ out.stderr = [] :=
    phases_full h₁ h₂ h₃ h₄
  obtain ⟨r₁, r₂, r₃, r₄, hreports⟩ := phases_ok hphases rfl rfl
  obtain ⟨e₁, e₂, e₃, e₄, hmessages, hc₁, hc₂, hc₃, hc₄⟩ := hreports.stderr
  have hnil : e₁ ++ e₂ ++ e₃ ++ e₄ = [] := hmessages.symm.trans hstderr
  simp only [List.append_eq_nil_iff] at hnil
  obtain ⟨⟨⟨rfl, rfl⟩, rfl⟩, rfl⟩ := hnil
  obtain ⟨t₁, rfl⟩ := hc₁.result
  obtain ⟨t₂, rfl⟩ := hc₂.result
  obtain ⟨t₃, rfl⟩ := hc₃.result
  obtain ⟨t₄, rfl⟩ := hc₄.result
  refine ⟨out.print .done, t₁, t₂, t₃, t₄, ?_, hstderr, hreports⟩
  rw [main, hwsize, Option.bind_some, if_neg hpos.ne']
  show (if 64 * 1024 * 1024 / wsize = 0 then _ else _) = _
  rw [if_neg hiters, hphases]
  rfl

/-- Every call does what it is asked to do, at once. -/
def fast : Phase :=
  ⟨true, true, true, fun _ => ⟨some ⟨0, 0⟩, some 4096, true, some ⟨0, 0⟩⟩⟩

theorem fast_succeeds (iters : ℕ) : Succeeds fast 4096 iters where
  opened := rfl
  allocated := rfl
  lseek := rfl
  steady := ⟨fun _ => ⟨0, 0⟩, fun _ _ => ⟨4096, Nat.le_refl _, rfl⟩,
    fun _ _ => ⟨by decide, by decide, by decide⟩, fun _ _ => Int.le_refl _⟩

theorem main_succeeds_fast :
    ∃ out r₁ r₂ r₃ r₄, main [ascii "bench"] ⟨fast, fast, fast, fast, []⟩ [] = some ⟨0, out⟩ ∧
      out.stderr = [] ∧
      Reports (ascii "/tmp/test_direct_io.bin") 4096 (64 * 1024 * 1024 / 4096) (some r₁) (some r₂)
        (some r₃) (some r₄) out :=
  main_succeeds [ascii "bench"] ⟨fast, fast, fast, fast, []⟩ [] rfl (by decide) (by decide)
    (fast_succeeds _) (fast_succeeds _) (fast_succeeds _) (fast_succeeds _)

end IoBench
end Leetcode
