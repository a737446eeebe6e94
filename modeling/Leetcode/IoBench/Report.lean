import Leetcode.IoBench.Model

/-!
# What a finished benchmark has printed

`fatal` ends the program, but a short transfer ends its phase only, and `main` goes on to its
`return 0`.

* `Sound` — what holds of the times of a phase, whatever the clock says.
* `writeRounds_ok`, `readRounds_ok` — what has been transferred when a loop has ended.
* `main_reports` — what stands in the output and in the file when `main` returns 0: a phase has
  its result or a message, and no phase that reads has a result when the second one that writes
  has none.
-/

namespace Leetcode
namespace IoBench

open CLib

variable {rounds : ℕ → Round} {buf buf' content : Bytes} {wsize rsize left i n offset : ℕ}
  {doFsync : Bool} {times times' : Times} {fd fd' : File} {ended : Ended} {out out' : Out}

/-! ## Times -/

/-- The sum lies between the extreme times, taken as often as there were rounds. -/
structure Sound (n : ℕ) (times : Times) : Prop where
  low : n * times.min ≤ times.sum
  high : times.sum ≤ n * times.max
  ordered : 0 < n → times.min ≤ times.max

theorem sound_init : Sound 0 .init := by
  refine ⟨?_, ?_, fun h => absurd h (Nat.lt_irrefl 0)⟩ <;> simp [Times.init]

theorem Sound.add (h : Sound n times) {ns : ℤ} (hadd : times.add ns = some times') :
    Sound (n + 1) times' := by
  obtain ⟨sum, hsum, rfl⟩ := Option.map_eq_some_iff.1 hadd
  obtain rfl : times.sum + ns = sum := by
    rw [longResult] at hsum
    split at hsum
    · exact Option.some.inj hsum
    · cases hsum
  obtain ⟨hmin, hmin_ns⟩ : (if ns < times.min then ns else times.min) ≤ times.min ∧
      (if ns < times.min then ns else times.min) ≤ ns := by
    split <;> omega
  obtain ⟨hmax, hmax_ns⟩ : times.max ≤ (if ns > times.max then ns else times.max) ∧
      ns ≤ (if ns > times.max then ns else times.max) := by
    split <;> omega
  have hlow := Int.mul_le_mul_of_nonneg_left hmin (Int.natCast_nonneg n)
  have hhigh := Int.mul_le_mul_of_nonneg_left hmax (Int.natCast_nonneg n)
  obtain ⟨h₁, h₂, -⟩ := h
  refine ⟨?_, ?_, fun _ => hmin_ns.trans hmax_ns⟩
  · push_cast
    rw [Int.add_mul, Int.one_mul]
    exact Int.add_le_add (hlow.trans h₁) hmin_ns
  · push_cast
    rw [Int.add_mul, Int.one_mul]
    exact Int.add_le_add (h₂.trans hhigh) hmax_ns

theorem finishRound_ok {round : Round} {t0 : Timespec}
    (h : finishRound round doFsync t0 times = some (.ok times')) :
    ∃ ns, times.add ns = some times' := by
  rw [finishRound] at h
  split at h
  · cases h
  · split at h
    · cases h
    · obtain ⟨ns, -, hadd⟩ := Option.bind_eq_some_iff.1 h
      obtain ⟨t, ht, heq⟩ := Option.map_eq_some_iff.1 hadd
      cases heq
      exact ⟨ns, ht⟩

/-! ## Writing -/

/-- A round of the loop fails, is short, or writes the buffer and goes on. -/
theorem writeRounds_cases (hbuf : buf.length = wsize)
    (h : writeRounds rounds buf wsize doFsync (left + 1) i times fd = some (ended, fd')) :
    (∃ msg, ended = .fatal msg) ∨
      (∃ w, w < wsize ∧ ended = .short w ∧ fd' = fd.write (buf.take w)) ∨
      ∃ ns times', times.add ns = some times' ∧
        writeRounds rounds buf wsize doFsync left (i + 1) times' (fd.write buf) =
          some (ended, fd') := by
  rw [writeRounds] at h
  split at h
  · cases h
    exact .inl ⟨_, rfl⟩
  · split at h
    · cases h
      exact .inl ⟨_, rfl⟩
    · next n _ =>
        rw [List.take_of_length_le hbuf.le] at h
        dsimp only at h
        split at h
        · next hshort =>
            cases h
            rw [List.length_take, hbuf] at hshort ⊢
            refine .inr (.inl ⟨min n wsize, by omega, rfl, ?_⟩)
            rw [Nat.min_eq_left (by omega)]
        · next hlen =>
            rw [List.length_take, hbuf, not_not] at hlen
            rw [List.take_of_length_le (by omega)] at h
            obtain ⟨result, hround, hnext⟩ := Option.bind_eq_some_iff.1 h
            cases result with
            | error msg =>
                cases hnext
                exact .inl ⟨msg, rfl⟩
            | ok times' =>
                obtain ⟨ns, hadd⟩ := finishRound_ok hround
                exact .inr (.inr ⟨ns, times', hadd, hnext⟩)

/-- What a loop that has not failed has written behind the end of the file. -/
def Wrote (buf : Bytes) (wsize left n : ℕ) (content : Bytes) : Ended → Bytes → Prop
  | .fatal _, _ => True
  | .short w, content' => w < wsize ∧ content'.length < content.length + left * wsize
  | .finished times, content' =>
      content' = content ++ (List.replicate left buf).flatten ∧ Sound (n + left) times

theorem writeRounds_ok (hbuf : buf.length = wsize)
    (h : writeRounds rounds buf wsize doFsync left i times fd = some (ended, fd'))
    (hend : fd.offset = fd.content.length) (htimes : Sound n times) :
    Wrote buf wsize left n fd.content ended fd'.content := by
  induction left generalizing i times fd n with
  | zero =>
      rw [writeRounds] at h
      cases h
      exact ⟨(List.append_nil _).symm, htimes⟩
  | succ left ih =>
      rcases writeRounds_cases hbuf h with
        ⟨msg, rfl⟩ | ⟨w, hw, rfl, rfl⟩ | ⟨ns, times', hadd, hrest⟩
      · trivial
      · refine ⟨hw, ?_⟩
        rw [write_end hend, List.length_append, List.length_take, hbuf, Nat.succ_mul]
        omega
      · rw [write_end hend] at hrest
        have hnext := ih hrest rfl (htimes.add hadd)
        cases ended with
        | fatal msg => trivial
        | short w =>
            refine ⟨hnext.1, hnext.2.trans_eq ?_⟩
            rw [List.length_append, hbuf, Nat.succ_mul]
            omega
        | finished times =>
            obtain ⟨hcontent, hsound⟩ := hnext
            refine ⟨?_, ?_⟩
            · rw [hcontent, List.replicate_succ, List.flatten_cons, List.append_assoc]
            · rwa [Nat.add_right_comm, Nat.add_assoc] at hsound

/-! ## Reading -/

/-- A round of the loop fails, is short, or reads its bytes and goes on. -/
theorem readRounds_cases
    (h : readRounds rounds content rsize (left + 1) i times offset buf = some (ended, buf')) :
    (∃ msg, ended = .fatal msg) ∨ (∃ r, r < rsize ∧ ended = .short r) ∨
      ∃ ns times' buf₁, times.add ns = some times' ∧ rsize ≤ content.length - offset ∧
        readRounds rounds content rsize left (i + 1) times' (offset + rsize) buf₁ =
          some (ended, buf') := by
  rw [readRounds] at h
  split at h
  · cases h
    exact .inl ⟨_, rfl⟩
  · split at h
    · cases h
      exact .inl ⟨_, rfl⟩
    · next k _ =>
        dsimp only at h
        split at h
        · next hshort =>
            cases h
            rw [List.length_take, List.length_drop] at hshort ⊢
            exact .inr (.inl ⟨_, by omega, rfl⟩)
        · next hlen =>
            rw [not_not] at hlen
            rw [hlen] at h
            rw [List.length_take, List.length_drop] at hlen
            obtain ⟨result, hround, hnext⟩ := Option.bind_eq_some_iff.1 h
            cases result with
            | error msg =>
                cases hnext
                exact .inl ⟨msg, rfl⟩
            | ok times' =>
                obtain ⟨ns, hadd⟩ := finishRound_ok hround
                exact .inr (.inr ⟨ns, times', _, hadd, by omega, hnext⟩)

/-- What the file must have had for a loop that has not failed. -/
def Read (content : Bytes) (rsize left n offset : ℕ) : Ended → Prop
  | .fatal _ => True
  | .short r => r < rsize
  | .finished times => left * rsize ≤ content.length - offset ∧ Sound (n + left) times

theorem readRounds_ok
    (h : readRounds rounds content rsize left i times offset buf = some (ended, buf'))
    (htimes : Sound n times) : Read content rsize left n offset ended := by
  induction left generalizing i times offset buf n with
  | zero =>
      rw [readRounds] at h
      cases h
      exact ⟨by omega, htimes⟩
  | succ left ih =>
      rcases readRounds_cases h with
        ⟨msg, rfl⟩ | ⟨r, hr, rfl⟩ | ⟨ns, times', buf₁, hadd, hle, hrest⟩
      · trivial
      · exact hr
      · have hnext := ih hrest (htimes.add hadd)
        cases ended with
        | fatal msg => trivial
        | short r => exact hnext
        | finished times =>
            obtain ⟨hlater, hsound⟩ := hnext
            refine ⟨?_, ?_⟩
            · rw [Nat.succ_mul]
              omega
            · rwa [Nat.add_right_comm, Nat.add_assoc] at hsound

/-! ## The parts of `main` -/

theorem andThen_ok {p q : Part} :
    p.andThen q out = some (.ok out') ↔
      ∃ mid, p out = some (.ok mid) ∧ q mid = some (.ok out') := by
  rw [Part.andThen, Option.bind_eq_some_iff]
  constructor
  · rintro ⟨result, hp, hq⟩
    cases result with
    | error mid => cases hq
    | ok mid => exact ⟨mid, hp, hq⟩
  · rintro ⟨mid, hp, hq⟩
    exact ⟨.ok mid, hp, hq⟩

theorem of_check {ok : Bool} {msg : String} {q : Part}
    (h : (check ok msg).andThen q out = some (.ok out')) : q out = some (.ok out') := by
  obtain ⟨mid, hcheck, hq⟩ := andThen_ok.1 h
  cases ok with
  | false => cases hcheck
  | true =>
      cases hcheck
      exact hq

theorem of_openTrunc {msg : String} {q : Part} {phase : Phase}
    (h : (openTrunc phase msg).andThen q out = some (.ok out')) :
    q { out with file := [] } = some (.ok out') := by
  obtain ⟨mid, hopen, hq⟩ := andThen_ok.1 h
  cases of_check hopen
  exact hq

/-- The messages of a phase: none when it has a result, and else one that says how few of the
bytes its last transfer has moved. -/
def Complains (short : ℕ → ℕ → Message) (size : ℕ) : Option Times → List Message → Prop
  | some _, messages => messages = []
  | none, messages => ∃ n < size, messages = [short n size]

/-- A phase without a message has a result. -/
theorem Complains.result {short : ℕ → ℕ → Message} {size : ℕ} {times : Option Times}
    (h : Complains short size times []) : ∃ t, times = some t := by
  cases times with
  | none =>
      obtain ⟨n, -, hmessages⟩ := h
      cases hmessages
  | some t => exact ⟨t, rfl⟩

/-- A phase prints its first line, and then its result, or a message when a transfer was short. -/
structure Prints (header : Line) (result : Times → Line) (short : ℕ → ℕ → Message)
    (size iters : ℕ) (out out' : Out) (times : Option Times) : Prop where
  stdout : out'.stdout = out.stdout ++ header :: (times.map result).toList
  stderr : ∃ messages, out'.stderr = out.stderr ++ messages ∧ Complains short size times messages
  sound : ∀ t, times = some t → Sound iters t

variable {label : String} {phase : Phase} {iters : ℕ}

theorem benchWrite_ok (hbuf : buf.length = wsize) (hfile : out.file = [])
    (h : benchWrite label phase buf wsize iters doFsync out = some (.ok out')) :
    ∃ times, Prints (.write label wsize iters doFsync) (.result label iters wsize) .shortWrite
        wsize iters out out' times ∧
      (times = none → out'.file.length < iters * wsize) ∧
      (times ≠ none → out'.file = (List.replicate iters buf).flatten) := by
  obtain ⟨⟨ended, fd⟩, hloop, heq⟩ := Option.map_eq_some_iff.1 h
  have hwrote := writeRounds_ok hbuf hloop (by rw [Out.print, hfile]; rfl) sound_init
  rw [Out.print, hfile] at hwrote
  cases ended with
  | fatal msg => cases heq
  | short w =>
      cases heq
      obtain ⟨hw, hlen⟩ := hwrote
      rw [List.length_nil, Nat.zero_add] at hlen
      refine ⟨none, ⟨rfl, ⟨_, rfl, w, hw, rfl⟩, fun t ht => ?_⟩, fun _ => hlen,
        fun h => absurd rfl h⟩
      cases ht
  | finished times =>
      cases heq
      obtain ⟨hcontent, hsound⟩ := hwrote
      rw [Nat.zero_add] at hsound
      refine ⟨some times, ⟨?_, ⟨[], (List.append_nil _).symm, rfl⟩, fun t ht => ?_⟩, fun h => ?_,
        fun _ => hcontent⟩
      · exact List.append_assoc ..
      · cases ht
        exact hsound
      · cases h

theorem benchRead_ok {rsize : ℕ}
    (h : benchRead label phase buf rsize iters out = some (.ok out')) :
    ∃ times, Prints (.read label rsize iters) (.result label iters rsize) .shortRead rsize iters
        out out' times ∧
      out'.file = out.file ∧ (times ≠ none → iters * rsize ≤ out.file.length) := by
  rw [benchRead] at h
  split at h
  · cases h
  · obtain ⟨⟨ended, buf'⟩, hloop, heq⟩ := Option.map_eq_some_iff.1 h
    have hread := readRounds_ok hloop sound_init
    cases ended with
    | fatal msg => cases heq
    | short r =>
        cases heq
        refine ⟨none, ⟨rfl, ⟨_, rfl, r, hread, rfl⟩, fun t ht => ?_⟩, rfl, fun h => absurd rfl h⟩
        cases ht
    | finished times =>
        cases heq
        obtain ⟨hlen, hsound⟩ := hread
        rw [Nat.zero_add] at hsound
        refine ⟨some times, ⟨?_, ⟨[], (List.append_nil _).symm, rfl⟩, fun t ht => ?_⟩, rfl,
          fun _ => hlen⟩
        · exact List.append_assoc ..
        · cases ht
          exact hsound

theorem fillBuf_length (len : ℕ) : (fillBuf len).length = len := by
  rw [fillBuf, List.length_map, List.length_range]

/-- What `main` has printed when it returns 0: `r₁` to `r₄` are the results of the phases that
have one. -/
structure Reports (file : Bytes) (wsize iters : ℕ) (r₁ r₂ r₃ r₄ : Option Times) (out : Out) :
    Prop where
  stdout : out.stdout = .params file wsize iters ::
    (.write "buffered" wsize iters true :: (r₁.map (.result "buffered" iters wsize)).toList) ++
    (.write "direct" wsize iters true :: (r₂.map (.result "direct" iters wsize)).toList) ++
    (.read "buf(cold)" wsize iters :: (r₃.map (.result "buf(cold)" iters wsize)).toList) ++
    (.read "direct" wsize iters :: (r₄.map (.result "direct" iters wsize)).toList) ++ [.done]
  stderr : ∃ e₁ e₂ e₃ e₄, out.stderr = e₁ ++ e₂ ++ e₃ ++ e₄ ∧
    Complains .shortWrite wsize r₁ e₁ ∧ Complains .shortWrite wsize r₂ e₂ ∧
    Complains .shortRead wsize r₃ e₃ ∧ Complains .shortRead wsize r₄ e₄
  sound : ∀ t, some t ∈ [r₁, r₂, r₃, r₄] → Sound iters t
  written : r₂ ≠ none → out.file = (List.replicate iters (fillBuf wsize)).flatten
  read : r₃ ≠ none ∨ r₄ ≠ none → r₂ ≠ none

theorem phases_ok {host : Host} {file : Bytes}
    (h : phases host wsize iters out = some (.ok out'))
    (hstdout : out.stdout = [.params file wsize iters]) (hstderr : out.stderr = []) :
    ∃ r₁ r₂ r₃ r₄, Reports file wsize iters r₁ r₂ r₃ r₄ (out'.print .done) := by
  obtain ⟨o₁, hbench₁, h₁⟩ := andThen_ok.1 (of_check (of_openTrunc h))
  obtain ⟨r₁, hp₁, -, -⟩ := benchWrite_ok (fillBuf_length wsize) rfl hbench₁
  obtain ⟨o₂, hbench₂, h₂⟩ := andThen_ok.1 (of_check (of_openTrunc h₁))
  obtain ⟨r₂, hp₂, hshort, hfull⟩ := benchWrite_ok (fillBuf_length wsize) rfl hbench₂
  obtain ⟨o₃, hbench₃, h₃⟩ := andThen_ok.1 (of_check (of_check h₂))
  obtain ⟨r₃, hp₃, hfile₃, hread₃⟩ := benchRead_ok hbench₃
  obtain ⟨r₄, hp₄, hfile₄, hread₄⟩ := benchRead_ok (of_check (of_check h₃))
  rw [hfile₃] at hfile₄ hread₄
  refine ⟨r₁, r₂, r₃, r₄, ?_, ?_, fun t ht => ?_, fun h => ?_, fun h hnone => ?_⟩
  · show out'.stdout ++ [.done] = _
    have h₁ := hp₁.stdout
    have h₂ := hp₂.stdout
    dsimp only at h₁ h₂
    rw [hp₄.stdout, hp₃.stdout, h₂, h₁, hstdout]
    rfl
  · obtain ⟨e₁, he₁, hc₁⟩ := hp₁.stderr
    obtain ⟨e₂, he₂, hc₂⟩ := hp₂.stderr
    obtain ⟨e₃, he₃, hc₃⟩ := hp₃.stderr
    obtain ⟨e₄, he₄, hc₄⟩ := hp₄.stderr
    refine ⟨e₁, e₂, e₃, e₄, ?_, hc₁, hc₂, hc₃, hc₄⟩
    show out'.stderr = _
    dsimp only at he₁ he₂
    rw [he₄, he₃, he₂, he₁, hstderr, List.nil_append]
  · simp only [List.mem_cons, List.not_mem_nil, or_false] at ht
    rcases ht with ht | ht | ht | ht
    · exact hp₁.sound t ht.symm
    · exact hp₂.sound t ht.symm
    · exact hp₃.sound t ht.symm
    · exact hp₄.sound t ht.symm
  · exact hfile₄.trans (hfull h)
  · -- The second phase that writes has left too few bytes for a phase that reads.
    have hlt := hshort hnone
    rcases h with h | h
    · exact absurd (hread₃ h) (Nat.not_le.2 hlt)
    · exact absurd (hread₄ h) (Nat.not_le.2 hlt)

end IoBench
end Leetcode
