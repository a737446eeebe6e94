import Leetcode.CopyFile.Model

/-!
# When the copy is right

The loop and `lseek` answer a failure with a return value that says so.  A failure of the last
`write` is printed, and `main` goes on to its `return 0`.

* `Copied` — the outcomes under which the loop gets to the end of the source.
* `copyLoop_ok` — the loop ends, and behind it the destination has all bytes.
* `main_copies_iff` — for which outcomes a returned `0` means a right copy.
-/

namespace Leetcode
namespace CopyFile

open CLib

/-- The source with `X` at the offset 6, filled up with zeros to this offset. -/
def marked (src : Bytes) : Bytes := (src ++ List.replicate (7 - src.length) 0).set 6 newCharacter

/-- If `main` returns 0 and has opened both files, then the destination is right. -/
def Faithful (argc : ℕ) (calls : Calls) (src : Bytes) : Prop :=
  ∃ exit, main argc calls src = some exit ∧
    (exit.code = 0 → ∀ content, exit.dest = some content → content = marked src)

/-- From the round `i` on the calls of the loop succeed until no bytes are left. -/
inductive Copied (calls : Calls) : ℕ → Bytes → Prop
  | done {i k : ℕ} (hread : calls.read i = some k) : Copied calls i []
  | round {i k w : ℕ} {left : Bytes} (hread : calls.read i = some k) (hleft : left ≠ [])
      (hwrite : calls.write i = some w) (hw : (chunk k left).length ≤ w)
      (hrest : Copied calls (i + 1) (left.drop (chunk k left).length)) : Copied calls i left

/-- The `read` or the `write` of the round `i` fails, or the `write` is short. -/
def Fails (calls : Calls) (i : ℕ) (left : Bytes) : Prop :=
  calls.read i = none ∨ ∃ k, calls.read i = some k ∧ left ≠ [] ∧
    ∀ w, calls.write i = some w → w < (chunk k left).length

/-- The last `write` can transfer its byte. -/
def CanOverwrite (calls : Calls) : Prop := ∃ w, calls.overwrite = some (w + 1)

variable {calls : Calls} {i k w fuel : ℕ} {left src : Bytes} {dest : File}

/-! ## The loop -/

theorem chunk_length_pos (k : ℕ) (hleft : left ≠ []) : 0 < (chunk k left).length := by
  have hpos := List.length_pos_iff.2 hleft
  rw [chunk, List.length_take, BUFFER_SIZE]
  omega

theorem chunk_append_drop (k : ℕ) (left : Bytes) :
    chunk k left ++ left.drop (chunk k left).length = left := by
  rw [chunk, List.length_take]
  rcases Nat.le_total (min (k + 1) BUFFER_SIZE) left.length with hle | hle
  · rw [Nat.min_eq_left hle, List.take_append_drop]
  · rw [Nat.min_eq_right hle, List.drop_length, List.append_nil, List.take_of_length_le hle]

/-- The round that finds nothing left is the last one. -/
theorem copyLoop_done (hread : calls.read i = some k) (fuel : ℕ) (dest : File) :
    copyLoop calls (fuel + 1) i [] dest = some (.ok dest) := by
  simp [copyLoop, hread, chunk]

/-- A round whose `write` takes all the bytes. -/
theorem copyLoop_round (hread : calls.read i = some k) (hleft : left ≠ [])
    (hwrite : calls.write i = some w) (hw : (chunk k left).length ≤ w) (fuel : ℕ) (dest : File) :
    copyLoop calls (fuel + 1) i left dest =
      copyLoop calls fuel (i + 1) (left.drop (chunk k left).length)
        (dest.write (chunk k left)) := by
  have hpos := chunk_length_pos k hleft
  simp only [copyLoop, hread, hwrite, List.take_of_length_le hw]
  rw [if_neg (by omega), if_neg (by simp)]

theorem copyLoop_fails (hround : Fails calls i left) (fuel : ℕ) (dest : File) :
    ∃ exit, copyLoop calls (fuel + 1) i left dest = some (.error exit) ∧ exit.code = 1 := by
  rcases hround with hread | ⟨k, hread, hleft, hshort⟩
  · exact ⟨_, by rw [copyLoop, hread], rfl⟩
  · have hpos := chunk_length_pos k hleft
    cases hwrite : calls.write i with
    | none =>
        refine ⟨⟨1, dest.content, ["write"], [.destFd]⟩, ?_, rfl⟩
        simp only [copyLoop, hread, hwrite]
        rw [if_neg (by omega)]
    | some w =>
        have hw := hshort w hwrite
        refine ⟨⟨1, (dest.write ((chunk k left).take w)).content, ["write"], [.srcFd, .destFd]⟩,
          ?_, rfl⟩
        simp only [copyLoop, hread, hwrite, List.length_take]
        rw [if_neg (by omega), if_pos (by omega)]

/-- A round is the last one, fails, or leaves fewer bytes. -/
theorem round_cases (calls : Calls) (i : ℕ) (left : Bytes) :
    (∃ k, calls.read i = some k ∧ left = []) ∨
      Fails calls i left ∨
      ∃ k w, calls.read i = some k ∧ left ≠ [] ∧ calls.write i = some w ∧
        (chunk k left).length ≤ w := by
  cases hread : calls.read i with
  | none => exact Or.inr (Or.inl (Or.inl hread))
  | some k =>
      by_cases hleft : left = []
      · exact Or.inl ⟨k, rfl, hleft⟩
      · by_cases hshort : ∀ w, calls.write i = some w → w < (chunk k left).length
        · exact Or.inr (Or.inl (Or.inr ⟨k, hread, hleft, hshort⟩))
        · push Not at hshort
          obtain ⟨w, hwrite, hw⟩ := hshort
          exact Or.inr (Or.inr ⟨k, w, rfl, hleft, hwrite, hw⟩)

/-- The outcomes of a round that fails are not those of a copy. -/
theorem Fails.not_copied (hround : Fails calls i left) : ¬Copied calls i left := by
  intro hcopied
  rcases hround with hnone | ⟨k, hread, hleft, hshort⟩
  · cases hcopied with
    | done hread => exact Option.some_ne_none _ (hread.symm.trans hnone)
    | round hread => exact Option.some_ne_none _ (hread.symm.trans hnone)
  · cases hcopied with
    | done => exact hleft rfl
    | round hread' _ hwrite hw =>
        obtain rfl := Option.some.inj (hread.symm.trans hread')
        exact absurd (hshort _ hwrite) (Nat.not_lt.2 hw)

/-- The loop ends: with all bytes written, or with a failure. -/
theorem copyLoop_ok (hfuel : left.length < fuel) (hdest : dest.offset = dest.content.length) :
    (Copied calls i left ∧ copyLoop calls fuel i left dest =
        some (.ok ⟨dest.content ++ left, (dest.content ++ left).length⟩)) ∨
      (¬Copied calls i left ∧
        ∃ exit, copyLoop calls fuel i left dest = some (.error exit) ∧ exit.code = 1) := by
  induction fuel generalizing i left dest with
  | zero => exact absurd hfuel (Nat.not_lt_zero _)
  | succ fuel ih =>
      rcases round_cases calls i left with
        ⟨k, hread, rfl⟩ | hfails | ⟨k, w, hread, hleft, hwrite, hw⟩
      · left
        refine ⟨.done hread, ?_⟩
        rw [copyLoop_done hread, List.append_nil, ← hdest]
      · exact Or.inr ⟨hfails.not_copied, copyLoop_fails hfails fuel dest⟩
      · have hpos := chunk_length_pos k hleft
        have hrest : (left.drop (chunk k left).length).length < fuel := by
          have hpos' := List.length_pos_iff.2 hleft
          rw [List.length_drop]
          omega
        rw [copyLoop_round hread hleft hwrite hw, write_end hdest]
        rcases @ih (i + 1) _ ⟨_, (dest.content ++ chunk k left).length⟩ hrest rfl with
          ⟨hcopied, hloop⟩ | ⟨hcopied, hloop⟩
        · left
          refine ⟨.round hread hleft hwrite hw hcopied, ?_⟩
          rw [hloop, List.append_assoc, chunk_append_drop]
        · right
          refine ⟨fun h => hcopied ?_, hloop⟩
          cases h with
          | done => exact absurd rfl hleft
          | round hread' _ _ _ hcopied' =>
              obtain rfl := Option.some.inj (hread.symm.trans hread')
              exact hcopied'

/-! ## `main` -/

/-- The last `write`, when it can transfer its byte. -/
theorem finish_overwrites (hlseek : calls.lseek = true) (h : CanOverwrite calls) :
    finish calls ⟨src, src.length⟩ = ⟨0, marked src, [], [.srcFd, .destFd]⟩ := by
  obtain ⟨w, hw⟩ := h
  have hmarked := write_byte ⟨src, src.length⟩ 6 newCharacter
  rw [finish, if_pos hlseek]
  simp [hw, hmarked, marked]

/-- The last `write`, when it fails: the `0` is returned as well. -/
theorem finish_falls_through (hlseek : calls.lseek = true) (h : ¬CanOverwrite calls) :
    finish calls ⟨src, src.length⟩ = ⟨0, src, ["overwrite"], [.destFd, .srcFd, .destFd]⟩ := by
  rw [finish, if_pos hlseek]
  match hover : calls.overwrite with
  | none => simp [File.write, File.seek]
  | some 0 => simp [File.write, File.seek]
  | some (w + 1) => exact absurd ⟨w, hover⟩ h

/-- A source is marked if it has an `X` there. -/
theorem eq_marked_iff (src : Bytes) : src = marked src ↔ src[6]? = some newCharacter := by
  by_cases hlong : 6 < src.length
  · have hmarked : marked src = src.set 6 newCharacter := by
      rw [marked, Nat.sub_eq_zero_of_le hlong, List.replicate_zero, List.append_nil]
    rw [hmarked, List.getElem?_eq_getElem hlong, Option.some.injEq]
    constructor
    · intro h
      rw [List.getElem_of_eq h hlong, List.getElem_set_self]
    · intro h
      rw [← h, List.set_getElem_self]
  · refine iff_of_false (fun h => ?_) ?_
    · have hlength := congrArg List.length h
      rw [marked, List.length_set, List.length_append, List.length_replicate] at hlength
      omega
    · rw [List.getElem?_eq_none (Nat.not_lt.1 hlong)]
      exact (Option.some_ne_none _).symm

/-- The loop from its start. -/
theorem copyLoop_start (calls : Calls) (src : Bytes) :
    (Copied calls 0 src ∧
        copyLoop calls (src.length + 1) 0 src ⟨[], 0⟩ = some (.ok ⟨src, src.length⟩)) ∨
      (¬Copied calls 0 src ∧
        ∃ exit, copyLoop calls (src.length + 1) 0 src ⟨[], 0⟩ = some (.error exit) ∧
          exit.code = 1) :=
  copyLoop_ok (Nat.lt_succ_self _) rfl

theorem faithful_iff {argc : ℕ} {exit : Exit} (h : main argc calls src = some exit) :
    Faithful argc calls src ↔
      (exit.code = 0 → ∀ content, exit.dest = some content → content = marked src) := by
  constructor
  · rintro ⟨exit', hmain, hright⟩
    obtain rfl := Option.some.inj (h.symm.trans hmain)
    exact hright
  · exact fun hright => ⟨exit, h, hright⟩

/-- A failure that the return value tells. -/
theorem faithful_of_fails {argc : ℕ} {exit : Exit} (h : main argc calls src = some exit)
    (hcode : exit.code ≠ 0) : Faithful argc calls src :=
  (faithful_iff h).2 fun hzero => absurd hzero hcode

/-- `main` behind the loop. -/
theorem faithful_copied (hsrc : calls.openSrc = true) (hdest : calls.openDest = true)
    (hcopied : Copied calls 0 src) :
    Faithful 3 calls src ↔
      (calls.lseek = true → ¬CanOverwrite calls → src[6]? = some newCharacter) := by
  have hmain : main 3 calls src = some (finish calls ⟨src, src.length⟩) := by
    rcases copyLoop_start calls src with ⟨_, hloop⟩ | ⟨hnot, _⟩
    · rw [main, if_neg (by simp), hsrc, hdest, hloop]
      rfl
    · exact absurd hcopied hnot
  by_cases hlseek : calls.lseek = true
  · by_cases hover : CanOverwrite calls
    · refine iff_of_true ((faithful_iff hmain).2 fun _ content hcontent => ?_)
        fun _ hnot => absurd hover hnot
      rw [finish_overwrites hlseek hover] at hcontent
      exact (Option.some.inj hcontent).symm
    · rw [faithful_iff hmain, finish_falls_through hlseek hover, ← eq_marked_iff]
      constructor
      · exact fun h _ _ => h rfl src rfl
      · rintro h - content hcontent
        rw [← Option.some.inj hcontent]
        exact h hlseek hover
  · refine iff_of_true (faithful_of_fails hmain ?_) fun h => absurd h hlseek
    rw [finish, if_neg hlseek]
    exact neg_ne_zero.2 one_ne_zero

/-- A returned `0` means a right copy, except where the last `write` fails behind a loop and an
`lseek` that have succeeded; then the source must have an `X` at the offset 6 already. -/
theorem main_copies_iff (argc : ℕ) (calls : Calls) (src : Bytes) :
    Faithful argc calls src ↔
      (argc = 3 → calls.openSrc = true → calls.openDest = true → Copied calls 0 src →
        calls.lseek = true → ¬CanOverwrite calls → src[6]? = some newCharacter) := by
  by_cases hargc : argc = 3
  · subst hargc
    by_cases hsrc : calls.openSrc = true
    · by_cases hdest : calls.openDest = true
      · rcases copyLoop_start calls src with ⟨hcopied, _⟩ | ⟨hnot, exit, hloop, hcode⟩
        · rw [faithful_copied hsrc hdest hcopied]
          exact ⟨fun h _ _ _ _ => h, fun h => h rfl hsrc hdest hcopied⟩
        · have hmain : main 3 calls src = some exit := by
            rw [main, if_neg (by simp), hsrc, hdest, hloop]
            rfl
          exact iff_of_true (faithful_of_fails hmain (by omega)) fun _ _ _ h => absurd h hnot
      · have hmain : main 3 calls src = some ⟨1, none, ["open"], []⟩ := by
          simp [main, hsrc, hdest]
        exact iff_of_true (faithful_of_fails hmain (by decide)) fun _ _ h => absurd h hdest
    · have hmain : main 3 calls src = some ⟨1, none, ["open"], []⟩ := by
        simp [main, hsrc]
      exact iff_of_true (faithful_of_fails hmain (by decide)) fun _ h => absurd h hsrc
  · have hmain : main argc calls src = some ⟨0, none, [], []⟩ := if_pos hargc
    exact iff_of_true ((faithful_iff hmain).2 fun _ _ hnone => absurd hnone (by simp))
      fun h => absurd h hargc

/-- The bytes `abcdefgh`, each call succeeding but the last `write`. -/
theorem main_wrong :
    main 3 ⟨true, true, fun _ => some 7, fun _ => some 8, true, none⟩
        [97, 98, 99, 100, 101, 102, 103, 104] =
      some ⟨0, some [97, 98, 99, 100, 101, 102, 103, 104], ["overwrite"],
        [.destFd, .srcFd, .destFd]⟩ ∧
      [97, 98, 99, 100, 101, 102, 103, 104] ≠ marked [97, 98, 99, 100, 101, 102, 103, 104] := by
  decide

end CopyFile
end Leetcode
