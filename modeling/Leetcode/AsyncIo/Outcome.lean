import Leetcode.AsyncIo.Model

/-!
# How `main` ends, and what it has written

* `main_outcome` — the first request that fails or stays in progress decides how `main` ends: it
  waits for ever for one in progress, and it leaves the file, the buffer and the descriptor behind
  when one fails.
* `writeLoop_full`, `writeLoop_outside` — the content of the file when all requests succeed.
* `content_iff` — it has the right content exactly if no transfer is short.
-/

namespace Leetcode
namespace AsyncIo

open CLib

/-- The request fails or stays in progress. -/
def Request.stops : Request → Bool
  | .transferred _ => false
  | _ => true

/-- The requests in their order, each with the call that makes it. -/
def requests (calls : Calls) : List (String × Request) :=
  (List.range' 0 blocks).map (fun i => ("aio_write", calls.write i)) ++
    (List.range' 0 blocks).map (fun i => ("aio_read", calls.read i))

/-- `main` returns 1 and leaves everything behind. -/
structure Abandons (exit : Exit) (error : String) : Prop where
  code : exit.code = 1
  file : exit.file ≠ none
  errors : exit.errors = [error]
  freed : exit.freed = false
  closed : exit.closed = false

/-- How a loop ends, when this one is the first request in it that fails or stays in progress. -/
def Ends {α : Type} (run : Option (Except Exit α)) : Option (String × Request) → Prop
  | none => ∃ a, run = some (.ok a)
  | some (call, .refused) => ∃ exit, run = some (.error exit) ∧ Abandons exit call
  | some (_, .pending) => run = none
  | some (_, .failed) => ∃ exit, run = some (.error exit) ∧ Abandons exit "aio_return"
  | some (_, .transferred _) => False

/-- How `main` ends. -/
def Returns (run : Option Exit) : Option (String × Request) → Prop
  | none => run = some ⟨0, none, [writeSpeed, readSpeed], [], true, true⟩
  | some (call, .refused) => ∃ exit, run = some exit ∧ Abandons exit call
  | some (_, .pending) => run = none
  | some (_, .failed) => ∃ exit, run = some exit ∧ Abandons exit "aio_return"
  | some (_, .transferred _) => False

variable {calls : Calls} {buf content : Bytes} {rounds i : ℕ}

/-! ## How the loops end -/

theorem abandons_fails (content : Bytes) (printed : List String) (call : String) :
    Abandons (fails content printed call) call :=
  ⟨rfl, Option.some_ne_none content, rfl, rfl, rfl⟩

theorem writeLoop_ends (calls : Calls) (buf : Bytes) (rounds i : ℕ) (content : Bytes) :
    Ends (writeLoop calls buf rounds i content)
      (((List.range' i rounds).map fun i => ("aio_write", calls.write i)).find?
        fun r => r.2.stops) := by
  induction rounds generalizing i content with
  | zero => exact ⟨content, rfl⟩
  | succ rounds ih =>
      rw [List.range'_succ, List.map_cons, List.find?_cons, writeLoop]
      cases calls.write i with
      | refused => exact ⟨_, rfl, abandons_fails ..⟩
      | pending => exact rfl
      | failed => exact ⟨_, rfl, abandons_fails ..⟩
      | transferred n => exact ih (i + 1) _

theorem readLoop_ends (calls : Calls) (content : Bytes) (rounds i : ℕ) (buf : Bytes) :
    Ends (readLoop calls content rounds i buf)
      (((List.range' i rounds).map fun i => ("aio_read", calls.read i)).find?
        fun r => r.2.stops) := by
  induction rounds generalizing i buf with
  | zero => exact ⟨buf, rfl⟩
  | succ rounds ih =>
      rw [List.range'_succ, List.map_cons, List.find?_cons, readLoop]
      cases calls.read i with
      | refused => exact ⟨_, rfl, abandons_fails ..⟩
      | pending => exact rfl
      | failed => exact ⟨_, rfl, abandons_fails ..⟩
      | transferred n => exact ih (i + 1) _

/-! ## How `main` ends -/

section Ends

variable {α : Type} {run : Option (Except Exit α)} {r r' : Option (String × Request)}

/-- What comes behind a loop runs when no request of the loop has failed or stayed in progress. -/
theorem Ends.bind {next : Except Exit α → Option Exit} (h : Ends run r)
    (herror : ∀ exit, next (.error exit) = some exit) (hok : ∀ a, Returns (next (.ok a)) r') :
    Returns (run.bind next) (r.or r') := by
  cases r with
  | none =>
      obtain ⟨a, ha⟩ := h
      rw [ha]
      exact hok a
  | some r =>
      obtain ⟨call, outcome⟩ := r
      cases outcome with
      | refused =>
          obtain ⟨exit, hexit, habandons⟩ := h
          rw [hexit]
          exact ⟨exit, herror exit, habandons⟩
      | pending =>
          rw [show run = none from h]
          rfl
      | failed =>
          obtain ⟨exit, hexit, habandons⟩ := h
          rw [hexit]
          exact ⟨exit, herror exit, habandons⟩
      | transferred n => exact h

/-- `main` returns 0 behind the last loop. -/
theorem Ends.returns {last : Except Exit α → Exit} (h : Ends run r)
    (herror : ∀ exit, last (.error exit) = exit)
    (hok : ∀ a, last (.ok a) = ⟨0, none, [writeSpeed, readSpeed], [], true, true⟩) :
    Returns (run.map last) r := by
  cases r with
  | none =>
      obtain ⟨a, ha⟩ := h
      rw [ha]
      exact congrArg some (hok a)
  | some r =>
      obtain ⟨call, outcome⟩ := r
      cases outcome with
      | refused =>
          obtain ⟨exit, hexit, habandons⟩ := h
          rw [hexit]
          exact ⟨exit, congrArg some (herror exit), habandons⟩
      | pending =>
          rw [show run = none from h]
          rfl
      | failed =>
          obtain ⟨exit, hexit, habandons⟩ := h
          rw [hexit]
          exact ⟨exit, congrArg some (herror exit), habandons⟩
      | transferred n => exact h

end Ends

/-- The first request that fails or stays in progress decides how `main` ends, and when there is none
it returns 0, with the file removed, the buffer freed and the descriptor closed. -/
theorem main_outcome (calls : Calls) (hopened : calls.opened = true)
    (hallocated : calls.allocated = true) :
    Returns (main calls) ((requests calls).find? fun r => r.2.stops) := by
  rw [requests, List.find?_append, main, hopened, hallocated, Bool.not_true,
    if_neg Bool.false_ne_true, if_neg Bool.false_ne_true]
  exact (writeLoop_ends calls block blocks 0 []).bind (fun _ => rfl) fun content =>
    (readLoop_ends calls content blocks 0 block).returns (fun _ => rfl) fun _ => rfl

/-- The second `aio_write` fails at once. -/
theorem main_outcome_refused :
    ∃ exit, main ⟨true, true, fun i => if i = 1 then .refused else .transferred 4096,
      fun _ => .transferred 4096⟩ = some exit ∧ Abandons exit "aio_write" :=
  main_outcome ⟨true, true, fun i => if i = 1 then .refused else .transferred 4096,
    fun _ => .transferred 4096⟩ rfl rfl

/-! ## What has been written -/

/-- A request transfers the whole block. -/
def Full (r : Request) : Prop := ∃ n, r = .transferred n ∧ BLOCK_SIZE ≤ n

theorem length_block : block.length = BLOCK_SIZE := List.length_replicate

/-- Whole blocks come one behind the other. -/
theorem writeLoop_full (hfull : ∀ j, i ≤ j → j < i + rounds → Full (calls.write j)) :
    writeLoop calls block rounds i (List.replicate (i * BLOCK_SIZE) 65) =
      some (.ok (List.replicate ((i + rounds) * BLOCK_SIZE) 65)) := by
  induction rounds generalizing i with
  | zero => rfl
  | succ rounds ih =>
      obtain ⟨n, hn, hle⟩ := hfull i (Nat.le_refl i) (by omega)
      have hend : (File.mk (List.replicate (i * BLOCK_SIZE) 65) (i * BLOCK_SIZE)).offset =
          (File.mk (List.replicate (i * BLOCK_SIZE) 65) (i * BLOCK_SIZE)).content.length :=
        List.length_replicate.symm
      have hcontent : List.replicate (i * BLOCK_SIZE) (65 : UInt8) ++ block =
          List.replicate ((i + 1) * BLOCK_SIZE) 65 := by
        rw [block, List.replicate_append_replicate, Nat.succ_mul]
      rw [writeLoop, hn]
      show writeLoop calls block rounds (i + 1) _ = _
      rw [List.take_of_length_le (length_block.trans_le hle), write_end hend, hcontent,
        ih fun j hj hlt => hfull j (by omega) (by omega), Nat.add_right_comm, Nat.add_assoc]

/-- A byte that is none of the written ones is not an `A`. -/
theorem writeLoop_outside {o : ℕ} {content' : Bytes}
    (hloop : writeLoop calls block rounds i content = some (.ok content'))
    (hout : ∀ j n, i ≤ j → j < i + rounds → calls.write j = .transferred n →
      o < j * BLOCK_SIZE ∨ j * BLOCK_SIZE + min n BLOCK_SIZE ≤ o)
    (hbyte : content'[o]? = some 65) : content[o]? = some 65 := by
  induction rounds generalizing i content with
  | zero =>
      cases hloop
      exact hbyte
  | succ rounds ih =>
      rw [writeLoop] at hloop
      split at hloop
      · cases hloop
      · cases hloop
      · cases hloop
      · next n hn =>
          have hlater := ih hloop fun j m hj hlt hm => hout j m (by omega) (by omega) hm
          refine write_outside (by decide) ?_ hlater
          rw [List.length_take, length_block]
          exact hout i n (Nat.le_refl i) (by omega) hn

/-- A read from a file of `A`s leaves the buffer as it is. -/
theorem readLoop_full {size : ℕ} {buf : Bytes}
    (hloop : readLoop calls (List.replicate size 65) rounds i block = some (.ok buf)) :
    buf = block := by
  induction rounds generalizing i with
  | zero =>
      cases hloop
      rfl
  | succ rounds ih =>
      rw [readLoop] at hloop
      split at hloop
      · cases hloop
      · cases hloop
      · cases hloop
      · next n _ =>
          have hbuf : ∀ k, k ≤ BLOCK_SIZE → List.replicate k 65 ++ block.drop k = block := by
            intro k hk
            rw [block, List.drop_replicate, List.replicate_append_replicate, Nat.add_sub_cancel' hk]
          refine ih (i := i + 1) ?_
          rw [List.drop_replicate, List.take_replicate] at hloop
          simp only [List.length_replicate] at hloop
          rwa [hbuf _ (by omega)] at hloop

theorem no_stop {request : ℕ → Request} (call : String)
    (hall : ∀ i < blocks, (request i).stops = false) :
    ((List.range' 0 blocks).map fun i => (call, request i)).find? (fun r => r.2.stops) = none := by
  rw [List.find?_eq_none]
  intro r hr
  obtain ⟨i, hi, rfl⟩ := List.mem_map.1 hr
  rw [hall i ((List.mem_range'_1.1 hi).2.trans_eq (Nat.zero_add blocks))]
  exact Bool.false_ne_true

theorem mul_blocks : blocks * BLOCK_SIZE = FILE_SIZE := by decide

/-- A short `aio_write` leaves a byte out that none of the others writes. -/
theorem full_of_content (hwrite : ∀ i < blocks, (calls.write i).stops = false)
    (hloop : writeLoop calls block blocks 0 [] = some (.ok (List.replicate FILE_SIZE 65))) :
    ∀ i < blocks, Full (calls.write i) := by
  intro i hi
  cases hrequest : calls.write i with
  | transferred n =>
      refine ⟨n, rfl, Nat.not_lt.1 fun hshort => ?_⟩
      have hsize := mul_blocks
      have hblock := Nat.mul_le_mul_right BLOCK_SIZE (Nat.succ_le_of_lt hi)
      rw [Nat.succ_mul, hsize] at hblock
      have hbyte : (List.replicate FILE_SIZE (65 : UInt8))[i * BLOCK_SIZE + n]? = some 65 := by
        rw [List.getElem?_replicate, if_pos (by omega)]
      have hstart := writeLoop_outside hloop (fun j m _ _ hm => ?_) hbyte
      · cases hstart
      · rcases Nat.lt_trichotomy i j with hlt | rfl | hgt
        · have hmul := Nat.mul_le_mul_right BLOCK_SIZE (Nat.succ_le_of_lt hlt)
          rw [Nat.succ_mul] at hmul
          exact .inl (by omega)
        · cases hrequest.symm.trans hm
          exact .inr (by omega)
        · have hmul := Nat.mul_le_mul_right BLOCK_SIZE (Nat.succ_le_of_lt hgt)
          rw [Nat.succ_mul] at hmul
          exact .inr (by omega)
  | refused | pending | failed =>
      have hstops := hwrite i hi
      rw [hrequest] at hstops
      cases hstops

/-- When all requests succeed, so that `main` returns 0, the file that it reads back has the right
content exactly if every `aio_write` transfers its whole block; then the buffer that is read into
holds what has been written, however much is read. -/
theorem content_iff (calls : Calls) (hwrite : ∀ i < blocks, (calls.write i).stops = false)
    (hread : ∀ i < blocks, (calls.read i).stops = false) :
    ∃ content buf, writeLoop calls block blocks 0 [] = some (.ok content) ∧
      readLoop calls content blocks 0 block = some (.ok buf) ∧
      (content = List.replicate FILE_SIZE 65 ↔ ∀ i < blocks, Full (calls.write i)) ∧
      ((∀ i < blocks, Full (calls.write i)) → buf = block) := by
  have hends := writeLoop_ends calls block blocks 0 []
  rw [no_stop "aio_write" hwrite] at hends
  obtain ⟨content, hloop⟩ := hends
  have hends' := readLoop_ends calls content blocks 0 block
  rw [no_stop "aio_read" hread] at hends'
  obtain ⟨buf, hloop'⟩ := hends'
  have hcontent : (∀ i < blocks, Full (calls.write i)) → content = List.replicate FILE_SIZE 65 := by
    intro hfull
    have hright : writeLoop calls block blocks 0 (List.replicate (0 * BLOCK_SIZE) 65) =
        some (.ok (List.replicate ((0 + blocks) * BLOCK_SIZE) 65)) :=
      writeLoop_full fun j _ hj => hfull j (by omega)
    rw [Nat.zero_add, mul_blocks, Nat.zero_mul, List.replicate_zero, hloop] at hright
    cases hright
    rfl
  refine ⟨content, buf, hloop, hloop', ⟨fun heq => ?_, hcontent⟩, fun hfull => ?_⟩
  · rw [heq] at hloop
    exact full_of_content hwrite hloop
  · rw [hcontent hfull] at hloop'
    exact readLoop_full hloop'

theorem content_iff_full :
    ∃ content buf, writeLoop ⟨true, true, fun _ => .transferred 4096, fun _ => .transferred 1⟩
        block blocks 0 [] = some (.ok content) ∧
      readLoop ⟨true, true, fun _ => .transferred 4096, fun _ => .transferred 1⟩ content blocks 0
        block = some (.ok buf) ∧
      (content = List.replicate FILE_SIZE 65 ↔ ∀ i < blocks, Full (.transferred 4096)) ∧
      ((∀ i < blocks, Full (.transferred 4096)) → buf = block) :=
  content_iff ⟨true, true, fun _ => .transferred 4096, fun _ => .transferred 1⟩
    (fun _ _ => rfl) fun _ _ => rfl

end AsyncIo
end Leetcode
