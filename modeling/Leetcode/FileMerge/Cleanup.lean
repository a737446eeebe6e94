import Leetcode.FileMerge.Complete

/-!
# What is in flight when `main` cleans up

A write that `main` submits takes the place of the request that it answers, so at most
`MAX_FILES` requests are in flight and the loop never waits for a completion that cannot come.
But `main` does not wait for the writes: when it closes the files and frees the buffers, as many
requests are in flight as it has submitted writes, and there are none only if all files are
empty (`cleanup_in_flight`).  What it submits is at least never anything but the beginning of a
file.  All of this is for reads that end without an error and in full (`Delivers`).
-/

namespace Leetcode
namespace FileMerge

open CLib

variable {files : Fin MAX_FILES → List UInt8} {s t : State} {c : Completion}

/-- The requests in flight, and what the writes among them are made of. -/
structure InFlight (files : Fin MAX_FILES → List UInt8) (s : State) : Prop where
  count : s.pending.length + s.i = MAX_FILES + s.writes.length
  writes_le : s.writes.length ≤ s.i
  i_le : s.i ≤ MAX_FILES
  /-- The buffer of a context with a write in flight is filled, and the write was submitted. -/
  filled : ∀ r ∈ s.pending, ∀ content, r.op = .write content →
    s.buf r.ctx = transfer (files r.ctx) ∧ (r.ctx, content) ∈ s.writes
  start : ∀ w ∈ s.writes, w.2 ≠ [] ∧ w.2 <+: transfer (files w.1)
  /-- A file that has been read is empty, or has been written. -/
  written : ∀ i, i ∈ unread s.pending ∨ files i = [] ∨ ∃ w ∈ s.writes, w.1 = i

/-- What is left when a file is read is not longer than the file. -/
theorem transfer_eq_nil (file : List UInt8) : transfer file = [] ↔ file = [] := by
  rw [transfer, List.take_eq_nil_iff]
  exact or_iff_right (by decide)

/-- The collected request is filled like a request in flight, and brings some bytes of its
file. -/
theorem InFlight.collected (hs : InFlight files s) (hmem : c.request ∈ s.pending)
    (hdelivers : Delivers files s c) :
    (s.complete files c.request).buf c.request.ctx = transfer (files c.request.ctx) ∧
      c.res ≤ (transfer (files c.request.ctx)).length := by
  unfold Delivers at hdelivers
  cases hop : c.request.op with
  | read =>
      rw [hop] at hdelivers
      refine ⟨?_, hdelivers.le⟩
      simp only [State.complete, hop]
      rw [Function.update_self]
  | write content =>
      rw [hop] at hdelivers
      obtain ⟨hbuf, hwrite⟩ := hs.filled _ hmem content hop
      have hlength : content.length ≤ (transfer (files c.request.ctx)).length :=
        (hs.start _ hwrite).2.length_le
      refine ⟨?_, by omega⟩
      simp only [State.complete, hop]
      exact hbuf

/-- The buffers of the other requests stay as they are. -/
theorem complete_buf (s : State) (files : Fin MAX_FILES → List UInt8) (r : Request)
    {i : Fin MAX_FILES} (h : s.buf i = transfer (files i)) :
    (s.complete files r).buf i = transfer (files i) := by
  unfold State.complete
  cases r.op with
  | write => exact h
  | read =>
      by_cases hi : i = r.ctx
      · subst hi
        exact Function.update_self ..
      · exact (Function.update_of_ne hi ..).trans h

/-- A collected request is no longer in flight; its file has been read if it was a read. -/
theorem written_or_collected {i : Fin MAX_FILES} (hmem : c.request ∈ s.pending)
    (h : i ∈ unread s.pending) :
    i ∈ unread (s.pending.erase c.request) ∨ c.request.op = .read ∧ c.request.ctx = i := by
  rcases List.mem_append.1 ((unread_erase hmem).mem_iff.1 h) with hself | hrest
  · right
    by_cases hread : c.request.op = .read
    · have heq : unread [c.request] = [c.request.ctx] := by simp [unread, hread]
      rw [heq, List.mem_singleton] at hself
      exact ⟨hread, hself.symm⟩
    · have hnil : unread [c.request] = [] := by simp [unread, hread]
      rw [hnil] at hself
      cases hself
  · exact .inl hrest

theorem InFlight.collect (hs : InFlight files s) (hdelivers : Delivers files s c)
    (h : collect files s c = some t) : InFlight files t := by
  obtain ⟨hlt, hmem, -, -⟩ := collect_cases h
  obtain ⟨hbuf, hres⟩ := hs.collected hmem hdelivers
  have hcount := hs.count
  have hle := hs.writes_le
  have hlength : (s.pending.erase c.request).length + 1 = s.pending.length := by
    rw [List.length_erase_of_mem hmem]
    exact Nat.sub_add_cancel (List.length_pos_of_mem hmem)
  have hold : ∀ r ∈ s.pending.erase c.request, ∀ content, r.op = .write content →
      (s.complete files c.request).buf r.ctx = transfer (files r.ctx) ∧
        (r.ctx, content) ∈ s.writes := by
    intro r hr content hop
    obtain ⟨hrbuf, hrmem⟩ := hs.filled r (List.mem_of_mem_erase hr) content hop
    exact ⟨complete_buf s files _ hrbuf, hrmem⟩
  rw [FileMerge.collect, if_pos ⟨hlt, hmem⟩] at h
  cases h
  by_cases hpos : 0 < c.res
  · -- the write of the bytes that have come
    have hnonneg : ¬ c.res < 0 := by omega
    have htake : (transfer (files c.request.ctx)).take c.res.toNat ≠ [] := by
      intro hnil
      have hzero := congrArg List.length hnil
      rw [List.length_take, List.length_nil] at hzero
      omega
    rw [State.handle, if_neg hnonneg, if_pos hpos, hbuf]
    refine ⟨?_, ?_, hlt, fun r hr content hop => ?_, fun w hw => ?_, fun i => ?_⟩
    · show (s.pending.erase c.request ++ [_]).length + (s.i + 1) =
        MAX_FILES + (s.writes ++ [_]).length
      rw [List.length_append, List.length_append, List.length_singleton, List.length_singleton]
      omega
    · show (s.writes ++ [_]).length ≤ s.i + 1
      rw [List.length_append, List.length_singleton]
      omega
    · rcases List.mem_append.1 hr with hr | hr
      · obtain ⟨hrbuf, hrmem⟩ := hold r hr content hop
        exact ⟨hrbuf, List.mem_append_left _ hrmem⟩
      · obtain rfl := List.mem_singleton.1 hr
        cases hop
        exact ⟨hbuf, List.mem_append_right _ (List.mem_singleton_self _)⟩
    · rcases List.mem_append.1 hw with hw | hw
      · exact hs.start w hw
      · obtain rfl := List.mem_singleton.1 hw
        exact ⟨htake, List.take_prefix _ _⟩
    · rcases hs.written i with hunread | hempty | ⟨w, hw, rfl⟩
      · rcases written_or_collected hmem hunread with hrest | ⟨-, rfl⟩
        · refine .inl ?_
          show i ∈ unread (s.pending.erase c.request ++ [_])
          rw [unread_append]
          exact List.mem_append_left _ hrest
        · exact .inr (.inr ⟨_, List.mem_append_right _ (List.mem_singleton_self _), rfl⟩)
      · exact .inr (.inl hempty)
      · exact .inr (.inr ⟨w, List.mem_append_left _ hw, rfl⟩)
  · have hsame : ((s.complete files c.request).handle c.request.ctx c.res).pending =
          s.pending.erase c.request ∧
        ((s.complete files c.request).handle c.request.ctx c.res).writes = s.writes ∧
        ((s.complete files c.request).handle c.request.ctx c.res).buf =
          (s.complete files c.request).buf := by
      rw [State.handle, if_neg hpos]
      split
      · exact ⟨rfl, rfl, rfl⟩
      · exact ⟨rfl, rfl, rfl⟩
    obtain ⟨hpending, hwrites, hbufs⟩ := hsame
    refine ⟨?_, ?_, hlt, fun r hr content hop => ?_, fun w hw => ?_, fun i => ?_⟩
    · show (State.handle _ _ _).pending.length + (s.i + 1) =
        MAX_FILES + (State.handle _ _ _).writes.length
      rw [hpending, hwrites]
      omega
    · show (State.handle _ _ _).writes.length ≤ s.i + 1
      rw [hwrites]
      omega
    · show (State.handle _ _ _).buf _ = _ ∧ _ ∈ (State.handle _ _ _).writes
      rw [hbufs, hwrites]
      exact hold r (hpending ▸ hr) content hop
    · exact hs.start w (hwrites ▸ hw)
    · show i ∈ unread (State.handle _ _ _).pending ∨ _ ∨ ∃ w ∈ (State.handle _ _ _).writes, _
      rw [hpending, hwrites]
      rcases hs.written i with hunread | hdone
      · rcases written_or_collected hmem hunread with hrest | ⟨hread, rfl⟩
        · exact .inl hrest
        · -- a read without bytes is one of an empty file
          refine .inr (.inl ((transfer_eq_nil _).1 (List.eq_nil_of_length_eq_zero ?_)))
          unfold Delivers at hdelivers
          rw [hread] at hdelivers
          omega
      · exact .inr hdone

end FileMerge
end Leetcode
