import Leetcode.FileMerge.Model

/-!
# When the merge is complete

The loop collects as many completions as there are files, of whatever requests.  A file
whose read is still pending then has not been written, so the merge is complete exactly
when the loop has collected the reads: `merge_complete_iff`.
-/

namespace Leetcode
namespace FileMerge

open CLib

/-! ## The pending reads -/

/-- The files whose read is pending. -/
def unread (pending : List Request) : List (Fin MAX_FILES) :=
  (pending.filter fun r => r.op = .read).map Request.ctx

theorem unread_append (l₁ l₂ : List Request) : unread (l₁ ++ l₂) = unread l₁ ++ unread l₂ := by
  simp [unread]

theorem unread_write (ctx : Fin MAX_FILES) (content : List UInt8) :
    unread [⟨ctx, .write content⟩] = [] := rfl

theorem unread_submitReads : unread submitReads.pending = List.finRange MAX_FILES := by
  simp [unread, submitReads, List.filter_map, Function.comp_def]

/-- Taking a request off takes off its file, if it is a read. -/
theorem unread_erase {pending : List Request} {r : Request} (hr : r ∈ pending) :
    (unread pending).Perm (unread [r] ++ unread (pending.erase r)) := by
  rw [← unread_append]
  exact ((List.perm_cons_erase hr).filter _).map _

variable {files : Fin MAX_FILES → List UInt8} {s t : State} {c : Completion}

/-! ## One round -/

/-- What a round does: it takes the request off, and may submit a write of the same
context. -/
theorem collect_cases (h : collect files s c = some t) :
    s.i < MAX_FILES ∧ c.request ∈ s.pending ∧ t.i = s.i + 1 ∧
      ((t.pending = s.pending.erase c.request ∧ t.writes = s.writes) ∨
        ∃ content, t.pending = s.pending.erase c.request ++ [⟨c.request.ctx, .write content⟩] ∧
          t.writes = s.writes ++ [(c.request.ctx, content)]) := by
  unfold collect at h
  split at h
  · next hand =>
      cases h
      refine ⟨hand.1, hand.2, rfl, ?_⟩
      unfold State.handle
      split
      · exact .inl ⟨rfl, rfl⟩
      · split
        · exact .inr ⟨_, rfl, rfl⟩
        · exact .inl ⟨rfl, rfl⟩
  · cases h

/-- A round with the completion of a read, of a file that is neither empty nor longer than
the buffer, submits the write of the whole file. -/
theorem collect_read (h : collect files s c = some t) (hread : c.request.op = .read)
    (hdelivers : Delivers files s c)
    (hfile : 0 < (files c.request.ctx).length ∧ (files c.request.ctx).length ≤ BUF_SIZE) :
    t.writes = s.writes ++ [(c.request.ctx, files c.request.ctx)] := by
  have htransfer : transfer (files c.request.ctx) = files c.request.ctx :=
    List.take_of_length_le hfile.2
  have hres : c.res = (files c.request.ctx).length := by
    simpa [Delivers, hread, htransfer] using hdelivers
  unfold collect at h
  split at h
  · cases h
    have hpos : ¬ c.res < 0 := by omega
    have hsome : 0 < c.res := by omega
    have hlength : c.res.toNat = (files c.request.ctx).length := by omega
    simp [State.handle, State.complete, hpos, hsome, hread, htransfer, hlength]
  · cases h

theorem unread_collect (h : collect files s c = some t) :
    (unread s.pending).Perm (unread [c.request] ++ unread t.pending) := by
  obtain ⟨-, hmem, -, ⟨hpending, -⟩ | ⟨content, hpending, -⟩⟩ := collect_cases h
  · rw [hpending]
    exact unread_erase hmem
  · rw [hpending, unread_append, unread_write, List.append_nil]
    exact unread_erase hmem

/-! ## Any run of the loop -/

/-- A file with a pending read has one pending read, and nothing of it has been written or
is being written. -/
structure Inv (s : State) : Prop where
  nodup : (unread s.pending).Nodup
  pending : ∀ r ∈ s.pending, r.op ≠ .read → r.ctx ∉ unread s.pending
  writes : ∀ w ∈ s.writes, w.1 ∉ unread s.pending

theorem inv_init : Inv submitReads where
  nodup := by
    rw [unread_submitReads]
    exact List.nodup_finRange _
  pending := by
    intro r hr hop
    obtain ⟨i, -, rfl⟩ := List.mem_map.1 hr
    exact absurd rfl hop
  writes := by
    intro w hw
    cases hw

/-- The file of the collected request has no pending read any more. -/
theorem Inv.collected (hs : Inv s) (h : collect files s c = some t) :
    c.request.ctx ∉ unread t.pending := by
  have hperm := unread_collect h
  obtain ⟨-, hmem, -, -⟩ := collect_cases h
  by_cases hread : c.request.op = .read
  · have hnodup := hperm.nodup_iff.1 hs.nodup
    have hself : unread [c.request] = [c.request.ctx] := by simp [unread, hread]
    rw [hself] at hnodup
    exact (List.nodup_cons.1 hnodup).1
  · intro hin
    exact hs.pending _ hmem hread (hperm.mem_iff.2 (List.mem_append_right _ hin))

theorem Inv.collect (hs : Inv s) (h : collect files s c = some t) : Inv t := by
  have hperm := unread_collect h
  have hcollected := hs.collected h
  have hsub : ∀ {i}, i ∉ unread s.pending → i ∉ unread t.pending := by
    intro i hi hin
    exact hi (hperm.mem_iff.2 (List.mem_append_right _ hin))
  have hnodup : (unread t.pending).Nodup :=
    (List.nodup_append.1 (hperm.nodup_iff.1 hs.nodup)).2.1
  obtain ⟨-, -, -, ⟨hpending, hwrites⟩ | ⟨content, hpending, hwrites⟩⟩ := collect_cases h
  · refine ⟨hnodup, fun r hr hop => ?_, fun w hw => ?_⟩
    · rw [hpending] at hr
      exact hsub (hs.pending r (List.mem_of_mem_erase hr) hop)
    · rw [hwrites] at hw
      exact hsub (hs.writes w hw)
  · refine ⟨hnodup, fun r hr hop => ?_, fun w hw => ?_⟩
    · rw [hpending, List.mem_append, List.mem_singleton] at hr
      rcases hr with hold | rfl
      · exact hsub (hs.pending r (List.mem_of_mem_erase hold) hop)
      · exact hcollected
    · rw [hwrites, List.mem_append, List.mem_singleton] at hw
      rcases hw with hold | rfl
      · exact hsub (hs.writes w hold)
      · exact hcollected

/-- A run counts the completions, and the reads among them are no longer pending. -/
theorem run_counts {completions : List Completion}
    (h : Run (collect files) (Delivers files) s completions t) :
    t.i = s.i + completions.length ∧
      (unread s.pending).length =
        (unread t.pending).length + completions.countP fun c => c.request.op = .read := by
  induction h with
  | nil s => exact ⟨rfl, rfl⟩
  | @cons s m t c completions hdelivers hstep hrun ih =>
      obtain ⟨hi, hreads⟩ := ih
      obtain ⟨-, -, hnext, -⟩ := collect_cases hstep
      have hlength := (unread_collect hstep).length_eq
      rw [List.length_append] at hlength
      have hself : (unread [c.request]).length = if c.request.op = .read then 1 else 0 := by
        by_cases hread : c.request.op = .read <;> simp [unread, hread]
      refine ⟨by rw [hi, hnext, List.length_cons]; omega, ?_⟩
      rw [hlength, hself, hreads, List.countP_cons]
      simp only [decide_eq_true_eq]
      omega

/-! ## Runs that collect the reads -/

/-- The whole content of every file, with its context. -/
def contents (files : Fin MAX_FILES → List UInt8) (l : List (Fin MAX_FILES)) :
    List (Fin MAX_FILES × List UInt8) :=
  l.map fun i => (i, files i)

/-- As long as only reads are collected, the written files and the unread ones are all. -/
theorem run_reads {completions : List Completion}
    (hfiles : ∀ i, 0 < (files i).length ∧ (files i).length ≤ BUF_SIZE)
    (h : Run (collect files) (Delivers files) s completions t)
    (hreads : ∀ c ∈ completions, c.request.op = .read) :
    (t.writes ++ contents files (unread t.pending)).Perm
      (s.writes ++ contents files (unread s.pending)) := by
  induction h with
  | nil s => exact .refl _
  | @cons s m t c completions hdelivers hstep hrun ih =>
      have hread := hreads c List.mem_cons_self
      refine (ih fun d hd => hreads d (List.mem_cons_of_mem _ hd)).trans ?_
      have hself : unread [c.request] = [c.request.ctx] := by simp [unread, hread]
      have hperm := unread_collect hstep
      rw [hself] at hperm
      rw [collect_read hstep hread hdelivers (hfiles _), List.append_assoc]
      have hcontents := hperm.map fun i => (i, files i)
      exact hcontents.symm.append_left s.writes

/-! ## The two -/

/-- When every file's read has been collected, only reads have. -/
theorem reads_of_none {completions : List Completion}
    (h : Run (collect files) (Delivers files) submitReads completions s) (hend : s.i = MAX_FILES)
    (hnone : unread s.pending = []) : ∀ c ∈ completions, c.request.op = .read := by
  obtain ⟨hi, hcount⟩ := run_counts h
  rw [unread_submitReads, List.length_finRange, hnone, List.length_nil, Nat.zero_add,
    ← hend, hi] at hcount
  intro c hc
  have hall := List.countP_eq_length.1 (hcount.symm.trans (Nat.zero_add _)) c hc
  exact of_decide_eq_true hall

/-- When only reads have been collected, every file's read has. -/
theorem none_of_reads {completions : List Completion}
    (h : Run (collect files) (Delivers files) submitReads completions s) (hend : s.i = MAX_FILES)
    (hreads : ∀ c ∈ completions, c.request.op = .read) : unread s.pending = [] := by
  obtain ⟨hi, hcount⟩ := run_counts h
  have hall : completions.countP (fun c => c.request.op = .read) = completions.length :=
    List.countP_eq_length.2 fun c hc => decide_eq_true (hreads c hc)
  have hzero : s.i = completions.length := hi.trans (Nat.zero_add _)
  rw [unread_submitReads, List.length_finRange, hall] at hcount
  apply List.eq_nil_of_length_eq_zero
  omega

/-- The files `a`, `b` and `c`. -/
def letters (i : Fin MAX_FILES) : List UInt8 := [UInt8.ofNat (97 + i)]

/-- The write of the first file completes before the last read. -/
def writeBetween : List Completion :=
  [⟨⟨0, .read⟩, 1⟩, ⟨⟨0, .write [97]⟩, 1⟩, ⟨⟨1, .read⟩, 1⟩]

/-- The first file is written twice then, and the last one is not. -/
theorem merge_incomplete :
    (∀ i, 1 ≤ (letters i).length ∧ (letters i).length ≤ BUF_SIZE) ∧
    ∃ s, Run (collect letters) (Delivers letters) submitReads writeBetween s ∧
      s.i = MAX_FILES ∧ s.writes.map Prod.snd = [[97], [97], [98]] ∧
      ¬ ∀ i, s.writes.count (i, letters i) = 1 :=
  ⟨fun _ => ⟨Nat.le_refl 1, Nat.le_add_left 1 8191⟩, _,
    Run.of_exec (t := Option.get _ (by decide)) (Option.some_get _).symm, by decide, by decide,
    by decide⟩

/-- For files that are neither empty nor longer than the buffer, and in whatever order the
ring completes the requests, `main` submits the write of each file exactly once, and no
other write, exactly when the completions that its loop collects are those of the reads. -/
theorem merge_complete_iff (files : Fin MAX_FILES → List UInt8)
    (hfiles : ∀ i, 1 ≤ (files i).length ∧ (files i).length ≤ BUF_SIZE)
    {completions : List Completion} {s : State}
    (h : Run (collect files) (Delivers files) submitReads completions s)
    (hend : s.i = MAX_FILES) :
    ((∀ i, s.writes.count (i, files i) = 1) ↔ ∀ c ∈ completions, c.request.op = .read) ∧
      (s.writes.Perm (contents files (List.finRange MAX_FILES)) ↔
        ∀ c ∈ completions, c.request.op = .read) := by
  -- only reads collected: nothing else than the files is written
  have hperm : (∀ c ∈ completions, c.request.op = .read) →
      s.writes.Perm (contents files (List.finRange MAX_FILES)) := by
    intro hreads
    have hrun := run_reads hfiles h hreads
    rw [none_of_reads h hend hreads, unread_submitReads] at hrun
    simpa [contents, submitReads] using hrun
  have honce : s.writes.Perm (contents files (List.finRange MAX_FILES)) →
      ∀ i, s.writes.count (i, files i) = 1 := by
    intro hwrites i
    have hnodup : (contents files (List.finRange MAX_FILES)).Nodup :=
      (List.nodup_finRange _).map fun a b hab => congrArg Prod.fst hab
    rw [hwrites.count_eq]
    exact List.count_eq_one_of_mem hnodup (List.mem_map.2 ⟨i, List.mem_finRange i, rfl⟩)
  -- every file written: none is unread
  have hreads : (∀ i, s.writes.count (i, files i) = 1) →
      ∀ c ∈ completions, c.request.op = .read := by
    intro hcount
    have hinv : Inv s := h.invariant inv_init fun _ _ _ hs _ hstep => hs.collect hstep
    refine reads_of_none h hend (List.eq_nil_iff_forall_not_mem.2 fun i hin => ?_)
    have hmem : (i, files i) ∈ s.writes := by
      apply List.count_pos_iff.1
      rw [hcount i]
      exact Nat.one_pos
    exact hinv.writes _ hmem hin
  exact ⟨⟨hreads, fun h => honce (hperm h)⟩, ⟨fun h => hreads (honce h), hperm⟩⟩

theorem merge_complete_iff_letters :
    ∃ s, Run (collect letters) (Delivers letters) submitReads
        [⟨⟨2, .read⟩, 1⟩, ⟨⟨0, .read⟩, 1⟩, ⟨⟨1, .read⟩, 1⟩] s ∧
      ∀ i, s.writes.count (i, letters i) = 1 := by
  have hrun := Run.of_exec (t := Option.get _ (by decide)) (Option.some_get
    (x := exec (collect letters) (Delivers letters) submitReads
      [⟨⟨2, .read⟩, 1⟩, ⟨⟨0, .read⟩, 1⟩, ⟨⟨1, .read⟩, 1⟩]) (by decide)).symm
  have hcomplete := merge_complete_iff letters
    (fun _ => ⟨Nat.le_refl 1, Nat.le_add_left 1 8191⟩) hrun (by decide)
  exact ⟨_, hrun, hcomplete.1.2 (by decide)⟩

end FileMerge
end Leetcode
