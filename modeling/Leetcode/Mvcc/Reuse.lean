import Leetcode.Mvcc.History

/-!
# Ending a transaction in a reused slot

`commit_tx` and `abort_tx` select versions by `tx_id` alone, and `tx_id` is a
slot of the table.  A slot that is begun again gives its number to a new
transaction, whose end then also reaches the versions its predecessors
committed: a commit restamps them, an abort deletes them.

* `keepsCommitted_iff` — one end keeps the committed versions exactly when no
  committed version carries the number of the ending transaction.
* `frames_run_iff` — a run keeps them at all its ends exactly when every end
  meets that condition.
-/

namespace Leetcode
namespace Mvcc

open CLib

/-- Slots may be reused, but never while their transaction is active. -/
def System.Reuses (s : System) : Op → Prop
  | .begin id => (s.history id).status ≠ .active
  | _ => True

instance (s : System) : ∀ op, Decidable (s.Reuses op)
  | .begin _ => inferInstanceAs (Decidable (_ ≠ _))
  | .acquire _ _ _ | .read _ _ | .write _ _ _ | .commit _ | .abort _ =>
      inferInstanceAs (Decidable True)

/-- Every version committed in `s` is still in its list in `t`, unchanged and in order. -/
def Store.KeepsCommitted (s t : Store) : Prop :=
  ∀ key, ((s.versions key).filter Version.committed).Sublist (t.versions key)

/-- The operation, if it ends a transaction, keeps the committed versions. -/
def System.Frames (s : System) : Op → Prop
  | .commit tx => ∀ t, s.step (.commit tx) = some t → s.store.KeepsCommitted t.store
  | .abort tx => ∀ t, s.step (.abort tx) = some t → s.store.KeepsCommitted t.store
  | _ => True

/-- No committed version carries the number `id`. -/
def Store.Unstamped (s : Store) (id : TxId) : Prop :=
  ∀ key, ∀ ver ∈ s.versions key, ver.committed = true → ver.txId ≠ id

/-- The operation, if it ends a transaction, ends one whose number no committed
version carries. -/
def System.EndsFresh (s : System) : Op → Prop
  | .commit tx | .abort tx => s.store.Unstamped (s.store.transactions tx).id
  | _ => True

/-- A commit keeps the committed versions of a list when none is its own. -/
theorem sublist_stamp_iff {vs : List Version} {id : TxId} {ts : Nat}
    (hlt : ∀ ver ∈ vs, ver.committed = true → ver.commitTs < ts) :
    (vs.filter Version.committed).Sublist (vs.map (stamp id ts)) ↔
      ∀ ver ∈ vs, ver.committed = true → ver.txId ≠ id := by
  constructor
  · intro hsub ver hver hcom hid
    have hmem := hsub.subset (List.mem_filter.2 ⟨hver, hcom⟩)
    obtain ⟨old, -, rfl⟩ := List.mem_map.1 hmem
    -- Whatever the commit stamps has the new timestamp, which no old version has.
    rw [stamp_txId] at hid
    have hts := hlt _ hver hcom
    simp [stamp, hid] at hts
  · intro hne
    have hsame : (vs.filter Version.committed).map (stamp id ts) = vs.filter Version.committed := by
      refine (List.map_congr_left fun ver hver => ?_).trans (List.map_id _)
      obtain ⟨hmem, hcom⟩ := List.mem_filter.1 hver
      rw [stamp, if_neg (hne ver hmem hcom), id_eq]
    rw [← hsame]
    apply List.Sublist.map
    exact List.filter_sublist

/-- An abort keeps the committed versions of a list when none is its own. -/
theorem sublist_remove_iff {vs : List Version} {id : TxId} :
    (vs.filter Version.committed).Sublist (vs.filter fun ver => ver.txId ≠ id) ↔
      ∀ ver ∈ vs, ver.committed = true → ver.txId ≠ id := by
  constructor
  · intro hsub ver hver hcom
    have hmem := hsub.subset (List.mem_filter.2 ⟨hver, hcom⟩)
    simpa using (List.mem_filter.1 hmem).2
  · intro hne
    have hsame : (vs.filter fun ver => ver.txId ≠ id).filter Version.committed =
        vs.filter Version.committed := by
      rw [List.filter_filter]
      refine List.filter_congr fun ver hver => ?_
      cases hcom : ver.committed
      · rfl
      · simpa using hne ver hver hcom
    rw [← hsame]
    exact List.filter_sublist

/-- One end of a transaction keeps the committed versions exactly when none
carries its number. -/
theorem keepsCommitted_iff {s t : System} {op : Op} (hc : s.Clock) (h : s.step op = some t) :
    s.Frames op ↔ s.EndsFresh op := by
  obtain ⟨hstore, -⟩ := System.step_eq_some h
  -- The step has one outcome.
  have hstep : (∀ t', s.step op = some t' → s.store.KeepsCommitted t'.store) ↔
      s.store.KeepsCommitted t.store := by
    constructor
    · intro hall
      exact hall t h
    · intro hkeeps t' ht'
      obtain rfl : t = t' := Option.some.inj (h.symm.trans ht')
      exact hkeeps
  cases op with
  | commit tx =>
      refine hstep.trans (forall_congr' fun key => ?_)
      rw [Store.step_versions hstore]
      exact sublist_stamp_iff (hc.stamp_lt key)
  | abort tx =>
      refine hstep.trans (forall_congr' fun key => ?_)
      rw [Store.step_versions hstore]
      exact sublist_remove_iff
  | begin id => exact Iff.rfl
  | acquire tx key type => exact Iff.rfl
  | read tx key => exact Iff.rfl
  | write tx key value => exact Iff.rfl

/-- In a run with reused slots every commit and abort leaves the committed
versions alone exactly when no committed version ever carries the number of the
transaction that ends. -/
theorem frames_run_iff (ops : List Op) (t : System) :
    Run System.step (fun s op => s.Reuses op ∧ s.Frames op) System.init ops t ↔
      Run System.step (fun s op => s.Reuses op ∧ s.EndsFresh op) System.init ops t := by
  apply Run.congr clock_init
  · intro s op t hc h
    exact clock_step hc h
  · intro s op t hc h
    exact and_congr_right' (keepsCommitted_iff hc h)

/-- A slot is begun again after a commit: aborting the second transaction
deletes the version of the first. -/
theorem frames_fails :
    ¬∀ ops s op, Run System.step System.Reuses System.init ops s → s.Reuses op → s.Frames op := by
  intro h
  have hrun : Run System.step System.Reuses System.init
      [.begin 1, .acquire 1 (ascii "x") .WRITE, .write 1 (ascii "x") (ascii "100"), .commit 1,
        .begin 1] _ := Run.of_exec (t := Option.get _ (by decide)) (Option.some_get _).symm
  have hkeep := h _ _ (.abort 1) hrun trivial _ (Option.some_get (by decide)).symm (ascii "x")
  exact absurd hkeep (by decide)

end Mvcc
end Leetcode
