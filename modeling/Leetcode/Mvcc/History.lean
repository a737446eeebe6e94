import Leetcode.Mvcc.Model
import Leetcode.Lib.Run

/-!
# Runs of the store, with their history

The store forgets: a committed transaction is only a cleared flag, a refused
request leaves no trace but an edge.  The properties of a run are about what
was asked, granted and written, so a `System` carries that history next to the
store.  The store never reads it.

Three invariants need no assumption on the calls at all:

* `Slots` — the row of an active transaction agrees with its history;
* `Compatible` — active transactions hold compatible locks;
* `Clock` — every timestamp handed out lies below `global_ts`.
-/

namespace Leetcode
namespace Mvcc

open CLib

/-- How a transaction id stands. -/
inductive Status
  | unused
  | active
  | committed (ts : Nat)
  | aborted
  deriving DecidableEq, Repr

/-- A lock request that was granted, with the value of `global_ts` at that time. -/
structure Grant where
  key : Bytes
  type : LockType
  ts : Nat
  deriving DecidableEq, Repr

/-- What happened under one id since its last `begin_tx`, the latest event first. -/
structure TxHistory where
  status : Status
  startTs : Nat
  /-- The writes, as pairs of key and value. -/
  writes : List (Bytes × Bytes)
  granted : List Grant
  /-- The key and type of the latest `acquire_lock` call, if it was refused. -/
  refused : Option (Bytes × LockType)
  deriving DecidableEq, Repr

/-- The store together with the history of every id. -/
structure System where
  store : Store
  history : TxId → TxHistory

def System.init : System where
  store := Store.init
  history := fun _ => ⟨.unused, 0, [], [], none⟩

/-- The history of one id after a call made on its behalf. -/
def System.event (s : System) (h : TxHistory) : Op → TxHistory
  | .begin _ => ⟨.active, s.store.globalTs, [], [], none⟩
  | .acquire tx key type =>
      if (acquireLock s.store tx key type).1 then
        { h with granted := ⟨key, type, s.store.globalTs⟩ :: h.granted, refused := none }
      else { h with refused := some (key, type) }
  | .read _ _ => h
  | .write _ key value => { h with writes := (key, value) :: h.writes }
  | .commit _ => { h with status := .committed s.store.globalTs }
  | .abort _ => { h with status := .aborted }

theorem System.event_granted {s : System} {tx : TxId} {key : Bytes} {type : LockType}
    (h : (acquireLock s.store tx key type).1 = true) (old : TxHistory) :
    s.event old (.acquire tx key type) =
      { old with granted := ⟨key, type, s.store.globalTs⟩ :: old.granted, refused := none } := by
  simp [System.event, h]

theorem System.event_refused {s : System} {tx : TxId} {key : Bytes} {type : LockType}
    (h : ¬(acquireLock s.store tx key type).1 = true) (old : TxHistory) :
    s.event old (.acquire tx key type) = { old with refused := some (key, type) } := by
  simp [System.event, h]

/-- The id a call is made for. -/
def Op.tx : Op → TxId
  | .begin id => id
  | .acquire tx _ _ => tx
  | .read tx _ => tx
  | .write tx _ _ => tx
  | .commit tx => tx
  | .abort tx => tx

/-- One call: the store takes its step and the event is recorded. -/
def System.step (s : System) (op : Op) : Option System :=
  (s.store.step op).map fun store =>
    ⟨store, Function.update s.history op.tx (s.event (s.history op.tx) op)⟩

theorem System.step_eq_some {s t : System} {op : Op} (h : s.step op = some t) :
    s.store.step op = some t.store ∧
      t.history = Function.update s.history op.tx (s.event (s.history op.tx) op) := by
  obtain ⟨store, hstore, rfl⟩ := Option.map_eq_some_iff.1 h
  exact ⟨hstore, rfl⟩

/-- A step changes the history of its own id only. -/
theorem System.step_history {s t : System} {op : Op} (h : s.step op = some t) :
    t.history op.tx = s.event (s.history op.tx) op ∧
      ∀ i, i ≠ op.tx → t.history i = s.history i := by
  obtain ⟨-, hhist⟩ := System.step_eq_some h
  constructor
  · rw [hhist, Function.update_self]
  · intro i hi
    rw [hhist, Function.update_of_ne hi]

/-- The row an operation leaves behind for the id it is made for. -/
def Store.row (s : Store) : Op → Transaction
  | .begin id => ⟨id, true, s.globalTs, []⟩
  | .acquire tx key type =>
      let t := s.transactions tx
      if (acquireLock s tx key type).1 then { t with locks := ⟨key, type, t.id⟩ :: t.locks }
      else t
  | .read tx _ => s.transactions tx
  | .write tx _ _ => s.transactions tx
  | .commit tx => { s.transactions tx with locks := [], active := false }
  | .abort tx => { s.transactions tx with locks := [], active := false }

/-- The version list an operation leaves behind for a key. -/
def Store.versionsAfter (s : Store) (key : Bytes) : Op → List Version
  | .write tx key' value =>
      if key = key' then ⟨value, (s.transactions tx).id, false, 0⟩ :: s.versions key
      else s.versions key
  | .commit tx => (s.versions key).map (stamp (s.transactions tx).id s.globalTs)
  | .abort tx => (s.versions key).filter fun ver => ver.txId ≠ (s.transactions tx).id
  | .begin _ | .acquire _ _ _ | .read _ _ => s.versions key

/-- Only `begin_tx` and `commit_tx` take a timestamp. -/
def Op.ticks : Op → Nat
  | .begin _ | .commit _ => 1
  | _ => 0

/-- What one step does to the fields of the store. -/
theorem Store.step_cases {s t : Store} {op : Op} (h : s.step op = some t) :
    t.transactions = Function.update s.transactions op.tx (s.row op) ∧
      (∀ key, t.versions key = s.versionsAfter key op) ∧
      t.globalTs = s.globalTs + op.ticks := by
  cases op with
  | begin id =>
      simp only [Store.step, beginTx] at h
      split at h
      · cases h
        exact ⟨rfl, fun _ => rfl, rfl⟩
      · cases h
  | acquire tx key type =>
      simp only [Store.step, Option.some.injEq] at h
      subst h
      unfold acquireLock
      split
      · next l hl =>
          refine ⟨?_, fun _ => rfl, rfl⟩
          simp [Store.setWaitFor, Store.row, acquireLock, hl, Op.tx]
      · next hl =>
          refine ⟨?_, fun _ => rfl, rfl⟩
          simp [Store.pushLock, Store.setTransaction, Store.row, acquireLock, hl, Op.tx]
  | read tx key =>
      simp only [Store.step, Option.some.injEq] at h
      subst h
      exact ⟨(Function.update_eq_self _ _).symm, fun _ => rfl, rfl⟩
  | write tx key value =>
      simp only [Store.step, mvccWrite] at h
      split at h
      · cases h
        refine ⟨(Function.update_eq_self _ _).symm, fun key' => ?_, rfl⟩
        refine (lookup_pushVersion key _ key' s.db).trans ?_
        rw [Store.versionsAfter]
        split
        · next hk => rw [hk]; rfl
        · rfl
      · cases h
  | commit tx =>
      simp only [Store.step, commitTx] at h
      split at h
      · cases h
        rw [Store.finish_eq]
        exact ⟨rfl, fun key => lookup_mapVersions _ rfl key _, rfl⟩
      · cases h
  | abort tx =>
      simp only [Store.step, Option.some.injEq] at h
      subst h
      rw [abortTx_eq, Store.finish_eq]
      exact ⟨rfl, fun key => lookup_mapVersions _ rfl key _, rfl⟩

theorem Store.step_transactions {s t : Store} {op : Op} (h : s.step op = some t) :
    t.transactions = Function.update s.transactions op.tx (s.row op) :=
  (Store.step_cases h).1

theorem Store.step_versions {s t : Store} {op : Op} (h : s.step op = some t) (key : Bytes) :
    t.versions key = s.versionsAfter key op :=
  (Store.step_cases h).2.1 key

theorem Store.step_globalTs {s t : Store} {op : Op} (h : s.step op = some t) :
    t.globalTs = s.globalTs + op.ticks :=
  (Store.step_cases h).2.2

/-- An edge of the wait-for graph is only ever added, by a refused request. -/
theorem Store.step_waitFor {s t : Store} {op : Op} (h : s.step op = some t) (v u : TxId) :
    t.waitFor v u = true ↔ s.waitFor v u = true ∨
      ∃ tx key type l, op = .acquire tx key type ∧ firstConflict s tx key type = some l ∧
        v = (s.transactions tx).id ∧ u = l.txId := by
  cases op with
  | begin id =>
      simp only [Store.step, beginTx] at h
      split at h
      · cases h
        simp [Store.setTransaction]
      · cases h
  | acquire tx key type =>
      simp only [Store.step, Option.some.injEq] at h
      subst h
      unfold acquireLock
      split
      · next l hl =>
          by_cases hv : v = (s.transactions tx).id
          · by_cases hu : u = l.txId
            · subst hv hu
              simp [Store.setWaitFor, hl]
            · subst hv
              simp [Store.setWaitFor, hl, hu]
          · simp [Store.setWaitFor, hl, hv]
      · next hl => simp [Store.pushLock, Store.setTransaction, hl]
  | read tx key =>
      simp only [Store.step, Option.some.injEq] at h
      subst h
      simp
  | write tx key value =>
      simp only [Store.step, mvccWrite] at h
      split at h
      · cases h
        simp
      · cases h
  | commit tx =>
      simp only [Store.step, commitTx] at h
      split at h
      · cases h
        simp [Store.finish_eq, Store.setTransaction]
      · cases h
  | abort tx =>
      simp only [Store.step, Option.some.injEq] at h
      subst h
      simp [abortTx_eq, Store.finish_eq, Store.setTransaction]

/-! ## Rows and histories -/

/-- The row of an active transaction agrees with its history; what an inactive
row still holds does not matter, since `begin_tx` overwrites all of it. -/
structure SlotOk (i : TxId) (t : Transaction) (h : TxHistory) : Prop where
  status_iff : t.active = true ↔ h.status = .active
  id_eq : t.active = true → t.id = i
  startTs_eq : t.active = true → t.startTs = h.startTs
  locks_eq : t.active = true → t.locks = h.granted.map fun g => ⟨g.key, g.type, i⟩

/-- Every row agrees with its history. -/
def System.Slots (s : System) : Prop :=
  ∀ i, SlotOk i (s.store.transactions i) (s.history i)

theorem slots_init : System.init.Slots := by
  intro i
  constructor <;> simp [System.init, Store.init]

theorem slotOk_row {s : System} {op : Op} (hs : s.Slots) :
    SlotOk op.tx (s.store.row op) (s.event (s.history op.tx) op) := by
  have hslot := hs op.tx
  cases op with
  | begin id => constructor <;> simp [Store.row, System.event, Op.tx]
  | acquire tx key type =>
      by_cases hgrant : (acquireLock s.store tx key type).1 = true
      · rw [System.event_granted hgrant]
        simp only [Store.row, hgrant, if_true]
        refine ⟨hslot.status_iff, hslot.id_eq, hslot.startTs_eq, fun hact => ?_⟩
        have hid : (s.store.transactions tx).id = tx := hslot.id_eq hact
        have hlocks : (s.store.transactions tx).locks = _ := hslot.locks_eq hact
        rw [List.map_cons, hid, hlocks]
        rfl
      · rw [System.event_refused hgrant]
        simp only [Store.row, hgrant]
        exact ⟨hslot.status_iff, hslot.id_eq, hslot.startTs_eq, hslot.locks_eq⟩
  | read tx key => exact hslot
  | write tx key value =>
      exact ⟨hslot.status_iff, hslot.id_eq, hslot.startTs_eq, hslot.locks_eq⟩
  | commit tx => constructor <;> simp [Store.row, System.event]
  | abort tx => constructor <;> simp [Store.row, System.event]

theorem slots_step {s t : System} {op : Op} (hs : s.Slots) (h : s.step op = some t) : t.Slots := by
  obtain ⟨hstore, hhist⟩ := System.step_eq_some h
  intro i
  rw [Store.step_transactions hstore, hhist]
  by_cases hi : i = op.tx
  · subst hi
    simpa using slotOk_row hs
  · simpa [hi] using hs i

/-! ## Compatible locks -/

/-- Two active transactions that both lock a key lock it `READ`. -/
def Store.Compatible (s : Store) : Prop :=
  ∀ i j, i ≠ j → (s.transactions i).active = true → (s.transactions j).active = true →
    ∀ l ∈ (s.transactions i).locks, ∀ l' ∈ (s.transactions j).locks,
      l.key = l'.key → l.type = .READ ∧ l'.type = .READ

theorem compatible_init : Store.init.Compatible := by
  intro i j _ hi
  cases hi

/-- The locks an operation leaves with its transaction are compatible with
those of the others. -/
theorem compatible_row {s : System} {op : Op} (hs : s.Slots) (hc : s.store.Compatible) {j : TxId}
    (hj : op.tx ≠ j) (hrow : (s.store.row op).active = true)
    (hact : (s.store.transactions j).active = true) :
    ∀ l ∈ (s.store.row op).locks, ∀ l' ∈ (s.store.transactions j).locks,
      l.key = l'.key → l.type = .READ ∧ l'.type = .READ := by
  cases op with
  | begin id =>
      intro l hl
      cases hl
  | acquire tx key type =>
      unfold Store.row at hrow ⊢
      by_cases hgrant : (acquireLock s.store tx key type).1 = true
      · simp only [hgrant, if_true, List.mem_cons] at hrow ⊢
        rintro l (rfl | hl) l' hl' hkey
        · have hnone : firstConflict s.store tx key type = none := by
            unfold acquireLock at hgrant
            split at hgrant
            · cases hgrant
            · assumption
          have hl'tx : l'.txId = j := by
            rw [(hs j).locks_eq hact, List.mem_map] at hl'
            obtain ⟨g, -, rfl⟩ := hl'
            rfl
          have hne : l'.txId ≠ (s.store.transactions tx).id := by
            rw [hl'tx, (hs tx).id_eq hrow]
            exact hj.symm
          exact (firstConflict_eq_none.1 hnone j hact l' hl' hkey.symm hne).symm
        · exact hc tx j hj hrow hact l hl l' hl' hkey
      · simp only [hgrant] at hrow ⊢
        exact hc tx j hj hrow hact
  | read tx key => exact hc tx j hj hrow hact
  | write tx key value => exact hc tx j hj hrow hact
  | commit tx => cases hrow
  | abort tx => cases hrow

theorem compatible_step {s t : System} {op : Op} (hs : s.Slots) (hc : s.store.Compatible)
    (h : s.step op = some t) : t.store.Compatible := by
  obtain ⟨hstore, -⟩ := System.step_eq_some h
  intro i j hij
  rw [Store.step_transactions hstore]
  by_cases hi : i = op.tx
  · have hj : j ≠ op.tx := fun hj => hij (hi.trans hj.symm)
    subst hi
    rw [Function.update_self, Function.update_of_ne hj]
    exact compatible_row hs hc hij
  · rw [Function.update_of_ne hi]
    by_cases hj : j = op.tx
    · subst hj
      rw [Function.update_self]
      intro hact hrow l hl l' hl' hkey
      exact (compatible_row hs hc (Ne.symm hij) hrow hact l' hl' l hl hkey.symm).symm
    · rw [Function.update_of_ne hj]
      exact hc i j hij

/-! ## Timestamps -/

/-- Every timestamp in the store and in the history was handed out before. -/
structure System.Clock (s : System) : Prop where
  start_lt : ∀ i, (s.history i).startTs < s.store.globalTs
  commit_lt : ∀ i ts, (s.history i).status = .committed ts → ts < s.store.globalTs
  grant_le : ∀ i, ∀ g ∈ (s.history i).granted, g.ts ≤ s.store.globalTs
  stamp_lt : ∀ key, ∀ ver ∈ s.store.versions key, ver.committed = true →
    ver.commitTs < s.store.globalTs

theorem clock_init : System.init.Clock := by
  constructor
  · intro i
    simp [System.init, Store.init]
  · intro i ts h
    cases h
  · intro i g hg
    cases hg
  · intro key ver hver
    cases hver

/-- The event of an operation carries timestamps below the clock it leaves. -/
theorem clock_event {s : System} {op : Op} (hc : s.Clock) {h' : TxHistory}
    (hh : h' = s.event (s.history op.tx) op) :
    h'.startTs < s.store.globalTs + op.ticks ∧
      (∀ ts, h'.status = .committed ts → ts < s.store.globalTs + op.ticks) ∧
      ∀ g ∈ h'.granted, g.ts ≤ s.store.globalTs + op.ticks := by
  subst hh
  have hstart := hc.start_lt op.tx
  have hcommit := hc.commit_lt op.tx
  have hgrant := hc.grant_le op.tx
  cases op with
  | begin id => simp [System.event, Op.ticks]
  | acquire tx key type =>
      by_cases hg : (acquireLock s.store tx key type).1 = true
      · rw [System.event_granted hg]
        refine ⟨hstart, hcommit, fun g hg => ?_⟩
        rcases List.mem_cons.1 hg with rfl | hg
        · exact le_rfl
        · exact hgrant g hg
      · rw [System.event_refused hg]
        exact ⟨hstart, hcommit, hgrant⟩
  | read tx key => exact ⟨hstart, hcommit, hgrant⟩
  | write tx key value => exact ⟨hstart, hcommit, hgrant⟩
  | commit tx =>
      refine ⟨Nat.lt_succ_of_lt hstart, fun ts hts => ?_,
        fun g hg => Nat.le_succ_of_le (hgrant g hg)⟩
      cases hts
      exact Nat.lt_succ_self _
  | abort tx =>
      refine ⟨hstart, fun ts hts => ?_, hgrant⟩
      cases hts

theorem clock_versions {s : System} {op : Op} (hc : s.Clock) {key : Bytes} {ver : Version}
    (hver : ver ∈ s.store.versionsAfter key op) (hcom : ver.committed = true) :
    ver.commitTs < s.store.globalTs + op.ticks := by
  cases op with
  | begin id => exact Nat.lt_succ_of_lt (hc.stamp_lt key ver hver hcom)
  | acquire tx key' type => exact hc.stamp_lt key ver hver hcom
  | read tx key' => exact hc.stamp_lt key ver hver hcom
  | write tx key' value =>
      rw [Store.versionsAfter] at hver
      split at hver
      · rcases List.mem_cons.1 hver with rfl | hver
        · cases hcom
        · exact hc.stamp_lt key ver hver hcom
      · exact hc.stamp_lt key ver hver hcom
  | commit tx =>
      obtain ⟨old, hold, rfl⟩ := List.mem_map.1 hver
      unfold stamp at hcom ⊢
      split
      · exact Nat.lt_succ_self _
      · next hne =>
          rw [if_neg hne] at hcom
          exact Nat.lt_succ_of_lt (hc.stamp_lt key old hold hcom)
  | abort tx => exact hc.stamp_lt key ver (List.mem_filter.1 hver).1 hcom

theorem clock_step {s t : System} {op : Op} (hc : s.Clock) (h : s.step op = some t) : t.Clock := by
  obtain ⟨hstore, -⟩ := System.step_eq_some h
  obtain ⟨hself, hother⟩ := System.step_history h
  have hticks := Store.step_globalTs hstore
  have hevent := clock_event hc hself
  rw [← hticks] at hevent
  constructor
  · intro i
    by_cases hi : i = op.tx
    · exact hi ▸ hevent.1
    · have hlt := hc.start_lt i
      rw [hother i hi]
      omega
  · intro i ts hts
    by_cases hi : i = op.tx
    · exact hevent.2.1 ts (hi ▸ hts)
    · have hlt := hc.commit_lt i ts (hother i hi ▸ hts)
      omega
  · intro i g hg
    by_cases hi : i = op.tx
    · exact hevent.2.2 g (hi ▸ hg)
    · have hle := hc.grant_le i g (hother i hi ▸ hg)
      omega
  · intro key ver hver hcom
    rw [Store.step_versions hstore key] at hver
    rw [hticks]
    exact clock_versions hc hver hcom

end Mvcc
end Leetcode
