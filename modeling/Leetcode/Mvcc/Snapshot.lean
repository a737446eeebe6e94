import Leetcode.Mvcc.History

/-!
# What `mvcc_read` returns

`mvcc_read` takes the first version it may see, so it is right only if every
version list is ordered: the versions of one transaction together, committed
ones by falling timestamp, and tentative ones, all of one lock holder, in front.

* `System.Legal` — the calling convention: ids are used once, only active
  transactions end, and a write happens under the `WRITE` lock of its key.
* `KeyOk` — one version list against the history: per writer it holds exactly
  the values written and not undone, its flags and timestamps are those of the
  writers, and it is ordered by `Newer`.
* `versioned_init` / `versioned_step` / `versioned_run` — every legal run
  keeps all lists in this form.
* `snapshot_reads` — every read of an active transaction is a snapshot read.
-/

namespace Leetcode
namespace Mvcc

open CLib

/-! ## The calling convention -/

/-- The transaction was granted the `WRITE` lock of the key. -/
def TxHistory.Holds (h : TxHistory) (key : Bytes) : Prop :=
  ∃ g ∈ h.granted, g.key = key ∧ g.type = .WRITE

instance (h : TxHistory) (key : Bytes) : Decidable (h.Holds key) :=
  inferInstanceAs (Decidable (∃ g ∈ h.granted, _))

/-- Each id is begun at most once; commit and abort need an active transaction. -/
def System.Ordered (s : System) : Op → Prop
  | .begin id => (s.history id).status = .unused
  | .commit tx | .abort tx => (s.history tx).status = .active
  | _ => True

/-- Only an active transaction writes, and only what it has locked `WRITE`. -/
def System.Locked (s : System) : Op → Prop
  | .write tx key _ => (s.history tx).status = .active ∧ (s.history tx).Holds key
  | _ => True

/-- The calls of a well-behaved client. -/
def System.Legal (s : System) (op : Op) : Prop :=
  s.Ordered op ∧ s.Locked op

instance (s : System) : ∀ op, Decidable (s.Ordered op)
  | .begin _ | .commit _ | .abort _ => inferInstanceAs (Decidable (_ = _))
  | .acquire _ _ _ | .read _ _ | .write _ _ _ => inferInstanceAs (Decidable True)

instance (s : System) : ∀ op, Decidable (s.Locked op)
  | .write _ _ _ => inferInstanceAs (Decidable (_ ∧ _))
  | .begin _ | .commit _ | .abort _ | .acquire _ _ _ | .read _ _ =>
      inferInstanceAs (Decidable True)

instance (s : System) (op : Op) : Decidable (s.Legal op) :=
  inferInstanceAs (Decidable (_ ∧ _))

/-! ## What a read should return -/

/-- The values written to a key, the latest first. -/
def TxHistory.values (h : TxHistory) (key : Bytes) : List Bytes :=
  (h.writes.filter fun w => w.1 = key).map Prod.snd

/-- The values that are still in the store: an abort undoes all of them. -/
def TxHistory.kept (h : TxHistory) (key : Bytes) : List Bytes :=
  if h.status = .aborted then [] else h.values key

/-- `w` wrote the key and committed at `ts`. -/
def System.Committed (s : System) (key : Bytes) (w : TxId) (ts : Nat) : Prop :=
  (s.history w).status = .committed ts ∧ (s.history w).values key ≠ []

/-- The value of a key at a time: the last write of the latest writer that had
committed by then, if there is one. -/
inductive System.ValueAt (s : System) (key : Bytes) (time : Nat) : Option Bytes → Prop
  | written {w : TxId} {ts : Nat} {value : Bytes} (hw : s.Committed key w ts) (hts : ts ≤ time)
      (hlatest : ∀ w' ts', s.Committed key w' ts' → ts' ≤ time → w' = w ∨ ts' < ts)
      (hvalue : ((s.history w).values key).head? = some value) :
      ValueAt s key time (some value)
  | absent (hnone : ∀ w ts, s.Committed key w ts → time < ts) : ValueAt s key time none

/-- The result of a snapshot read: the own latest write, or else the value at the
start of the transaction. -/
inductive System.SnapshotRead (s : System) (tx : TxId) (key : Bytes) : Option Bytes → Prop
  | own {value : Bytes} (hown : ((s.history tx).values key).head? = some value) :
      SnapshotRead s tx key (some value)
  | snapshot {result : Option Bytes} (hown : (s.history tx).values key = [])
      (hvalue : s.ValueAt key (s.history tx).startTs result) :
      SnapshotRead s tx key result

/-! ## The version lists -/

/-- The order of a version list, newest first. -/
def Newer (a b : Version) : Prop :=
  a.txId = b.txId ∨ (b.committed = true ∧ (a.committed = true → b.commitTs < a.commitTs))

/-- One version list against the history. -/
structure KeyOk (key : Bytes) (vs : List Version) (H : TxId → TxHistory) : Prop where
  own : ∀ i, (vs.filter fun ver => ver.txId = i).map Version.value = (H i).kept key
  stamped : ∀ ver ∈ vs, ver.committed = true → (H ver.txId).status = .committed ver.commitTs
  tentative : ∀ ver ∈ vs, ver.committed = false →
    (H ver.txId).status = .active ∧ (H ver.txId).Holds key
  ordered : vs.Pairwise Newer

/-- The invariant of legal runs. -/
structure System.Versioned (s : System) : Prop where
  keys : ∀ key, KeyOk key (s.store.versions key) s.history
  unused : ∀ i, (s.history i).status = .unused → (s.history i).writes = []

theorem versioned_init : System.init.Versioned where
  keys key := by
    refine ⟨fun i => ?_, ?_, ?_, List.Pairwise.nil⟩
    · rfl
    · intro ver hver
      cases hver
    · intro ver hver
      cases hver
  unused _ _ := rfl

/-- An id without kept values has no version in the list. -/
theorem KeyOk.txId_ne {key : Bytes} {vs : List Version} {H : TxId → TxHistory}
    (hk : KeyOk key vs H) {i : TxId} (hi : (H i).kept key = []) : ∀ ver ∈ vs, ver.txId ≠ i := by
  have hown := hk.own i
  rw [hi, List.map_eq_nil_iff, List.filter_eq_nil_iff] at hown
  simpa using hown

/-- A list stays well formed when the history changes in what it does not say. -/
theorem KeyOk.congr_history {key : Bytes} {vs : List Version} {H H' : TxId → TxHistory}
    (hk : KeyOk key vs H) (hkept : ∀ i, (H' i).kept key = (H i).kept key)
    (hsame : ∀ ver ∈ vs, (H' ver.txId).status = (H ver.txId).status ∧
      ((H ver.txId).Holds key → (H' ver.txId).Holds key)) : KeyOk key vs H' where
  own i := (hk.own i).trans (hkept i).symm
  stamped ver hver hcom := (hsame ver hver).1.trans (hk.stamped ver hver hcom)
  tentative ver hver hcom := by
    obtain ⟨hact, hholds⟩ := hk.tentative ver hver hcom
    exact ⟨(hsame ver hver).1.trans hact, (hsame ver hver).2 hholds⟩
  ordered := hk.ordered

/-- The history of one id changes in what the list does not say. -/
theorem KeyOk.congr_update {key : Bytes} {vs : List Version} {H : TxId → TxHistory}
    (hk : KeyOk key vs H) {tx : TxId} {h' : TxHistory} (hkept : h'.kept key = (H tx).kept key)
    (hsame : ∀ ver ∈ vs, ver.txId = tx →
      h'.status = (H tx).status ∧ ((H tx).Holds key → h'.Holds key)) :
    KeyOk key vs (Function.update H tx h') := by
  refine hk.congr_history (fun i => ?_) fun ver hver => ?_
  · by_cases hi : i = tx
    · subst hi
      rw [Function.update_self, hkept]
    · rw [Function.update_of_ne hi]
  · by_cases hi : ver.txId = tx
    · rw [hi, Function.update_self]
      exact hsame ver hver hi
    · rw [Function.update_of_ne hi]
      exact ⟨rfl, fun hholds => hholds⟩

/-- Two active transactions never hold the `WRITE` lock of one key. -/
theorem holds_unique {s : System} (hs : s.Slots) (hc : s.store.Compatible) {i j : TxId}
    {key : Bytes} (hi : (s.history i).status = .active) (hj : (s.history j).status = .active)
    (hki : (s.history i).Holds key) (hkj : (s.history j).Holds key) : i = j := by
  by_contra hne
  have hai := (hs i).status_iff.2 hi
  have haj := (hs j).status_iff.2 hj
  obtain ⟨g, hg, hgkey, hgtype⟩ := hki
  obtain ⟨g', hg', hgkey', -⟩ := hkj
  have hl : (⟨g.key, g.type, i⟩ : Lock) ∈ (s.store.transactions i).locks := by
    rw [(hs i).locks_eq hai]
    exact List.mem_map.2 ⟨g, hg, rfl⟩
  have hl' : (⟨g'.key, g'.type, j⟩ : Lock) ∈ (s.store.transactions j).locks := by
    rw [(hs j).locks_eq haj]
    exact List.mem_map.2 ⟨g', hg', rfl⟩
  obtain ⟨hread, -⟩ := hc i j hne hai haj _ hl _ hl' (hgkey.trans hgkey'.symm)
  rw [hgtype] at hread
  cases hread

/-! ### One operation on one list -/

/-- A write of the lock holder puts its version in front. -/
theorem keyOk_write {s : System} {key value : Bytes} {tx : TxId} (hs : s.Slots)
    (hc : s.store.Compatible) (hk : KeyOk key (s.store.versions key) s.history)
    (hact : (s.history tx).status = .active) (hholds : (s.history tx).Holds key) :
    KeyOk key (⟨value, tx, false, 0⟩ :: s.store.versions key)
      (Function.update s.history tx
        { s.history tx with writes := (key, value) :: (s.history tx).writes }) := by
  have hstatus : ∀ i, (Function.update s.history tx
      { s.history tx with writes := (key, value) :: (s.history tx).writes } i).status =
        (s.history i).status ∧ ∀ k, (Function.update s.history tx
      { s.history tx with writes := (key, value) :: (s.history tx).writes } i).Holds k ↔
        (s.history i).Holds k := by
    intro i
    by_cases hi : i = tx
    · subst hi
      simp [TxHistory.Holds]
    · simp [hi]
  constructor
  · intro i
    have hown := hk.own i
    by_cases hi : i = tx
    · subst hi
      simp only [TxHistory.kept, TxHistory.values, hact] at hown ⊢
      simp [hown]
    · simp [hi, Ne.symm hi, hown]
  · intro ver hver hcom
    rw [(hstatus _).1]
    rcases List.mem_cons.1 hver with rfl | hver
    · cases hcom
    · exact hk.stamped ver hver hcom
  · intro ver hver hcom
    rw [(hstatus _).1, (hstatus _).2]
    rcases List.mem_cons.1 hver with rfl | hver
    · exact ⟨hact, hholds⟩
    · exact hk.tentative ver hver hcom
  -- Behind the new version are committed ones and those of the same transaction.
  · refine List.pairwise_cons.2 ⟨fun ver hver => ?_, hk.ordered⟩
    by_cases hcom : ver.committed = true
    · exact Or.inr ⟨hcom, fun h => by cases h⟩
    · obtain ⟨hact', hholds'⟩ := hk.tentative ver hver (Bool.eq_false_iff.2 hcom)
      exact Or.inl (holds_unique hs hc hact hact' hholds hholds')

/-- A commit stamps the tentative versions of its transaction with a timestamp
above all others. -/
theorem keyOk_commit {s : System} {key : Bytes} {tx : TxId} (hc : s.Clock)
    (hk : KeyOk key (s.store.versions key) s.history) (hact : (s.history tx).status = .active) :
    KeyOk key ((s.store.versions key).map (stamp tx s.store.globalTs))
      (Function.update s.history tx
        { s.history tx with status := .committed s.store.globalTs }) := by
  -- An active transaction has no committed version.
  have hne : ∀ ver ∈ s.store.versions key, ver.committed = true → ver.txId ≠ tx := by
    intro ver hver hcom htx
    have hstamped := hk.stamped ver hver hcom
    rw [htx, hact] at hstamped
    cases hstamped
  constructor
  · intro i
    have hmap : ((s.store.versions key).map (stamp tx s.store.globalTs)).filter
        (fun ver => ver.txId = i) = ((s.store.versions key).filter fun ver => ver.txId = i).map
          (stamp tx s.store.globalTs) := by
      rw [List.filter_map]
      congr 2
      funext ver
      simp [stamp_txId]
    rw [hmap, List.map_map]
    have hown := hk.own i
    by_cases hi : i = tx
    · subst hi
      simp only [TxHistory.kept, TxHistory.values, hact] at hown ⊢
      simpa [Function.comp_def, stamp_value] using hown
    · simpa [Function.comp_def, stamp_value, hi] using hown
  · intro ver hver hcom
    obtain ⟨old, hold, rfl⟩ := List.mem_map.1 hver
    rw [stamp_txId]
    by_cases htx : old.txId = tx
    · simp [stamp, htx]
    · rw [stamp, if_neg htx] at hcom ⊢
      rw [Function.update_of_ne htx]
      exact hk.stamped old hold hcom
  · intro ver hver hcom
    obtain ⟨old, hold, rfl⟩ := List.mem_map.1 hver
    rw [stamp_txId]
    by_cases htx : old.txId = tx
    · simp [stamp, htx] at hcom
    · rw [stamp, if_neg htx] at hcom
      rw [Function.update_of_ne htx]
      exact hk.tentative old hold hcom
  · rw [List.pairwise_map]
    refine hk.ordered.imp_of_mem fun {a b} ha hb hab => ?_
    rw [Newer, stamp_txId, stamp_txId]
    rcases hab with hab | ⟨hb', hlt⟩
    · exact Or.inl hab
    · -- `b` is committed, so it is not a version of `tx` and keeps its stamp.
      have hbtx := hne b hb hb'
      refine Or.inr ?_
      rw [show stamp tx s.store.globalTs b = b by rw [stamp, if_neg hbtx]]
      refine ⟨hb', fun ha' => ?_⟩
      by_cases hatx : a.txId = tx
      · simpa [stamp, hatx] using hc.stamp_lt key b hb hb'
      · rw [stamp, if_neg hatx] at ha' ⊢
        exact hlt ha'

/-- An abort removes the versions of its transaction. -/
theorem keyOk_abort {s : System} {key : Bytes} {tx : TxId}
    (hk : KeyOk key (s.store.versions key) s.history) :
    KeyOk key ((s.store.versions key).filter fun ver => ver.txId ≠ tx)
      (Function.update s.history tx { s.history tx with status := .aborted }) := by
  constructor
  · intro i
    rw [List.filter_filter]
    by_cases hi : i = tx
    · subst hi
      simp [TxHistory.kept]
    · have hfilter : (s.store.versions key).filter
          (fun ver => decide (ver.txId = i) && decide (ver.txId ≠ tx)) =
            (s.store.versions key).filter fun ver => ver.txId = i := by
        refine List.filter_congr fun ver _ => ?_
        by_cases hver : ver.txId = i
        · simp [hver, hi]
        · simp [hver]
      rw [hfilter, Function.update_of_ne hi]
      exact hk.own i
  · intro ver hver hcom
    obtain ⟨hver, htx⟩ := List.mem_filter.1 hver
    rw [Function.update_of_ne (by simpa using htx)]
    exact hk.stamped ver hver hcom
  · intro ver hver hcom
    obtain ⟨hver, htx⟩ := List.mem_filter.1 hver
    rw [Function.update_of_ne (by simpa using htx)]
    exact hk.tentative ver hver hcom
  · exact hk.ordered.filter _

/-! ### One step, and a run -/

/-- The history of an active id after a write, a commit or an abort. -/
theorem keyOk_step {s t : System} {op : Op} (hs : s.Slots) (hcomp : s.store.Compatible)
    (hc : s.Clock) (hv : s.Versioned) (hlegal : s.Legal op) (h : s.step op = some t)
    (key : Bytes) : KeyOk key (t.store.versions key) t.history := by
  obtain ⟨hstore, hhist⟩ := System.step_eq_some h
  rw [Store.step_versions hstore, hhist]
  have hk := hv.keys key
  cases op with
  | begin id =>
      -- A new id has written nothing, so no list knows it.
      have hunused : (s.history id).status = .unused := hlegal.1
      have hkept : (s.history id).kept key = [] := by
        simp [TxHistory.kept, TxHistory.values, hunused, hv.unused id hunused]
      refine hk.congr_update ?_ fun ver hver hid => absurd hid (hk.txId_ne hkept ver hver)
      rw [Op.tx, hkept]
      simp [System.event, TxHistory.kept, TxHistory.values]
  | acquire tx key' type =>
      by_cases hgrant : (acquireLock s.store tx key' type).1 = true
      · rw [System.event_granted hgrant]
        refine hk.congr_update rfl fun ver _ _ => ⟨rfl, ?_⟩
        rintro ⟨g, hg, hgk⟩
        exact ⟨g, List.mem_cons_of_mem _ hg, hgk⟩
      · rw [System.event_refused hgrant]
        exact hk.congr_update rfl fun ver _ _ => ⟨rfl, fun hholds => hholds⟩
  | read tx key' => simpa [System.event, Op.tx, Store.versionsAfter] using hk
  | write tx key' value =>
      obtain ⟨hact, hholds⟩ : (s.history tx).status = .active ∧ (s.history tx).Holds key' :=
        hlegal.2
      have hid := (hs tx).id_eq ((hs tx).status_iff.2 hact)
      rw [Store.versionsAfter, hid]
      split
      · next hkey =>
          subst hkey
          exact keyOk_write hs hcomp hk hact hholds
      · next hkey =>
          -- The list is untouched, and so is what the history says about this key.
          have hvalues : (s.event (s.history tx) (.write tx key' value)).values key =
              (s.history tx).values key := by
            simp [System.event, TxHistory.values, Ne.symm hkey]
          refine hk.congr_update ?_ fun ver _ _ => ⟨rfl, fun hholds => hholds⟩
          rw [Op.tx, TxHistory.kept, hvalues]
          rfl
  | commit tx =>
      have hact : (s.history tx).status = .active := hlegal.1
      have hid := (hs tx).id_eq ((hs tx).status_iff.2 hact)
      rw [Store.versionsAfter, hid]
      exact keyOk_commit hc hk hact
  | abort tx =>
      have hact : (s.history tx).status = .active := hlegal.1
      have hid := (hs tx).id_eq ((hs tx).status_iff.2 hact)
      rw [Store.versionsAfter, hid]
      exact keyOk_abort hk

/-- Only a begun id writes, so an unused one never has. -/
theorem unused_step {s t : System} {op : Op} (hv : s.Versioned) (hlegal : s.Legal op)
    (h : s.step op = some t) (i : TxId) (hi : (t.history i).status = .unused) :
    (t.history i).writes = [] := by
  obtain ⟨-, hhist⟩ := System.step_eq_some h
  rw [hhist] at hi ⊢
  by_cases htx : i = op.tx
  · subst htx
    rw [Function.update_self] at hi ⊢
    cases op with
    | begin id => cases hi
    | acquire tx key type =>
        by_cases hgrant : (acquireLock s.store tx key type).1 = true
        · rw [System.event_granted hgrant] at hi ⊢
          exact hv.unused tx hi
        · rw [System.event_refused hgrant] at hi ⊢
          exact hv.unused tx hi
    | read tx key => exact hv.unused tx hi
    | write tx key value =>
        have hact : (s.history tx).status = .active := hlegal.2.1
        have hun : (s.history tx).status = .unused := hi
        rw [hact] at hun
        cases hun
    | commit tx => cases hi
    | abort tx => cases hi
  · rw [Function.update_of_ne htx] at hi ⊢
    exact hv.unused i hi

/-- Everything a legal run preserves. -/
structure System.Inv (s : System) : Prop where
  slots : s.Slots
  compatible : s.store.Compatible
  clock : s.Clock
  versioned : s.Versioned

theorem inv_init : System.init.Inv :=
  ⟨slots_init, compatible_init, clock_init, versioned_init⟩

theorem inv_step {s t : System} {op : Op} (hi : s.Inv) (hlegal : s.Legal op)
    (h : s.step op = some t) : t.Inv where
  slots := slots_step hi.slots h
  compatible := compatible_step hi.slots hi.compatible h
  clock := clock_step hi.clock h
  versioned := ⟨keyOk_step hi.slots hi.compatible hi.clock hi.versioned hlegal h,
    unused_step hi.versioned hlegal h⟩

theorem inv_run {ops : List Op} {s : System} (h : Run System.step System.Legal System.init ops s) :
    s.Inv :=
  h.invariant inv_init fun _ _ _ hi hlegal hstep => inv_step hi hlegal hstep

/-! ## Reading -/

/-- The versions the loop of `mvcc_read` stops at. -/
def visible (tx : Transaction) (ver : Version) : Bool :=
  if ver.committed then ver.commitTs ≤ tx.startTs else ver.txId = tx.id

theorem latest_eq_find? (tx : Transaction) (vs : List Version) :
    latest tx vs = vs.find? (visible tx) := by
  induction vs with
  | nil => rfl
  | cons ver next ih =>
      unfold latest
      rw [List.find?_cons, ih]
      cases hcom : ver.committed
      · by_cases htx : ver.txId = tx.id <;> simp [visible, hcom, htx]
      · by_cases hts : ver.commitTs ≤ tx.startTs <;> simp [visible, hcom, hts]

/-- The list of a key that an active transaction has written starts with its
latest version. -/
theorem KeyOk.eq_cons_of_written {key : Bytes} {vs : List Version} {H : TxId → TxHistory}
    (hk : KeyOk key vs H) {i : TxId} (hact : (H i).status = .active) {value : Bytes}
    (hvalue : ((H i).values key).head? = some value) :
    ∃ ver next, vs = ver :: next ∧ ver.txId = i ∧ ver.committed = false ∧ ver.value = value := by
  have hown := hk.own i
  rw [TxHistory.kept, if_neg (by rw [hact]; simp)] at hown
  have htentative : ∀ ver ∈ vs, ver.txId = i → ver.committed = false := by
    intro ver hver htx
    apply Bool.eq_false_iff.2
    intro hcom
    have hstamped := hk.stamped ver hver hcom
    rw [htx, hact] at hstamped
    cases hstamped
  cases vs with
  | nil =>
      rw [← hown] at hvalue
      cases hvalue
  | cons ver next =>
      -- Any own version is tentative, so what stands before it is own as well.
      have hhead : ver.txId = i := by
        by_contra hne
        rw [← hown, List.filter_cons_of_neg (by simpa using hne)] at hvalue
        obtain ⟨own, hmem⟩ : ∃ own, own ∈ next.filter fun ver => ver.txId = i := by
          apply List.exists_mem_of_ne_nil
          rintro hnil
          rw [hnil] at hvalue
          cases hvalue
        obtain ⟨hown', htx⟩ := List.mem_filter.1 hmem
        have htx' : own.txId = i := by simpa using htx
        rcases List.rel_of_pairwise_cons hk.ordered hown' with heq | ⟨hcom, -⟩
        · exact hne (heq.trans htx')
        · rw [htentative own (List.mem_cons_of_mem _ hown') htx'] at hcom
          cases hcom
      rw [← hown, List.filter_cons_of_pos (by simpa using hhead)] at hvalue
      exact ⟨ver, next, rfl, hhead, htentative ver List.mem_cons_self hhead, by simpa using hvalue⟩

/-- A transaction that has written the key reads its latest value. -/
theorem latest_own {key : Bytes} {vs : List Version} {H : TxId → TxHistory} {t : Transaction}
    (hk : KeyOk key vs H) (hact : (H t.id).status = .active) {value : Bytes}
    (hvalue : ((H t.id).values key).head? = some value) :
    (latest t vs).map Version.value = some value := by
  obtain ⟨ver, next, rfl, htx, hcom, rfl⟩ := hk.eq_cons_of_written hact hvalue
  simp [latest, hcom, htx]

/-- A committed writer has its versions in the list, stamped with its timestamp. -/
theorem KeyOk.exists_version {s : System} {key : Bytes} {vs : List Version}
    (hk : KeyOk key vs s.history) {w : TxId} {ts : Nat} (hw : s.Committed key w ts) :
    ∃ ver ∈ vs, ver.txId = w ∧ ver.committed = true ∧ ver.commitTs = ts := by
  have hown := hk.own w
  rw [TxHistory.kept, if_neg (by rw [hw.1]; simp)] at hown
  obtain ⟨ver, hver⟩ : ∃ ver, ver ∈ vs.filter fun ver => ver.txId = w := by
    apply List.exists_mem_of_ne_nil
    intro hnil
    rw [hnil] at hown
    exact hw.2 hown.symm
  obtain ⟨hmem, htx⟩ := List.mem_filter.1 hver
  have htx' : ver.txId = w := by simpa using htx
  have hcom : ver.committed = true := by
    by_contra hcom
    have htent := (hk.tentative ver hmem (Bool.eq_false_iff.2 hcom)).1
    rw [htx', hw.1] at htent
    cases htent
  have hstamped := hk.stamped ver hmem hcom
  rw [htx', hw.1] at hstamped
  cases hstamped
  exact ⟨ver, hmem, htx', hcom, rfl⟩

/-- The value of the first version of a writer is the last value it wrote. -/
theorem KeyOk.head_value {s : System} {key : Bytes} {pre post : List Version} {ver : Version}
    (hk : KeyOk key (pre ++ ver :: post) s.history)
    (hpre : ∀ b ∈ pre, b.txId ≠ ver.txId) (hab : (s.history ver.txId).status ≠ .aborted) :
    ((s.history ver.txId).values key).head? = some ver.value := by
  have hown := hk.own ver.txId
  have hnil : pre.filter (fun b => b.txId = ver.txId) = [] := by
    rw [List.filter_eq_nil_iff]
    simpa using hpre
  rw [TxHistory.kept, if_neg hab, List.filter_append, hnil, List.nil_append,
    List.filter_cons_of_pos (by simp)] at hown
  rw [← hown]
  rfl

/-- The first committed version up to a time carries the value at that time. -/
theorem KeyOk.valueAt_find? {s : System} {key : Bytes} {vs : List Version}
    (hk : KeyOk key vs s.history) {time : Nat} {seen : Version → Bool}
    (hseen : ∀ ver ∈ vs, seen ver = true ↔ ver.committed = true ∧ ver.commitTs ≤ time) :
    s.ValueAt key time ((vs.find? seen).map Version.value) := by
  cases hfind : vs.find? seen with
  | none =>
      rw [List.find?_eq_none] at hfind
      refine .absent fun w ts hw => ?_
      obtain ⟨ver, hver, -, hcom, rfl⟩ := hk.exists_version hw
      by_contra hle
      exact hfind ver hver ((hseen ver hver).2 ⟨hcom, Nat.le_of_not_lt hle⟩)
  | some ver =>
      obtain ⟨hver, pre, post, rfl, hpre⟩ := List.find?_eq_some_iff_append.1 hfind
      have hmem : ver ∈ pre ++ ver :: post := by simp
      obtain ⟨hcom, hle⟩ := (hseen ver hmem).1 hver
      have hstatus := hk.stamped ver hmem hcom
      have hunseen : ∀ b ∈ pre, b.committed = true → time < b.commitTs := by
        intro b hb hbcom
        have hnot := (hseen b (List.mem_append_left _ hb)).not.1 (by simpa using hpre b hb)
        exact Nat.lt_of_not_le fun hle => hnot ⟨hbcom, hle⟩
      -- A version before `ver` by the same writer would have been taken first.
      have hfirst : ∀ b ∈ pre, b.txId ≠ ver.txId := by
        intro b hb hbtx
        have hbmem : b ∈ pre ++ ver :: post := List.mem_append_left _ hb
        cases hbcom : b.committed with
        | false =>
            have htent := (hk.tentative b hbmem hbcom).1
            rw [hbtx, hstatus] at htent
            cases htent
        | true =>
            have hstamped := hk.stamped b hbmem hbcom
            rw [hbtx, hstatus] at hstamped
            have hsame : ver.commitTs = b.commitTs := Status.committed.inj hstamped
            exact absurd (hsame ▸ hle) (Nat.not_le_of_lt (hunseen b hb hbcom))
      have hvalue := hk.head_value hfirst (by rw [hstatus]; simp)
      refine .written ⟨hstatus, ?_⟩ hle (fun w' ts' hw' hle' => ?_) hvalue
      · intro hnil
        rw [hnil] at hvalue
        cases hvalue
      · obtain ⟨b, hb, rfl, hbcom, rfl⟩ := hk.exists_version hw'
        rcases List.mem_append.1 hb with hb | hb
        · exact absurd hle' (Nat.not_le_of_lt (hunseen b hb hbcom))
        · rcases List.mem_cons.1 hb with rfl | hb
          · exact Or.inl rfl
          · have hord := List.rel_of_pairwise_cons (List.pairwise_append.1 hk.ordered).2.1 hb
            rcases hord with heq | ⟨-, hlt⟩
            · exact Or.inl heq.symm
            · exact Or.inr (hlt hcom)

/-- A transaction that has not written the key reads the value at its start. -/
theorem latest_snapshot {s : System} {key : Bytes} {vs : List Version} {tx : TxId}
    {t : Transaction} (hk : KeyOk key vs s.history) (hid : t.id = tx)
    (hown : (s.history tx).values key = []) :
    s.ValueAt key t.startTs ((latest t vs).map Version.value) := by
  have hforeign : ∀ ver ∈ vs, ver.txId ≠ tx :=
    hk.txId_ne (by rw [TxHistory.kept, hown, ite_self])
  rw [latest_eq_find?]
  apply hk.valueAt_find?
  intro ver hver
  unfold visible
  rw [hid]
  cases hcom : ver.committed
  · simpa using hforeign ver hver
  · simp

/-- In every state of a legal run, every `mvcc_read` of an active transaction
returns its own latest write, or else the latest value committed by its
snapshot timestamp, or else nothing. -/
theorem snapshot_reads {ops : List Op} {s : System}
    (h : Run System.step System.Legal System.init ops s) {tx : TxId}
    (hact : (s.history tx).status = .active) (key : Bytes) :
    s.SnapshotRead tx key (mvccRead s.store tx key) := by
  have hinv := inv_run h
  have hk := hinv.versioned.keys key
  have hactive := (hinv.slots tx).status_iff.2 hact
  have hid := (hinv.slots tx).id_eq hactive
  unfold mvccRead
  cases hvalues : (s.history tx).values key with
  | nil =>
      refine .snapshot hvalues ?_
      rw [← (hinv.slots tx).startTs_eq hactive]
      exact latest_snapshot hk hid hvalues
  | cons value older =>
      have hhead : ((s.history tx).values key).head? = some value := by rw [hvalues]; rfl
      rw [latest_own hk (by rw [hid]; exact hact) (by rw [hid]; exact hhead)]
      exact .own hhead

/-- Transaction 3 begins between the commits of 1 and 2, and reads what 1 wrote. -/
theorem snapshot_reads_between :
    ∃ s, Run System.step System.Legal System.init
        [.begin 1, .acquire 1 (ascii "x") .WRITE, .write 1 (ascii "x") (ascii "100"), .commit 1,
          .begin 2, .begin 3, .acquire 2 (ascii "x") .WRITE,
          .write 2 (ascii "x") (ascii "200"), .commit 2] s ∧
      mvccRead s.store 3 (ascii "x") = some (ascii "100") ∧
      s.SnapshotRead 3 (ascii "x") (mvccRead s.store 3 (ascii "x")) := by
  refine ⟨_, Run.of_exec (t := Option.get _ (by decide)) (Option.some_get _).symm, by decide, ?_⟩
  apply snapshot_reads
  · exact Run.of_exec (Option.some_get _).symm
  · decide

end Mvcc
end Leetcode
