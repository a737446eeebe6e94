import Leetcode.Mvcc.Detect
import Leetcode.Mvcc.Reuse

/-!
# The recorded graph and the real waits

`acquire_lock` records an edge for the first conflict it meets and nothing ever
removes one.  So the graph that `detect_deadlock` searches can differ from the
graph of current waits in both directions: an edge outlives its wait, and a
wait on a further holder has no edge.

* `System.KeepsEdges` — no step makes an edge to an active transaction stale;
  then every cycle found is a circular wait (`detect_sound`).
* `System.RecordsWaits` — no step leaves a wait without its edge; then every
  circular wait is found (`detect_complete`).
-/

namespace Leetcode
namespace Mvcc

open CLib Relation

/-! ## Circular waits -/

/-- The transaction has a lock in the way of the request. -/
def Store.Blocks (s : Store) (v : TxId) (key : Bytes) (type : LockType) : Prop :=
  ∃ l ∈ (s.transactions v).locks, l.key = key ∧ (l.type = .WRITE ∨ type = .WRITE)

instance (s : Store) (v : TxId) (key : Bytes) (type : LockType) : Decidable (s.Blocks v key type) :=
  inferInstanceAs (Decidable (∃ l ∈ (s.transactions v).locks, _))

/-- The latest request of `u` was refused, and a lock now held by `v` is in its way. -/
def System.WaitsFor (s : System) (u v : TxId) : Prop :=
  u ≠ v ∧ (s.store.transactions u).active = true ∧ (s.store.transactions v).active = true ∧
    ∃ r ∈ (s.history u).refused, s.store.Blocks v r.1 r.2

instance (s : System) (u v : TxId) : Decidable (s.WaitsFor u v) :=
  inferInstanceAs (Decidable (_ ∧ _ ∧ _ ∧ _))

/-- A cycle of distinct active transactions, each waiting for the next. -/
def System.CircularWait (s : System) : Prop :=
  ∃ c : Cycle TxId, c ≠ Cycle.nil ∧ c.Nodup ∧ c.Chain s.WaitsFor

/-- Waits between other transactions are not touched by a step. -/
theorem waitsFor_of_ne {s t : System} {op : Op} (h : s.step op = some t) {u v : TxId}
    (hu : u ≠ op.tx) (hv : v ≠ op.tx) : t.WaitsFor u v ↔ s.WaitsFor u v := by
  obtain ⟨hstore, -⟩ := System.step_eq_some h
  obtain ⟨-, hother⟩ := System.step_history h
  unfold System.WaitsFor Store.Blocks
  rw [Store.step_transactions hstore, Function.update_of_ne hu, Function.update_of_ne hv,
    hother u hu]

/-- The outcome of a request, as `acquire_lock` computes it. -/
theorem acquireLock_granted_iff {s : Store} {tx : TxId} {key : Bytes} {type : LockType} :
    (acquireLock s tx key type).1 = true ↔ firstConflict s tx key type = none := by
  unfold acquireLock
  cases firstConflict s tx key type <;> simp

/-- The first conflict is a lock of another active transaction. -/
theorem firstConflict_blocks {s : System} (hs : s.Slots) {tx : TxId} {key : Bytes}
    {type : LockType} {l : Lock} (h : firstConflict s.store tx key type = some l) :
    l.txId ≠ (s.store.transactions tx).id ∧ (s.store.transactions l.txId).active = true ∧
      s.store.Blocks l.txId key type := by
  obtain ⟨i, hact, hl, hkey, hid, htype⟩ := firstConflict_eq_some h
  obtain ⟨g, -, hg⟩ : ∃ g ∈ (s.history i).granted, (⟨g.key, g.type, i⟩ : Lock) = l := by
    simpa [(hs i).locks_eq hact] using hl
  have hi : l.txId = i := by rw [← hg]
  rw [hi] at hid ⊢
  exact ⟨hid, hact, l, hl, hkey, htype⟩

/-! ## No false deadlock -/

/-- The step makes no edge to an active transaction stale: a slot is begun only
when no edge leads to it; a request is made only while every active transaction
with an edge from the caller blocks it, and is refused only to active callers;
a transaction ends only when its edges lead to ended ones. -/
def System.KeepsEdges (s : System) : Op → Prop
  | .begin id => ∀ v, s.store.waitFor v id = false
  | .acquire tx key type =>
      (∀ u, s.store.waitFor tx u = true → (s.store.transactions u).active = true →
        s.store.Blocks u key type) ∧
      ((acquireLock s.store tx key type).1 = false → (s.store.transactions tx).active = true)
  | .commit tx | .abort tx =>
      ∀ u, s.store.waitFor tx u = true → (s.store.transactions u).active = false
  | .read _ _ | .write _ _ _ => True

instance (s : System) : ∀ op, Decidable (s.KeepsEdges op)
  | .begin _ => inferInstanceAs (Decidable (∀ _, _))
  | .acquire _ _ _ => inferInstanceAs (Decidable (_ ∧ _))
  | .commit _ | .abort _ => inferInstanceAs (Decidable (∀ _, _))
  | .read _ _ | .write _ _ _ => inferInstanceAs (Decidable True)

/-- An edge of the recorded graph. -/
def Store.Recorded (s : Store) (u v : TxId) : Prop :=
  s.waitFor u v = true

theorem recorded_step {s t : Store} {op : Op} (h : s.step op = some t) (u v : TxId) :
    t.Recorded u v ↔ s.Recorded u v ∨
      ∃ tx key type l, op = .acquire tx key type ∧ firstConflict s tx key type = some l ∧
        u = (s.transactions tx).id ∧ v = l.txId :=
  Store.step_waitFor h u v

/-- An edge to an active transaction is a current wait, and from an ended
transaction no path of edges goes on for ever. -/
structure System.EdgesOk (s : System) : Prop where
  waits : ∀ u v, s.store.Recorded u v → (s.store.transactions v).active = true → s.WaitsFor u v
  ended : ∀ u, (s.store.transactions u).active = false →
    Acc (Function.swap s.store.Recorded) u

theorem edgesOk_init : System.init.EdgesOk where
  waits u v h := by cases h
  ended u _ := ⟨u, fun v h => by cases h⟩

/-- From ended transactions edges lead to ended ones. -/
theorem System.EdgesOk.target {s : System} (he : s.EdgesOk) {u v : TxId}
    (hu : (s.store.transactions u).active = false) (h : s.store.Recorded u v) :
    (s.store.transactions v).active = false := by
  apply Bool.eq_false_iff.2
  intro hv
  rw [(he.waits u v h hv).2.1] at hu
  cases hu

/-- The ended transactions keep their paths when edges are added elsewhere. -/
theorem acc_ended {s : System} {R : TxId → TxId → Prop} (he : s.EdgesOk)
    (hR : ∀ u v, (s.store.transactions u).active = false → R u v → s.store.Recorded u v)
    {u : TxId} (hu : (s.store.transactions u).active = false) : Acc (Function.swap R) u := by
  have hacc := he.ended u hu
  induction hacc with
  | intro u _ ih =>
      constructor
      intro v hv
      have hrec := hR u v hu hv
      exact ih v hrec (he.target hu hrec)

/-- Where no conflict is met, no other active transaction blocks the request. -/
theorem not_blocks_of_granted {s : System} (hs : s.Slots) {tx v : TxId} {key : Bytes}
    {type : LockType} (h : firstConflict s.store tx key type = none) (hv : v ≠ tx)
    (htx : (s.store.transactions tx).active = true)
    (hact : (s.store.transactions v).active = true) : ¬s.store.Blocks v key type := by
  rintro ⟨l, hl, hkey, htype⟩
  obtain ⟨g, -, hg⟩ : ∃ g ∈ (s.history v).granted, (⟨g.key, g.type, v⟩ : Lock) = l := by
    simpa [(hs v).locks_eq hact] using hl
  have hlv : l.txId = v := by rw [← hg]
  obtain ⟨hread, hread'⟩ := firstConflict_eq_none.1 h v hact l hl hkey
    (by rw [hlv, (hs tx).id_eq htx]; exact hv)
  rcases htype with htype | htype
  · rw [hread] at htype
    cases htype
  · rw [hread'] at htype
    cases htype

/-- A step that leaves its row and the latest request alone leaves all waits. -/
theorem waitsFor_idle {s t : System} {op : Op} (h : s.step op = some t)
    (hrow : s.store.row op = s.store.transactions op.tx)
    (hrefused : (s.event (s.history op.tx) op).refused = (s.history op.tx).refused) :
    t.store.transactions = s.store.transactions ∧
      ∀ u v, t.WaitsFor u v ↔ s.WaitsFor u v := by
  obtain ⟨hstore, -⟩ := System.step_eq_some h
  obtain ⟨hself, hother⟩ := System.step_history h
  have hrows : t.store.transactions = s.store.transactions := by
    rw [Store.step_transactions hstore, hrow]
    exact Function.update_eq_self _ _
  refine ⟨hrows, fun u v => ?_⟩
  have hsame : (t.history u).refused = (s.history u).refused := by
    by_cases hu : u = op.tx
    · rw [hu, hself]
      exact hrefused
    · rw [hother u hu]
  unfold System.WaitsFor Store.Blocks
  rw [hrows, hsame]

/-- A transaction that has a lock keeps it through an `acquire_lock`. -/
theorem blocks_acquire {s t : Store} {tx : TxId} {key : Bytes} {type : LockType}
    (h : s.step (.acquire tx key type) = some t) {v : TxId} {key' : Bytes} {type' : LockType}
    (hb : s.Blocks v key' type') : t.Blocks v key' type' := by
  obtain ⟨l, hl, hl'⟩ := hb
  refine ⟨l, ?_, hl'⟩
  rw [Store.step_transactions h, Op.tx]
  by_cases hv : v = tx
  · subst hv
    rw [Function.update_self, Store.row]
    split
    · exact List.mem_cons_of_mem _ hl
    · exact hl
  · rw [Function.update_of_ne hv]
    exact hl

theorem active_acquire {s t : Store} {tx : TxId} {key : Bytes} {type : LockType}
    (h : s.step (.acquire tx key type) = some t) (v : TxId) :
    (t.transactions v).active = (s.transactions v).active := by
  rw [Store.step_transactions h, Op.tx]
  by_cases hv : v = tx
  · subst hv
    rw [Function.update_self, Store.row]
    split <;> rfl
  · rw [Function.update_of_ne hv]

/-- The waits of the caller after a refused request are on those who block it. -/
theorem waitsFor_refused {s t : System} {tx : TxId} {key : Bytes} {type : LockType} {v : TxId}
    (h : s.step (.acquire tx key type) = some t)
    (hrefused : ¬(acquireLock s.store tx key type).1 = true) (hne : tx ≠ v)
    (htx : (s.store.transactions tx).active = true)
    (hv : (s.store.transactions v).active = true) (hb : s.store.Blocks v key type) :
    t.WaitsFor tx v := by
  obtain ⟨hstore, -⟩ := System.step_eq_some h
  obtain ⟨hself, -⟩ := System.step_history h
  refine ⟨hne, ?_, ?_, (key, type), ?_, blocks_acquire hstore hb⟩
  · rw [active_acquire hstore]
    exact htx
  · rw [active_acquire hstore]
    exact hv
  · rw [Op.tx, System.event_refused hrefused] at hself
    rw [hself]
    rfl

/-- The waits of others outlast an `acquire_lock`. -/
theorem waitsFor_acquire {s t : System} {tx : TxId} {key : Bytes} {type : LockType} {u v : TxId}
    (h : s.step (.acquire tx key type) = some t) (hu : u ≠ tx) (hw : s.WaitsFor u v) :
    t.WaitsFor u v := by
  obtain ⟨hstore, -⟩ := System.step_eq_some h
  obtain ⟨-, hother⟩ := System.step_history h
  obtain ⟨hne, hu', hv', r, hr, hb⟩ := hw
  refine ⟨hne, ?_, ?_, r, ?_, blocks_acquire hstore hb⟩
  · rw [active_acquire hstore]
    exact hu'
  · rw [active_acquire hstore]
    exact hv'
  · rw [hother u hu]
    exact hr

/-- The waits of an ended transaction go, those between the others stay. -/
theorem waitsFor_end {s t : System} {op : Op} (he : s.EdgesOk) (h : s.step op = some t)
    (hrow : (s.store.row op).active = false)
    (hkeep : ∀ u, s.store.Recorded op.tx u → (s.store.transactions u).active = false)
    {u v : TxId} (hrec : s.store.Recorded u v) (hv : (t.store.transactions v).active = true) :
    t.WaitsFor u v := by
  obtain ⟨hstore, -⟩ := System.step_eq_some h
  rw [Store.step_transactions hstore] at hv
  have hvtx : v ≠ op.tx := by
    rintro rfl
    rw [Function.update_self, hrow] at hv
    cases hv
  rw [Function.update_of_ne hvtx] at hv
  have hutx : u ≠ op.tx := by
    rintro rfl
    rw [hkeep v hrec] at hv
    cases hv
  exact (waitsFor_of_ne h hutx hvtx).2 (he.waits u v hrec hv)

/-- The edges to active transactions after a step. -/
theorem waits_step {s t : System} {op : Op} (hs : s.Slots) (he : s.EdgesOk)
    (hreuse : s.Reuses op) (hkeep : s.KeepsEdges op) (h : s.step op = some t) (u v : TxId)
    (hrec : t.store.Recorded u v) (hv : (t.store.transactions v).active = true) :
    t.WaitsFor u v := by
  obtain ⟨hstore, -⟩ := System.step_eq_some h
  have hedge := (recorded_step hstore u v).1 hrec
  cases op with
  | begin id =>
      have hold : s.store.Recorded u v := by simpa using hedge
      -- No edge leads to the new transaction, and its own old edges lead to ended ones.
      have hvid : v ≠ id := by
        rintro rfl
        have hnone := hkeep u
        rw [show s.store.waitFor u v = true from hold] at hnone
        cases hnone
      rw [Store.step_transactions hstore, Op.tx, Function.update_of_ne hvid] at hv
      have hw := he.waits u v hold hv
      have huid : u ≠ id := by
        rintro rfl
        exact hreuse ((hs u).status_iff.1 hw.2.1)
      exact (waitsFor_of_ne h huid hvid).2 hw
  | acquire tx key type =>
      rw [active_acquire hstore] at hv
      rcases hedge with hold | ⟨tx, key, type, l, hop, hl, rfl, rfl⟩
      · have hw := he.waits u v hold hv
        -- An old edge: for the caller it is a wait again, now for the new request.
        by_cases hu : u = tx
        · subst hu
          have hb := hkeep.1 v hold hv
          apply waitsFor_refused h _ hw.1 hw.2.1 hv hb
          intro hgrant
          exact not_blocks_of_granted hs (acquireLock_granted_iff.1 hgrant) (Ne.symm hw.1)
            hw.2.1 hv hb
        · exact waitsFor_acquire h hu hw
      -- The new edge leads to the owner of the first conflicting lock.
      · cases hop
        have hrefused : ¬(acquireLock s.store tx key type).1 = true := by
          rw [acquireLock_granted_iff, hl]
          simp
        have htx := hkeep.2 (Bool.eq_false_iff.2 hrefused)
        obtain ⟨hne, hact, hb⟩ := firstConflict_blocks hs hl
        rw [(hs tx).id_eq htx] at hne ⊢
        exact waitsFor_refused h hrefused (Ne.symm hne) htx hact hb
  | read tx key =>
      obtain ⟨hrows, hwaits⟩ := waitsFor_idle h rfl rfl
      rw [hrows] at hv
      exact (hwaits u v).2 (he.waits u v (by simpa using hedge) hv)
  | write tx key value =>
      obtain ⟨hrows, hwaits⟩ := waitsFor_idle h rfl rfl
      rw [hrows] at hv
      exact (hwaits u v).2 (he.waits u v (by simpa using hedge) hv)
  | commit tx => exact waitsFor_end he h rfl hkeep (by simpa using hedge) hv
  | abort tx => exact waitsFor_end he h rfl hkeep (by simpa using hedge) hv

/-- An edge added by a step starts at an active transaction. -/
theorem recorded_ended {s t : System} {op : Op} (hs : s.Slots) (hkeep : s.KeepsEdges op)
    (h : s.step op = some t) (u v : TxId) (hu : (s.store.transactions u).active = false)
    (hrec : t.store.Recorded u v) : s.store.Recorded u v := by
  obtain ⟨hstore, -⟩ := System.step_eq_some h
  rcases (recorded_step hstore u v).1 hrec with hold | ⟨tx, key, type, l, rfl, hl, rfl, rfl⟩
  · exact hold
  · have htx := hkeep.2 (Bool.eq_false_iff.2 (by rw [Ne, acquireLock_granted_iff, hl]; simp))
    rw [(hs tx).id_eq htx, htx] at hu
    cases hu

/-- Who is ended after a step was so before, or has just ended without an edge to
an active transaction. -/
theorem ended_step {s t : System} {op : Op} (hs : s.Slots) (he : s.EdgesOk)
    (hkeep : s.KeepsEdges op) (h : s.step op = some t) (u : TxId)
    (hu : (t.store.transactions u).active = false) :
    Acc (Function.swap t.store.Recorded) u := by
  obtain ⟨hstore, -⟩ := System.step_eq_some h
  have hold : ∀ v, (s.store.transactions v).active = false →
      Acc (Function.swap t.store.Recorded) v := fun v hv =>
    acc_ended he (recorded_ended hs hkeep h) hv
  by_cases hu' : (s.store.transactions u).active = false
  · exact hold u hu'
  -- Only the caller can have ended in this step, so it is a commit or an abort.
  · have htx : u = op.tx := by
      by_contra hne
      rw [Store.step_transactions hstore, Function.update_of_ne hne] at hu
      exact hu' hu
    subst htx
    constructor
    intro v hv
    have hedge := (recorded_step hstore op.tx v).1 hv
    rw [Store.step_transactions hstore, Function.update_self] at hu
    cases op with
    | begin id => cases hu
    | acquire tx key type =>
        exact absurd ((active_acquire hstore tx).symm.trans
          (by rw [Store.step_transactions hstore, Op.tx, Function.update_self]; exact hu)) hu'
    | read tx key => exact absurd hu hu'
    | write tx key value => exact absurd hu hu'
    | commit tx =>
        have hrec : s.store.Recorded tx v := by simpa [Op.tx] using hedge
        exact hold v (hkeep v hrec)
    | abort tx =>
        have hrec : s.store.Recorded tx v := by simpa [Op.tx] using hedge
        exact hold v (hkeep v hrec)

theorem edgesOk_run {ops : List Op} {s : System}
    (h : Run System.step (fun s op => s.Reuses op ∧ s.KeepsEdges op) System.init ops s) :
    s.Slots ∧ s.EdgesOk := by
  refine h.invariant (I := fun s => s.Slots ∧ s.EdgesOk) ⟨slots_init, edgesOk_init⟩ ?_
  rintro s op t ⟨hs, he⟩ ⟨hreuse, hkeep⟩ hstep
  exact ⟨slots_step hs hstep, waits_step hs he hreuse hkeep hstep, ended_step hs he hkeep hstep⟩

/-- The search finds a cycle of recorded edges, if there is one. -/
theorem detectDeadlock_eq_some_true_iff (s : Store) :
    detectDeadlock s.waitFor MAX_TX = some true ↔ ∃ v, TransGen s.Recorded v v := by
  obtain ⟨found, hfound, hiff⟩ := detectDeadlock_spec s.waitFor MAX_TX
  have hedge : Edge s.waitFor MAX_TX = s.Recorded := by
    ext v u
    simp [Edge, Store.Recorded]
  rw [hfound, Option.some.injEq, hiff, hedge]

/-- As long as no step makes an edge stale, a deadlock that is detected is a
circular wait. -/
theorem detect_sound {ops : List Op} {s : System}
    (h : Run System.step (fun s op => s.Reuses op ∧ s.KeepsEdges op) System.init ops s)
    (hdetect : detectDeadlock s.store.waitFor MAX_TX = some true) : s.CircularWait := by
  obtain ⟨-, he⟩ := edgesOk_run h
  obtain ⟨v, hv⟩ := (detectDeadlock_eq_some_true_iff s.store).1 hdetect
  -- A transaction on a closed walk has not ended, so the edges of the walk are waits.
  have hactive : ∀ u, TransGen s.store.Recorded u u → (s.store.transactions u).active = true := by
    intro u hu
    by_contra hended
    exact not_transGen_of_acc (he.ended u (Bool.eq_false_iff.2 hended)) hu
  apply exists_cycle_of_transGen (a := v)
  refine TransGen.mono (fun x y hback => ?_) _ _ (transGen_back hv .refl)
  obtain ⟨hxy, hyx⟩ := hback
  exact he.waits x y hxy (hactive y (TransGen.tail' hyx hxy))

/-- Two transactions lock a key each and then ask for the other's. -/
theorem detect_sound_crossed :
    ∃ s, Run System.step (fun s op => s.Reuses op ∧ s.KeepsEdges op) System.init
        [.begin 1, .begin 2, .acquire 1 (ascii "x") .WRITE, .acquire 2 (ascii "y") .WRITE,
          .acquire 1 (ascii "y") .WRITE, .acquire 2 (ascii "x") .WRITE] s ∧ s.CircularWait := by
  refine ⟨_, Run.of_exec (t := Option.get _ (by decide +kernel)) (Option.some_get _).symm, ?_⟩
  apply detect_sound
  · exact Run.of_exec (Option.some_get _).symm
  · decide +kernel

theorem not_circularWait {s : System} (h : ∀ u v, ¬s.WaitsFor u v) : ¬s.CircularWait := by
  rintro ⟨c, hne, -, hchain⟩
  obtain ⟨u, -, hu⟩ := exists_transGen_of_cycle hne hchain
  obtain ⟨v, huv, -⟩ := TransGen.head'_iff.1 hu
  exact h u v huv

/-- The victim of the deadlock is aborted; the two edges stay, and are found again. -/
theorem detect_sound_fails :
    ¬∀ ops s, Run System.step System.Reuses System.init ops s →
      detectDeadlock s.store.waitFor MAX_TX = some true → s.CircularWait := by
  intro h
  have hrun : Run System.step System.Reuses System.init
      [.begin 1, .begin 2, .acquire 1 (ascii "x") .WRITE, .acquire 2 (ascii "y") .WRITE,
        .acquire 1 (ascii "y") .WRITE, .acquire 2 (ascii "x") .WRITE, .abort 2] _ :=
    Run.of_exec (t := Option.get _ (by decide +kernel)) (Option.some_get _).symm
  have hwait := h _ _ hrun (by decide +kernel)
  exact not_circularWait (by decide +kernel) hwait

/-! ## No missed deadlock -/

/-- Every active transaction in the way of the request is the first one met, which
gets an edge, or has one already. -/
def System.HoldersRecorded (s : System) (tx : TxId) (key : Bytes) (type : LockType) : Prop :=
  ∀ l ∈ firstConflict s.store tx key type, ∀ v, v ≠ tx →
    (s.store.transactions v).active = true → s.store.Blocks v key type →
      v = l.txId ∨ s.store.waitFor tx v = true

/-- Every active transaction whose refused request a new lock of `tx` would be in
the way of has an edge to `tx`. -/
def System.WaitersRecorded (s : System) (tx : TxId) (key : Bytes) (type : LockType) : Prop :=
  ∀ u, u ≠ tx → (s.store.transactions u).active = true →
    ∀ r ∈ (s.history u).refused, r.1 = key → (type = .WRITE ∨ r.2 = .WRITE) →
      s.store.waitFor u tx = true

instance (s : System) (tx : TxId) (key : Bytes) (type : LockType) :
    Decidable (s.HoldersRecorded tx key type) :=
  inferInstanceAs (Decidable (∀ l ∈ firstConflict s.store tx key type, _))

instance (s : System) (tx : TxId) (key : Bytes) (type : LockType) :
    Decidable (s.WaitersRecorded tx key type) :=
  inferInstanceAs (Decidable (∀ _, _))

/-- The step leaves no wait without its edge: a refused caller has one to every
active holder in its way, and a lock is granted only while every request it is in
the way of has one to the caller. -/
def System.RecordsWaits (s : System) : Op → Prop
  | .acquire tx key type => (s.store.transactions tx).active = true →
      s.HoldersRecorded tx key type ∧
        ((acquireLock s.store tx key type).1 = true → s.WaitersRecorded tx key type)
  | .begin _ | .read _ _ | .write _ _ _ | .commit _ | .abort _ => True

instance (s : System) : ∀ op, Decidable (s.RecordsWaits op)
  | .acquire _ _ _ => inferInstanceAs (Decidable (_ → _ ∧ _))
  | .begin _ | .read _ _ | .write _ _ _ | .commit _ | .abort _ =>
      inferInstanceAs (Decidable True)

/-- Each id is begun at most once. -/
def System.BeginsOnce (s : System) : Op → Prop
  | .begin id => (s.history id).status = .unused
  | _ => True

instance (s : System) : ∀ op, Decidable (s.BeginsOnce op)
  | .begin _ => inferInstanceAs (Decidable (_ = _))
  | .acquire _ _ _ | .read _ _ | .write _ _ _ | .commit _ | .abort _ =>
      inferInstanceAs (Decidable True)

/-- Every wait has its edge. -/
def System.WaitsRecorded (s : System) : Prop :=
  ∀ u v, s.WaitsFor u v → s.store.Recorded u v

theorem waitsRecorded_init : System.init.WaitsRecorded := by
  rintro u v ⟨-, hu, -⟩
  cases hu

theorem recorded_mono {s t : Store} {op : Op} (h : s.step op = some t) {u v : TxId}
    (hrec : s.Recorded u v) : t.Recorded u v :=
  (recorded_step h u v).2 (Or.inl hrec)

/-- A lock in the way after a granted request was there before or is the new one. -/
theorem blocks_granted {s t : Store} {tx : TxId} {key : Bytes} {type : LockType}
    (h : s.step (.acquire tx key type) = some t) {v : TxId} {key' : Bytes} {type' : LockType}
    (hb : t.Blocks v key' type') :
    s.Blocks v key' type' ∨
      (v = tx ∧ (acquireLock s tx key type).1 = true ∧ key' = key ∧
        (type = .WRITE ∨ type' = .WRITE)) := by
  obtain ⟨l, hl, hkey, htype⟩ := hb
  rw [Store.step_transactions h, Op.tx] at hl
  by_cases hv : v = tx
  · subst hv
    rw [Function.update_self, Store.row] at hl
    split at hl
    · next hgrant =>
        rcases List.mem_cons.1 hl with rfl | hl
        · exact Or.inr ⟨rfl, hgrant, hkey.symm, htype⟩
        · exact Or.inl ⟨l, hl, hkey, htype⟩
    · exact Or.inl ⟨l, hl, hkey, htype⟩
  · rw [Function.update_of_ne hv] at hl
    exact Or.inl ⟨l, hl, hkey, htype⟩

/-- The waits after an `acquire_lock`. -/
theorem waitsRecorded_acquire {s t : System} {tx : TxId} {key : Bytes} {type : LockType}
    (hs : s.Slots) (hw : s.WaitsRecorded) (hrec : s.RecordsWaits (.acquire tx key type))
    (h : s.step (.acquire tx key type) = some t) : t.WaitsRecorded := by
  obtain ⟨hstore, -⟩ := System.step_eq_some h
  obtain ⟨hself, hother⟩ := System.step_history h
  rintro u v ⟨hne, hu, hv, r, hr, hb⟩
  rw [active_acquire hstore] at hu hv
  rw [System.RecordsWaits] at hrec
  by_cases hutx : u = tx
  · -- The caller waits only if its request was refused.
    subst hutx
    rw [Op.tx] at hself
    cases hconflict : firstConflict s.store u key type with
    | none =>
        rw [hself, System.event_granted (acquireLock_granted_iff.2 hconflict)] at hr
        cases hr
    | some l =>
        have hrefused : ¬(acquireLock s.store u key type).1 = true := by
          rw [acquireLock_granted_iff, hconflict]
          simp
        rw [hself, System.event_refused hrefused] at hr
        obtain rfl : (key, type) = r := Option.some.inj hr
        have hb' : s.store.Blocks v key type := by
          rcases blocks_granted hstore hb with hb | ⟨-, hgrant, -⟩
          · exact hb
          · exact absurd hgrant hrefused
        apply (recorded_step hstore u v).2
        rcases (hrec hu).1 l hconflict v (Ne.symm hne) hv hb' with rfl | hold
        · exact Or.inr ⟨u, key, type, l, rfl, hconflict, ((hs u).id_eq hu).symm, rfl⟩
        · exact Or.inl hold
  · rw [hother u hutx] at hr
    apply recorded_mono hstore
    rcases blocks_granted hstore hb with hb | ⟨rfl, hgrant, hkey, htype⟩
    · exact hw u v ⟨hne, hu, hv, r, hr, hb⟩
    · exact (hrec hv).2 hgrant u hne hu r hr hkey htype

theorem waitsRecorded_step {s t : System} {op : Op} (hs : s.Slots) (hw : s.WaitsRecorded)
    (hrec : s.RecordsWaits op) (h : s.step op = some t) : t.WaitsRecorded := by
  obtain ⟨hstore, -⟩ := System.step_eq_some h
  -- A transaction that has just begun or ended neither waits nor is waited for.
  have hends : (∀ v, ¬t.WaitsFor op.tx v) → (∀ u, ¬t.WaitsFor u op.tx) → t.WaitsRecorded := by
    intro hout hin u v huv
    have hu : u ≠ op.tx := by
      rintro rfl
      exact hout v huv
    have hv : v ≠ op.tx := by
      rintro rfl
      exact hin u huv
    exact recorded_mono hstore (hw u v ((waitsFor_of_ne h hu hv).1 huv))
  have hrow := congrFun (Store.step_transactions hstore) op.tx
  rw [Function.update_self] at hrow
  cases op with
  | begin id =>
      apply hends
      · rintro v ⟨-, -, -, r, hr, -⟩
        rw [(System.step_history h).1] at hr
        cases hr
      · rintro u ⟨-, -, -, r, -, l, hl, -⟩
        rw [hrow] at hl
        cases hl
  | acquire tx key type => exact waitsRecorded_acquire hs hw hrec h
  | read tx key =>
      intro u v huv
      exact recorded_mono hstore (hw u v (((waitsFor_idle h rfl rfl).2 u v).1 huv))
  | write tx key value =>
      intro u v huv
      exact recorded_mono hstore (hw u v (((waitsFor_idle h rfl rfl).2 u v).1 huv))
  | commit tx =>
      apply hends
      · rintro v ⟨-, hact, -⟩
        rw [hrow] at hact
        cases hact
      · rintro u ⟨-, -, hact, -⟩
        rw [hrow] at hact
        cases hact
  | abort tx =>
      apply hends
      · rintro v ⟨-, hact, -⟩
        rw [hrow] at hact
        cases hact
      · rintro u ⟨-, -, hact, -⟩
        rw [hrow] at hact
        cases hact

theorem waitsRecorded_run {ops : List Op} {s : System}
    (h : Run System.step (fun s op => s.BeginsOnce op ∧ s.RecordsWaits op) System.init ops s) :
    s.Slots ∧ s.WaitsRecorded := by
  refine h.invariant (I := fun s => s.Slots ∧ s.WaitsRecorded) ⟨slots_init, waitsRecorded_init⟩ ?_
  rintro s op t ⟨hs, hw⟩ ⟨-, hrec⟩ hstep
  exact ⟨slots_step hs hstep, waitsRecorded_step hs hw hrec hstep⟩

/-- As long as no step leaves a wait without its edge, every circular wait is
detected. -/
theorem detect_complete {ops : List Op} {s : System}
    (h : Run System.step (fun s op => s.BeginsOnce op ∧ s.RecordsWaits op) System.init ops s)
    (hwait : s.CircularWait) : detectDeadlock s.store.waitFor MAX_TX = some true := by
  obtain ⟨-, hw⟩ := waitsRecorded_run h
  obtain ⟨c, hne, -, hchain⟩ := hwait
  obtain ⟨v, -, hv⟩ := exists_transGen_of_cycle hne (hchain.imp hw)
  exact (detectDeadlock_eq_some_true_iff s.store).2 ⟨v, hv⟩

/-- A cycle of two that wait for each other. -/
theorem circularWait_pair {s : System} {u v : TxId} (huv : s.WaitsFor u v)
    (hvu : s.WaitsFor v u) : s.CircularWait := by
  refine ⟨([u, v] : List TxId), by simp, ?_, ?_⟩
  · simpa using huv.1
  · rw [Cycle.chain_coe_cons]
    simp [huv, hvu]

/-- Two transactions lock a key each and then ask for the other's. -/
theorem detect_complete_crossed :
    ∃ s, Run System.step (fun s op => s.BeginsOnce op ∧ s.RecordsWaits op) System.init
        [.begin 1, .begin 2, .acquire 1 (ascii "x") .WRITE, .acquire 2 (ascii "y") .WRITE,
          .acquire 1 (ascii "y") .WRITE, .acquire 2 (ascii "x") .WRITE] s ∧
      detectDeadlock s.store.waitFor MAX_TX = some true := by
  refine ⟨_, Run.of_exec (t := Option.get _ (by decide +kernel)) (Option.some_get _).symm, ?_⟩
  apply detect_complete
  · exact Run.of_exec (Option.some_get _).symm
  · exact circularWait_pair (u := 1) (v := 2) (by decide +kernel) (by decide +kernel)

/-- Two readers block a writer, the edge goes to the first; the second then asks
for what the writer holds. -/
theorem detect_complete_fails :
    ¬∀ ops s, Run System.step System.BeginsOnce System.init ops s → s.CircularWait →
      detectDeadlock s.store.waitFor MAX_TX = some true := by
  intro h
  have hrun : Run System.step System.BeginsOnce System.init
      [.begin 1, .begin 2, .begin 3, .acquire 1 (ascii "x") .READ, .acquire 2 (ascii "x") .READ,
        .acquire 3 (ascii "y") .WRITE, .acquire 3 (ascii "x") .WRITE,
        .acquire 2 (ascii "y") .WRITE] _ :=
    Run.of_exec (t := Option.get _ (by decide +kernel)) (Option.some_get _).symm
  have hdetect := h _ _ hrun (circularWait_pair (u := 2) (v := 3) (by decide +kernel)
    (by decide +kernel))
  exact absurd hdetect (by decide +kernel)

end Mvcc
end Leetcode
