import Leetcode.Mvcc.LockPeriods

/-!
# Read-modify-write clients

Every client locks a key `WRITE`, reads it, writes a function of what it read,
and commits.  A scheduler picks who moves next, and a client whose request is
refused asks again.  When every lock is granted over a snapshot that shows all
commits of its key, the clients behave as if they had run one after the other
in commit order; without that condition an update can be lost.

* `Clients.Inv` — each client against its program counter, and the committed
  values against the serial run in commit order.
* `clients_step` / `clients_run` — every schedule with fresh grants keeps it.
* `writers_serialised` — what the locks give, for all runs and for clients.
* `firstCommitterWins_fails` — two increments, one of them lost.
-/

namespace Leetcode
namespace Mvcc

open CLib

/-- A client locks a key, and writes a function of the value it reads there. -/
structure Program where
  key : Bytes
  update : Option Bytes → Bytes

/-- How far a client has come. -/
inductive Pc
  | idle
  | begun
  | locked
  | read (value : Option Bytes)
  | wrote
  | done
  deriving DecidableEq, Repr

/-- The store with its clients, and the ids in the order of their commits. -/
structure Clients where
  sys : System
  pc : TxId → Pc
  commits : List TxId

def Clients.init : Clients where
  sys := System.init
  pc := fun _ => .idle
  commits := []

/-- The call a client makes next. -/
def Pc.op (prog : Program) (tx : TxId) : Pc → Option Op
  | .idle => some (.begin tx)
  | .begun => some (.acquire tx prog.key .WRITE)
  | .locked => some (.read tx prog.key)
  | .read value => some (.write tx prog.key (prog.update value))
  | .wrote => some (.commit tx)
  | .done => none

/-- Where the client goes with the result of its call. -/
def Pc.next (prog : Program) (s : Store) (tx : TxId) : Pc → Pc
  | .idle => .begun
  | .begun => if (acquireLock s tx prog.key .WRITE).1 then .locked else .begun
  | .locked => .read (mvccRead s tx prog.key)
  | .read _ => .wrote
  | .wrote => .done
  | .done => .done

/-- The scheduler lets one client make its next call. -/
def Clients.step (prog : TxId → Program) (c : Clients) (tx : TxId) : Option Clients :=
  ((c.pc tx).op (prog tx) tx).bind fun op => (c.sys.step op).map fun sys =>
    { sys := sys
      pc := Function.update c.pc tx ((c.pc tx).next (prog tx) c.sys.store tx)
      commits := if c.pc tx = .wrote then c.commits ++ [tx] else c.commits }

/-- The clients one after the other, on an empty store. -/
def serial (prog : TxId → Program) (order : List TxId) : Bytes → Option Bytes :=
  order.foldl
    (fun db tx =>
      Function.update db (prog tx).key (some ((prog tx).update (db (prog tx).key))))
    fun _ => none

/-- A client that is granted its lock sees every commit of the key. -/
def Clients.FreshStep (prog : TxId → Program) (c : Clients) (tx : TxId) : Prop :=
  c.pc tx = .begun → (acquireLock c.sys.store tx (prog tx).key .WRITE).1 = true →
    ∀ w ts, c.sys.Committed (prog tx).key w ts → ts ≤ (c.sys.history tx).startTs

/-! ## The committed value of a key -/

/-- The value of the first committed version. -/
def Store.committedValue (s : Store) (key : Bytes) : Option Bytes :=
  ((s.versions key).find? Version.committed).map Version.value

/-- It is the value of the key at the present time. -/
theorem valueAt_committedValue {s : System} (hinv : s.Inv) (key : Bytes) :
    s.ValueAt key s.store.globalTs (s.store.committedValue key) := by
  apply (hinv.versioned.keys key).valueAt_find?
  intro ver hver
  constructor
  · intro hcom
    exact ⟨hcom, (hinv.clock.stamp_lt key ver hver hcom).le⟩
  · rintro ⟨hcom, -⟩
    exact hcom

/-- A committed version in the list is that of a committed writer. -/
theorem KeyOk.committed_of_mem {s : System} {key : Bytes} {vs : List Version}
    (hk : KeyOk key vs s.history) {ver : Version} (hver : ver ∈ vs)
    (hcom : ver.committed = true) : s.Committed key ver.txId ver.commitTs := by
  refine ⟨hk.stamped ver hver hcom, fun hnil => ?_⟩
  apply hk.txId_ne (i := ver.txId) _ ver hver rfl
  rw [TxHistory.kept, hnil, ite_self]

/-- A transaction that has not written the key, and whose snapshot shows all its
commits, reads the committed value. -/
theorem mvccRead_eq_committedValue {s : System} (hinv : s.Inv) {tx : TxId} {key : Bytes}
    (hact : (s.history tx).status = .active) (hown : (s.history tx).values key = [])
    (hseen : ∀ ver ∈ s.store.versions key, ver.committed = true →
      ver.commitTs ≤ (s.history tx).startTs) :
    mvccRead s.store tx key = s.store.committedValue key := by
  have hk := hinv.versioned.keys key
  have hactive := (hinv.slots tx).status_iff.2 hact
  have hvisible : ∀ ver ∈ s.store.versions key,
      visible (s.store.transactions tx) ver = ver.committed := by
    intro ver hver
    unfold visible
    cases hcom : ver.committed
    · have hne := hk.txId_ne (i := tx) (by rw [TxHistory.kept, hown, ite_self]) ver hver
      rw [(hinv.slots tx).id_eq hactive]
      simpa using hne
    · rw [(hinv.slots tx).startTs_eq hactive]
      simpa using hseen ver hver hcom
  unfold mvccRead Store.committedValue
  rw [latest_eq_find?, ← List.head?_filter, ← List.head?_filter, List.filter_congr hvisible]

/-! ## One client at a time -/

/-- The transaction is active and holds the `WRITE` lock of the key. -/
def System.Owns (s : System) (tx : TxId) (key : Bytes) : Prop :=
  (s.history tx).status = .active ∧ (s.history tx).Holds key

/-- No other transaction touches the list of a key that is locked. -/
theorem versions_foreign {s t : System} {op : Op} (hinv : s.Inv) (hlegal : s.Legal op)
    (h : s.step op = some t) {j : TxId} {key : Bytes} (hne : j ≠ op.tx) (hj : s.Owns j key) :
    t.store.versions key = s.store.versions key := by
  obtain ⟨hstore, -⟩ := System.step_eq_some h
  rw [Store.step_versions hstore]
  have hk := hinv.versioned.keys key
  -- An own version of the ending transaction would need the lock that `j` holds.
  have hforeign : ∀ tx, tx ≠ j → (s.history tx).status = .active →
      ∀ ver ∈ s.store.versions key, ver.txId ≠ (s.store.transactions tx).id := by
    intro tx htx hact ver hver hver'
    rw [(hinv.slots tx).id_eq ((hinv.slots tx).status_iff.2 hact)] at hver'
    cases hcom : ver.committed with
    | false =>
        obtain ⟨-, hholds⟩ := hk.tentative ver hver hcom
        rw [hver'] at hholds
        exact htx (holds_unique hinv.slots hinv.compatible hact hj.1 hholds hj.2)
    | true =>
        have hstamped := hk.stamped ver hver hcom
        rw [hver', hact] at hstamped
        cases hstamped
  cases op with
  | begin id => rfl
  | acquire tx key' type => rfl
  | read tx key' => rfl
  | write tx key' value =>
      obtain ⟨hact, hholds⟩ : s.Owns tx key' := hlegal.2
      rw [Store.versionsAfter, if_neg]
      rintro rfl
      exact hne (holds_unique hinv.slots hinv.compatible hj.1 hact hj.2 hholds)
  | commit tx =>
      have hother := hforeign tx (Ne.symm hne) hlegal.1
      rw [Store.versionsAfter]
      refine (List.map_congr_left fun ver hver => ?_).trans (List.map_id _)
      rw [stamp, if_neg (hother ver hver), id_eq]
  | abort tx =>
      have hother := hforeign tx (Ne.symm hne) hlegal.1
      rw [Store.versionsAfter, List.filter_eq_self]
      simpa using hother

/-- What holds of a client at each point of its program. -/
def PcOk (prog : Program) (s : System) (tx : TxId) : Pc → Prop
  | .idle => (s.history tx).status = .unused
  | .begun => (s.history tx).status = .active ∧ (s.history tx).writes = []
  | .locked => s.Owns tx prog.key ∧ (s.history tx).writes = [] ∧
      ∀ ver ∈ s.store.versions prog.key, ver.committed = true →
        ver.commitTs ≤ (s.history tx).startTs
  | .read value => s.Owns tx prog.key ∧ (s.history tx).writes = [] ∧
      value = s.store.committedValue prog.key
  | .wrote => s.Owns tx prog.key ∧
      (s.history tx).writes = [(prog.key, prog.update (s.store.committedValue prog.key))]
  | .done => ∃ ts, (s.history tx).status = .committed ts

/-- A client is not disturbed by the others. -/
theorem pcOk_foreign {prog : Program} {s t : System} {tx : TxId} {pc : Pc}
    (hhist : t.history tx = s.history tx)
    (hversions : s.Owns tx prog.key → t.store.versions prog.key = s.store.versions prog.key)
    (h : PcOk prog s tx pc) : PcOk prog t tx pc := by
  cases pc with
  | idle => simpa [PcOk, hhist] using h
  | begun => simpa [PcOk, hhist] using h
  | locked =>
      have hsame := hversions h.1
      simpa [PcOk, System.Owns, hhist, hsame] using h
  | read value =>
      have hsame := hversions h.1
      simpa [PcOk, System.Owns, Store.committedValue, hhist, hsame] using h
  | wrote =>
      have hsame := hversions h.1
      simpa [PcOk, System.Owns, Store.committedValue, hhist, hsame] using h
  | done => simpa [PcOk, hhist] using h

/-- Every call of a client is legal. -/
theorem PcOk.legal {prog : Program} {s : System} {tx : TxId} {pc : Pc} {op : Op}
    (h : PcOk prog s tx pc) (hop : pc.op prog tx = some op) : s.Legal op := by
  cases pc with
  | idle => cases hop; exact ⟨h, trivial⟩
  | begun => cases hop; exact ⟨trivial, trivial⟩
  | locked => cases hop; exact ⟨trivial, trivial⟩
  | read value => cases hop; exact ⟨trivial, h.1⟩
  | wrote => cases hop; exact ⟨h.1.1, trivial⟩
  | done => cases hop

theorem Pc.op_tx {prog : Program} {tx : TxId} {pc : Pc} {op : Op}
    (h : pc.op prog tx = some op) : op.tx = tx := by
  cases pc <;> cases h <;> rfl

/-- The lock is granted: the snapshot of the client shows all commits of the key, and
the lock keeps it so. -/
theorem pcOk_grant {prog : Program} {s t : System} {tx : TxId} (hinv : s.Inv)
    (h : PcOk prog s tx .begun) (hgrant : (acquireLock s.store tx prog.key .WRITE).1 = true)
    (hself : t.history tx = s.event (s.history tx) (.acquire tx prog.key .WRITE))
    (hvs : t.store.versions prog.key = s.store.versions prog.key)
    (hfresh : ∀ w ts, s.Committed prog.key w ts → ts ≤ (s.history tx).startTs) :
    PcOk prog t tx .locked := by
  rw [System.event_granted hgrant] at hself
  refine ⟨⟨?_, ⟨⟨prog.key, .WRITE, s.store.globalTs⟩, ?_, rfl, rfl⟩⟩, ?_,
    fun ver hver hcom => ?_⟩
  · rw [hself]
    exact h.1
  · rw [hself]
    exact List.mem_cons_self
  · rw [hself]
    exact h.2
  · rw [hself]
    rw [hvs] at hver
    exact hfresh _ _ ((hinv.versioned.keys _).committed_of_mem hver hcom)

/-- A client's own call takes it to its next point. -/
theorem pcOk_next {prog : Program} {s t : System} {tx : TxId} {pc : Pc} {op : Op} (hinv : s.Inv)
    (h : PcOk prog s tx pc) (hop : pc.op prog tx = some op) (hstep : s.step op = some t)
    (hfresh : pc = .begun → (acquireLock s.store tx prog.key .WRITE).1 = true →
      ∀ w ts, s.Committed prog.key w ts → ts ≤ (s.history tx).startTs) :
    PcOk prog t tx (pc.next prog s.store tx) := by
  obtain ⟨hstore, -⟩ := System.step_eq_some hstep
  obtain ⟨hself, -⟩ := System.step_history hstep
  have hversions := Store.step_versions hstore prog.key
  rw [Pc.op_tx hop] at hself
  cases pc with
  | idle =>
      cases hop
      simp [PcOk, Pc.next, hself, System.event]
  | begun =>
      cases hop
      have hvs : t.store.versions prog.key = s.store.versions prog.key := hversions
      unfold Pc.next
      by_cases hgrant : (acquireLock s.store tx prog.key .WRITE).1 = true
      · rw [if_pos hgrant]
        exact pcOk_grant hinv h hgrant hself hvs (hfresh rfl hgrant)
      -- A refused client stays where it is and asks again.
      · rw [System.event_refused hgrant] at hself
        rw [if_neg hgrant]
        simpa [PcOk, hself] using h
  | locked =>
      cases hop
      have hvs : t.store.versions prog.key = s.store.versions prog.key := hversions
      obtain ⟨howns, hwrites, hseen⟩ := h
      have hown : (s.history tx).values prog.key = [] := by
        rw [TxHistory.values, hwrites]
        rfl
      -- Without a write of its own the client reads the committed value.
      have hread := mvccRead_eq_committedValue hinv howns.1 hown hseen
      have hsame : t.history tx = s.history tx := hself
      refine ⟨?_, ?_, ?_⟩
      · rw [System.Owns, hsame]
        exact howns
      · rw [hsame]
        exact hwrites
      · rw [hread, Store.committedValue, Store.committedValue, hvs]
  | read value =>
      cases hop
      obtain ⟨howns, hwrites, rfl⟩ := h
      rw [Store.versionsAfter, if_pos rfl] at hversions
      refine ⟨?_, ?_⟩
      · rw [System.Owns, hself]
        exact howns
      -- The new version is tentative, so the committed value is what it was.
      · rw [hself, System.event, hwrites, Store.committedValue, Store.committedValue, hversions,
          List.find?_cons_of_neg (by simp)]
  | wrote =>
      cases hop
      exact ⟨_, by rw [hself]; rfl⟩
  | done => cases hop

/-! ## All clients -/

/-- A commit makes the value of its client the committed one. -/
theorem committedValue_commit {prog : Program} {s t : System} {tx : TxId} (hinv : s.Inv)
    (h : PcOk prog s tx .wrote) (hstep : s.step (.commit tx) = some t) :
    t.store.committedValue = Function.update s.store.committedValue prog.key
      (some (prog.update (s.store.committedValue prog.key))) := by
  obtain ⟨hstore, -⟩ := System.step_eq_some hstep
  obtain ⟨⟨hact, -⟩, hwrites⟩ := h
  have hid := (hinv.slots tx).id_eq ((hinv.slots tx).status_iff.2 hact)
  ext1 key
  have hk := hinv.versioned.keys key
  have hversions := Store.step_versions hstore key
  rw [Store.versionsAfter, hid] at hversions
  by_cases hkey : key = prog.key
  · subst hkey
    have hhead : ((s.history tx).values prog.key).head? =
        some (prog.update (s.store.committedValue prog.key)) := by
      rw [TxHistory.values, hwrites]
      simp
    obtain ⟨ver, next, hlist, htx, -, hvalue⟩ := hk.eq_cons_of_written hact hhead
    rw [Function.update_self, Store.committedValue, hversions, hlist, List.map_cons, stamp,
      if_pos htx, List.find?_cons_of_pos rfl, Option.map_some, hvalue]
  -- The client has no version of any other key.
  · have hkept : (s.history tx).kept key = [] := by
      rw [TxHistory.kept, TxHistory.values, hwrites]
      simp [Ne.symm hkey]
    have hsame : (s.store.versions key).map (stamp tx s.store.globalTs) =
        s.store.versions key := by
      refine (List.map_congr_left fun ver hver => ?_).trans (List.map_id _)
      rw [stamp, if_neg (hk.txId_ne hkept ver hver), id_eq]
    rw [Function.update_of_ne hkey, Store.committedValue, hversions, hsame, Store.committedValue]

/-- No other call of a client changes a committed value. -/
theorem committedValue_of_ne_wrote {prog : Program} {s t : System} {tx : TxId} {pc : Pc} {op : Op}
    (hop : pc.op prog tx = some op) (hpc : pc ≠ .wrote) (hstep : s.step op = some t) :
    t.store.committedValue = s.store.committedValue := by
  obtain ⟨hstore, -⟩ := System.step_eq_some hstep
  ext1 key
  have hversions := Store.step_versions hstore key
  unfold Store.committedValue
  rw [hversions]
  cases pc with
  | idle => cases hop; rfl
  | begun => cases hop; rfl
  | locked => cases hop; rfl
  | read value =>
      cases hop
      rw [Store.versionsAfter]
      split
      · rw [List.find?_cons_of_neg (by simp)]
      · rfl
  | wrote => exact absurd rfl hpc
  | done => cases hop

theorem serial_append (prog : TxId → Program) (order : List TxId) (tx : TxId) :
    serial prog (order ++ [tx]) = Function.update (serial prog order) (prog tx).key
      (some ((prog tx).update (serial prog order (prog tx).key))) := by
  unfold serial
  rw [List.foldl_append]
  rfl

/-- The clients between two moves: each at its point, the committed values those
of the serial run in commit order. -/
structure Clients.Inv (prog : TxId → Program) (c : Clients) : Prop where
  sys : c.sys.Inv
  pcs : ∀ tx, PcOk (prog tx) c.sys tx (c.pc tx)
  values : c.sys.store.committedValue = serial prog c.commits
  nodup : c.commits.Nodup
  mem_commits : ∀ tx, tx ∈ c.commits ↔ c.pc tx = .done

theorem clients_init (prog : TxId → Program) : (Clients.init).Inv prog where
  sys := inv_init
  pcs _ := rfl
  values := rfl
  nodup := List.nodup_nil
  mem_commits tx := by simp [Clients.init]

theorem Clients.step_cases {prog : TxId → Program} {c d : Clients} {tx : TxId}
    (h : c.step prog tx = some d) :
    ∃ op, (c.pc tx).op (prog tx) tx = some op ∧ c.sys.step op = some d.sys ∧
      d.pc = Function.update c.pc tx ((c.pc tx).next (prog tx) c.sys.store tx) ∧
      d.commits = if c.pc tx = .wrote then c.commits ++ [tx] else c.commits := by
  obtain ⟨op, hop, hmap⟩ := Option.bind_eq_some_iff.1 h
  obtain ⟨t, hstep, rfl⟩ := Option.map_eq_some_iff.1 hmap
  exact ⟨op, hop, hstep, rfl, rfl⟩

/-- A client is done when its commit has returned. -/
theorem Pc.next_eq_done_iff {prog : Program} {s : Store} {tx : TxId} {pc : Pc}
    (hdone : pc ≠ .done) : pc.next prog s tx = .done ↔ pc = .wrote := by
  cases pc with
  | begun =>
      by_cases hgrant : (acquireLock s tx prog.key .WRITE).1 = true <;> simp [Pc.next, hgrant]
  | done => exact absurd rfl hdone
  | idle | locked | read value | wrote => simp [Pc.next]

theorem clients_step {prog : TxId → Program} {c d : Clients} {tx : TxId} (hc : c.Inv prog)
    (hfresh : c.FreshStep prog tx) (h : c.step prog tx = some d) : d.Inv prog := by
  obtain ⟨op, hop, hstep, hpcs, hcommits⟩ := Clients.step_cases h
  have hpc := hc.pcs tx
  have hlegal := hpc.legal hop
  have hoptx := Pc.op_tx hop
  have hother := (System.step_history hstep).2
  rw [hoptx] at hother
  have hdone : c.pc tx ≠ .done := by
    intro hdone
    rw [hdone] at hop
    cases hop
  constructor
  · exact inv_step hc.sys hlegal hstep
  · intro j
    rw [hpcs]
    by_cases hj : j = tx
    · subst hj
      rw [Function.update_self]
      exact pcOk_next hc.sys hpc hop hstep hfresh
    · rw [Function.update_of_ne hj]
      apply pcOk_foreign (hother j hj) _ (hc.pcs j)
      exact versions_foreign hc.sys hlegal hstep (by rw [hoptx]; exact hj)
  · rw [hcommits]
    split
    · next hwrote =>
        rw [hwrote] at hop hpc
        cases hop
        rw [serial_append, committedValue_commit hc.sys hpc hstep, hc.values]
    · next hwrote => rw [committedValue_of_ne_wrote hop hwrote hstep, hc.values]
  · rw [hcommits]
    split
    · apply hc.nodup.append (List.nodup_singleton tx)
      rw [List.disjoint_singleton, hc.mem_commits]
      exact hdone
    · exact hc.nodup
  · intro j
    rw [hpcs, hcommits]
    by_cases hj : j = tx
    · subst hj
      rw [Function.update_self, Pc.next_eq_done_iff hdone]
      split
      · next hwrote => simp [hwrote]
      · next hwrote => simp [hwrote, hc.mem_commits, hdone]
    · rw [Function.update_of_ne hj, ← hc.mem_commits]
      split
      · simp [hj]
      · rfl

theorem clients_run {prog : TxId → Program} {sched : List TxId} {c : Clients}
    (h : Run (Clients.step prog) (Clients.FreshStep prog) Clients.init sched c) : c.Inv prog :=
  h.invariant (clients_init prog) fun _ _ _ hc hfresh hstep => clients_step hc hfresh hstep

/-! ## What the locks give -/

/-- The commit of one writer of a key precedes the begin of the other. -/
def System.DisjointLifetimes (s : System) : Prop :=
  ∀ key a b ca cb, a ≠ b → s.Committed key a ca → s.Committed key b cb →
    ca < (s.history b).startTs ∨ cb < (s.history a).startTs

/-- The committed values are those of some serial order of the finished clients. -/
def Clients.Serialised (prog : TxId → Program) (c : Clients) : Prop :=
  ∃ order : List TxId, order.Nodup ∧ (∀ tx, tx ∈ order ↔ c.pc tx = .done) ∧
    ∀ key, c.sys.ValueAt key c.sys.store.globalTs (serial prog order key)

/-- In every legal run, one of two committed writers of a key committed before
the other was granted the lock, and before the other began when both grants
were fresh; clients whose grants are all fresh behave serially. -/
theorem writers_serialised :
    (∀ ops s, Run System.step System.Legal System.init ops s →
      ∀ key a b ca cb, a ≠ b → s.Committed key a ca → s.Committed key b cb →
        (∃ la, (s.history a).LockedAt key la) ∧ (∃ lb, (s.history b).LockedAt key lb) ∧
        (∀ la lb, (s.history a).LockedAt key la → (s.history b).LockedAt key lb →
          ca < lb ∨ cb < la) ∧
        (s.FreshGrant key a → s.FreshGrant key b →
          ca < (s.history b).startTs ∨ cb < (s.history a).startTs)) ∧
      ∀ prog sched c, Run (Clients.step prog) (Clients.FreshStep prog) Clients.init sched c →
        c.Serialised prog := by
  constructor
  · intro ops s h key a b ca cb hne ha hb
    obtain ⟨-, hp⟩ := periods_run h
    refine ⟨hp.writer a key ha.2 (Or.inr ⟨ca, ha.1⟩), hp.writer b key hb.2 (Or.inr ⟨cb, hb.1⟩),
      ?_, ?_⟩
    · intro la lb hla hlb
      exact commit_lt_grant hp hne ha hb hla hlb
    · intro hfa hfb
      exact lifetimes_disjoint hp hne ha hb hfa hfb
  · intro prog sched c h
    have hc := clients_run h
    refine ⟨c.commits, hc.nodup, hc.mem_commits, fun key => ?_⟩
    rw [← hc.values]
    exact valueAt_committedValue hc.sys key

/-- Clients that append a letter to one key. -/
def appendLetter : TxId → Program :=
  fun _ => ⟨ascii "x", fun value => value.getD [] ++ ascii "a"⟩

/-- A commit timestamp is not larger than this. -/
def Status.CommittedBy (bound : Nat) : Status → Prop
  | .committed ts => ts ≤ bound
  | .unused | .active | .aborted => True

instance (bound : Nat) : ∀ status : Status, Decidable (status.CommittedBy bound)
  | .committed ts => inferInstanceAs (Decidable (ts ≤ bound))
  | .unused | .active | .aborted => inferInstanceAs (Decidable True)

theorem committedBy_iff {bound : Nat} {status : Status} :
    status.CommittedBy bound ↔ ∀ ts, status = .committed ts → ts ≤ bound := by
  cases status with
  | committed ts => simp [Status.CommittedBy]
  | unused => simp [Status.CommittedBy]
  | active => simp [Status.CommittedBy]
  | aborted => simp [Status.CommittedBy]

instance (prog : TxId → Program) (c : Clients) (tx : TxId) : Decidable (c.FreshStep prog tx) :=
  decidable_of_iff
    (c.pc tx = .begun → (acquireLock c.sys.store tx (prog tx).key .WRITE).1 = true →
      ∀ w, (c.sys.history w).values (prog tx).key ≠ [] →
        (c.sys.history w).status.CommittedBy (c.sys.history tx).startTs) <| by
    simp only [Clients.FreshStep, System.Committed, committedBy_iff]
    exact forall₂_congr fun _ _ => forall_congr' fun w =>
      ⟨fun h ts hw => h hw.2 ts hw.1, fun h hvalues ts hts => h ts ⟨hts, hvalues⟩⟩

/-- Two writers, and two clients, one after the other. -/
theorem writers_serialised_two :
    (∃ s, Run System.step System.Legal System.init
        [.begin 1, .acquire 1 (ascii "x") .WRITE, .write 1 (ascii "x") (ascii "1"), .commit 1,
          .begin 2, .acquire 2 (ascii "x") .WRITE, .write 2 (ascii "x") (ascii "2"),
          .commit 2] s ∧
      s.Committed (ascii "x") 1 2 ∧ s.Committed (ascii "x") 2 4 ∧
      (∃ la, (s.history 1).LockedAt (ascii "x") la) ∧
      (∃ lb, (s.history 2).LockedAt (ascii "x") lb) ∧
      (∀ la lb, (s.history 1).LockedAt (ascii "x") la → (s.history 2).LockedAt (ascii "x") lb →
        2 < lb ∨ 4 < la) ∧
      (s.FreshGrant (ascii "x") 1 → s.FreshGrant (ascii "x") 2 →
        2 < (s.history 2).startTs ∨ 4 < (s.history 1).startTs)) ∧
      ∃ c, Run (Clients.step appendLetter) (Clients.FreshStep appendLetter) Clients.init
          [1, 1, 1, 1, 1, 2, 2, 2, 2, 2] c ∧ c.Serialised appendLetter := by
  obtain ⟨hwriters, hclients⟩ := writers_serialised
  constructor
  · have hrun : Run System.step System.Legal System.init
        [.begin 1, .acquire 1 (ascii "x") .WRITE, .write 1 (ascii "x") (ascii "1"), .commit 1,
          .begin 2, .acquire 2 (ascii "x") .WRITE, .write 2 (ascii "x") (ascii "2"),
          .commit 2] _ :=
      Run.of_exec (t := Option.get _ (by decide)) (Option.some_get _).symm
    exact ⟨_, hrun, ⟨by decide, by decide⟩, ⟨by decide, by decide⟩,
      hwriters _ _ hrun (ascii "x") 1 2 2 4 (by decide) ⟨by decide, by decide⟩
        ⟨by decide, by decide⟩⟩
  · have hrun : Run (Clients.step appendLetter) (Clients.FreshStep appendLetter) Clients.init
        [1, 1, 1, 1, 1, 2, 2, 2, 2, 2] _ :=
      Run.of_exec (t := Option.get _ (by decide)) (Option.some_get _).symm
    exact ⟨_, hrun, hclients _ _ _ hrun⟩

/-- Two of them begin before either commits, so the second overwrites the update
of the first. -/
def lostUpdate : Option Clients :=
  exec (Clients.step appendLetter) (fun _ _ => True) Clients.init [1, 2, 1, 1, 1, 1, 2, 2, 2, 2]

/-- A serial run of the appending clients leaves one letter for each. -/
theorem serial_appendLetter_length (order : List TxId) :
    ((serial appendLetter order (ascii "x")).getD []).length = order.length := by
  induction order using List.reverseRecOn with
  | nil => rfl
  | append_singleton order tx ih =>
      rw [serial_append]
      change (((serial appendLetter order (ascii "x")).getD [] ++ ascii "a").length) = _
      rw [List.length_append, ih, List.length_append]
      rfl

theorem firstCommitterWins_fails :
    (¬∀ ops s, Run System.step System.Legal System.init ops s → s.DisjointLifetimes) ∧
      ¬∀ prog sched c, Run (Clients.step prog) (fun _ _ => True) Clients.init sched c →
        c.Serialised prog := by
  constructor
  · intro h
    have hrun : Run System.step System.Legal System.init
        [.begin 1, .begin 2, .acquire 1 (ascii "x") .WRITE, .write 1 (ascii "x") (ascii "1"),
          .commit 1, .acquire 2 (ascii "x") .WRITE, .write 2 (ascii "x") (ascii "2"),
          .commit 2] _ :=
      Run.of_exec (t := Option.get _ (by decide)) (Option.some_get _).symm
    have hdisjoint := h _ _ hrun (ascii "x") 1 2 3 4 (by decide) ⟨by decide, by decide⟩
      ⟨by decide, by decide⟩
    exact absurd hdisjoint (by decide)
  · intro h
    have hrun := Run.of_exec (Option.some_get (x := lostUpdate) (by decide)).symm
    obtain ⟨order, hnodup, hmem, hvalue⟩ := h _ _ _ hrun
    have hdone : ∀ tx, (lostUpdate.get (by decide)).pc tx = .done ↔ tx ∈ ([1, 2] : List TxId) := by
      decide
    have hwritten : ∀ tx, ∀ value ∈
        ((((lostUpdate.get (by decide)).sys.history tx).values (ascii "x")).head?),
          value.length = 1 := by
      decide
    have hperm : order.Perm [1, 2] := by
      rw [List.perm_ext_iff_of_nodup hnodup (by decide)]
      intro tx
      exact (hmem tx).trans (hdone tx)
    have hlength := serial_appendLetter_length order
    rw [hperm.length_eq] at hlength
    have hx := hvalue (ascii "x")
    generalize serial appendLetter order (ascii "x") = result at hx hlength
    -- Every write of the run is a single letter, the serial value has two.
    cases hx with
    | written hw hts hlatest hhead =>
        have hone := hwritten _ _ hhead
        rw [Option.getD_some, hone] at hlength
        cases hlength
    | absent hnone => cases hlength

end Mvcc
end Leetcode
