import Leetcode.Mvcc.Isolation

/-!
# A transaction that aborts leaves nothing behind

The run of a client is compared with the same run without the writes of one transaction.

* `Without` — the store of the second run is the store of the first one without the
  versions of the transaction.
* `without_step`, `without_write` — one call that is made in both runs, and one that is not.
* `abort_undoes` — the second run exists, nobody else reads anything different in it, and
  from the abort on both stores have the same versions.
-/

namespace Leetcode
namespace Mvcc

open CLib

/-! ## Erasing writes -/

/-- The call is an `mvcc_write` of `T`. -/
def Op.writtenBy (T : TxId) : Op → Bool
  | .write tx _ _ => tx = T
  | _ => false

/-- The calls without the writes of `T`. -/
def eraseWrites (T : TxId) (ops : List Op) : List Op := ops.filter fun op => !op.writtenBy T

/-- What one call reads, if it is an `mvcc_read` of a transaction other than `T`. -/
def System.readBy (T : TxId) (s : System) : Op → List (TxId × Bytes × Option Bytes)
  | .read tx key => if tx = T then [] else [(tx, key, mvccRead s.store tx key)]
  | _ => []

/-- The results of `mvcc_read` in a run, other than those of `T`, in the order of the
calls. -/
def System.reads (T : TxId) : System → List Op → List (TxId × Bytes × Option Bytes)
  | _, [] => []
  | s, op :: ops =>
      s.readBy T op ++
        match s.step op with
        | some t => System.reads T t ops
        | none => []

theorem System.reads_cons {s t : System} {op : Op} (T : TxId) (h : s.step op = some t)
    (ops : List Op) : s.reads T (op :: ops) = s.readBy T op ++ t.reads T ops := by
  rw [System.reads, h]

theorem eraseWrites_cons_of_pos {T : TxId} {op : Op} (h : op.writtenBy T = true)
    (ops : List Op) : eraseWrites T (op :: ops) = eraseWrites T ops := by
  simp [eraseWrites, h]

theorem eraseWrites_cons_of_neg {T : TxId} {op : Op} (h : op.writtenBy T = false)
    (ops : List Op) : eraseWrites T (op :: ops) = op :: eraseWrites T ops := by
  simp [eraseWrites, h]

/-! ## The entries of the store -/

/-- The keys that have an entry. -/
def Store.keys (s : Store) : List Bytes := s.db.map KVPair.key

theorem keys_pushVersion (key : Bytes) (ver : Version) (db : List KVPair) :
    (pushVersion key ver db).map KVPair.key =
      if key ∈ db.map KVPair.key then db.map KVPair.key else db.map KVPair.key ++ [key] := by
  induction db with
  | nil => simp [pushVersion]
  | cons kv rest ih =>
      by_cases hkv : kv.key = key
      · simp [pushVersion, hkv]
      · have hkv' : key ≠ kv.key := Ne.symm hkv
        rw [pushVersion, if_neg hkv, List.map_cons, List.map_cons, ih]
        by_cases hmem : key ∈ rest.map KVPair.key <;> simp [hmem, hkv']

theorem keys_mapVersions (f : List Version → List Version) (db : List KVPair) :
    (mapVersions f db).map KVPair.key = db.map KVPair.key := by
  simp [mapVersions]

/-- There is room for the key. -/
theorem mvccWrite_isSome_iff {s : Store} {tx : TxId} {key value : Bytes} :
    (mvccWrite s tx key value).isSome ↔ key ∈ s.keys ∨ s.keys.length < MAX_KEYS := by
  have hany : s.db.any (fun kv => kv.key = key) = true ↔ key ∈ s.keys := by
    simp [Store.keys]
  unfold mvccWrite
  rw [← hany, Store.keys, List.length_map]
  split
  · next hroom => simpa using hroom
  · next hfull => simpa using hfull

theorem Store.write_room {s t : Store} {tx : TxId} {key value : Bytes}
    (h : s.step (.write tx key value) = some t) :
    key ∈ s.keys ∨ s.keys.length < MAX_KEYS :=
  mvccWrite_isSome_iff.1 (Option.isSome_iff_exists.2 ⟨t, h⟩)

/-- Only a write makes an entry, and only one for its key. -/
theorem Store.step_keys {s t : Store} {op : Op} (h : s.step op = some t) :
    t.keys = s.keys ∨
      ∃ tx key value, op = .write tx key value ∧ key ∉ s.keys ∧ t.keys = s.keys ++ [key] := by
  cases op with
  | begin id =>
      simp only [Store.step, beginTx] at h
      split at h
      · cases h
        exact Or.inl rfl
      · cases h
  | acquire tx key type =>
      simp only [Store.step, Option.some.injEq] at h
      subst h
      left
      unfold acquireLock
      split <;> rfl
  | read tx key =>
      simp only [Store.step, Option.some.injEq] at h
      exact Or.inl (h ▸ rfl)
  | write tx key value =>
      simp only [Store.step, mvccWrite] at h
      split at h
      · cases h
        have hkeys := keys_pushVersion key ⟨value, (s.transactions tx).id, false, 0⟩ s.db
        by_cases hmem : key ∈ s.keys
        · exact Or.inl (hkeys.trans (if_pos hmem))
        · exact Or.inr ⟨tx, key, value, rfl, hmem, hkeys.trans (if_neg hmem)⟩
      · cases h
  | commit tx =>
      simp only [Store.step, commitTx] at h
      split at h
      · cases h
        exact Or.inl (keys_mapVersions _ _)
      · cases h
  | abort tx =>
      simp only [Store.step, Option.some.injEq] at h
      subst h
      exact Or.inl (keys_mapVersions _ _)

theorem Store.write_keys {s t : Store} {tx : TxId} {key value : Bytes}
    (h : s.step (.write tx key value) = some t) : key ∈ t.keys := by
  have hkeys := keys_pushVersion key ⟨value, (s.transactions tx).id, false, 0⟩ s.db
  simp only [Store.step, mvccWrite] at h
  split at h
  · cases h
    rw [Store.keys, hkeys]
    split
    · assumption
    · simp
  · cases h

/-! ## The two stores -/

/-- The state `s'` is `s` without the versions of `T`. -/
structure Without (T : TxId) (s s' : System) : Prop where
  transactions : s'.store.transactions = s.store.transactions
  globalTs : s'.store.globalTs = s.store.globalTs
  status : ∀ i, (s'.history i).status = (s.history i).status
  versions : ∀ key, s'.store.versions key = (s.store.versions key).filter fun ver => ver.txId ≠ T
  keys : s'.store.keys ⊆ s.store.keys
  nodup : s'.store.keys.Nodup
  length_le : s.store.keys.length ≤ MAX_KEYS

theorem without_init (T : TxId) : Without T System.init System.init where
  transactions := rfl
  globalTs := rfl
  status _ := rfl
  versions _ := rfl
  keys := List.Subset.refl _
  nodup := List.nodup_nil
  length_le := Nat.zero_le _

/-- What a call does to its row depends on the rows and the clock only. -/
theorem Store.row_congr {s s' : Store} (htransactions : s'.transactions = s.transactions)
    (hts : s'.globalTs = s.globalTs) (op : Op) : s'.row op = s.row op := by
  have hacquire : ∀ tx key type,
      (acquireLock s' tx key type).1 = (acquireLock s tx key type).1 := by
    intro tx key type
    unfold acquireLock firstConflict
    rw [htransactions]
    split <;> rfl
  cases op with
  | acquire tx key type =>
      simp only [Store.row]
      rw [hacquire, htransactions]
  | begin id => simp only [Store.row, hts]
  | _ => simp only [Store.row, htransactions]

variable {T : TxId} {s s' t : System} {op : Op}

/-- The entries of the first store leave room for those of the second one. -/
theorem Without.room (hw : Without T s s') {key : Bytes}
    (hroom : key ∈ s.store.keys ∨ s.store.keys.length < MAX_KEYS) :
    key ∈ s'.store.keys ∨ s'.store.keys.length < MAX_KEYS := by
  have hle := (List.subperm_of_subset hw.nodup hw.keys).length_le
  have hlength := hw.length_le
  by_cases hmem : key ∈ s'.store.keys
  · exact Or.inl hmem
  · right
    rcases hroom with hkey | hlt
    · have hnew : (key :: s'.store.keys).Nodup := List.nodup_cons.2 ⟨hmem, hw.nodup⟩
      have hsub := List.subperm_of_subset hnew (List.cons_subset.2 ⟨hkey, hw.keys⟩)
      have hlt := hsub.length_le
      rw [List.length_cons] at hlt
      omega
    · omega

/-- A call of the first run can be made in the second one. -/
theorem Without.step_exists (hw : Without T s s') (h : s.step op = some t) :
    ∃ t', s'.step op = some t' := by
  obtain ⟨hstore, -⟩ := System.step_eq_some h
  have hexists : (s'.store.step op).isSome := by
    cases op with
    | begin id =>
        simp only [Store.step, beginTx] at hstore ⊢
        rw [hw.globalTs]
        split at hstore
        · next hlt => rw [if_pos hlt]; rfl
        · cases hstore
    | acquire tx key type => rfl
    | read tx key => rfl
    | write tx key value =>
        exact mvccWrite_isSome_iff.2 (hw.room (Store.write_room hstore))
    | commit tx =>
        simp only [Store.step, commitTx] at hstore ⊢
        rw [hw.globalTs]
        split at hstore
        · next hlt => rw [if_pos hlt]; rfl
        · cases hstore
    | abort tx => rfl
  obtain ⟨store, hstore'⟩ := Option.isSome_iff_exists.1 hexists
  exact ⟨_, by rw [System.step, hstore', Option.map_some]⟩

/-- The versions stay those without `T`. -/
theorem Without.versionsAfter (hw : Without T s s') (hs : s.Traced) (hok : s.Client op)
    (hop : op.writtenBy T = false) (key : Bytes) :
    s'.store.versionsAfter key op =
      (s.store.versionsAfter key op).filter fun ver => ver.txId ≠ T := by
  have hversions := hw.versions key
  cases op with
  | begin id => exact hversions
  | acquire tx key' type => exact hversions
  | read tx key' => exact hversions
  | write tx key' value =>
      have hbegun : (s.history tx).status ≠ .unused := hok.2.resolve_left (by simp)
      have htx : tx ≠ T := by simpa [Op.writtenBy] using hop
      simp only [Store.versionsAfter]
      rw [hw.transactions, hversions, hs.named tx hbegun]
      split
      · rw [List.filter_cons_of_pos (by simpa using htx)]
      · rfl
  | commit tx =>
      simp only [Store.versionsAfter]
      rw [hw.transactions, hw.globalTs, hversions, List.filter_map]
      congr 1
      refine List.filter_congr fun ver _ => ?_
      rw [Function.comp_apply, stamp_txId]
  | abort tx =>
      simp only [Store.versionsAfter]
      rw [hw.transactions, hversions, List.filter_filter, List.filter_filter]
      refine List.filter_congr fun ver _ => ?_
      rw [Bool.and_comm]

/-- The length of the table never passes its bound. -/
theorem Without.length_step (hw : Without T s s') (h : s.step op = some t) :
    t.store.keys.length ≤ MAX_KEYS := by
  obtain ⟨hstore, -⟩ := System.step_eq_some h
  rcases Store.step_keys hstore with hsame | ⟨tx, key, value, rfl, hnew, hkeys⟩
  · rw [hsame]
    exact hw.length_le
  · have hroom := (Store.write_room hstore).resolve_left hnew
    rw [hkeys, List.length_append, List.length_singleton]
    exact hroom

/-- One call that is made in both runs. -/
theorem without_step (hw : Without T s s') (hs : s.Traced) (hok : s.Client op)
    (hop : op.writtenBy T = false) (h : s.step op = some t) :
    ∃ t', s'.step op = some t' ∧ Without T t t' := by
  obtain ⟨t', h'⟩ := hw.step_exists h
  obtain ⟨hstore, -⟩ := System.step_eq_some h
  obtain ⟨hstore', -⟩ := System.step_eq_some h'
  refine ⟨t', h', ?_, ?_, fun i => ?_, fun key => ?_, ?_, ?_, hw.length_step h⟩
  · rw [Store.step_transactions hstore', Store.step_transactions hstore, hw.transactions,
      Store.row_congr hw.transactions hw.globalTs]
  · rw [Store.step_globalTs hstore', Store.step_globalTs hstore, hw.globalTs]
  · rw [System.step_status h', System.step_status h, hw.globalTs, hw.status]
  · rw [Store.step_versions hstore', Store.step_versions hstore,
      hw.versionsAfter hs hok hop]
  · have hgrow : s.store.keys ⊆ t.store.keys := by
      rcases Store.step_keys hstore with hsame | ⟨_, _, _, -, -, hkeys⟩
      · rw [hsame]
        exact List.Subset.refl _
      · rw [hkeys]
        exact List.subset_append_left _ _
    rcases Store.step_keys hstore' with hsame | ⟨tx, key, value, rfl, -, hkeys'⟩
    · rw [hsame]
      exact List.Subset.trans hw.keys hgrow
    · rw [hkeys']
      refine List.append_subset.2 ⟨List.Subset.trans hw.keys hgrow, ?_⟩
      simpa using Store.write_keys hstore
  · rcases Store.step_keys hstore' with hsame | ⟨tx, key, value, rfl, hnew, hkeys'⟩
    · rw [hsame]
      exact hw.nodup
    · rw [hkeys']
      exact List.nodup_append.2 ⟨hw.nodup, List.nodup_singleton _, by
        rintro a ha b hb rfl
        exact hnew (List.mem_singleton.1 hb ▸ ha)⟩

/-- A write of `T` is made in the first run only. -/
theorem without_write (hw : Without T s s') (hs : s.Traced) (hok : s.Client op)
    (hop : op.writtenBy T = true) (h : s.step op = some t) : Without T t s' := by
  obtain ⟨hstore, -⟩ := System.step_eq_some h
  cases op with
  | write tx key' value =>
      obtain rfl : tx = T := by simpa [Op.writtenBy] using hop
      have hbegun : (s.history tx).status ≠ .unused := hok.2.resolve_left (by simp)
      refine ⟨?_, ?_, fun i => ?_, fun key => ?_, ?_, hw.nodup, hw.length_step h⟩
      · rw [Store.step_transactions hstore, hw.transactions]
        exact (Function.update_eq_self _ _).symm
      · rw [Store.step_globalTs hstore, hw.globalTs]
        rfl
      · rw [System.step_status h, hw.status]
        split <;> rfl
      · rw [Store.step_versions hstore, Store.versionsAfter, hw.versions, hs.named tx hbegun]
        split
        · rw [List.filter_cons_of_neg (by simp)]
        · rfl
      · rcases Store.step_keys hstore with hsame | ⟨_, _, _, -, -, hkeys⟩
        · rw [hsame]
          exact hw.keys
        · rw [hkeys]
          exact List.subset_append_of_subset_left _ hw.keys
  | begin _ | acquire _ _ _ | read _ _ | commit _ | abort _ => cases hop

theorem Without.client (hw : Without T s s') : s'.Client op ↔ s.Client op := by
  have hstatus := hw.status
  unfold System.Client System.Begun
  rw [hstatus]
  refine and_congr_left fun _ => ?_
  cases op <;> simp only [System.Ordered, hstatus]

/-! ## The two runs -/

/-- Nobody but `T` sees the tentative versions of `T`. -/
theorem Without.readBy (hw : Without T s s') (hs : s.Traced) (hok : s.Client op)
    (hT : ∀ ts, (s.history T).status ≠ .committed ts) : s'.readBy T op = s.readBy T op := by
  cases op with
  | read tx key =>
      have hbegun : (s.history tx).status ≠ .unused := hok.2.resolve_left (by simp)
      simp only [System.readBy]
      split
      · rfl
      · next htx =>
          have hne : (s.store.transactions tx).id ≠ T := by rwa [hs.named tx hbegun]
          rw [mvccRead, mvccRead, hw.transactions, hw.versions, latest_filter hne]
          intro ver hver hid
          exact hs.tentative hver (by rwa [hid])
  | begin _ | acquire _ _ _ | write _ _ _ | commit _ | abort _ => rfl

/-- A transaction that has not committed at the end never had. -/
theorem notCommitted_of_run {ops : List Op} (h : Run System.step System.Client s ops t)
    (hT : ∀ ts, (t.history T).status ≠ .committed ts) :
    ∀ ts, (s.history T).status ≠ .committed ts := by
  intro ts hts
  have hsame := finished_run (fun _ _ hok => hok.1) h (i := T) (by rw [hts]; exact nofun)
    (by rw [hts]; exact nofun)
  exact hT ts (hsame.trans hts)

theorem without_run {ops : List Op} (h : Run System.step System.Client s ops t) (hs : s.Sound)
    (hw : Without T s s') (hT : ∀ ts, (t.history T).status ≠ .committed ts) :
    ∃ t', Run System.step System.Client s' (eraseWrites T ops) t' ∧ Without T t t' ∧
      s'.reads T (eraseWrites T ops) = s.reads T ops := by
  induction h generalizing s' with
  | nil s => exact ⟨s', .nil s', hw, rfl⟩
  | @cons s u t op ops hok hstep hrun ih =>
      have hread := hw.readBy hs.traced hok
        (notCommitted_of_run (.cons hok hstep hrun) hT)
      have hsound := sound_step hs hok hstep
      cases hop : op.writtenBy T with
      | true =>
          obtain ⟨t', hrun', hw', hreads⟩ :=
            ih hsound (without_write hw hs.traced hok hop hstep) hT
          refine ⟨t', ?_, hw', ?_⟩
          · rwa [eraseWrites_cons_of_pos hop]
          · rw [eraseWrites_cons_of_pos hop, hreads, System.reads_cons T hstep]
            cases op with
            | write tx key value => rfl
            | begin _ | acquire _ _ _ | read _ _ | commit _ | abort _ => cases hop
      | false =>
          obtain ⟨u', hstep', hwu⟩ := without_step hw hs.traced hok hop hstep
          obtain ⟨t', hrun', hw', hreads⟩ := ih hsound hwu hT
          have hok' : s'.Client op := hw.client.2 hok
          refine ⟨t', ?_, hw', ?_⟩
          · rw [eraseWrites_cons_of_neg hop]
            exact .cons hok' hstep' hrun'
          · rw [eraseWrites_cons_of_neg hop, System.reads_cons T hstep,
              System.reads_cons T hstep', hread, hreads]

/-- No version in the store is one of `T`. -/
def Store.Clean (T : TxId) (s : Store) : Prop := ∀ key, ∀ ver ∈ s.versions key, ver.txId ≠ T

/-- Only `T` itself brings versions of `T` back. -/
theorem clean_step (hc : s.store.Clean T) (hs : s.Traced) (hok : s.Client op)
    (hop : op.writtenBy T = false) (h : s.step op = some t) : t.store.Clean T := by
  obtain ⟨hstore, -⟩ := System.step_eq_some h
  intro key ver hver
  rw [Store.step_versions hstore] at hver
  cases op with
  | begin id => exact hc key ver hver
  | acquire tx key' type => exact hc key ver hver
  | read tx key' => exact hc key ver hver
  | write tx key' value =>
      have hbegun : (s.history tx).status ≠ .unused := hok.2.resolve_left (by simp)
      rw [Store.versionsAfter] at hver
      split at hver
      · rcases List.mem_cons.1 hver with rfl | hver
        · simpa [Op.writtenBy, hs.named tx hbegun] using hop
        · exact hc key ver hver
      · exact hc key ver hver
  | commit tx =>
      obtain ⟨old, hold, rfl⟩ := List.mem_map.1 hver
      rw [stamp_txId]
      exact hc key old hold
  | abort tx => exact hc key ver (List.mem_filter.1 hver).1

theorem clean_run {ops : List Op} (hc : s.store.Clean T) (hs : s.Sound)
    (h : Run System.step System.Client s ops t) (hops : ∀ op ∈ ops, op.writtenBy T = false) :
    t.store.Clean T := by
  induction h with
  | nil s => exact hc
  | @cons s u t op ops hok hstep hrun ih =>
      have hop := hops op List.mem_cons_self
      exact ih (clean_step hc hs.traced hok hop hstep) (sound_step hs hok hstep) fun op' hop' =>
        hops op' (List.mem_cons_of_mem _ hop')

/-- The abort itself. -/
theorem clean_abort (hs : s.Traced) (hok : s.Client (.abort T)) (h : s.step (.abort T) = some t) :
    t.store.Clean T ∧ (t.history T).status = .aborted := by
  obtain ⟨hstore, -⟩ := System.step_eq_some h
  refine ⟨fun key ver hver => ?_, System.abort_status h⟩
  rw [Store.step_versions hstore, Store.versionsAfter, hs.named_active hok.1] at hver
  simpa using (List.mem_filter.1 hver).2

theorem Without.versions_eq (hw : Without T s s') (hc : s.store.Clean T) (key : Bytes) :
    s'.store.versions key = s.store.versions key := by
  rw [hw.versions key, List.filter_eq_self]
  intro ver hver
  simpa using hc key ver hver

/-- A run in which `T` aborts can be made without the writes of `T` too: the results of
all other transactions are the same, and so are the versions of every key behind the
abort, and for as long as `T` writes nothing more. -/
theorem abort_undoes {before after : List Op} {T : TxId} {t : System}
    (h : Run System.step System.Client System.init (before ++ .abort T :: after) t) :
    ∃ mid mid' t',
      Run System.step System.Client System.init (before ++ [.abort T]) mid ∧
      Run System.step System.Client mid after t ∧
      Run System.step System.Client System.init (eraseWrites T (before ++ [.abort T])) mid' ∧
      Run System.step System.Client mid' (eraseWrites T after) t' ∧
      System.init.reads T (eraseWrites T (before ++ .abort T :: after)) =
        System.init.reads T (before ++ .abort T :: after) ∧
      (∀ key, mid'.store.versions key = mid.store.versions key) ∧
      ((∀ op ∈ after, op.writtenBy T = false) →
        ∀ key, t'.store.versions key = t.store.versions key) := by
  have hsplit : before ++ .abort T :: after = (before ++ [.abort T]) ++ after := by simp
  obtain ⟨mid, hfirst, hsecond⟩ := Run.append_iff.1 (hsplit ▸ h)
  obtain ⟨s, hbefore, hlast⟩ := Run.append_iff.1 hfirst
  have habort : mid.store.Clean T ∧ (mid.history T).status = .aborted := by
    cases hlast with
    | cons hok hstep hnil =>
        cases hnil
        exact clean_abort (sound_run hbefore).traced hok hstep
  have hmid := sound_run hfirst
  have hend : (t.history T).status = .aborted := by
    rw [finished_run (fun _ _ hok => hok.1) hsecond (by rw [habort.2]; exact nofun)
      (by rw [habort.2]; exact nofun)]
    exact habort.2
  obtain ⟨mid', hfirst', hw, -⟩ := without_run hfirst sound_init (without_init T)
    (by rw [habort.2]; exact nofun)
  obtain ⟨t', hsecond', hw', -⟩ := without_run hsecond hmid hw (by rw [hend]; exact nofun)
  obtain ⟨-, -, -, hreads⟩ := without_run h sound_init (without_init T)
    (by rw [hend]; exact nofun)
  exact ⟨mid, mid', t', hfirst, hsecond, hfirst', hsecond', hreads, hw.versions_eq habort.1,
    fun hops => hw'.versions_eq (clean_run habort.1 hmid hsecond hops)⟩

/-- Transaction 2 aborts with its version between those of others. -/
theorem abort_undoes_between :
    ∃ t mid mid' t',
      Run System.step System.Client System.init
        ([.begin 1, .write 1 (ascii "x") (ascii "1"), .begin 2, .write 2 (ascii "x") (ascii "2"),
          .begin 3, .write 3 (ascii "x") (ascii "3"), .read 1 (ascii "x")] ++
          .abort 2 :: [.commit 3, .read 1 (ascii "x")]) t ∧
      Run System.step System.Client mid [.commit 3, .read 1 (ascii "x")] t ∧
      Run System.step System.Client mid' (eraseWrites 2 [.commit 3, .read 1 (ascii "x")]) t' ∧
      (∀ key, mid'.store.versions key = mid.store.versions key) := by
  have hrun : Run System.step System.Client System.init
      ([.begin 1, .write 1 (ascii "x") (ascii "1"), .begin 2, .write 2 (ascii "x") (ascii "2"),
        .begin 3, .write 3 (ascii "x") (ascii "3"), .read 1 (ascii "x")] ++
        .abort 2 :: [.commit 3, .read 1 (ascii "x")]) _ :=
    Run.of_exec (t := Option.get _ (by decide)) (Option.some_get _).symm
  obtain ⟨mid, mid', t', -, hsecond, -, hsecond', -, hversions, -⟩ := abort_undoes hrun
  exact ⟨_, mid, mid', t', hrun, hsecond, hsecond', hversions⟩

end Mvcc
end Leetcode
