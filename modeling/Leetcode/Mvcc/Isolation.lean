import Leetcode.Mvcc.Snapshot

/-!
# Isolation without a locking convention

Nothing here asks a writer to hold a lock, so a version list need not be ordered.

* `locks_compatible` — the locks of active transactions never conflict, whatever is called.
* `System.Client` — ids are used once, only active transactions end, and every call but
  `begin_tx` is made for a transaction that `begin_tx` has returned.
* `System.Traced` — a committed version carries the timestamp of its writer.
* `repeatable_reads` — what other transactions do does not change what a transaction reads.
-/

namespace Leetcode
namespace Mvcc

open CLib

/-! ## Locks -/

/-- In every state that any calls lead to, two different active transactions that both
hold a lock on a key hold `READ` locks. -/
theorem locks_compatible {ops : List Op} {s : Store}
    (h : Run Store.step (fun _ _ => True) Store.init ops s) : s.Compatible := by
  have hsystem : ∃ S : System, S.store = s ∧ S.Slots ∧ S.store.Compatible := by
    refine h.invariant (I := fun s => ∃ S : System, S.store = s ∧ S.Slots ∧ S.store.Compatible)
      ⟨System.init, rfl, slots_init, compatible_init⟩ ?_
    intro s op t hS _ hstep
    obtain ⟨S, rfl, hslots, hcompatible⟩ := hS
    have hS : S.step op =
        some ⟨t, Function.update S.history op.tx (S.event (S.history op.tx) op)⟩ := by
      rw [System.step, hstep, Option.map_some]
    exact ⟨_, rfl, slots_step hslots hS, compatible_step hslots hcompatible hS⟩
  obtain ⟨S, rfl, -, hcompatible⟩ := hsystem
  exact hcompatible

/-- Slot 1 asks for a lock after its commit, is begun again and shares the key. -/
theorem locks_compatible_reused :
    ∃ s, Run Store.step (fun _ _ => True) Store.init
        [.begin 1, .begin 2, .acquire 1 (ascii "x") .READ, .acquire 2 (ascii "x") .READ,
          .commit 1, .acquire 1 (ascii "x") .WRITE, .acquire 1 (ascii "x") .READ, .begin 1,
          .acquire 1 (ascii "x") .READ] s ∧
      (s.transactions 1).locks = [⟨ascii "x", .READ, 1⟩] ∧
      (s.transactions 2).locks = [⟨ascii "x", .READ, 2⟩] ∧ s.Compatible := by
  refine ⟨_, Run.of_exec (t := Option.get _ (by decide)) (Option.some_get _).symm, by decide,
    by decide, ?_⟩
  exact locks_compatible (Run.of_exec (Option.some_get _).symm)

/-! ## The calls of a client -/

/-- The call is `begin_tx`, or it is made for a transaction that `begin_tx` has returned. -/
def System.Begun (s : System) (op : Op) : Prop :=
  (∃ id, op = .begin id) ∨ (s.history op.tx).status ≠ .unused

instance (s : System) : ∀ op, Decidable (s.Begun op)
  | .begin id => .isTrue (Or.inl ⟨id, rfl⟩)
  | .acquire _ _ _ | .read _ _ | .write _ _ _ | .commit _ | .abort _ =>
      decidable_of_iff _ ⟨Or.inr, fun h => h.resolve_left (by simp)⟩

/-- The calls of a client that holds no locks. -/
def System.Client (s : System) (op : Op) : Prop :=
  s.Ordered op ∧ s.Begun op

instance (s : System) (op : Op) : Decidable (s.Client op) :=
  inferInstanceAs (Decidable (_ ∧ _))

/-- The status an operation leaves its id with. -/
def statusAfter (ts : Nat) (status : Status) : Op → Status
  | .begin _ => .active
  | .commit _ => .committed ts
  | .abort _ => .aborted
  | .acquire _ _ _ | .read _ _ | .write _ _ _ => status

theorem System.event_status (s : System) (h : TxHistory) (op : Op) :
    (s.event h op).status = statusAfter s.store.globalTs h.status op := by
  cases op with
  | acquire tx key type =>
      by_cases hgrant : (acquireLock s.store tx key type).1 = true
      · rw [System.event_granted hgrant, statusAfter]
      · rw [System.event_refused hgrant, statusAfter]
  | _ => rfl

theorem System.step_status {s t : System} {op : Op} (h : s.step op = some t) (i : TxId) :
    (t.history i).status =
      if i = op.tx then statusAfter s.store.globalTs (s.history i).status op
      else (s.history i).status := by
  obtain ⟨hself, hother⟩ := System.step_history h
  split
  · next hi =>
      subst hi
      rw [hself, System.event_status]
  · next hi => rw [hother i hi]

theorem System.commit_status {s t : System} {tx : TxId} (h : s.step (.commit tx) = some t) :
    (t.history tx).status = .committed s.store.globalTs :=
  (System.step_status h tx).trans (if_pos rfl)

theorem System.abort_status {s t : System} {tx : TxId} (h : s.step (.abort tx) = some t) :
    (t.history tx).status = .aborted :=
  (System.step_status h tx).trans (if_pos rfl)

/-- Nothing changes the status of a transaction that has ended. -/
theorem finished_step {s t : System} {op : Op} (hok : s.Ordered op) (h : s.step op = some t)
    {i : TxId} (hunused : (s.history i).status ≠ .unused)
    (hactive : (s.history i).status ≠ .active) :
    (t.history i).status = (s.history i).status := by
  rw [System.step_status h]
  split
  · next hi =>
      subst hi
      cases op with
      | begin id => exact absurd hok hunused
      | commit tx => exact absurd hok hactive
      | abort tx => exact absurd hok hactive
      | acquire tx key type => rfl
      | read tx key => rfl
      | write tx key value => rfl
  · rfl

theorem finished_run {ok : System → Op → Prop} (hok : ∀ s op, ok s op → s.Ordered op)
    {s t : System} {ops : List Op} (h : Run System.step ok s ops t) {i : TxId}
    (hunused : (s.history i).status ≠ .unused) (hactive : (s.history i).status ≠ .active) :
    (t.history i).status = (s.history i).status := by
  refine h.invariant (I := fun u => (u.history i).status = (s.history i).status) rfl ?_
  intro u op v hu hop hstep
  rw [← hu] at hunused hactive ⊢
  exact finished_step (hok u op hop) hstep hunused hactive

/-! ## The versions and their writers -/

/-- A begun row has the number of its slot, and a committed version is one of a
transaction that committed at its timestamp. -/
structure System.Traced (s : System) : Prop where
  named : ∀ i, (s.history i).status ≠ .unused → (s.store.transactions i).id = i
  stamped : ∀ key, ∀ ver ∈ s.store.versions key, ver.committed = true →
    (s.history ver.txId).status = .committed ver.commitTs

theorem System.Traced.named_active {s : System} (hs : s.Traced) {i : TxId}
    (hactive : (s.history i).status = .active) : (s.store.transactions i).id = i := by
  apply hs.named
  rw [hactive]
  decide

theorem traced_init : System.init.Traced where
  named i hi := absurd rfl hi
  stamped key ver hver := by cases hver

/-- Only `begin_tx` changes the number and the snapshot of a row. -/
theorem Store.row_same (s : Store) {op : Op} (hop : ∀ id, op ≠ .begin id) :
    (s.row op).id = (s.transactions op.tx).id ∧
      (s.row op).startTs = (s.transactions op.tx).startTs := by
  cases op with
  | begin id => exact absurd rfl (hop id)
  | acquire tx key type =>
      by_cases hgrant : (acquireLock s tx key type).1 = true
      · simp [Store.row, hgrant, Op.tx]
      · simp [Store.row, hgrant, Op.tx]
  | _ => exact ⟨rfl, rfl⟩

theorem named_step {s t : System} {op : Op} (hs : s.Traced) (hok : s.Client op)
    (h : s.step op = some t) (i : TxId) (hi : (t.history i).status ≠ .unused) :
    (t.store.transactions i).id = i := by
  obtain ⟨hstore, -⟩ := System.step_eq_some h
  rw [System.step_status h] at hi
  rw [Store.step_transactions hstore]
  by_cases htx : i = op.tx
  · subst htx
    rw [Function.update_self]
    rcases hok.2 with ⟨id, rfl⟩ | hbegun
    · rfl
    · by_cases hop : ∃ id, op = .begin id
      · obtain ⟨id, rfl⟩ := hop
        rfl
      · rw [(s.store.row_same fun id hid => hop ⟨id, hid⟩).1]
        exact hs.named _ hbegun
  · rw [Function.update_of_ne htx]
    rw [if_neg htx] at hi
    exact hs.named i hi

/-- The versions of a transaction that has not committed are tentative. -/
theorem System.Traced.tentative {s : System} (hs : s.Traced) {key : Bytes} {ver : Version}
    (hver : ver ∈ s.store.versions key)
    (hstatus : ∀ ts, (s.history ver.txId).status ≠ .committed ts) : ver.committed = false :=
  Bool.eq_false_iff.2 fun hcom => hstatus _ (hs.stamped key ver hver hcom)

/-- A committed version was there before, or the operation commits its writer. -/
theorem stamped_cases {s : System} {op : Op} (hs : s.Traced) (hok : s.Client op) {key : Bytes}
    {ver : Version} (hver : ver ∈ s.store.versionsAfter key op) (hcom : ver.committed = true) :
    ver ∈ s.store.versions key ∨ (op = .commit ver.txId ∧ ver.commitTs = s.store.globalTs) := by
  cases op with
  | begin id => exact Or.inl hver
  | acquire tx key' type => exact Or.inl hver
  | read tx key' => exact Or.inl hver
  | write tx key' value =>
      left
      rw [Store.versionsAfter] at hver
      split at hver
      · rcases List.mem_cons.1 hver with rfl | hver
        · cases hcom
        · exact hver
      · exact hver
  | commit tx =>
      have hact : (s.history tx).status = .active := hok.1
      have hid := hs.named_active hact
      rw [Store.versionsAfter, hid] at hver
      obtain ⟨old, hold, rfl⟩ := List.mem_map.1 hver
      rw [stamp_txId]
      by_cases htx : old.txId = tx
      · rw [stamp, if_pos htx, htx]
        exact Or.inr ⟨rfl, rfl⟩
      · rw [stamp, if_neg htx]
        exact Or.inl hold
  | abort tx => exact Or.inl (List.mem_filter.1 hver).1

theorem stamped_step {s t : System} {op : Op} (hs : s.Traced) (hok : s.Client op)
    (h : s.step op = some t) {key : Bytes} {ver : Version} (hver : ver ∈ t.store.versions key)
    (hcom : ver.committed = true) : (t.history ver.txId).status = .committed ver.commitTs := by
  obtain ⟨hstore, -⟩ := System.step_eq_some h
  rw [Store.step_versions hstore] at hver
  rcases stamped_cases hs hok hver hcom with hold | ⟨hop, hts⟩
  · have hstatus := hs.stamped key ver hold hcom
    rw [finished_step hok.1 h (by rw [hstatus]; exact nofun) (by rw [hstatus]; exact nofun)]
    exact hstatus
  · rw [hts]
    exact System.commit_status (hop ▸ h)

theorem traced_step {s t : System} {op : Op} (hs : s.Traced) (hok : s.Client op)
    (h : s.step op = some t) : t.Traced where
  named := named_step hs hok h
  stamped _ _ hver hcom := stamped_step hs hok h hver hcom

/-- What the runs of a client preserve. -/
structure System.Sound (s : System) : Prop where
  slots : s.Slots
  clock : s.Clock
  traced : s.Traced

theorem sound_init : System.init.Sound := ⟨slots_init, clock_init, traced_init⟩

theorem sound_step {s t : System} {op : Op} (hs : s.Sound) (hok : s.Client op)
    (h : s.step op = some t) : t.Sound :=
  ⟨slots_step hs.slots h, clock_step hs.clock h, traced_step hs.traced hok h⟩

theorem sound_run {ops : List Op} {s : System}
    (h : Run System.step System.Client System.init ops s) : s.Sound :=
  h.invariant sound_init fun _ _ _ hs hok hstep => sound_step hs hok hstep

/-! ## Versions that do not matter to a reader -/

/-- Tentative versions of another transaction may be taken out. -/
theorem latest_filter {t : Transaction} {vs : List Version} {id : TxId} (hne : t.id ≠ id)
    (htentative : ∀ ver ∈ vs, ver.txId = id → ver.committed = false) :
    latest t (vs.filter fun ver => ver.txId ≠ id) = latest t vs := by
  rw [latest_eq_find?, latest_eq_find?, List.find?_filter]
  refine List.find?_congr fun ver hver => ?_
  by_cases hid : ver.txId = id
  · have hvisible : visible t ver = false := by
      rw [visible, htentative ver hver hid, hid]
      simpa using hne.symm
    simp [hvisible]
  · simp [hid]

/-- They may also be committed later than the snapshot. -/
theorem latest_stamp {t : Transaction} {vs : List Version} {id : TxId} {ts : Nat}
    (hne : t.id ≠ id) (hts : t.startTs < ts)
    (htentative : ∀ ver ∈ vs, ver.txId = id → ver.committed = false) :
    (latest t (vs.map (stamp id ts))).map Version.value = (latest t vs).map Version.value := by
  have hvisible : vs.find? (visible t ∘ stamp id ts) = vs.find? (visible t) := by
    refine List.find?_congr fun ver hver => ?_
    rw [Function.comp_apply]
    by_cases hid : ver.txId = id
    · have hbefore : visible t ver = false := by
        rw [visible, htentative ver hver hid, hid]
        simpa using hne.symm
      have hafter : visible t (stamp id ts ver) = false := by
        rw [stamp, if_pos hid, visible]
        simpa using hts
      rw [hbefore, hafter]
    · rw [stamp, if_neg hid]
  rw [latest_eq_find?, latest_eq_find?, List.find?_map, hvisible, Option.map_map]
  congr 1
  funext ver
  exact stamp_value id ts ver

/-- A tentative version of another transaction may be put in front. -/
theorem latest_cons {t : Transaction} {vs : List Version} {ver : Version} (hne : t.id ≠ ver.txId)
    (htentative : ver.committed = false) : latest t (ver :: vs) = latest t vs := by
  have hvisible : visible t ver = false := by
    rw [visible, htentative]
    simpa using hne.symm
  rw [latest_eq_find?, latest_eq_find?, List.find?_cons, hvisible]

/-! ## Repeatable reads -/

/-- The calls between two reads of `key` by `R`. -/
def System.Between (R : TxId) (key : Bytes) (s : System) (op : Op) : Prop :=
  s.Client op ∧ ∀ value, op ≠ .write R key value

instance (R : TxId) (key : Bytes) (s : System) : ∀ op, Decidable (s.Between R key op)
  | .write tx key' value =>
      decidable_of_iff (s.Client (.write tx key' value) ∧ ¬(tx = R ∧ key' = key))
        (and_congr_right fun _ =>
          ⟨fun h v hv => h (by simp only [Op.write.injEq] at hv; exact ⟨hv.1, hv.2.1⟩),
            fun h hv => h value (by rw [hv.1, hv.2])⟩)
  | .begin _ | .acquire _ _ _ | .read _ _ | .commit _ | .abort _ =>
      decidable_of_iff (s.Client _) ⟨fun h => ⟨h, fun _ => nofun⟩, And.left⟩

/-- The number and the snapshot of an active transaction stay as they are. -/
theorem reader_row {s t : System} {op : Op} {R : TxId} (hok : s.Client op)
    (hstore : s.store.step op = some t.store) (hR : (s.history R).status = .active) :
    (t.store.transactions R).id = (s.store.transactions R).id ∧
      (t.store.transactions R).startTs = (s.store.transactions R).startTs := by
  rw [Store.step_transactions hstore]
  by_cases htx : R = op.tx
  · subst htx
    rw [Function.update_self]
    refine s.store.row_same fun id hop => ?_
    subst hop
    have hunused : (s.history id).status = .unused := hok.1
    rw [show (s.history id).status = .active from hR] at hunused
    cases hunused
  · rw [Function.update_of_ne htx]
    exact ⟨rfl, rfl⟩

/-- What a transaction sees depends on these two fields of its row only. -/
theorem latest_congr {r r' : Transaction} (hid : r'.id = r.id) (hstart : r'.startTs = r.startTs)
    (vs : List Version) : latest r' vs = latest r vs := by
  have hvisible : visible r' = visible r := by
    funext ver
    rw [visible, visible, hid, hstart]
  rw [latest_eq_find?, latest_eq_find?, hvisible]

/-- The versions of another transaction that ends are tentative until then. -/
theorem tentative_until {s t : System} {R tx : TxId} {key : Bytes} (hs : s.Sound)
    (hid : (s.store.transactions R).id = R) (hR' : (t.history R).status = .active)
    (hended : (t.history tx).status ≠ .active) (htx : (s.history tx).status = .active) :
    (s.store.transactions R).id ≠ (s.store.transactions tx).id ∧
      ∀ ver ∈ s.store.versions key, ver.txId = (s.store.transactions tx).id →
        ver.committed = false := by
  have hname := hs.traced.named_active htx
  rw [hid, hname]
  refine ⟨?_, fun ver hver hvertx => hs.traced.tentative hver fun ts => ?_⟩
  · rintro rfl
    exact hended hR'
  · rw [hvertx, htx]
    exact nofun

/-- One step changes nothing about what an active transaction reads. -/
theorem mvccRead_step {s t : System} {op : Op} {R : TxId} {key : Bytes} (hs : s.Sound)
    (hok : s.Between R key op) (h : s.step op = some t) (hR : (s.history R).status = .active)
    (hR' : (t.history R).status = .active) :
    mvccRead t.store R key = mvccRead s.store R key := by
  obtain ⟨hstore, -⟩ := System.step_eq_some h
  have hactive := (hs.slots R).status_iff.2 hR
  have hid := (hs.slots R).id_eq hactive
  have hstart : (s.store.transactions R).startTs < s.store.globalTs := by
    rw [(hs.slots R).startTs_eq hactive]
    exact hs.clock.start_lt R
  obtain ⟨hsameId, hsameStart⟩ := reader_row hok.1 hstore hR
  rw [mvccRead, mvccRead, Store.step_versions hstore, latest_congr hsameId hsameStart]
  cases op with
  | begin id => rfl
  | acquire tx key' type => rfl
  | read tx key' => rfl
  | write tx key' value =>
      rw [Store.versionsAfter]
      split
      · next hkey =>
          subst hkey
          have hbegun : (s.history tx).status ≠ .unused := hok.1.2.resolve_left (by simp)
          have hne : R ≠ tx := by
            rintro rfl
            exact hok.2 value rfl
          rw [latest_cons _ rfl]
          rw [hid, hs.traced.named tx hbegun]
          exact hne
      · rfl
  | commit tx =>
      have hended : (t.history tx).status ≠ .active := by
        rw [System.commit_status h]
        intro hactive
        cases hactive
      obtain ⟨hne, htentative⟩ := tentative_until hs hid hR' hended hok.1.1
      exact latest_stamp hne hstart htentative
  | abort tx =>
      have hended : (t.history tx).status ≠ .active := by
        rw [System.abort_status h]
        intro hactive
        cases hactive
      obtain ⟨hne, htentative⟩ := tentative_until hs hid hR' hended hok.1.1
      rw [Store.versionsAfter, latest_filter hne htentative]

/-- Two reads of a key by an active transaction that does not write it in between return
the same, whatever other transactions do. -/
theorem repeatable_reads {ops between : List Op} {s t : System} {R : TxId} {key : Bytes}
    (hbefore : Run System.step System.Client System.init ops s)
    (hbetween : Run System.step (System.Between R key) s between t)
    (hR : (s.history R).status = .active) (hR' : (t.history R).status = .active) :
    mvccRead t.store R key = mvccRead s.store R key := by
  have hs := sound_run hbefore
  clear hbefore
  induction hbetween with
  | nil s => rfl
  | @cons s u t op ops hok hstep hrun ih =>
      have hu : (u.history R).status = .active := by
        by_contra hended
        have hunused : (u.history R).status ≠ .unused := by
          rw [System.step_status hstep]
          split
          · next htx =>
              subst htx
              rw [hR]
              cases op <;> exact nofun
          · rw [hR]
            exact nofun
        rw [finished_run (fun s op hop => hop.1.1) hrun hunused hended] at hR'
        exact hended hR'
      rw [ih hu hR' (sound_step hs hok.1 hstep), mvccRead_step hs hok hstep hR hu]

/-- Transaction 1 reads nothing before and after transaction 2 writes and commits, and
while transaction 3, which holds no lock either, has a version on top. -/
theorem repeatable_reads_overwritten :
    ∃ s t, Run System.step System.Client System.init [.begin 1, .begin 2] s ∧
      Run System.step (System.Between 1 (ascii "x")) s
        [.write 2 (ascii "x") (ascii "100"), .begin 3, .write 3 (ascii "x") (ascii "200"),
          .commit 2] t ∧
      mvccRead t.store 1 (ascii "x") = mvccRead s.store 1 (ascii "x") := by
  refine ⟨_, _, Run.of_exec (t := Option.get _ (by decide)) (Option.some_get _).symm,
    Run.of_exec (t := Option.get _ (by decide)) (Option.some_get _).symm, ?_⟩
  apply repeatable_reads
  · exact Run.of_exec (Option.some_get _).symm
  · exact Run.of_exec (Option.some_get _).symm
  · decide
  · decide

end Mvcc
end Leetcode
