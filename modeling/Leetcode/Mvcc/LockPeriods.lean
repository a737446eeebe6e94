import Leetcode.Mvcc.Snapshot

/-!
# When writers of one key run

A `WRITE` lock is held from its grant to the end of the transaction, so of two
committed writers of a key one committed before the other was granted the lock.
That is all the locks give: the snapshot is taken at `begin_tx`, and a writer
may wait for the lock behind a commit its snapshot does not show.

* `System.Periods` — the invariant: the lock periods of committed and running
  writers do not overlap.
* `commit_lt_grant` — the commit of one writer precedes the grant of the other.
* `lifetimes_disjoint` — it also precedes the begin of the other when the lock
  was granted over no newer commit.
-/

namespace Leetcode
namespace Mvcc

open CLib

/-- The transaction was running at time `ts`, and has not been undone. -/
def TxHistory.RanAt (h : TxHistory) (ts : Nat) : Prop :=
  h.status = .active ∨ ∃ c, h.status = .committed c ∧ ts ≤ c

/-- The transaction was granted the `WRITE` lock of the key at `ts`, while it ran. -/
def TxHistory.LockedAt (h : TxHistory) (key : Bytes) (ts : Nat) : Prop :=
  (∃ g ∈ h.granted, g.key = key ∧ g.type = .WRITE ∧ g.ts = ts) ∧ h.RanAt ts

def TxHistory.CommittedBefore (h : TxHistory) (ts : Nat) : Prop :=
  ∃ c, h.status = .committed c ∧ c < ts

/-- Lock periods do not overlap, writers have one, and no transaction commits at
the time another begins. -/
structure System.Periods (s : System) : Prop where
  disjoint : ∀ i j key ts ts', i ≠ j → (s.history i).LockedAt key ts →
    (s.history j).LockedAt key ts' →
      (s.history i).CommittedBefore ts' ∨ (s.history j).CommittedBefore ts
  writer : ∀ i key, (s.history i).values key ≠ [] →
    ((s.history i).status = .active ∨ ∃ c, (s.history i).status = .committed c) →
      ∃ ts, (s.history i).LockedAt key ts
  distinct : ∀ i j c, (s.history i).status = .committed c → (s.history j).startTs ≠ c

theorem periods_init : System.init.Periods where
  disjoint i j key ts ts' _ hi := by
    obtain ⟨⟨g, hg, -⟩, -⟩ := hi
    cases hg
  writer i key hvalues := absurd rfl hvalues
  distinct i j c hc := by cases hc

/-- A commit is never undone. -/
theorem committed_event {s : System} {op : Op} (hlegal : s.Legal op) {c : Nat}
    (h : (s.history op.tx).status = .committed c) :
    (s.event (s.history op.tx) op).status = .committed c := by
  cases op with
  | begin id =>
      have hunused : (s.history id).status = .unused := hlegal.1
      rw [Op.tx, hunused] at h
      cases h
  | acquire tx key type =>
      by_cases hgrant : (acquireLock s.store tx key type).1 = true
      · rw [System.event_granted hgrant]
        exact h
      · rw [System.event_refused hgrant]
        exact h
  | read tx key => exact h
  | write tx key value => exact h
  | commit tx =>
      have hact : (s.history tx).status = .active := hlegal.1
      rw [Op.tx, hact] at h
      cases h
  | abort tx =>
      have hact : (s.history tx).status = .active := hlegal.1
      rw [Op.tx, hact] at h
      cases h

/-- A lock period in the history after an operation is an old one or starts with it. -/
theorem lockedAt_event {s : System} {op : Op} (hc : s.Clock) (hlegal : s.Legal op) {key : Bytes}
    {ts : Nat} (h : (s.event (s.history op.tx) op).LockedAt key ts) :
    (s.history op.tx).LockedAt key ts ∨
      (op = .acquire op.tx key .WRITE ∧ ts = s.store.globalTs ∧
        (s.history op.tx).status = .active ∧
        firstConflict s.store op.tx key .WRITE = none) := by
  cases op with
  | begin id =>
      obtain ⟨⟨g, hg, -⟩, -⟩ := h
      cases hg
  | acquire tx key' type =>
      by_cases hgrant : (acquireLock s.store tx key' type).1 = true
      · rw [System.event_granted hgrant] at h
        obtain ⟨⟨g, hg, hkey, htype, rfl⟩, hran⟩ := h
        rcases List.mem_cons.1 hg with rfl | hg
        · simp only at hkey htype
          subst hkey htype
          refine Or.inr ⟨rfl, rfl, ?_, ?_⟩
          · -- A transaction that has committed did so before the present time.
            rcases hran with hact | ⟨c, hcom, hle⟩
            · exact hact
            · have hlt := hc.commit_lt tx c hcom
              simp only at hle
              omega
          · unfold acquireLock at hgrant
            split at hgrant
            · cases hgrant
            · assumption
        · exact Or.inl ⟨⟨g, hg, hkey, htype, rfl⟩, hran⟩
      · rw [System.event_refused hgrant] at h
        exact Or.inl h
  | read tx key' => exact Or.inl h
  | write tx key' value => exact Or.inl h
  | commit tx =>
      obtain ⟨hgranted, -⟩ := h
      exact Or.inl ⟨hgranted, Or.inl hlegal.1⟩
  | abort tx =>
      obtain ⟨-, hact | ⟨c, hcom, -⟩⟩ := h
      · cases hact
      · cases hcom

/-- Whoever else has had the lock that is now granted has committed. -/
theorem committedBefore_grant {s : System} (hs : s.Slots) (hc : s.Clock) {tx j : TxId}
    {key : Bytes} {ts : Nat} (hact : (s.history tx).status = .active)
    (hnone : firstConflict s.store tx key .WRITE = none) (hne : j ≠ tx)
    (hj : (s.history j).LockedAt key ts) :
    (s.history j).CommittedBefore s.store.globalTs := by
  obtain ⟨⟨g, hg, hkey, htype, rfl⟩, hact' | ⟨c, hcom, -⟩⟩ := hj
  · exfalso
    have haj := (hs j).status_iff.2 hact'
    have hid := (hs tx).id_eq ((hs tx).status_iff.2 hact)
    have hl : (⟨g.key, g.type, j⟩ : Lock) ∈ (s.store.transactions j).locks := by
      rw [(hs j).locks_eq haj]
      exact List.mem_map.2 ⟨g, hg, rfl⟩
    obtain ⟨-, hread⟩ := firstConflict_eq_none.1 hnone j haj _ hl hkey (by rw [hid]; exact hne)
    cases hread
  · exact ⟨c, hcom, hc.commit_lt j c hcom⟩

/-- One side of the disjointness, for the transaction that takes the step. -/
theorem disjoint_event {s : System} {op : Op} (hinv : s.Inv) (hp : s.Periods)
    (hlegal : s.Legal op) {j : TxId} {key : Bytes} {ts ts' : Nat} (hne : j ≠ op.tx)
    (hi : (s.event (s.history op.tx) op).LockedAt key ts) (hj : (s.history j).LockedAt key ts') :
    (s.event (s.history op.tx) op).CommittedBefore ts' ∨ (s.history j).CommittedBefore ts := by
  rcases lockedAt_event hinv.clock hlegal hi with hold | ⟨-, rfl, hact, hnone⟩
  · rcases hp.disjoint op.tx j key ts ts' (Ne.symm hne) hold hj with ⟨c, hcom, hlt⟩ | hbefore
    · exact Or.inl ⟨c, committed_event hlegal hcom, hlt⟩
    · exact Or.inr hbefore
  · exact Or.inr (committedBefore_grant hinv.slots hinv.clock hact hnone hne hj)

/-- A writer still has a lock period after its own step. -/
theorem writer_event {s : System} {op : Op} (hinv : s.Inv) (hp : s.Periods)
    (hlegal : s.Legal op) {key : Bytes}
    (hvalues : (s.event (s.history op.tx) op).values key ≠ [])
    (hran : (s.event (s.history op.tx) op).status = .active ∨
      ∃ c, (s.event (s.history op.tx) op).status = .committed c) :
    ∃ ts, (s.event (s.history op.tx) op).LockedAt key ts := by
  cases op with
  | begin id => exact absurd rfl hvalues
  | acquire tx key' type =>
      by_cases hgrant : (acquireLock s.store tx key' type).1 = true
      · rw [System.event_granted hgrant] at hvalues hran ⊢
        obtain ⟨ts, ⟨g, hg, hgk⟩, hranAt⟩ := hp.writer tx key hvalues hran
        exact ⟨ts, ⟨g, List.mem_cons_of_mem _ hg, hgk⟩, hranAt⟩
      · rw [System.event_refused hgrant] at hvalues hran ⊢
        exact hp.writer tx key hvalues hran
  | read tx key' => exact hp.writer tx key hvalues hran
  | write tx key' value =>
      obtain ⟨hact, g, hg, hkey, htype⟩ : (s.history tx).status = .active ∧
        (s.history tx).Holds key' := hlegal.2
      by_cases hk : key = key'
      · exact ⟨g.ts, ⟨g, hg, hkey.trans hk.symm, htype, rfl⟩, Or.inl hact⟩
      · apply hp.writer tx key
        · simpa [System.event, Op.tx, TxHistory.values, Ne.symm hk] using hvalues
        · exact Or.inl hact
  | commit tx =>
      have hact : (s.history tx).status = .active := hlegal.1
      obtain ⟨ts, ⟨g, hg, hkey, htype, rfl⟩, -⟩ := hp.writer tx key hvalues (Or.inl hact)
      have hle := hinv.clock.grant_le tx g hg
      exact ⟨g.ts, ⟨g, hg, hkey, htype, rfl⟩, Or.inr ⟨_, rfl, hle⟩⟩
  | abort tx =>
      obtain hact | ⟨c, hcom⟩ := hran
      · cases hact
      · cases hcom

/-- A commit takes its timestamp from the clock. -/
theorem commit_event {s : System} {op : Op} {c : Nat}
    (h : (s.event (s.history op.tx) op).status = .committed c) :
    (s.history op.tx).status = .committed c ∨ c = s.store.globalTs := by
  cases op with
  | begin id => cases h
  | acquire tx key type =>
      by_cases hgrant : (acquireLock s.store tx key type).1 = true
      · rw [System.event_granted hgrant] at h
        exact Or.inl h
      · rw [System.event_refused hgrant] at h
        exact Or.inl h
  | read tx key => exact Or.inl h
  | write tx key value => exact Or.inl h
  | commit tx => exact Or.inr (Status.committed.inj h).symm
  | abort tx => cases h

/-- A begin takes its timestamp from the clock. -/
theorem start_event {s : System} (op : Op) :
    (s.event (s.history op.tx) op).startTs = (s.history op.tx).startTs ∨
      ((s.event (s.history op.tx) op).startTs = s.store.globalTs ∧
        (s.event (s.history op.tx) op).status = .active ∧ op = .begin op.tx) := by
  cases op with
  | begin id => exact Or.inr ⟨rfl, rfl, rfl⟩
  | acquire tx key type =>
      by_cases hgrant : (acquireLock s.store tx key type).1 = true
      · rw [System.event_granted hgrant]
        exact Or.inl rfl
      · rw [System.event_refused hgrant]
        exact Or.inl rfl
  | read tx key => exact Or.inl rfl
  | write tx key value => exact Or.inl rfl
  | commit tx => exact Or.inl rfl
  | abort tx => exact Or.inl rfl

theorem distinct_step {s t : System} {op : Op} (hc : s.Clock) (hp : s.Periods)
    (h : s.step op = some t) (i j : TxId) (c : Nat) (hcom : (t.history i).status = .committed c) :
    (t.history j).startTs ≠ c := by
  obtain ⟨hself, hother⟩ := System.step_history h
  have hold : ∀ k, (s.history k).startTs ≠ s.store.globalTs := fun k => (hc.start_lt k).ne
  have hstart : (t.history j).startTs = (s.history j).startTs ∨
      ((t.history j).startTs = s.store.globalTs ∧ (t.history op.tx).status = .active) := by
    by_cases hj : j = op.tx
    · subst hj
      rw [hself]
      exact (start_event op).imp_right fun hnew => ⟨hnew.1, hnew.2.1⟩
    · rw [hother j hj]
      exact Or.inl rfl
  have hcommit : (s.history i).status = .committed c ∨ (c = s.store.globalTs ∧ i = op.tx) := by
    by_cases hi : i = op.tx
    · subst hi
      rw [hself] at hcom
      exact (commit_event hcom).imp_right fun hc => ⟨hc, rfl⟩
    · rw [hother i hi] at hcom
      exact Or.inl hcom
  -- The two timestamps come from different readings of the clock.
  rcases hcommit with hcommit | ⟨rfl, rfl⟩
  · rcases hstart with hstart | ⟨hstart, -⟩
    · rw [hstart]
      exact hp.distinct i j c hcommit
    · rw [hstart]
      exact (hc.commit_lt i c hcommit).ne'
  · rcases hstart with hstart | ⟨-, hact⟩
    · rw [hstart]
      exact hold j
    · rw [hcom] at hact
      cases hact

theorem periods_step {s t : System} {op : Op} (hinv : s.Inv) (hp : s.Periods)
    (hlegal : s.Legal op) (h : s.step op = some t) : t.Periods := by
  obtain ⟨hself, hother⟩ := System.step_history h
  constructor
  · intro i j key ts ts' hne hi hj
    by_cases hitx : i = op.tx
    · subst hitx
      rw [hself] at hi ⊢
      rw [hother j (Ne.symm hne)] at hj ⊢
      exact disjoint_event hinv hp hlegal (Ne.symm hne) hi hj
    · rw [hother i hitx] at hi ⊢
      by_cases hjtx : j = op.tx
      · subst hjtx
        rw [hself] at hj ⊢
        exact (disjoint_event hinv hp hlegal hitx hj hi).symm
      · rw [hother j hjtx] at hj ⊢
        exact hp.disjoint i j key ts ts' hne hi hj
  · intro i key
    by_cases hitx : i = op.tx
    · subst hitx
      rw [hself]
      exact writer_event hinv hp hlegal
    · rw [hother i hitx]
      exact hp.writer i key
  · exact distinct_step hinv.clock hp h

theorem periods_run {ops : List Op} {s : System}
    (h : Run System.step System.Legal System.init ops s) : s.Inv ∧ s.Periods := by
  refine h.invariant (I := fun s => s.Inv ∧ s.Periods) ⟨inv_init, periods_init⟩ ?_
  rintro s op t ⟨hinv, hp⟩ hlegal hstep
  exact ⟨inv_step hinv hlegal hstep, periods_step hinv hp hlegal hstep⟩

/-! ## Committed writers of one key -/

/-- Of two committed writers of a key, one committed before the other was
granted the lock. -/
theorem commit_lt_grant {s : System} (hp : s.Periods) {key : Bytes} {a b : TxId} {ca cb : Nat}
    (hne : a ≠ b) (ha : s.Committed key a ca) (hb : s.Committed key b cb) {la lb : Nat}
    (hla : (s.history a).LockedAt key la) (hlb : (s.history b).LockedAt key lb) :
    ca < lb ∨ cb < la := by
  rcases hp.disjoint a b key la lb hne hla hlb with ⟨c, hcom, hlt⟩ | ⟨c, hcom, hlt⟩
  · have hsame : ca = c := Status.committed.inj (ha.1.symm.trans hcom)
    exact Or.inl (hsame ▸ hlt)
  · have hsame : cb = c := Status.committed.inj (hb.1.symm.trans hcom)
    exact Or.inr (hsame ▸ hlt)

/-- The lock was granted at a time when the snapshot of the transaction showed
every commit of another writer of the key. -/
def System.FreshGrant (s : System) (key : Bytes) (tx : TxId) : Prop :=
  ∃ ts, (s.history tx).LockedAt key ts ∧
    ∀ w c, w ≠ tx → s.Committed key w c → c < ts → c ≤ (s.history tx).startTs

/-- With fresh grants the lifetimes of committed writers are disjoint too. -/
theorem lifetimes_disjoint {s : System} (hp : s.Periods) {key : Bytes} {a b : TxId} {ca cb : Nat}
    (hne : a ≠ b) (ha : s.Committed key a ca) (hb : s.Committed key b cb)
    (hfa : s.FreshGrant key a) (hfb : s.FreshGrant key b) :
    ca < (s.history b).startTs ∨ cb < (s.history a).startTs := by
  obtain ⟨la, hla, hseenA⟩ := hfa
  obtain ⟨lb, hlb, hseenB⟩ := hfb
  rcases commit_lt_grant hp hne ha hb hla hlb with hlt | hlt
  · have hle := hseenB a ca hne ha hlt
    exact Or.inl (lt_of_le_of_ne hle (hp.distinct a b ca ha.1).symm)
  · have hle := hseenA b cb (Ne.symm hne) hb hlt
    exact Or.inr (lt_of_le_of_ne hle (hp.distinct b a cb hb.1).symm)

end Mvcc
end Leetcode
