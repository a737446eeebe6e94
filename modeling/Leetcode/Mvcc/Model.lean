import Mathlib.Data.Fintype.Basic
import Leetcode.Lib.CString

/-!
# `transaction_mvcc.c`: the store, its locks and its transactions

Keys and values are the C strings of the source, so `strcmp(a, b) == 0` is
equality.  The arrays indexed by a transaction id are functions on `TxId`; an
id outside the table has no meaning in the source either.  The two ways a call
can leave defined behaviour, a new key in a full `db` and an overflowing
`global_ts`, are `none`.  A `Transaction *` is the slot it points to.  The mutex, which only
`main` takes and holds throughout, the heap, and the console output are left out.
-/

namespace Leetcode
namespace Mvcc

open CLib

abbrev MAX_KEYS : Nat := 128

abbrev MAX_TX : Nat := 32

abbrev INT_MAX : Nat := 2147483647

/-- An index of the table `transactions`. -/
abbrev TxId := Fin MAX_TX

instance : NeZero MAX_TX := ⟨by decide⟩

inductive LockType
  | READ
  | WRITE
  deriving DecidableEq, Repr

/-- A version of a key. -/
structure Version where
  value : Bytes
  txId : TxId
  committed : Bool
  commitTs : Nat
  deriving DecidableEq, Repr

/-- A key with its versions, the first of the list first. -/
structure KVPair where
  key : Bytes
  versions : List Version
  deriving DecidableEq, Repr

structure Lock where
  key : Bytes
  type : LockType
  txId : TxId
  deriving DecidableEq, Repr

structure Transaction where
  id : TxId
  active : Bool
  startTs : Nat
  locks : List Lock
  deriving DecidableEq, Repr

/-- The global variables of the program. -/
structure Store where
  db : List KVPair
  transactions : TxId → Transaction
  globalTs : Nat
  waitFor : TxId → TxId → Bool

/-- Static storage starts zeroed; `global_ts` starts at 1. -/
def Store.init : Store where
  db := []
  transactions := fun _ => ⟨0, false, 0, []⟩
  globalTs := 1
  waitFor := fun _ _ => false

/-! ## Reading and writing -/

/-- The loop of `mvcc_read` over the versions of the key. -/
def latest (tx : Transaction) : List Version → Option Version
  | [] => none
  | ver :: next =>
      if ver.committed ∧ ver.commitTs ≤ tx.startTs then some ver
      else if ¬ver.committed ∧ ver.txId = tx.id then some ver
      else latest tx next

/-- The version list of the first entry for `key`. -/
def lookup (key : Bytes) : List KVPair → List Version
  | [] => []
  | kv :: rest => if kv.key = key then kv.versions else lookup key rest

/-- The versions of a key; a key without an entry has none. -/
def Store.versions (s : Store) (key : Bytes) : List Version :=
  lookup key s.db

/-- `mvcc_read(tx, key)`. -/
def mvccRead (s : Store) (tx : TxId) (key : Bytes) : Option Bytes :=
  (latest (s.transactions tx) (s.versions key)).map Version.value

/-- Put a version in front of the first entry for the key, or in a new last entry. -/
def pushVersion (key : Bytes) (ver : Version) : List KVPair → List KVPair
  | [] => [⟨key, [ver]⟩]
  | kv :: rest =>
      if kv.key = key then { kv with versions := ver :: kv.versions } :: rest
      else kv :: pushVersion key ver rest

/-- `mvcc_write(tx, key, value)`. -/
def mvccWrite (s : Store) (tx : TxId) (key value : Bytes) : Option Store :=
  if s.db.any (fun kv => kv.key = key) ∨ s.db.length < MAX_KEYS then
    some { s with
      db := pushVersion key ⟨value, (s.transactions tx).id, false, 0⟩ s.db }
  else none

/-! ## Locks -/

/-- The first lock of a list that keeps `tx` from locking `key`. -/
def blockingLock (tx : Transaction) (key : Bytes) (type : LockType) (locks : List Lock) :
    Option Lock :=
  locks.find? fun l =>
    l.key = key ∧ l.txId ≠ tx.id ∧ (l.type = .WRITE ∨ type = .WRITE)

/-- The first conflict the nested loops of `acquire_lock` meet. -/
def firstConflict (s : Store) (tx : TxId) (key : Bytes) (type : LockType) : Option Lock :=
  (List.finRange MAX_TX).findSome? fun i =>
    if (s.transactions i).active then
      blockingLock (s.transactions tx) key type (s.transactions i).locks
    else none

/-- Assign one row of `transactions`. -/
def Store.setTransaction (s : Store) (tx : TxId) (t : Transaction) : Store :=
  { s with transactions := Function.update s.transactions tx t }

/-- `wait_for[v][u] = 1`. -/
def Store.setWaitFor (s : Store) (v u : TxId) : Store :=
  { s with waitFor := Function.update s.waitFor v (Function.update (s.waitFor v) u true) }

/-- Put a lock in front of the locks of a transaction. -/
def Store.pushLock (s : Store) (tx : TxId) (key : Bytes) (type : LockType) : Store :=
  let t := s.transactions tx
  s.setTransaction tx { t with locks := ⟨key, type, t.id⟩ :: t.locks }

/-- `acquire_lock(tx, key, type)`: the result and the state after the call. -/
def acquireLock (s : Store) (tx : TxId) (key : Bytes) (type : LockType) : Bool × Store :=
  match firstConflict s tx key type with
  | some l => (false, s.setWaitFor (s.transactions tx).id l.txId)
  | none => (true, s.pushLock tx key type)

/-- `release_locks(tx)`. -/
def releaseLocks (s : Store) (tx : TxId) : Store :=
  s.setTransaction tx { s.transactions tx with locks := [] }

/-- `release_locks(tx)`, then `tx->active = 0`. -/
def Store.finish (s : Store) (tx : TxId) : Store :=
  let s := releaseLocks s tx
  s.setTransaction tx { s.transactions tx with active := false }

/-! ## Begin, commit and abort -/

/-- `begin_tx(id)`. -/
def beginTx (s : Store) (id : TxId) : Option Store :=
  if s.globalTs < INT_MAX then
    some { s.setTransaction id ⟨id, true, s.globalTs, []⟩ with globalTs := s.globalTs + 1 }
  else none

/-- What `commit_tx` does to one version. -/
def stamp (id : TxId) (commitTs : Nat) (ver : Version) : Version :=
  if ver.txId = id then { ver with committed := true, commitTs := commitTs } else ver

/-- Apply a function to the version list of every entry. -/
def mapVersions (f : List Version → List Version) (db : List KVPair) : List KVPair :=
  db.map fun kv => { kv with versions := f kv.versions }

/-- `commit_tx(tx)`. -/
def commitTx (s : Store) (tx : TxId) : Option Store :=
  if s.globalTs < INT_MAX then
    let id := (s.transactions tx).id
    some ({ s with
      db := mapVersions (List.map (stamp id s.globalTs)) s.db
      globalTs := s.globalTs + 1 }.finish tx)
  else none

/-- The loop of `abort_tx` over the versions of a key.  `kept` are the versions up to the one with
the link `prev`, the last one first; with none of them `prev` is the link of the key itself.  The
rest of the list is what the link leads to, so to unlink a version is to go on behind it. -/
def unlinkVersions (id : TxId) (kept : List Version) : List Version → List Version
  | [] => kept.reverse
  | ver :: next =>
      if ver.txId = id then unlinkVersions id kept next else unlinkVersions id (ver :: kept) next

/-- `abort_tx(tx)`. -/
def abortTx (s : Store) (tx : TxId) : Store :=
  let id := (s.transactions tx).id
  { s with db := mapVersions (unlinkVersions id []) s.db }.finish tx

/-! ## Operations -/

/-- The calls a client of the store makes. -/
inductive Op
  | begin (id : TxId)
  | acquire (tx : TxId) (key : Bytes) (type : LockType)
  | read (tx : TxId) (key : Bytes)
  | write (tx : TxId) (key value : Bytes)
  | commit (tx : TxId)
  | abort (tx : TxId)
  deriving DecidableEq, Repr

/-- The state after a call. -/
def Store.step (s : Store) : Op → Option Store
  | .begin id => beginTx s id
  | .acquire tx key type => some (acquireLock s tx key type).2
  | .read _ _ => some s
  | .write tx key value => mvccWrite s tx key value
  | .commit tx => commitTx s tx
  | .abort tx => some (abortTx s tx)

/-! ## The state after an operation, field by field -/

theorem lookup_pushVersion (key : Bytes) (ver : Version) (key' : Bytes) (db : List KVPair) :
    lookup key' (pushVersion key ver db) =
      if key' = key then ver :: lookup key db else lookup key' db := by
  induction db with
  | nil =>
      by_cases hk : key' = key
      · simp [pushVersion, lookup, hk]
      · have hk' : key ≠ key' := fun h => hk h.symm
        simp [pushVersion, lookup, hk, hk']
  | cons kv rest ih =>
      by_cases hkv : kv.key = key
      · subst hkv
        by_cases hk : key' = kv.key
        · simp [pushVersion, lookup, hk]
        · have hk' : kv.key ≠ key' := fun h => hk h.symm
          simp [pushVersion, lookup, hk, hk']
      · by_cases hk : kv.key = key'
        · subst hk
          simp [pushVersion, lookup, hkv]
        · simp only [pushVersion, lookup, hkv, hk, if_false, ih]

theorem lookup_mapVersions (f : List Version → List Version) (hf : f [] = [])
    (key : Bytes) (db : List KVPair) :
    lookup key (mapVersions f db) = f (lookup key db) := by
  induction db with
  | nil => simpa [mapVersions, lookup] using hf.symm
  | cons kv rest ih =>
      by_cases hk : kv.key = key
      · simp [mapVersions, lookup, hk]
      · simpa [mapVersions, lookup, hk] using ih

theorem Store.finish_eq (s : Store) (tx : TxId) :
    s.finish tx = s.setTransaction tx { s.transactions tx with locks := [], active := false } := by
  simp [finish, releaseLocks, setTransaction]

/-- The versions that the loop leaves. -/
theorem unlinkVersions_eq (id : TxId) (kept versions : List Version) :
    unlinkVersions id kept versions =
      kept.reverse ++ versions.filter fun ver => ver.txId ≠ id := by
  induction versions generalizing kept with
  | nil => rw [unlinkVersions, List.filter_nil, List.append_nil]
  | cons ver next ih =>
      rw [unlinkVersions]
      by_cases hid : ver.txId = id
      · rw [if_pos hid, ih, List.filter_cons_of_neg (by simpa using hid)]
      · rw [if_neg hid, ih, List.filter_cons_of_pos (by simpa using hid), List.reverse_cons,
          List.append_assoc, List.singleton_append]

/-- `abort_tx` leaves the versions of the other transactions. -/
theorem abortTx_eq (s : Store) (tx : TxId) :
    abortTx s tx = { s with
      db := mapVersions (List.filter fun ver => ver.txId ≠ (s.transactions tx).id) s.db }.finish
        tx := by
  have hwalk : unlinkVersions (s.transactions tx).id [] =
      List.filter fun ver => ver.txId ≠ (s.transactions tx).id := by
    funext versions
    rw [unlinkVersions_eq, List.reverse_nil, List.nil_append]
  rw [abortTx, hwalk]

theorem stamp_txId (id : TxId) (ts : Nat) (ver : Version) : (stamp id ts ver).txId = ver.txId := by
  unfold stamp
  split <;> rfl

theorem stamp_value (id : TxId) (ts : Nat) (ver : Version) :
    (stamp id ts ver).value = ver.value := by
  unfold stamp
  split <;> rfl

/-- The conflict `acquire_lock` stops at is a lock of an active transaction. -/
theorem firstConflict_eq_some {s : Store} {tx : TxId} {key : Bytes} {type : LockType} {l : Lock}
    (h : firstConflict s tx key type = some l) :
    ∃ i, (s.transactions i).active = true ∧ l ∈ (s.transactions i).locks ∧ l.key = key ∧
      l.txId ≠ (s.transactions tx).id ∧ (l.type = .WRITE ∨ type = .WRITE) := by
  obtain ⟨i, -, hi⟩ := List.exists_of_findSome?_eq_some h
  split at hi
  · next hact =>
      have hl := List.find?_some hi
      exact ⟨i, hact, List.mem_of_find?_eq_some hi, by simpa using hl⟩
  · cases hi

/-- `acquire_lock` grants a request only when no active transaction blocks it. -/
theorem firstConflict_eq_none {s : Store} {tx : TxId} {key : Bytes} {type : LockType} :
    firstConflict s tx key type = none ↔
      ∀ i, (s.transactions i).active = true → ∀ l ∈ (s.transactions i).locks, l.key = key →
        l.txId ≠ (s.transactions tx).id → l.type = .READ ∧ type = .READ := by
  unfold firstConflict
  rw [List.findSome?_eq_none_iff]
  constructor
  · intro h i hact l hl hkey hid
    have hi := h i (List.mem_finRange i)
    rw [if_pos hact, blockingLock, List.find?_eq_none] at hi
    have hl' := hi l hl
    cases htype : l.type <;> cases type <;> simp_all
  · intro h i _
    split
    · next hact =>
        rw [blockingLock, List.find?_eq_none]
        intro l hl hcon
        obtain ⟨hkey, hid, hw⟩ : l.key = key ∧ l.txId ≠ (s.transactions tx).id ∧
            (l.type = .WRITE ∨ type = .WRITE) := by simpa using hcon
        obtain ⟨hr, hr'⟩ := h i hact l hl hkey hid
        rcases hw with hw | hw
        · rw [hr] at hw; cases hw
        · rw [hr'] at hw; cases hw
    · rfl

end Mvcc
end Leetcode
