import Mathlib.Data.Finset.Card
import Leetcode.Lib.Run
import Leetcode.Mvcc.Erase

/-!
# How long the store can be used

An entry of `db` stays when its versions are removed, and a timestamp is never given back.  So
what a sequence of calls leaves of `db` and of `global_ts` depends on the keys it writes and on
how often it begins and commits (`Filled`), not on which transactions abort, and
`store_runs_iff` says which sequences of calls are defined.
-/

namespace Leetcode
namespace Mvcc

open CLib

variable {s t : Store} {op : Op} {ops : List Op}

/-! ## What the calls use -/

/-- The key that a call writes. -/
def Op.writtenKey : Op → Option Bytes
  | .write _ key _ => some key
  | .begin _ | .acquire _ _ _ | .read _ _ | .commit _ | .abort _ => none

/-- The keys that are written. -/
def writtenKeys (ops : List Op) : Finset Bytes := (ops.filterMap Op.writtenKey).toFinset

/-- The timestamps that are taken. -/
def ticks (ops : List Op) : ℕ := (ops.map Op.ticks).sum

theorem mem_writtenKeys_concat {key : Bytes} :
    key ∈ writtenKeys (ops ++ [op]) ↔ key ∈ writtenKeys ops ∨ op.writtenKey = some key := by
  simp only [writtenKeys, List.mem_toFinset, List.mem_filterMap, List.mem_append,
    List.mem_singleton]
  constructor
  · rintro ⟨call, hcall | rfl, hkey⟩
    · exact .inl ⟨call, hcall, hkey⟩
    · exact .inr hkey
  · rintro (⟨call, hcall, hkey⟩ | hkey)
    · exact ⟨call, .inl hcall, hkey⟩
    · exact ⟨op, .inr rfl, hkey⟩

theorem ticks_concat (ops : List Op) (op : Op) : ticks (ops ++ [op]) = ticks ops + op.ticks := by
  simp [ticks]

theorem eq_write_of_writtenKey {key : Bytes} (h : op.writtenKey = some key) :
    ∃ tx value, op = .write tx key value := by
  cases op with
  | write tx key' value =>
      obtain rfl := Option.some.inj h
      exact ⟨tx, value, rfl⟩
  | _ => cases h

/-! ## One call -/

theorem Store.mem_step_keys (h : s.step op = some t) (key : Bytes) :
    key ∈ t.keys ↔ key ∈ s.keys ∨ op.writtenKey = some key := by
  constructor
  · intro hkey
    rcases Store.step_keys h with hsame | ⟨tx, key', value, rfl, -, hkeys⟩
    · exact .inl (hsame ▸ hkey)
    · rw [hkeys, List.mem_append, List.mem_singleton] at hkey
      exact hkey.imp_right fun heq => congrArg some heq.symm
  · rintro (hkey | hkey)
    · rcases Store.step_keys h with hsame | ⟨tx, key', value, -, -, hkeys⟩
      · exact hsame ▸ hkey
      · rw [hkeys]
        exact List.mem_append_left _ hkey
    · obtain ⟨tx, value, rfl⟩ := eq_write_of_writtenKey hkey
      exact Store.write_keys h

/-- A call is defined when its key has an entry or there is room for one, and the clock can
take its timestamp. -/
theorem Store.step_isSome_iff (hclock : s.globalTs ≤ INT_MAX) :
    (s.step op).isSome ↔
      (∀ key, op.writtenKey = some key → key ∈ s.keys ∨ s.keys.length < MAX_KEYS) ∧
        s.globalTs + op.ticks ≤ INT_MAX := by
  cases op with
  | write tx key value =>
      rw [Store.step, mvccWrite_isSome_iff]
      constructor
      · intro hroom
        refine ⟨fun key' hkey => ?_, hclock⟩
        obtain rfl := Option.some.inj hkey
        exact hroom
      · rintro ⟨hroom, -⟩
        exact hroom key rfl
  | begin id =>
      by_cases hlt : s.globalTs < INT_MAX
      · simp [Store.step, beginTx, Op.writtenKey, Op.ticks, hlt]
      · simp [Store.step, beginTx, Op.writtenKey, Op.ticks, hlt]
  | commit tx =>
      by_cases hlt : s.globalTs < INT_MAX
      · simp [Store.step, commitTx, Op.writtenKey, Op.ticks, hlt]
      · simp [Store.step, commitTx, Op.writtenKey, Op.ticks, hlt]
  | _ =>
      refine ⟨fun _ => ⟨fun key hkey => ?_, hclock⟩, fun _ => rfl⟩
      cases hkey

/-! ## Whole runs -/

/-- The store after these calls. -/
structure Filled (ops : List Op) (s : Store) : Prop where
  nodup : s.keys.Nodup
  mem : ∀ key, key ∈ s.keys ↔ key ∈ writtenKeys ops
  room : s.keys.length ≤ MAX_KEYS
  globalTs : s.globalTs = 1 + ticks ops
  clock : s.globalTs ≤ INT_MAX

theorem filled_init : Filled [] .init where
  nodup := List.nodup_nil
  mem key := by simp [Store.keys, Store.init, writtenKeys]
  room := Nat.zero_le _
  globalTs := rfl
  clock := by decide

theorem filled_step (h : Filled ops s) (hstep : s.step op = some t) : Filled (ops ++ [op]) t := by
  have hsome := (Store.step_isSome_iff h.clock).1 (Option.isSome_iff_exists.2 ⟨t, hstep⟩)
  obtain ⟨hroom, hclock⟩ := hsome
  have hkeys : t.keys.Nodup ∧ t.keys.length ≤ MAX_KEYS := by
    rcases Store.step_keys hstep with hsame | ⟨tx, key, value, rfl, hnew, hkeys⟩
    · rw [hsame]
      exact ⟨h.nodup, h.room⟩
    · have hlt : s.keys.length < MAX_KEYS := (hroom key rfl).resolve_left hnew
      rw [hkeys, List.length_append]
      refine ⟨?_, hlt⟩
      exact List.nodup_append.2 ⟨h.nodup, List.nodup_singleton key, fun a ha b hb hab =>
        hnew (List.mem_singleton.1 hb ▸ hab ▸ ha)⟩
  exact
    { nodup := hkeys.1
      mem := fun key => by rw [Store.mem_step_keys hstep, h.mem, mem_writtenKeys_concat]
      room := hkeys.2
      globalTs := by rw [Store.step_globalTs hstep, h.globalTs, ticks_concat, Nat.add_assoc]
      clock := by
        rw [Store.step_globalTs hstep]
        exact hclock }

theorem filled_run (h : Run Store.step (fun _ _ => True) .init ops t) : Filled ops t := by
  induction ops using List.reverseRecOn generalizing t with
  | nil =>
      cases h
      exact filled_init
  | append_singleton ops op ih =>
      obtain ⟨s, hrun, hlast⟩ := Run.append_iff.1 h
      cases hlast with
      | cons _ hstep hend =>
          cases hend
          exact filled_step (ih hrun) hstep

theorem Filled.card_eq (h : Filled ops s) : s.keys.length = (writtenKeys ops).card := by
  have hkeys : s.keys.toFinset = writtenKeys ops := by
    ext key
    rw [List.mem_toFinset]
    exact h.mem key
  rw [← hkeys, List.toFinset_card_of_nodup h.nodup]

/-- The calls in front of the last one use no more than all of them. -/
theorem card_writtenKeys_le (ops : List Op) (op : Op) :
    (writtenKeys ops).card ≤ (writtenKeys (ops ++ [op])).card :=
  Finset.card_le_card fun _ hkey => mem_writtenKeys_concat.2 (.inl hkey)

theorem card_writtenKeys_lt {key : Bytes} (hop : op.writtenKey = some key)
    (hnew : key ∉ writtenKeys ops) :
    (writtenKeys ops).card < (writtenKeys (ops ++ [op])).card := by
  refine Finset.card_lt_card ⟨fun _ hkey => mem_writtenKeys_concat.2 (.inl hkey), fun hsub => ?_⟩
  exact hnew (hsub (mem_writtenKeys_concat.2 (.inr hop)))

theorem exists_run (hkeys : (writtenKeys ops).card ≤ MAX_KEYS) (hticks : 1 + ticks ops ≤ INT_MAX) :
    ∃ t, Run Store.step (fun _ _ => True) .init ops t := by
  induction ops using List.reverseRecOn with
  | nil => exact ⟨.init, .nil _⟩
  | append_singleton ops op ih =>
      rw [ticks_concat, ← Nat.add_assoc] at hticks
      obtain ⟨s, hrun⟩ := ih ((card_writtenKeys_le ops op).trans hkeys)
        ((Nat.le_add_right _ _).trans hticks)
      have hfilled := filled_run hrun
      have hsome : (s.step op).isSome := by
        refine (Store.step_isSome_iff hfilled.clock).2 ⟨fun key hop => ?_, ?_⟩
        · by_cases hmem : key ∈ s.keys
          · exact .inl hmem
          · rw [hfilled.mem] at hmem
            rw [hfilled.card_eq]
            exact .inr ((card_writtenKeys_lt hop hmem).trans_le hkeys)
        · rw [hfilled.globalTs]
          exact hticks
      obtain ⟨t, hstep⟩ := Option.isSome_iff_exists.1 hsome
      exact ⟨t, Run.append_iff.2 ⟨s, hrun, .cons trivial hstep (.nil t)⟩⟩

/-- A sequence of calls is defined exactly when it writes at most `MAX_KEYS` different keys and
`global_ts` has room for its begins and commits.  Then every key that has been written has one
entry, also when the transactions that wrote it have aborted, and there are no others. -/
theorem store_runs_iff (ops : List Op) :
    ((∃ t, Run Store.step (fun _ _ => True) .init ops t) ↔
      (writtenKeys ops).card ≤ MAX_KEYS ∧ 1 + ticks ops ≤ INT_MAX) ∧
    ∀ t, Run Store.step (fun _ _ => True) .init ops t →
      (t.keys.Nodup ∧ ∀ key, key ∈ t.keys ↔ key ∈ writtenKeys ops) ∧
        t.globalTs = 1 + ticks ops := by
  refine ⟨⟨?_, fun h => exists_run h.1 h.2⟩, fun t hrun => ?_⟩
  · rintro ⟨t, hrun⟩
    have hfilled := filled_run hrun
    have hkeys := hfilled.room
    have hclock := hfilled.clock
    rw [hfilled.card_eq] at hkeys
    rw [hfilled.globalTs] at hclock
    exact ⟨hkeys, hclock⟩
  · have hfilled := filled_run hrun
    exact ⟨⟨hfilled.nodup, hfilled.mem⟩, hfilled.globalTs⟩

end Mvcc
end Leetcode
