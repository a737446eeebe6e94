import Leetcode.HashMap.Refine

/-!
# Who owns the values

A value that `map_insert` gets is in the map until a call gives it back: the `map_insert` or
`map_remove` of its key that returns it, or `map_destroy`, which passes it to `free_val`.

* `Lists` — a list of the keys that are bound, with their values.
* `balance_step`, `balance_run` — what the calls get is what they return and what the map
  has then.
* `Returns` — the call that takes a value out of the map again, and returns it.
* `Conserves` — every value has one such call or is left in the map, and none is made up.
* `values_conserved` — the account of a map from its creation to its destruction, value by value.
-/

namespace Leetcode
namespace HashMap

open CLib

variable {V : Type*}

/-! ## The account -/

/-- What a call gets, with its key. -/
def handedIn : Call V → List (CStr × Option V)
  | .insert key value => [(key, value)]
  | .get _ | .remove _ => []

/-- What a call gives back, with its key: `map_get` keeps the value. -/
def givenBack : Call V × Option V → List (CStr × Option V)
  | (.insert key _, some v) | (.remove key, some v) => [(key, some v)]
  | _ => []

/-- No call hands in `NULL`. -/
def Call.NonNull : Call V → Prop
  | .insert _ value => value ≠ none
  | .get _ | .remove _ => True

/-- The entries are the keys that are bound, with their values, once each. -/
structure Lists (s : Bindings V) (entries : List (CStr × Option V)) : Prop where
  keys : (entries.map Prod.fst).Nodup
  mem_iff : ∀ key v, (key, v) ∈ entries ↔ s key = some v

variable {s : Bindings V} {entries entries' : List (CStr × Option V)} {key : CStr}

theorem Lists.nodup (h : Lists s entries) : entries.Nodup := h.keys.of_map

theorem Lists.perm (h : Lists s entries) (h' : Lists s entries') : entries.Perm entries' := by
  rw [List.perm_ext_iff_of_nodup h.nodup h'.nodup]
  rintro ⟨key, v⟩
  rw [h.mem_iff, h'.mem_iff]

theorem lists_init : Lists (fun _ => none : Bindings V) [] where
  keys := List.nodup_nil
  mem_iff key v := by simp

/-- The entries of the other keys. -/
def others (key : CStr) (entries : List (CStr × Option V)) : List (CStr × Option V) :=
  entries.filter fun e => e.1 ≠ key

theorem lists_others (h : Lists s entries) (key : CStr) :
    Lists (Function.update s key none) (others key entries) where
  keys := h.keys.sublist (List.filter_sublist.map _)
  mem_iff key' v := by
    rw [others, List.mem_filter, h.mem_iff]
    by_cases hkey : key' = key
    · subst hkey
      simp
    · simp [hkey]

theorem lists_bound (h : Lists s entries) (key : CStr) (value : Option V) :
    Lists (Function.update s key (some value)) ((key, value) :: others key entries) where
  keys := by
    refine List.nodup_cons.2 ⟨fun hmem => ?_, (lists_others h key).keys⟩
    obtain ⟨e, he, hkey⟩ := List.mem_map.1 hmem
    simpa [hkey] using (List.mem_filter.1 he).2
  mem_iff key' v := by
    have hothers := (lists_others h key).mem_iff key' v
    rw [List.mem_cons, hothers, Prod.mk.injEq]
    by_cases hkey : key' = key
    · subst hkey
      simp [eq_comm]
    · simp [hkey]

/-- The entry of a key that is bound, and the others. -/
theorem Lists.perm_bound (h : Lists s entries) {old : Option V} (hold : s key = some old) :
    entries.Perm ((key, old) :: others key entries) := by
  have hbound := lists_bound h key old
  rw [← hold, Function.update_eq_self] at hbound
  exact h.perm hbound

theorem Lists.others_eq (h : Lists s entries) (hnone : s key = none) :
    others key entries = entries := by
  refine List.filter_eq_self.2 fun e he => ?_
  have hbound := (h.mem_iff e.1 e.2).1 he
  have hne : e.1 ≠ key := by
    rintro rfl
    rw [hnone] at hbound
    cases hbound
  simpa using hne

/-- No key is bound to `NULL`. -/
def Bindings.NonNull (s : Bindings V) : Prop := ∀ key, s key ≠ some none

/-- One call: what it gets and the entries before it are what it gives back and the
entries behind it. -/
theorem balance_step (h : Lists s entries) (hs : s.NonNull) {call : Call V}
    (hcall : call.NonNull) :
    (s.step call).1.NonNull ∧ ∃ entries', Lists (s.step call).1 entries' ∧
      (handedIn call ++ entries).Perm (givenBack (call, (s.step call).2) ++ entries') := by
  cases call with
  | insert key value =>
      refine ⟨fun key' => ?_, (key, value) :: others key entries, lists_bound h key value, ?_⟩
      · show Function.update s key (some value) key' ≠ some none
        by_cases hkey : key' = key
        · rw [hkey, Function.update_self]
          exact fun heq => hcall (Option.some.inj heq)
        · rw [Function.update_of_ne hkey]
          exact hs key'
      · show ((key, value) :: entries).Perm (givenBack (.insert key value, (s key).join) ++ _)
        cases hold : s key with
        | none => rw [h.others_eq hold]; rfl
        | some old =>
            cases old with
            | none => exact absurd hold (hs key)
            | some v => exact ((h.perm_bound hold).cons _).trans (List.Perm.swap _ _ _)
  | get key =>
      refine ⟨hs, entries, h, ?_⟩
      exact List.Perm.refl entries
  | remove key =>
      refine ⟨fun key' => ?_, others key entries, lists_others h key, ?_⟩
      · show Function.update s key none key' ≠ some none
        by_cases hkey : key' = key
        · rw [hkey, Function.update_self]
          exact nofun
        · rw [Function.update_of_ne hkey]
          exact hs key'
      · show entries.Perm (givenBack (.remove key, (s key).join) ++ _)
        cases hold : s key with
        | none => rw [h.others_eq hold]; rfl
        | some old =>
            cases old with
            | none => exact absurd hold (hs key)
            | some v => exact h.perm_bound hold

/-- The account of a run. -/
theorem balance_run (h : Lists s entries) (hs : s.NonNull) {calls : List (Call V)}
    (hcalls : ∀ call ∈ calls, call.NonNull) :
    ∃ entries', Lists (outcome Bindings.step s calls) entries' ∧
      (calls.flatMap handedIn ++ entries).Perm
        ((calls.zip (answers Bindings.step s calls)).flatMap givenBack ++ entries') := by
  induction calls generalizing s entries with
  | nil => exact ⟨entries, h, List.Perm.refl entries⟩
  | cons call calls ih =>
      obtain ⟨hnonNull, mid, hmid, hfirst⟩ := balance_step h hs (hcalls call List.mem_cons_self)
      obtain ⟨entries', hlast, hrest⟩ := ih hmid hnonNull fun c hc =>
        hcalls c (List.mem_cons_of_mem _ hc)
      refine ⟨entries', hlast, ?_⟩
      rw [answers, List.zip_cons_cons, List.flatMap_cons, List.flatMap_cons, List.append_assoc,
        List.append_assoc]
      -- What the later calls get does not matter to the first one, nor what it gives back to them.
      have hlater := List.perm_append_comm_assoc (handedIn call) (calls.flatMap handedIn) entries
      have hcall := hfirst.append_left (calls.flatMap handedIn)
      have hback := List.perm_append_comm_assoc (calls.flatMap handedIn)
        (givenBack (call, (s.step call).2)) mid
      have hcalls := hrest.append_left (givenBack (call, (s.step call).2))
      exact (hlater.trans hcall).trans (hback.trans hcalls)

/-! ## Which call gives back which value -/

/-- The call takes out of the map what the key is bound to. -/
def Call.Takes (key : CStr) : Call V → Prop
  | .insert key' _ | .remove key' => key' = key
  | .get _ => False

/-- What the call number `i` has inserted is in the map: none of the calls behind it takes it
out. -/
structure InMap (calls : List (Call V)) (i : ℕ) (key : CStr) (value : Option V) : Prop where
  inserted : calls[i]? = some (.insert key value)
  kept : ∀ j call, i < j → calls[j]? = some call → ¬call.Takes key

/-- The call number `j` takes out of the map what the call number `i` has inserted, and returns
it. -/
def Returns (calls : List (Call V)) (answers : List (Option V)) (i j : ℕ) : Prop :=
  ∃ key value call, InMap (calls.take j) i key value ∧ calls[j]? = some call ∧ call.Takes key ∧
    answers[j]? = some value

/-- What the call number `i` gets. -/
def handedInAt (calls : List (Call V)) (i : ℕ) : List (CStr × Option V) :=
  calls[i]?.toList.flatMap handedIn

/-- Every value that is handed in is returned by one call or left over; what a call takes out and
returns was handed in. -/
structure Conserves (calls : List (Call V)) (answers : List (Option V)) (left : List ℕ) : Prop where
  inserted_returned : ∀ i key value, calls[i]? = some (.insert key value) →
    (i ∉ left ∧ ∃! j, Returns calls answers i j) ∨ (i ∈ left ∧ ∀ j, ¬Returns calls answers i j)
  returned_inserted : ∀ j call key v, calls[j]? = some call → call.Takes key →
    answers[j]? = some (some v) → ∃! i, Returns calls answers i j
  left_nodup : left.Nodup
  left_inserted : ∀ i ∈ left, ∃ key value, calls[i]? = some (.insert key value)

section Returns

variable {calls : List (Call V)} {call : Call V} {left : List ℕ} {value value' v : Option V}
  {i i' j : ℕ}

/-- The last insertion for a key is one. -/
theorem InMap.unique (h : InMap calls i key value) (h' : InMap calls i' key value') :
    i = i' ∧ value = value' := by
  obtain rfl : i = i' := by
    rcases Nat.lt_trichotomy i i' with hlt | heq | hgt
    · exact absurd rfl (h.kept i' _ hlt h'.inserted)
    · exact heq
    · exact absurd rfl (h'.kept i _ hgt h.inserted)
  cases h.inserted.symm.trans h'.inserted
  exact ⟨rfl, rfl⟩

theorem getElem?_concat_iff {l : List (Call V)} {c : Call V} :
    (l ++ [call])[j]? = some c ↔ l[j]? = some c ∨ j = l.length ∧ c = call := by
  rcases Nat.lt_trichotomy j l.length with hlt | rfl | hgt
  · rw [List.getElem?_append_left hlt]
    exact ⟨.inl, fun h => h.resolve_right fun h => absurd h.1 (Nat.ne_of_lt hlt)⟩
  · simp [eq_comm]
  · rw [List.getElem?_eq_none hgt.le, List.getElem?_eq_none (by simpa using hgt)]
    exact ⟨.inl, fun h => h.resolve_right fun h => absurd h.1 (Nat.ne_of_gt hgt)⟩

theorem inMap_concat : InMap (calls ++ [call]) i key value ↔
    i = calls.length ∧ call = .insert key value ∨ InMap calls i key value ∧ ¬call.Takes key := by
  constructor
  · rintro ⟨hinserted, hkept⟩
    rcases getElem?_concat_iff.1 hinserted with hi | ⟨rfl, rfl⟩
    · obtain ⟨hlt, -⟩ := List.getElem?_eq_some_iff.1 hi
      exact .inr ⟨⟨hi, fun j c hij hc => hkept j c hij (getElem?_concat_iff.2 (.inl hc))⟩,
        hkept _ _ hlt (getElem?_concat_iff.2 (.inr ⟨rfl, rfl⟩))⟩
    · exact .inl ⟨rfl, rfl⟩
  · rintro (⟨rfl, rfl⟩ | ⟨⟨hinserted, hkept⟩, hcall⟩)
    · refine ⟨getElem?_concat_iff.2 (.inr ⟨rfl, rfl⟩), fun j c hij hc => ?_⟩
      obtain ⟨hlt, -⟩ := List.getElem?_eq_some_iff.1 hc
      rw [List.length_append, List.length_singleton] at hlt
      exact absurd hij (Nat.not_lt.2 (Nat.le_of_lt_succ hlt))
    · refine ⟨getElem?_concat_iff.2 (.inl hinserted), fun j c hij hc => ?_⟩
      rcases getElem?_concat_iff.1 hc with hc | ⟨-, rfl⟩
      · exact hkept j c hij hc
      · exact hcall

/-- What a key is bound to is what has been inserted and not been taken out. -/
theorem bound_iff : outcome Bindings.step (fun _ => none) calls key = some v ↔
    ∃ i, InMap calls i key v := by
  induction calls using List.reverseRecOn generalizing v with
  | nil =>
      refine iff_of_false (fun h => by cases h) ?_
      rintro ⟨i, hinserted, -⟩
      cases hinserted
  | append_singleton calls call ih =>
      simp only [outcome_concat, inMap_concat]
      cases call with
      | insert key' value =>
          by_cases hkey : key = key'
          · subst hkey
            simp [Bindings.step, Call.Takes]
          · simp [Bindings.step, Call.Takes, hkey, Ne.symm hkey, ih]
      | get key' => simp [Bindings.step, Call.Takes, ih]
      | remove key' =>
          by_cases hkey : key = key'
          · subst hkey
            simp [Bindings.step, Call.Takes]
          · simp [Bindings.step, Call.Takes, hkey, Ne.symm hkey, ih]

/-- A call that takes something out returns it. -/
theorem Call.Takes.answer (hcall : call.Takes key) : (s.step call).2 = (s key).join := by
  cases call with
  | insert key' value =>
      obtain rfl : key' = key := hcall
      rfl
  | get key' => cases hcall
  | remove key' =>
      obtain rfl : key' = key := hcall
      rfl

theorem answer_eq (hcall : calls[j]? = some call) (htakes : call.Takes key) :
    (answers Bindings.step (fun _ => none) calls)[j]? =
      some (outcome Bindings.step (fun _ => none) (calls.take j) key).join := by
  rw [answers_getElem?, hcall, Option.map_some, htakes.answer]

theorem returns_of_inMap (h : InMap (calls.take j) i key value) (hcall : calls[j]? = some call)
    (htakes : call.Takes key) :
    Returns calls (answers Bindings.step (fun _ => none) calls) i j := by
  refine ⟨key, value, call, h, hcall, htakes, ?_⟩
  rw [answer_eq hcall htakes, bound_iff.2 ⟨i, h⟩]
  rfl

/-- The call that returns a value comes after the one that inserts it, and takes it out. -/
theorem Returns.taken {os : List (Option V)} (h : Returns calls os i j)
    (hi : calls[i]? = some (.insert key value)) :
    i < j ∧ InMap (calls.take j) i key value ∧ ∃ call, calls[j]? = some call ∧ call.Takes key := by
  obtain ⟨key', value', call, hin, hcall, htakes, -⟩ := h
  have hlt : i < j := by
    by_contra hle
    have hnone := List.getElem?_take_eq_none (l := calls) (Nat.not_lt.1 hle)
    cases hnone.symm.trans hin.inserted
  have hsame := hin.inserted
  rw [List.getElem?_take_of_lt hlt, hi] at hsame
  cases hsame
  exact ⟨hlt, hin, call, hcall, htakes⟩

/-- No call in between takes the value out. -/
theorem InMap.not_between {n : ℕ} (h : InMap (calls.take n) i key value) (hij : i < j) (hjn : j < n)
    (hcall : calls[j]? = some call) : ¬call.Takes key :=
  h.kept j call hij ((List.getElem?_take_of_lt hjn).trans hcall)

/-- A value is in the map at the end, or one call has returned it. -/
theorem returned_or_left (hi : calls[i]? = some (.insert key value)) :
    (∃! j, Returns calls (answers Bindings.step (fun _ => none) calls) i j) ∧
        ¬InMap calls i key value ∨
      (∀ j, ¬Returns calls (answers Bindings.step (fun _ => none) calls) i j) ∧
        InMap calls i key value := by
  classical
  by_cases hex : ∃ j, i < j ∧ ∃ call, calls[j]? = some call ∧ call.Takes key
  · -- The first call that takes it out is the one that returns it.
    obtain ⟨hlt, call, hcall, htakes⟩ := Nat.find_spec hex
    have hbefore := fun k => Nat.find_min (m := k) hex
    generalize Nat.find hex = j at hlt hcall hbefore
    have hin : InMap (calls.take j) i key value := by
      refine ⟨(List.getElem?_take_of_lt hlt).trans hi, fun k c hik hc htakes' => ?_⟩
      obtain ⟨hkj, -⟩ := List.getElem?_eq_some_iff.1 hc
      have hkj := hkj.trans_le (List.length_take_le j calls)
      rw [List.getElem?_take_of_lt hkj] at hc
      exact hbefore k hkj ⟨hik, c, hc, htakes'⟩
    refine .inl ⟨⟨j, returns_of_inMap hin hcall htakes, fun k hk => ?_⟩, fun h => ?_⟩
    · obtain ⟨hik, hink, c, hc, htakesk⟩ := hk.taken hi
      rcases Nat.lt_trichotomy k j with hkj | rfl | hjk
      · exact absurd htakesk (hin.not_between hik hkj hc)
      · rfl
      · exact absurd htakes (hink.not_between hlt hjk hcall)
    · exact h.kept j call hlt hcall htakes
  · refine .inr ⟨fun j hj => ?_, hi, fun j c hij hc htakes => hex ⟨j, hij, c, hc, htakes⟩⟩
    obtain ⟨hlt, -, htaken⟩ := hj.taken hi
    exact hex ⟨j, hlt, htaken⟩

/-- The entries at the end come from the insertions that are left. -/
theorem exists_left (h : Lists (outcome Bindings.step (fun _ => none) calls) entries) :
    ∃ left : List ℕ, left.flatMap (handedInAt calls) = entries ∧
      ∀ i, i ∈ left ↔ ∃ key value, InMap calls i key value := by
  have hfrom : ∀ e ∈ entries, ∃ i, InMap calls i e.1 e.2 := fun e he =>
    bound_iff.1 ((h.mem_iff e.1 e.2).1 he)
  have hlist : ∀ l : List (CStr × Option V), (∀ e ∈ l, ∃ i, InMap calls i e.1 e.2) →
      ∃ left : List ℕ, left.flatMap (handedInAt calls) = l ∧
        ∀ i, i ∈ left ↔ ∃ e ∈ l, InMap calls i e.1 e.2 := by
    intro l hl
    induction l with
    | nil => exact ⟨[], rfl, by simp⟩
    | cons e l ih =>
        obtain ⟨left, hleft, hmem⟩ := ih fun e he => hl e (List.mem_cons_of_mem _ he)
        obtain ⟨i, hi⟩ := hl e List.mem_cons_self
        refine ⟨i :: left, ?_, fun i' => ?_⟩
        · rw [List.flatMap_cons, hleft, handedInAt, hi.inserted]
          rfl
        · rw [List.mem_cons, List.exists_mem_cons_iff, hmem]
          refine or_congr ⟨?_, fun hi' => (hi'.unique hi).1⟩ Iff.rfl
          rintro rfl
          exact hi
  obtain ⟨left, hleft, hmem⟩ := hlist entries hfrom
  refine ⟨left, hleft, fun i => (hmem i).trans ⟨?_, ?_⟩⟩
  · rintro ⟨e, -, hi⟩
    exact ⟨e.1, e.2, hi⟩
  · rintro ⟨key, value, hi⟩
    exact ⟨(key, value), (h.mem_iff key value).2 (bound_iff.2 ⟨i, hi⟩), hi⟩

theorem conserves (h : Lists (outcome Bindings.step (fun _ => none) calls) entries)
    (hleft : left.flatMap (handedInAt calls) = entries)
    (hmem : ∀ i, i ∈ left ↔ ∃ key value, InMap calls i key value) :
    Conserves calls (answers Bindings.step (fun _ => none) calls) left where
  inserted_returned i key value hi := by
    have hin : i ∈ left ↔ InMap calls i key value := by
      rw [hmem]
      refine ⟨?_, fun h => ⟨key, value, h⟩⟩
      rintro ⟨key', value', h⟩
      cases hi.symm.trans h.inserted
      exact h
    rcases returned_or_left hi with ⟨hreturned, hout⟩ | ⟨hnot, hstays⟩
    · exact .inl ⟨mt hin.1 hout, hreturned⟩
    · exact .inr ⟨hin.2 hstays, hnot⟩
  returned_inserted j call key v hcall htakes hanswer := by
    rw [answer_eq hcall htakes] at hanswer
    obtain ⟨i, hi⟩ := bound_iff.1 (Option.join_eq_some_iff.1 (Option.some.inj hanswer))
    refine ⟨i, returns_of_inMap hi hcall htakes, ?_⟩
    rintro i' ⟨key', value', call', hi', hcall', htakes', -⟩
    cases hcall.symm.trans hcall'
    have hkey : key' = key := by
      cases call with
      | insert k _ => exact htakes'.symm.trans htakes
      | get k => cases htakes
      | remove k => exact htakes'.symm.trans htakes
    subst hkey
    exact (hi'.unique hi).1
  left_nodup := by
    have hnodup := h.nodup
    rw [← hleft, List.nodup_flatMap] at hnodup
    refine hnodup.2.imp_of_mem fun {i i'} hi _ hdisjoint heq => ?_
    -- An insertion hands in one entry, so it is not disjoint from itself.
    obtain ⟨key, value, hin⟩ := (hmem i).1 hi
    have hentry : (key, value) ∈ handedInAt calls i := by
      rw [handedInAt, hin.inserted]
      exact List.mem_singleton_self _
    exact hdisjoint hentry (heq ▸ hentry)
  left_inserted i hi := by
    obtain ⟨key, value, hin⟩ := (hmem i).1 hi
    exact ⟨key, value, hin.inserted⟩

end Returns

/-! ## The destruction -/

variable {m : ConcurrentHashMap V} {chains : ℕ → List Ref}

/-- The entries of the nodes, bucket by bucket. -/
def nodeEntries (m : ConcurrentHashMap V) (chains : ℕ → List Ref) : List (CStr × Option V) :=
  (List.range m.nbuckets).flatMap fun i => (chains i).map fun a => (m.key a, m.value a)

theorem lists_nodeEntries (h : Rep m chains) (hs : Shows m chains s) :
    Lists s (nodeEntries m chains) where
  keys := by
    unfold nodeEntries
    rw [List.map_flatMap, List.nodup_flatMap]
    refine ⟨fun i _ => ?_, ?_⟩
    · rw [List.map_map]
      exact h.keys i
    · refine List.nodup_range.imp fun {i j} hij => ?_
      -- A key is in the bucket of its hash only.
      intro key hi hj
      simp only [List.map_map, List.mem_map, Function.comp_apply] at hi hj
      obtain ⟨a, ha, rfl⟩ := hi
      obtain ⟨b, hb, heq⟩ := hj
      exact hij ((h.index_eq i a ha).symm.trans (heq ▸ h.index_eq j b hb))
  mem_iff key v := by
    rw [hs key v, nodeEntries, List.mem_flatMap]
    constructor
    · rintro ⟨i, -, hmem⟩
      obtain ⟨a, ha, heq⟩ := List.mem_map.1 hmem
      obtain ⟨rfl, rfl⟩ := Prod.mk.inj heq
      rw [← h.index_eq i a ha] at ha
      exact ⟨a, ha, rfl, rfl⟩
    · rintro ⟨a, ha, rfl, rfl⟩
      exact ⟨index m (m.key a), List.mem_range.2 (Nat.mod_lt _ h.nbuckets_pos),
        List.mem_map_of_mem ha⟩

theorem freeNodes_chain {l : List Ref} {p : Option Ref} (h : Chain m.next p l) {fuel : ℕ}
    (hfuel : l.length ≤ fuel) : freeNodes m true fuel p = some (l.map m.value) := by
  induction l generalizing p fuel with
  | nil =>
      obtain rfl : p = none := h
      rw [freeNodes, List.map_nil]
  | cons a l ih =>
      obtain ⟨rfl, hl⟩ := h
      rw [List.length_cons] at hfuel
      obtain ⟨fuel, rfl⟩ : ∃ k, fuel = k + 1 := ⟨fuel - 1, by omega⟩
      rw [freeNodes, ih hl (by omega), Option.map_some, if_pos rfl, List.map_cons]

theorem destroyBuckets_ok (h : Rep m chains) (is : List ℕ) :
    destroyBuckets true is m = some (is.flatMap fun i => (chains i).map m.value) := by
  induction is with
  | nil => rfl
  | cons i is ih =>
      have hunlock : pthreadMutexUnlock
          { m with lock := Function.update m.lock i true } i = m := by
        simp only [pthreadMutexUnlock, h.relocked]
      have hfree : freeNodes { m with lock := Function.update m.lock i true } true m.fresh
          (m.head i) = some ((chains i).map m.value) :=
        freeNodes_chain (m := { m with lock := Function.update m.lock i true }) (h.chain i)
          (h.length_le i)
      rw [destroyBuckets, h.lock_eq, Option.bind_some]
      dsimp only
      rw [hfree, Option.bind_some, hunlock, ih, Option.map_some, List.flatMap_cons]

/-- `free_val` gets the value of every node. -/
theorem mapDestroy_ok (h : Rep m chains) :
    mapDestroy m true = some ((nodeEntries m chains).map Prod.snd) := by
  rw [mapDestroy, destroyBuckets_ok h, nodeEntries, List.map_flatMap]
  simp only [List.map_map]
  rfl

/-- From its creation to its destruction a map gives back every value that it gets, once: the
call that overwrites or removes the value returns it, or it is left, and `free_val` is called with
just the values that are left. -/
theorem values_conserved {nbuckets : ℕ} (hn : 0 < nbuckets) {calls : List (Call V)}
    (hcalls : ∀ call ∈ calls, call.NonNull) :
    ∃ answers m left, Trace step (mapCreate nbuckets) calls answers m ∧
      mapDestroy m true = some ((left.flatMap (handedInAt calls)).map Prod.snd) ∧
      Conserves calls answers left ∧
      (calls.flatMap handedIn).Perm
        ((calls.zip answers).flatMap givenBack ++ left.flatMap (handedInAt calls)) := by
  obtain ⟨m, htrace, chains, h, hs⟩ := run_ok hn calls
  have hlists := lists_nodeEntries h hs
  obtain ⟨left, hleft, hmem⟩ := exists_left hlists
  obtain ⟨entries, hentries, hbalance⟩ := balance_run lists_init (fun key => nofun) hcalls
  refine ⟨_, m, left, htrace, ?_, conserves hlists hleft hmem, ?_⟩
  · rw [hleft]
    exact mapDestroy_ok h
  · rw [List.append_nil] at hbalance
    rw [hleft]
    exact hbalance.trans ((hentries.perm hlists).append_left _)

/-- One value is overwritten, one removed, and one left to `free_val`. -/
theorem values_conserved_three :
    let calls : List (Call ℕ) :=
      [.insert ⟨[97], by decide⟩ (some 7), .insert ⟨[97], by decide⟩ (some 8),
        .insert ⟨[98], by decide⟩ (some 9), .remove ⟨[97], by decide⟩]
    ∃ answers m left, Trace step (mapCreate 1) calls answers m ∧
      mapDestroy m true = some ((left.flatMap (handedInAt calls)).map Prod.snd) ∧
      Conserves calls answers left ∧
      (calls.flatMap handedIn).Perm
        ((calls.zip answers).flatMap givenBack ++ left.flatMap (handedInAt calls)) := by
  intro calls
  refine values_conserved Nat.one_pos fun call hcall => ?_
  simp only [calls, List.mem_cons, List.not_mem_nil, or_false] at hcall
  rcases hcall with rfl | rfl | rfl | rfl <;> simp [Call.NonNull]

end HashMap
end Leetcode
