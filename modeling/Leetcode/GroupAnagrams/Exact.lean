import Mathlib.Data.List.FinRange
import Leetcode.GroupAnagrams.Model

/-!
# When the groups are the anagrams

A group is a bucket of the hash table, so it holds the strings whose sorted forms have the
same hash.  `Exact` is what the caller expects; `groupAnagrams_exact_iff` says for which
arrays of strings it holds, and `keysRight_iff` what this means where all lengths fit an `int`.
-/

namespace Leetcode
namespace GroupAnagrams

open CLib

/-! ## Anagrams and sorted strings -/

/-- The two strings have the same characters. -/
def Anagrams (s t : CStr) : Prop := s.1.Perm t.1

instance (s t : CStr) : Decidable (Anagrams s t) := inferInstanceAs (Decidable (List.Perm _ _))

/-- The characters are in the order of `char`. -/
def InOrder (s : Bytes) : Prop := s.Pairwise fun a b => charValue a ≤ charValue b

theorem len_le (s : CStr) : (intOfSize s.1.length).toNat ≤ s.1.length := by
  have hle := intOfSize_le s.1.length
  omega

theorem sortedKey_perm (s : CStr) : (sortedKey s).Perm s.1 := exchangeSort_perm charValue _ s.1

/-- The whole string is sorted if its length is not cut. -/
theorem sortedKey_inOrder {s : CStr} (h : s.1.length < 2 ^ 31) : InOrder (sortedKey s) := by
  have hlen : (intOfSize s.1.length).toNat = s.1.length := by
    rw [intOfSize_eq h]
    exact Int.toNat_natCast _
  refine (exchangeSort_pairwise_iff charValue (len_le s)).2 ?_
  rw [hlen, List.drop_length]
  exact ⟨List.Pairwise.nil, fun _ _ b hb => absurd hb List.not_mem_nil⟩

/-- Strings that have been sorted are the same just for anagrams. -/
theorem sortedKey_eq_iff {s t : CStr} (hs : InOrder (sortedKey s)) (ht : InOrder (sortedKey t)) :
    sortedKey s = sortedKey t ↔ Anagrams s t := by
  refine (eq_iff_perm_of_pairwise charValue_injective hs ht).trans ⟨fun h => ?_, fun h => ?_⟩
  · exact (sortedKey_perm s).symm.trans (h.trans (sortedKey_perm t))
  · exact (sortedKey_perm s).trans (h.trans (sortedKey_perm t).symm)

/-! ## The contract -/

/-- The groups are described by `returnSize` and `returnColumnSizes`, their places can be
given to the positions of the input, one each, so that a place has the string of its
position, and two positions are in one group if and only if their strings are anagrams. -/
structure Exact (strs : List CStr) (r : Groups) : Prop where
  size_eq : r.returnSize = r.result.length
  columns_eq : r.returnColumnSizes = r.result.map List.length
  grouped : ∃ positions : List (List (Fin strs.length)),
    positions.map (List.map strs.get) = r.result ∧
      positions.flatten.Perm (List.finRange strs.length) ∧
      ∀ p q, (∃ group ∈ positions, p ∈ group ∧ q ∈ group) ↔ Anagrams (strs.get p) (strs.get q)

/-- Every string is returned as often as it was given. -/
theorem Exact.perm {strs : List CStr} {r : Groups} (h : Exact strs r) :
    r.result.flatten.Perm strs := by
  obtain ⟨positions, hresult, hperm, -⟩ := h.grouped
  rw [← hresult, ← List.map_flatten]
  exact (hperm.map strs.get).trans (List.Perm.of_eq (List.map_get_finRange strs))

/-- What a group says about its strings. -/
theorem Exact.anagrams {strs : List CStr} {r : Groups} (h : Exact strs r) {group : List CStr}
    (hgroup : group ∈ r.result) {s t : CStr} (hs : s ∈ group) (ht : t ∈ group) :
    Anagrams s t := by
  obtain ⟨positions, hresult, -, hsame⟩ := h.grouped
  rw [← hresult] at hgroup
  obtain ⟨place, hplace, rfl⟩ := List.mem_map.1 hgroup
  obtain ⟨p, hp, rfl⟩ := List.mem_map.1 hs
  obtain ⟨q, hq, rfl⟩ := List.mem_map.1 ht
  exact (hsame p q).1 ⟨place, hplace, hp, hq⟩

/-! ## The positions of the buckets -/

/-- Cutting a list by the values of a function keeps its elements. -/
theorem flatMap_filter_perm {α : Type*} (f : α → ℕ) (l : List α) (n : ℕ) :
    ((List.range n).flatMap fun i => l.filter fun a => f a = i).Perm
      (l.filter fun a => f a < n) := by
  induction n with
  | zero => simp
  | succ n ih =>
      have hbelow : (l.filter fun a => f a < n + 1).filter (fun a => f a < n) =
          l.filter fun a => f a < n := by
        rw [List.filter_filter]
        refine List.filter_congr fun a _ => ?_
        rw [← Bool.decide_and, decide_eq_decide]
        omega
      have hlast : (l.filter fun a => f a < n + 1).filter (fun a => !decide (f a < n)) =
          l.filter fun a => f a = n := by
        rw [List.filter_filter]
        refine List.filter_congr fun a _ => ?_
        rw [← decide_not, ← Bool.decide_and, decide_eq_decide]
        omega
      have hsplit := List.filter_append_perm (fun a => decide (f a < n))
        (l.filter fun a => f a < n + 1)
      rw [hbelow, hlast] at hsplit
      rw [List.range_succ, List.flatMap_append, List.flatMap_singleton]
      exact (ih.append_right _).trans hsplit

/-- The positions of the strings of a bucket, the last one first. -/
def positionsOf (strs : List CStr) (i : ℕ) : List (Fin strs.length) :=
  ((List.finRange strs.length).filter fun p => bucket (strs.get p) = i).reverse

theorem map_positionsOf (strs : List CStr) (i : ℕ) :
    (positionsOf strs i).map strs.get = members strs i := by
  have hfilter : ((List.finRange strs.length).map strs.get).filter (fun s => bucket s = i) =
      ((List.finRange strs.length).filter fun p => bucket (strs.get p) = i).map strs.get :=
    List.filter_map
  rw [List.map_get_finRange] at hfilter
  rw [positionsOf, members, hfilter, List.map_reverse]

/-- The positions of the groups. -/
def positions (strs : List CStr) : List (List (Fin strs.length)) :=
  ((List.range TABLE_SIZE).map (positionsOf strs)).filter (· ≠ [])

theorem map_positions (strs : List CStr) :
    (positions strs).map (List.map strs.get) = (groupsOf strs).result := by
  have hmap : (List.range TABLE_SIZE).map (members strs) =
      ((List.range TABLE_SIZE).map (positionsOf strs)).map (List.map strs.get) := by
    rw [List.map_map]
    exact List.map_congr_left fun i _ => (map_positionsOf strs i).symm
  have hempty : ∀ group ∈ (List.range TABLE_SIZE).map (positionsOf strs),
      decide (group ≠ []) = ((fun group => decide (group ≠ [])) ∘ List.map strs.get) group := by
    intro group _
    simp
  simp only [positions, groupsOf]
  rw [hmap, List.filter_congr hempty]
  exact List.filter_map.symm

theorem positions_perm (strs : List CStr) :
    (positions strs).flatten.Perm (List.finRange strs.length) := by
  have hall : (List.finRange strs.length).filter (fun p => bucket (strs.get p) < TABLE_SIZE) =
      List.finRange strs.length := by
    rw [List.filter_eq_self]
    intro p _
    simpa using bucket_lt (strs.get p)
  have hcut := flatMap_filter_perm (fun p => bucket (strs.get p)) (List.finRange strs.length)
    TABLE_SIZE
  rw [hall] at hcut
  refine List.Perm.trans ?_ hcut
  rw [positions, List.flatten_filter_ne_nil, ← List.flatMap_def]
  exact List.Perm.flatMap_left _ fun i _ => List.reverse_perm _

/-- Two positions are in one group when their strings are in one bucket. -/
theorem positions_group (strs : List CStr) (p q : Fin strs.length) :
    (∃ group ∈ positions strs, p ∈ group ∧ q ∈ group) ↔
      bucket (strs.get p) = bucket (strs.get q) := by
  have hmem : ∀ i p, p ∈ positionsOf strs i ↔ bucket (strs.get p) = i := by
    intro i p
    simp [positionsOf]
  constructor
  · rintro ⟨group, hgroup, hp, hq⟩
    obtain ⟨i, -, rfl⟩ := List.mem_map.1 (List.mem_filter.1 hgroup).1
    exact ((hmem i p).1 hp).trans ((hmem i q).1 hq).symm
  · intro h
    refine ⟨positionsOf strs (bucket (strs.get p)), List.mem_filter.2 ⟨?_, ?_⟩,
      (hmem _ p).2 rfl, (hmem _ q).2 h.symm⟩
    · exact List.mem_map.2 ⟨_, List.mem_range.2 (bucket_lt _), rfl⟩
    · simpa using List.ne_nil_of_mem ((hmem _ p).2 rfl)

/-! ## Collisions -/

/-- Strings share a bucket just when they are anagrams. -/
def KeysRight (strs : List CStr) : Prop :=
  ∀ s ∈ strs, Sortable s ∧ ∀ t ∈ strs, hash (sortedKey s) = hash (sortedKey t) ↔ Anagrams s t

/-- Strings that are not anagrams do not meet in a bucket. -/
def NoCollision (strs : List CStr) : Prop :=
  ∀ s ∈ strs, ∀ t ∈ strs, ¬Anagrams s t → hash (sortedKey s) ≠ hash (sortedKey t)

/-- Two strings that share a bucket are in one of the groups returned. -/
theorem exists_group (strs : List CStr) {s t : CStr} (hs : s ∈ strs) (ht : t ∈ strs)
    (h : bucket s = bucket t) :
    ∃ group ∈ (groupsOf strs).result, s ∈ group ∧ t ∈ group := by
  obtain ⟨p, rfl⟩ := List.get_of_mem hs
  obtain ⟨q, rfl⟩ := List.get_of_mem ht
  obtain ⟨group, hgroup, hp, hq⟩ := (positions_group strs p q).2 h
  rw [← map_positions]
  exact ⟨group.map strs.get, List.mem_map_of_mem hgroup, List.mem_map_of_mem hp,
    List.mem_map_of_mem hq⟩

/-- The strings of a group come from one bucket. -/
theorem Exact.bucket_eq {strs : List CStr} (h : Exact strs (groupsOf strs)) {s t : CStr}
    (hs : s ∈ strs) (ht : t ∈ strs) (hanagrams : Anagrams s t) : bucket s = bucket t := by
  obtain ⟨places, hresult, -, hsame⟩ := h.grouped
  obtain ⟨p, rfl⟩ := List.get_of_mem hs
  obtain ⟨q, rfl⟩ := List.get_of_mem ht
  obtain ⟨place, hplace, hp, hq⟩ := (hsame p q).2 hanagrams
  have hgroup : place.map strs.get ∈ (groupsOf strs).result :=
    hresult ▸ List.mem_map_of_mem hplace
  obtain ⟨i, hmembers⟩ := members_of_mem hgroup
  have hbucket : ∀ u ∈ place.map strs.get, bucket u = i := by
    rw [← hmembers]
    intro u hu
    simpa using (List.mem_filter.1 (List.mem_reverse.1 hu)).2
  rw [hbucket _ (List.mem_map_of_mem hp), hbucket _ (List.mem_map_of_mem hq)]

/-- Where no length is cut, anagrams have the same key. -/
theorem keysRight_iff {strs : List CStr} (hshort : ∀ s ∈ strs, s.1.length < 2 ^ 31) :
    KeysRight strs ↔ NoCollision strs := by
  constructor
  · intro h s hs t ht hne hhash
    exact hne (((h s hs).2 t ht).1 hhash)
  · intro h s hs
    refine ⟨sortable_of_short (hshort s hs), fun t ht => ⟨fun hhash => ?_, fun hanagrams => ?_⟩⟩
    · by_contra hne
      exact h s hs t ht hne hhash
    · have hkeys := sortedKey_eq_iff (sortedKey_inOrder (hshort s hs))
        (sortedKey_inOrder (hshort t ht))
      rw [hkeys.2 hanagrams]

/-- The groups are exact if and only if two strings are anagrams of each other just when their
sorted forms have the same hash. -/
theorem groupAnagrams_exact_iff (strs : List CStr) :
    (∃ r, groupAnagrams strs = some r ∧ Exact strs r) ↔ KeysRight strs := by
  constructor
  · rintro ⟨r, hresult, h⟩ s hs
    obtain ⟨hashTable, hfill, -⟩ := Option.map_eq_some_iff.1 hresult
    have hsortable := sortable_of_fillTable hfill
    rw [groupAnagrams_ok hsortable] at hresult
    obtain rfl := Option.some.inj hresult
    refine ⟨hsortable s hs, fun t ht => ⟨fun hhash => ?_, fun hanagrams => ?_⟩⟩
    · obtain ⟨group, hgroup, hsg, htg⟩ := exists_group strs hs ht hhash
      exact h.anagrams hgroup hsg htg
    · exact h.bucket_eq hs ht hanagrams
  · intro h
    refine ⟨groupsOf strs, groupAnagrams_ok fun s hs => (h s hs).1, by rw [groupsOf],
      by rw [groupsOf], positions strs, map_positions strs, positions_perm strs, fun p q => ?_⟩
    rw [positions_group]
    exact (h _ (List.get_mem strs p)).2 _ (List.get_mem strs q)

/-- The strings `"p"` and `"aa"` are put into one group. -/
theorem groupAnagrams_collision :
    ¬∃ r, groupAnagrams [⟨ascii "p", by decide⟩, ⟨ascii "aa", by decide⟩] = some r ∧
      Exact [⟨ascii "p", by decide⟩, ⟨ascii "aa", by decide⟩] r := by
  rintro ⟨r, hresult, h⟩
  have hsortable : ∀ s ∈ ([⟨ascii "p", by decide⟩, ⟨ascii "aa", by decide⟩] : List CStr),
      Sortable s := by
    decide
  rw [groupAnagrams_ok hsortable] at hresult
  obtain rfl := Option.some.inj hresult
  obtain ⟨group, hgroup, hp, haa⟩ :=
    exists_group [⟨ascii "p", by decide⟩, ⟨ascii "aa", by decide⟩] List.mem_cons_self
      (List.mem_cons_of_mem _ List.mem_cons_self) (by decide)
  have hanagrams := h.anagrams hgroup hp haa
  exact absurd hanagrams (by decide)

end GroupAnagrams
end Leetcode
