import Leetcode.Lib.CInt
import Leetcode.Lib.CString
import Leetcode.Lib.Exchange

/-!
# `49.c`: grouping anagrams

A bucket of the hash table is the list of its nodes, the first one first.  `char` is signed,
so a byte from 128 on is a negative number, both where characters are compared and where
they are added to the hash.  `malloc`, `realloc` and `strdup` are taken to succeed.

The length of a string is converted to `int` where the string is sorted, so that of a very long one
is another number or a negative one.  A computation with it that overflows is `none`.
-/

namespace Leetcode
namespace GroupAnagrams

open CLib

def TABLE_SIZE : ℕ := 1007

structure Node where
  key : Bytes
  original : CStr

/-- `hash(key)`: an index of the table.  The additions are those of `unsigned long`. -/
def hash (key : Bytes) : ℕ :=
  let hashValue : UInt64 := key.foldl
    (fun hashValue c => ((hashValue <<< 5) + hashValue) + UInt64.ofInt (charValue c)) 5381
  hashValue.toNat % TABLE_SIZE

/-- `insert(sortedKey, original)` -/
def insert (hashTable : ℕ → List Node) (sortedKey : Bytes) (original : CStr) :
    ℕ → List Node :=
  let index := hash sortedKey
  Function.update hashTable index (⟨sortedKey, original⟩ :: hashTable index)

/-- `sortString(s)` -/
def sortString (s : Bytes) : Option Bytes :=
  let len := intOfSize s.length
  (intResult (len - 1)).map fun _ => exchangeSort charValue len.toNat s

/-- What `groupAnagrams` returns, the last two through its pointers. -/
structure Groups where
  result : List (List CStr)
  returnSize : ℕ
  returnColumnSizes : List ℕ
  deriving DecidableEq

/-- The loop over the nodes of a bucket: the group so far and `count`. -/
def gather : List Node → List CStr → ℕ → List CStr × ℕ
  | [], group, count => (group, count)
  | temp :: next, group, count => gather next (group ++ [temp.original]) (count + 1)

/-- One round of the loop over the table. -/
def collect (hashTable : ℕ → List Node) (r : Groups) (i : ℕ) : Groups :=
  match hashTable i with
  | [] => r
  | temp :: next =>
      let (group, count) := gather (temp :: next) [] 0
      { result := r.result ++ [group]
        returnSize := r.returnSize + 1
        returnColumnSizes := r.returnColumnSizes ++ [count] }

/-- The table after the first two loops. -/
def fillTable (strs : List CStr) : Option (ℕ → List Node) :=
  strs.foldlM (fun hashTable s =>
    (sortString s.1).map fun sortedKey => insert hashTable sortedKey s) fun _ => []

def groupAnagrams (strs : List CStr) : Option Groups :=
  (fillTable strs).map fun hashTable =>
    (List.range TABLE_SIZE).foldl (collect hashTable) ⟨[], 0, []⟩

/-! ## Sorted keys -/

/-- The computation of `len - 1` does not overflow. -/
def Sortable (s : CStr) : Prop := intOfSize s.1.length ≠ -2 ^ 31

instance (s : CStr) : Decidable (Sortable s) := inferInstanceAs (Decidable (_ ≠ _))

def sortedKey (s : CStr) : Bytes := exchangeSort charValue (intOfSize s.1.length).toNat s.1

/-- The bucket that a string is put into. -/
def bucket (s : CStr) : ℕ := hash (sortedKey s)

theorem Sortable.fits {s : CStr} (h : Sortable s) : FitsInt (intOfSize s.1.length - 1) := by
  have hfits := intOfSize_fits s.1.length
  unfold Sortable at h
  unfold FitsInt at hfits ⊢
  omega

theorem sortString_ok {s : CStr} (h : Sortable s) : sortString s.1 = some (sortedKey s) := by
  rw [sortString, intResult_ok h.fits]
  rfl

theorem sortString_none {s : CStr} (h : ¬Sortable s) : sortString s.1 = none := by
  have hlen : intOfSize s.1.length = -2 ^ 31 := Decidable.not_not.1 h
  rw [sortString, hlen]
  rfl

theorem sortable_of_short {s : CStr} (h : s.1.length < 2 ^ 31) : Sortable s := by
  rw [Sortable, intOfSize_eq h]
  omega

/-! ## The loops -/

/-- The strings of a bucket, the last one first. -/
def members (strs : List CStr) (i : ℕ) : List CStr :=
  (strs.filter fun s => bucket s = i).reverse

theorem bucket_lt (s : CStr) : bucket s < TABLE_SIZE := Nat.mod_lt _ (by decide)

theorem fillTable_ok {strs : List CStr} (h : ∀ s ∈ strs, Sortable s) :
    ∃ hashTable, fillTable strs = some hashTable ∧
      ∀ i, (hashTable i).map Node.original = members strs i := by
  induction strs using List.reverseRecOn with
  | nil => exact ⟨fun _ => [], rfl, fun _ => rfl⟩
  | append_singleton strs s ih =>
      obtain ⟨hashTable, hfill, htable⟩ := ih fun t ht => h t (List.mem_append_left _ ht)
      have hs := h s (List.mem_append_right _ List.mem_cons_self)
      have hmembers : ∀ i, members (strs ++ [s]) i =
          if bucket s = i then s :: members strs i else members strs i := by
        intro i
        unfold members
        rw [List.filter_append, List.reverse_append]
        by_cases hi : bucket s = i <;> simp [hi]
      refine ⟨insert hashTable (sortedKey s) s, ?_, fun i => ?_⟩
      · rw [fillTable] at hfill ⊢
        rw [List.foldlM_append, hfill, Option.bind_eq_bind, Option.bind_some, List.foldlM_cons,
          sortString_ok hs]
        rfl
      · rw [hmembers, insert]
        by_cases hi : bucket s = i
        · have hhash : hash (sortedKey s) = i := hi
          rw [if_pos hi, hhash, Function.update_self, List.map_cons, htable]
        · have hhash : i ≠ hash (sortedKey s) := fun h => hi h.symm
          rw [if_neg hi, Function.update_of_ne hhash, htable]

/-- All strings have been sorted. -/
theorem sortable_of_fillTable {strs : List CStr} {hashTable : ℕ → List Node}
    (h : fillTable strs = some hashTable) : ∀ s ∈ strs, Sortable s := by
  induction strs using List.reverseRecOn generalizing hashTable with
  | nil => exact fun s hs => absurd hs List.not_mem_nil
  | append_singleton strs s ih =>
      rw [fillTable, List.foldlM_append] at h
      obtain ⟨before, hbefore, hlast⟩ := Option.bind_eq_some_iff.1 h
      refine List.forall_mem_append.2 ⟨ih hbefore, List.forall_mem_singleton.2 ?_⟩
      by_contra hs
      rw [List.foldlM_cons, sortString_none hs] at hlast
      cases hlast

theorem gather_eq (nodes : List Node) (group : List CStr) (count : ℕ) :
    gather nodes group count = (group ++ nodes.map Node.original, count + nodes.length) := by
  induction nodes generalizing group count with
  | nil => simp [gather]
  | cons temp next ih =>
      rw [gather, ih]
      refine Prod.ext (by simp) ?_
      show count + 1 + next.length = count + (next.length + 1)
      omega

/-- The groups are the buckets that are not empty. -/
theorem collect_eq {strs : List CStr} {hashTable : ℕ → List Node}
    (htable : ∀ i, (hashTable i).map Node.original = members strs i) (is : List ℕ) (r : Groups) :
    is.foldl (collect hashTable) r =
      let groups := (is.map (members strs)).filter (· ≠ [])
      { result := r.result ++ groups
        returnSize := r.returnSize + groups.length
        returnColumnSizes := r.returnColumnSizes ++ groups.map List.length } := by
  induction is generalizing r with
  | nil => simp
  | cons i is ih =>
      rw [List.foldl_cons, ih, List.map_cons]
      have hbucket := htable i
      unfold collect
      cases hnodes : hashTable i with
      | nil =>
          rw [hnodes, List.map_nil] at hbucket
          rw [← hbucket]
          rfl
      | cons temp next =>
          rw [hnodes] at hbucket
          have hne : members strs i ≠ [] := by
            rw [← hbucket, List.map_cons]
            exact List.cons_ne_nil _ _
          have hlength : (temp :: next).length = (members strs i).length := by
            rw [← hbucket, List.length_map]
          rw [List.filter_cons_of_pos (by simpa using hne)]
          simp only [gather_eq, hbucket, hlength, List.nil_append, List.length_cons,
            List.map_cons, List.append_assoc, List.cons_append, Nat.zero_add]
          congr 1
          omega

/-- What is returned for these strings. -/
def groupsOf (strs : List CStr) : Groups :=
  let groups := ((List.range TABLE_SIZE).map (members strs)).filter (· ≠ [])
  ⟨groups, groups.length, groups.map List.length⟩

theorem members_of_mem {strs group : List CStr} (h : group ∈ (groupsOf strs).result) :
    ∃ i, members strs i = group := by
  simp only [groupsOf] at h
  obtain ⟨i, -, hi⟩ := List.mem_map.1 (List.mem_filter.1 h).1
  exact ⟨i, hi⟩

theorem groupAnagrams_ok {strs : List CStr} (h : ∀ s ∈ strs, Sortable s) :
    groupAnagrams strs = some (groupsOf strs) := by
  obtain ⟨hashTable, hfill, htable⟩ := fillTable_ok h
  rw [groupAnagrams, hfill, Option.map_some, collect_eq htable]
  simp [groupsOf]

end GroupAnagrams
end Leetcode
