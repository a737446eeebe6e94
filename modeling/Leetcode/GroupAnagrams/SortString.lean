import Leetcode.GroupAnagrams.Exact
import Leetcode.Lib.CArray

/-!
# `sortString` in memory

`sortString` takes a pointer and sorts a copy of what it points to.  A `Heap` has the blocks that
`malloc` has returned, so that it can be said which of them a call writes to.

* `sortString_run` — the loops sort the first `len` characters and stay inside of them.
* `sortString_canonical_iff` — when the results of two calls are sorted, so that they are the same
  just for anagrams.  They are for all strings whose lengths fit an `int`.
-/

namespace Leetcode
namespace GroupAnagrams

open CLib

/-- The bytes from an address on, and the next address that `malloc` returns. -/
structure Heap where
  block : ℕ → Bytes
  fresh : ℕ

namespace Heap

/-- At the address is a C string. -/
def Holds (h : Heap) (a : ℕ) (s : CStr) : Prop :=
  a < h.fresh ∧ ∃ rest, h.block a = s.1 ++ 0 :: rest

/-- `strdup(s)`: the new address, and the memory. -/
def strdup (h : Heap) (s : ℕ) : ℕ × Heap :=
  (h.fresh, { block := Function.update h.block h.fresh (cstring (h.block s) ++ [0])
              fresh := h.fresh + 1 })

def strlen (h : Heap) (s : ℕ) : ℕ := (cstring (h.block s)).length

end Heap

/-- The body of the two loops of `sortString`, on the bytes of `sorted`. -/
def compareAt (i j : ℕ) (sorted : Bytes) : Option Bytes :=
  (load sorted i).bind fun x => (load sorted j).bind fun y =>
    if charValue y < charValue x then
      (store sorted i y).bind fun sorted => store sorted j x
    else some sorted

/-- `for (j = i + 1; j < len; j++)` -/
def roundAt (len : ℕ) (sorted : Bytes) (i : ℕ) : Option Bytes :=
  (List.range' (i + 1) (len - (i + 1))).foldlM (fun sorted j => compareAt i j sorted) sorted

/-- `sortString(s)`: the address that it returns, and the memory. -/
def Heap.sortString (h : Heap) (s : ℕ) : Option (ℕ × Heap) :=
  let copied := h.strdup s
  let len := intOfSize (copied.2.strlen copied.1)
  (intResult (len - 1)).bind fun last =>
    ((List.range last.toNat).foldlM (roundAt len.toNat) (copied.2.block copied.1)).map fun sorted =>
      (copied.1, { copied.2 with block := Function.update copied.2.block copied.1 sorted })

/-! ## The loops -/

variable {l rest : Bytes} {i j len : ℕ}

theorem load_append (hi : i < l.length) : load (l ++ rest) i = l[i]? := by
  rw [load_natCast, List.getElem?_append_left hi]

theorem store_append (hi : i < l.length) (x : UInt8) :
    store (l ++ rest) i x = some (l.set i x ++ rest) := by
  have hin : (i : ℤ) < (l ++ rest).length := by
    rw [List.length_append]
    omega
  rw [store_ok (Int.natCast_nonneg i) hin, Int.toNat_natCast, List.set_append_left _ _ hi]

theorem compareAt_ok (hij : i < j) (hj : j < l.length) :
    compareAt i j (l ++ rest) = some (compareSwap charValue i j l ++ rest) := by
  have hi : i < l.length := by omega
  unfold compareAt compareSwap
  rw [load_append hi, load_append hj, List.getElem?_eq_getElem hi, List.getElem?_eq_getElem hj,
    Option.bind_some, Option.bind_some]
  by_cases hlt : charValue l[j] < charValue l[i]
  · have hlength : j < (l.set i l[j]).length := by rwa [List.length_set]
    simp only [if_pos hlt]
    rw [store_append hi, Option.bind_some, store_append hlength]
  · simp only [if_neg hlt]

/-- A loop that leaves alone what is behind the first `n` bytes. -/
theorem foldlM_append {ι : Type*} {f : Bytes → ι → Option Bytes} {g : Bytes → ι → Bytes} {n : ℕ}
    (hperm : ∀ l x, (g l x).Perm l) (xs : List ι)
    (hstep : ∀ x ∈ xs, ∀ l, l.length = n → f (l ++ rest) x = some (g l x ++ rest))
    (hl : l.length = n) : xs.foldlM f (l ++ rest) = some (xs.foldl g l ++ rest) := by
  induction xs generalizing l with
  | nil => rfl
  | cons x xs ih =>
      have hlength := (hperm l x).length_eq.trans hl
      rw [List.foldlM_cons, hstep x List.mem_cons_self l hl, List.foldl_cons]
      exact ih (fun y hy => hstep y (List.mem_cons_of_mem x hy)) hlength

theorem roundAt_ok (hlen : len ≤ l.length) (rest : Bytes) (i : ℕ) :
    roundAt len (l ++ rest) i = some (exchangeRound charValue len l i ++ rest) := by
  refine foldlM_append (fun l j => compareSwap_perm charValue i j l) _ (fun j hj l' hl' => ?_) rfl
  rw [List.mem_range'_1] at hj
  exact compareAt_ok (by omega) (by omega)

theorem sortLoops_ok (hlen : len ≤ l.length) (rest : Bytes) :
    (List.range (len - 1)).foldlM (roundAt len) (l ++ rest) =
      some (exchangeSort charValue len l ++ rest) := by
  refine foldlM_append (fun l i => exchangeRound_perm charValue len l i) _ (fun i _ l' hl' => ?_)
    rfl
  exact roundAt_ok (by omega) rest i

/-! ## Calls -/

variable {h : Heap} {a b : ℕ} {s t : CStr}

theorem cstring_block (ha : h.Holds a s) : cstring (h.block a) = s.1 := by
  obtain ⟨-, rest, hblock⟩ := ha
  have hchars : ∀ c ∈ s.1, (c != 0) = true := fun c hc =>
    bne_iff_ne.2 fun hzero => s.2 (hzero ▸ hc)
  rw [hblock, cstring, List.takeWhile_append_of_pos hchars]
  simp

/-- The sorted characters are a C string too. -/
def sorted (s : CStr) : CStr :=
  ⟨sortedKey s, fun hmem => s.2 ((sortedKey_perm s).mem_iff.1 hmem)⟩

theorem strlen_strdup (ha : h.Holds a s) : (h.strdup a).2.strlen h.fresh = s.1.length := by
  have hcopy : (h.strdup a).2.Holds h.fresh s := by
    refine ⟨Nat.lt_succ_self _, [], ?_⟩
    rw [Heap.strdup, cstring_block ha]
    exact Function.update_self ..
  rw [Heap.strlen, cstring_block hcopy]

/-- `sortString` returns a new block with the sorted characters. -/
theorem sortString_run (ha : h.Holds a s) (hs : Sortable s) :
    ∃ h', h.sortString a = some (h.fresh, h') ∧ h'.Holds h.fresh (sorted s) ∧
      h'.fresh = h.fresh + 1 ∧ ∀ c < h.fresh, h'.block c = h.block c := by
  have hcopy : (h.strdup a).2.block h.fresh = s.1 ++ [0] := by
    rw [Heap.strdup, cstring_block ha]
    exact Function.update_self ..
  have hlast : (intOfSize s.1.length - 1).toNat = (intOfSize s.1.length).toNat - 1 := by omega
  have hrun := sortLoops_ok (len_le s) [0]
  rw [← hcopy, ← hlast] at hrun
  let after := Function.update (h.strdup a).2.block h.fresh (sortedKey s ++ [0])
  refine ⟨{ (h.strdup a).2 with block := after }, ?_, ⟨Nat.lt_succ_self _, [], ?_⟩, rfl,
    fun c hc => ?_⟩
  · rw [Heap.sortString]
    simp only [show (h.strdup a).1 = h.fresh from rfl, strlen_strdup ha, intResult_ok hs.fits,
      Option.bind_some, hrun, Option.map_some]
    rfl
  · exact Function.update_self ..
  · have hne : c ≠ h.fresh := Nat.ne_of_lt hc
    exact (Function.update_of_ne hne ..).trans (Function.update_of_ne hne ..)

theorem sortString_overflows (ha : h.Holds a s) (hs : ¬Sortable s) : h.sortString a = none := by
  have hlen : intOfSize s.1.length = -2 ^ 31 := Decidable.not_not.1 hs
  rw [Heap.sortString]
  simp only [show (h.strdup a).1 = h.fresh from rfl, strlen_strdup ha, hlen]
  rfl

theorem Heap.Holds.later {h' : Heap} (ha : h.Holds a s) (hfresh : h.fresh ≤ h'.fresh)
    (hsame : ∀ c < h.fresh, h'.block c = h.block c) : h'.Holds a s := by
  obtain ⟨hlt, rest, hblock⟩ := ha
  exact ⟨Nat.lt_of_lt_of_le hlt hfresh, rest, (hsame a hlt).trans hblock⟩

theorem Heap.Holds.unique (hs : h.Holds a s) (ht : h.Holds a t) : s = t :=
  Subtype.ext ((cstring_block hs).symm.trans (cstring_block ht))

/-! ## When the strings are sorted -/

/-- What is expected of two calls: strings in the order of `char` with the characters of the
arguments, which are the same if and only if the arguments are anagrams.  The arguments, and all
other blocks, are as they were. -/
def Canonical (h : Heap) (a b : ℕ) (s t : CStr) : Prop :=
  ∃ p q h₁ h₂ s' t', h.sortString a = some (p, h₁) ∧ h₁.sortString b = some (q, h₂) ∧
    h₂.Holds p s' ∧ h₂.Holds q t' ∧ (∀ c < h.fresh, h₂.block c = h.block c) ∧
    InOrder s'.1 ∧ s'.1.Perm s.1 ∧ InOrder t'.1 ∧ t'.1.Perm t.1 ∧ (s' = t' ↔ t.1.Perm s.1)

/-- The characters behind the first `len` are in order and not less than these, and `len - 1` does
not overflow. -/
def Settled (s : CStr) : Prop :=
  let len := intOfSize s.1.length
  len ≠ -2 ^ 31 ∧ InOrder (s.1.drop len.toNat) ∧
    ∀ x ∈ s.1.take len.toNat, ∀ y ∈ s.1.drop len.toNat, charValue x ≤ charValue y

theorem settled_iff : Settled s ↔ Sortable s ∧ InOrder (sortedKey s) :=
  and_congr_right' (exchangeSort_pairwise_iff charValue (len_le s)).symm

/-- No character is behind the first `len` if the length fits an `int`. -/
theorem settled_of_short (h : s.1.length < 2 ^ 31) : Settled s :=
  settled_iff.2 ⟨sortable_of_short h, sortedKey_inOrder h⟩

/-- Two calls do what is expected of them if and only if both strings are sorted by exchanges among
the first `len` characters. -/
theorem sortString_canonical_iff (ha : h.Holds a s) (hb : h.Holds b t) :
    Canonical h a b s t ↔ Settled s ∧ Settled t := by
  rw [settled_iff, settled_iff]
  constructor
  · rintro ⟨p, q, h₁, h₂, s', t', hfirst, hsecond, hp, hq, -, hs', -, ht', -, -⟩
    have hs : Sortable s := by
      by_contra hs
      rw [sortString_overflows ha hs] at hfirst
      cases hfirst
    obtain ⟨h₁', hfirst', hp', hfresh₁, hsame₁⟩ := sortString_run ha hs
    obtain ⟨rfl, rfl⟩ := Prod.mk.inj (Option.some.inj (hfirst.symm.trans hfirst'))
    have hb' := hb.later (by omega) hsame₁
    have ht : Sortable t := by
      by_contra ht
      rw [sortString_overflows hb' ht] at hsecond
      cases hsecond
    obtain ⟨h₂', hsecond', hq', hfresh₂, hsame₂⟩ := sortString_run hb' ht
    obtain ⟨rfl, rfl⟩ := Prod.mk.inj (Option.some.inj (hsecond.symm.trans hsecond'))
    obtain rfl := hp.unique (hp'.later (by omega) hsame₂)
    obtain rfl := hq.unique hq'
    exact ⟨⟨hs, hs'⟩, ht, ht'⟩
  · rintro ⟨⟨hs, hs'⟩, ht, ht'⟩
    obtain ⟨h₁, hfirst, hp, hfresh₁, hsame₁⟩ := sortString_run ha hs
    obtain ⟨h₂, hsecond, hq, hfresh₂, hsame₂⟩ := sortString_run (hb.later (by omega) hsame₁) ht
    refine ⟨_, _, h₁, h₂, sorted s, sorted t, hfirst, hsecond, hp.later (by omega) hsame₂, hq,
      fun c hc => (hsame₂ c (by omega)).trans (hsame₁ c hc), hs', sortedKey_perm s, ht',
      sortedKey_perm t, ?_⟩
    rw [Subtype.ext_iff]
    exact (sortedKey_eq_iff hs' ht').trans List.perm_comm

/-- Two anagrams, the second one with a byte behind its NUL. -/
theorem sortString_canonical_tea :
    let h : Heap := ⟨fun c => if c = 0 then ascii "tea" ++ [0] else ascii "ate" ++ [0, 200], 2⟩
    Canonical h 0 1 ⟨ascii "tea", by decide⟩ ⟨ascii "ate", by decide⟩ :=
  (sortString_canonical_iff ⟨by decide, [], rfl⟩ ⟨by decide, [200], rfl⟩).2
    ⟨settled_of_short (by decide), settled_of_short (by decide)⟩

/-- `n` times `b`, and an `a`. -/
def overlong (n : ℕ) : CStr :=
  ⟨List.replicate n 98 ++ [97], fun hmem => by
    rcases List.mem_append.1 hmem with hb | ha
    · exact absurd (List.mem_replicate.1 hb).2 (by decide)
    · exact absurd (List.mem_singleton.1 ha) (by decide)⟩

theorem length_overlong (n : ℕ) : (overlong n).1.length = n + 1 := by
  show (List.replicate n (98 : UInt8) ++ [97]).length = n + 1
  rw [List.length_append, List.length_replicate, List.length_singleton]

theorem overlong_not_inOrder {n : ℕ} (hn : n ≠ 0) : ¬InOrder (overlong n).1 := by
  intro hordered
  have hcross := (List.pairwise_append.1 hordered).2.2
  have hle := hcross 98 (List.mem_replicate.2 ⟨hn, rfl⟩) 97 List.mem_cons_self
  exact absurd hle (by decide)

/-- The loops do nothing if `len` is negative. -/
theorem sortedKey_negative (hlen : intOfSize s.1.length ≤ 0) : sortedKey s = s.1 := by
  have hzero : (intOfSize s.1.length).toNat = 0 := by omega
  rw [sortedKey, hzero]
  rfl

theorem sortString_negative (ha : h.Holds a s) (hs : Sortable s)
    (hlen : intOfSize s.1.length ≤ 0) :
    ∃ h', h.sortString a = some (h.fresh, h') ∧ h'.Holds h.fresh s := by
  obtain ⟨h', hrun, hresult, -, -⟩ := sortString_run ha hs
  have hsame : sorted s = s := Subtype.ext (sortedKey_negative hlen)
  rw [hsame] at hresult
  exact ⟨h', hrun, hresult⟩

theorem not_settled_negative (hlen : intOfSize s.1.length ≤ 0) (hwrong : ¬InOrder s.1) :
    ¬Settled s := by
  intro hsettled
  have hkey := (settled_iff.1 hsettled).2
  rw [sortedKey_negative hlen] at hkey
  exact hwrong hkey

/-- A length of `2 ^ 31 + 1` is converted to a negative number, and the string is not sorted. -/
theorem sortString_cut :
    let h : Heap := ⟨fun _ => (overlong (2 ^ 31)).1 ++ [0], 1⟩
    (∃ h', h.sortString 0 = some (1, h') ∧ h'.Holds 1 (overlong (2 ^ 31))) ∧
      ¬InOrder (overlong (2 ^ 31)).1 ∧
      ¬Canonical h 0 0 (overlong (2 ^ 31)) (overlong (2 ^ 31)) := by
  intro h
  have hwrong := overlong_not_inOrder (Nat.two_pow_pos 31).ne'
  have hlength := length_overlong (2 ^ 31)
  have hholds : h.Holds 0 (overlong (2 ^ 31)) := ⟨Nat.one_pos, [], rfl⟩
  generalize overlong (2 ^ 31) = s at hwrong hlength hholds ⊢
  have hlen : intOfSize s.1.length = -2 ^ 31 + 1 := by
    rw [hlength]
    decide
  have hsortable : Sortable s := by
    rw [Sortable, hlen]
    decide
  refine ⟨sortString_negative hholds hsortable (by omega), hwrong, fun hcanonical => ?_⟩
  exact not_settled_negative (by omega) hwrong
    ((sortString_canonical_iff hholds hholds).1 hcanonical).1

end GroupAnagrams
end Leetcode
