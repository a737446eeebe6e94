import Leetcode.TinyUrl.Model

/-!
# Issued short URLs

After `k` calls of `encode` the table holds the first strings in the order of the calls, as
many as fit (`Table`), and the call number `i` has returned the short URL of `i`, if
there was room (`issued_eq`).  `urls_faithful` is what follows for a client.
-/

namespace Leetcode
namespace TinyUrl

open CLib

variable {calls : List CStr}

/-- The table has the first strings of the calls, as many as fit. -/
structure Table (calls : List CStr) (s : State) : Prop where
  count : s.urlCount = min calls.length MAX_URLS
  stored : ∀ i < s.urlCount, s.storedUrls i = calls[i]?

theorem table_step {s : State} (h : Table calls s) (longUrl : CStr) :
    Table (calls ++ [longUrl]) (encode s longUrl).1 := by
  have hcount := h.count
  have hlength : (calls ++ [longUrl]).length = calls.length + 1 := by simp
  by_cases hfull : MAX_URLS ≤ s.urlCount
  · rw [encode_full hfull]
    refine ⟨?_, fun i hi => ?_⟩
    · show s.urlCount = _
      omega
    · have hlt : i < s.urlCount := hi
      rw [h.stored i hlt, List.getElem?_append_left (by omega)]
  · rw [encode_stores (Nat.lt_of_not_le hfull)]
    refine ⟨?_, fun i hi => ?_⟩
    · show s.urlCount + 1 = _
      omega
    · show Function.update s.storedUrls s.urlCount (some longUrl) i = _
      have hlt : i < s.urlCount + 1 := hi
      by_cases hlast : i = s.urlCount
      · have hend : i = calls.length := by omega
        rw [hlast, Function.update_self, ← hlast, hend, List.getElem?_concat_length]
      · rw [Function.update_of_ne hlast, h.stored i (by omega),
          List.getElem?_append_left (by omega)]

theorem table_run (calls : List CStr) : Table calls (stateAfter calls) := by
  induction calls using List.reverseRecOn with
  | nil => exact ⟨rfl, fun i hi => absurd hi (Nat.not_lt_zero i)⟩
  | append_singleton calls longUrl ih =>
      rw [stateAfter, outcome_concat]
      exact table_step ih longUrl

/-- What the call number `i` returns. -/
theorem issued_eq (calls : List CStr) (i : ℕ) :
    (issued calls)[i]? =
      calls[i]?.map fun _ => if i < MAX_URLS then some (shortUrl i) else none := by
  rw [issued, answers_getElem?]
  cases hcall : calls[i]? with
  | none => rfl
  | some longUrl =>
      obtain ⟨hi, -⟩ := List.getElem?_eq_some_iff.1 hcall
      have hcount := (table_run (calls.take i)).count
      rw [List.length_take, Nat.min_eq_left (Nat.le_of_lt hi)] at hcount
      rw [Option.map_some, Option.map_some]
      show some (encode (stateAfter (calls.take i)) longUrl).2 = _
      by_cases hroom : i < MAX_URLS
      · rw [encode_stores (by omega), if_pos hroom, hcount, Nat.min_eq_left (by omega)]
      · rw [encode_full (by omega), if_neg hroom]

/-- The calls that succeed, counted. -/
theorem countP_issued (calls : List CStr) :
    (issued calls).countP Option.isSome = (stateAfter calls).urlCount := by
  induction calls using List.reverseRecOn with
  | nil => rfl
  | append_singleton calls longUrl ih =>
      have hstep : stateAfter (calls ++ [longUrl]) = (encode (stateAfter calls) longUrl).1 :=
        outcome_concat ..
      have hlast : issued (calls ++ [longUrl]) =
          issued calls ++ [(encode (stateAfter calls) longUrl).2] := answers_concat ..
      rw [hstep, hlast, List.countP_append, ih]
      by_cases hfull : MAX_URLS ≤ (stateAfter calls).urlCount
      · rw [encode_full hfull]
        rfl
      · rw [encode_stores (Nat.lt_of_not_le hfull)]
        rfl

/-- What a client of `encode` and `decode` may rely on. -/
structure Faithful (calls : List CStr) : Prop where
  /-- A short URL decodes to its string after any number of further calls. -/
  decodes : ∀ (i : ℕ) longUrl url, calls[i]? = some longUrl → (issued calls)[i]? = some (some url) →
    ∀ k, i < k → ∀ junk, decode (stateAfter (calls.take k)) junk url = some longUrl
  distinct : ∀ (i j : ℕ) url, (issued calls)[i]? = some (some url) →
    (issued calls)[j]? = some (some url) → i = j
  bounded : (issued calls).countP Option.isSome ≤ MAX_URLS
  /-- A call that fails leaves the state as it is. -/
  failing : ∀ k longUrl, (encode (stateAfter (calls.take k)) longUrl).2 = none →
    (encode (stateAfter (calls.take k)) longUrl).1 = stateAfter (calls.take k)

/-- The short URL that a call has returned has its number. -/
theorem issued_eq_some {i : ℕ} {url : Bytes} (h : (issued calls)[i]? = some (some url)) :
    i < MAX_URLS ∧ i < calls.length ∧ url = shortUrl i := by
  rw [issued_eq] at h
  obtain ⟨longUrl, hcall, hurl⟩ := Option.map_eq_some_iff.1 h
  obtain ⟨hlength, -⟩ := List.getElem?_eq_some_iff.1 hcall
  split at hurl
  · next hi => exact ⟨hi, hlength, (Option.some.inj hurl).symm⟩
  · cases hurl

/-- Every run of calls keeps its issued URLs for ever. -/
theorem urls_faithful (calls : List CStr) : Faithful calls where
  decodes i longUrl url hcall hissued k hk junk := by
    obtain ⟨hmax, hlength, rfl⟩ := issued_eq_some hissued
    obtain ⟨hcount, hstored⟩ := table_run (calls.take k)
    have hlt : i < (stateAfter (calls.take k)).urlCount := by
      rw [hcount, List.length_take]
      omega
    rw [decode_shortUrl, if_pos hlt, hstored i hlt, List.getElem?_take_of_lt hk, hcall]
  distinct i j url hi hj := by
    obtain ⟨-, -, rfl⟩ := issued_eq_some hi
    obtain ⟨-, -, heq⟩ := issued_eq_some hj
    exact shortUrl_injective heq
  bounded := by
    rw [countP_issued, (table_run calls).count]
    exact Nat.min_le_right _ _
  failing k longUrl hfail := by
    by_cases hfull : MAX_URLS ≤ (stateAfter (calls.take k)).urlCount
    · rw [encode_full hfull]
    · rw [encode_stores (Nat.lt_of_not_le hfull)] at hfail
      cases hfail

example : decode (stateAfter [⟨ascii "a", by decide⟩, ⟨ascii "b", by decide⟩]) 7
    (ascii "http://tinyurl.com/1") = some ⟨ascii "b", by decide⟩ := by decide

end TinyUrl
end Leetcode
