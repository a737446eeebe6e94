import Leetcode.TinyUrl.Issued

/-!
# What `decode` accepts

`decode` skips as many bytes as `BASE_URL` has without comparing them, and takes any spelling
of a number that `sscanf` takes.  So a string that was never issued can decode
(`decode_unissued`), but only to the string whose short URL has the same number, and to that
string it does (`decode_reads`).
-/

namespace Leetcode
namespace TinyUrl

open CLib

/-- `decode` stays inside of the string and finds the number, which fits an `int`, behind the
bytes it skips. -/
structure Reads (url : CStr) (n : ℤ) : Prop where
  long : BASE_URL.length ≤ url.val.length
  number : scanInt (url.val.drop BASE_URL.length) = some n
  fits : Int32.minValue.toInt ≤ n ∧ n ≤ Int32.maxValue.toInt

variable {url : CStr} {n : ℤ}

/-- `decode` looks the number up. -/
theorem decode_number (h : Reads url n) (s : State) (junk : ℤ) :
    decode s junk url.val =
      if n < 0 ∨ (s.urlCount : ℤ) ≤ n then none else s.storedUrls n.toNat := by
  rw [decode, h.number]
  rfl

/-- The call number `i` has succeeded: the table has an entry `i`. -/
theorem issued_iff (calls : List CStr) (i : ℕ) :
    (issued calls)[i]? = some (some (shortUrl i)) ↔ i < (stateAfter calls).urlCount := by
  have hcount := (table_run calls).count
  constructor
  · intro h
    obtain ⟨hmax, hlength, -⟩ := issued_eq_some h
    omega
  · intro h
    have hlength : i < calls.length := by omega
    rw [issued_eq, List.getElem?_eq_getElem hlength, Option.map_some, if_pos (by omega)]

/-- A string in which `decode` reads a number decodes to the string that an earlier call has
issued a short URL with this number for, and to nothing when there is none. -/
theorem decode_reads (h : Reads url n) (calls : List CStr) (junk : ℤ) (longUrl : CStr) :
    decode (stateAfter calls) junk url.val = some longUrl ↔
      ∃ i : ℕ, n = i ∧ (issued calls)[i]? = some (some (shortUrl i)) ∧
        calls[i]? = some longUrl := by
  have hstored := (table_run calls).stored
  rw [decode_number h]
  constructor
  · intro hdecode
    split at hdecode
    · cases hdecode
    · next hrange =>
        obtain ⟨i, rfl⟩ := Int.eq_ofNat_of_zero_le (not_lt.1 (not_or.1 hrange).1)
        have hi : i < (stateAfter calls).urlCount := by omega
        refine ⟨i, rfl, (issued_iff calls i).2 hi, ?_⟩
        rw [← hstored i hi]
        exact hdecode
  · rintro ⟨i, rfl, hissued, hcall⟩
    have hi := (issued_iff calls i).1 hissued
    rw [if_neg (by omega), Int.toNat_natCast, hstored i hi, hcall]

/-- A number behind another prefix, with a sign, leading zeros and something behind it. -/
theorem decode_reads_other_spelling :
    decode (stateAfter [⟨ascii "a", by decide⟩]) 7 (ascii "gopher://other.org/ +00x") =
        some ⟨ascii "a", by decide⟩ ↔
      ∃ i : ℕ, (0 : ℤ) = i ∧
        (issued [⟨ascii "a", by decide⟩])[i]? = some (some (shortUrl i)) ∧
        [(⟨ascii "a", by decide⟩ : CStr)][i]? = some ⟨ascii "a", by decide⟩ := by
  have hreads : Reads ⟨ascii "gopher://other.org/ +00x", by decide⟩ 0 :=
    ⟨by decide, by decide, by decide⟩
  exact decode_reads hreads [⟨ascii "a", by decide⟩] 7 ⟨ascii "a", by decide⟩

/-- Two digits where one was issued. -/
theorem decode_unissued :
    decode (stateAfter [⟨ascii "a", by decide⟩]) 7 (ascii "http://tinyurl.com/00") =
        some ⟨ascii "a", by decide⟩ ∧
      some (ascii "http://tinyurl.com/00") ∉ issued [⟨ascii "a", by decide⟩] := by
  decide

end TinyUrl
end Leetcode
